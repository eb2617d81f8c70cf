/-
# PwsaStar.Pbnf.Search — `pbnf_search.cc`: parallel best-nblock-first search.

Every thread asks the graph for an nblock, searches it until another one looks better, and gives it back.
A step of the system is one turn of one thread: what it does while it has the mutex, one state taken from
its open list, one child, one state of a path, or one access to the bound.  A thread in `cond_wait` comes
back when it hears a signal or a broadcast, or by itself.  Where the source reads without a lock what others
may be writing, the action of the step says what was read, and nothing is assumed of it.

States are vertices here: the closed lists have at most one `State` object for each, and `closed` has the
fields of that object.  Costs are natural numbers; the source has them as `uint64_t`.
-/
import PwsaStar.Pbnf.Monitor
import PwsaStar.Lib.WeightedGraph

namespace PwsaStar.Pbnf

open PwsaStar.Lib

def fp_one : ℕ := 10000

/-- What the search uses of a `SearchDomain` and its heuristic: `expand` gives the children with the cost
of the step, in order. -/
structure SearchDomain (V : Type) where
  expand : V → List (V × ℕ)
  is_goal : V → Bool
  get_h : V → ℕ
  weight : ℕ
  initial_state : V

/-- The fields of a `State` that the search changes. -/
structure Node (V : Type) where
  g : ℕ
  c : ℕ
  parent : Option V
  is_open : Bool

/-- `PQOpenList`; `best` is what `get_best_val` returns. -/
structure OpenList (V : Type) where
  pq : PriorityQueue V
  best : ℕ

/-- What all threads share.  `solution` is the best path of the solution stream, and the `g` of its first
state. -/
structure Shared (V : Type) (n : ℕ) where
  closed : V → Option (Node V)
  opens : Fin n → OpenList V
  graph : NBlockGraph n
  bound : ℕ
  solution : Option (ℕ × List V)

/-- Where a thread is.
* `next finished`: about to call `next_nblock(finished)`; `asleep` and `woken`: in `cond_wait`, and on the
  way back from it;
* `search b`: at the loop of `search_nblock(b)`; `take b`: `should_switch` said no;
* `children b s g todo`: in the loop over the children of `s`, whose `g` was read;
* `path b cost path p`: in `get_path`, with `p` the next state to copy and `cost` the `g` of the first copy;
* `solution`, `best`, `swap`: the parts of `set_path`; `old` is what the thread read of the bound;
* `leave`: out of the loop of `run`; `finished`: `run` has returned. -/
inductive Phase (V : Type) (n : ℕ)
  | next (finished : Option (Fin n))
  | asleep
  | woken
  | search (b : Fin n)
  | take (b : Fin n)
  | children (b : Fin n) (s : V) (g : ℕ) (todo : List (V × ℕ))
  | path (b : Fin n) (cost : ℕ) (path : List V) (p : Option V)
  | solution (b : Fin n) (cost : ℕ) (path : List V)
  | best (b : Fin n)
  | swap (b : Fin n) (v : ℕ) (old : Option ℕ)
  | leave
  | finished
  deriving DecidableEq

/-- What `should_switch` sees: whether it is time to look, and what it reads without the mutex.  `free` is
`graph->best_val()`, which reads the array of the free list and the nblock at its front while others may
be replacing both, so that it can be any value. -/
structure Look (n : ℕ) where
  enough : Bool
  free : ℕ
  seen : Fin n → NBlockGraph.Glimpse
  scope : ℕ
  sigma_hot : ℕ
  try_lock : Bool
  val : ℕ
  rival : Fin n → ℕ

/-- What is decided outside in one turn. -/
inductive Action (n : ℕ)
  | go
  | busy
  | look (l : Look n)

section Program

variable {V : Type} {n : ℕ}

namespace SearchDomain

variable (D : SearchDomain V)

def get_f (g : ℕ) (s : V) : ℕ := g + D.get_h s

def get_f_prime (g : ℕ) (s : V) : ℕ := g + D.weight * D.get_h s / fp_one

/-- `PQOpsFPrime`, which leaves the last tie to `PQOpsF`. -/
def pred (g : V → ℕ) (a b : V) : Bool :=
  let fa := D.get_f_prime (g a) a
  let fb := D.get_f_prime (g b) b
  if fa < fb then true
  else if fb < fa then false
  else if D.get_f (g a) a < D.get_f (g b) b then true
  else if D.get_f (g b) b < D.get_f (g a) a then false
  else g b < g a

end SearchDomain

/-- The `g` of the states; a state that was not generated is in no queue. -/
def get_g (closed : V → Option (Node V)) (s : V) : ℕ := (closed s).elim 0 Node.g

namespace OpenList

variable [DecidableEq V] (D : SearchDomain V) (g : V → ℕ)

/-- `set_best_val(comp.get_value(pq.front()))`, or `fp_infinity` when the queue is empty. -/
def refresh (pq : PriorityQueue V) : OpenList V :=
  { pq := pq, best := pq.front.elim fp_infinity fun s => D.get_f_prime (g s) s }

def add (o : OpenList V) (s : V) : OpenList V := refresh D g (o.pq.add (D.pred g) s)

def take (o : OpenList V) : Option (V × OpenList V) :=
  (o.pq.take (D.pred g)).map fun r => (r.1, refresh D g r.2)

/-- `none` is a failed assertion. -/
def see_update (o : OpenList V) (s : V) : Option (OpenList V) :=
  (o.pq.see_update (D.pred g) (o.pq.index s)).map (refresh D g)

end OpenList

def view (closed : V → Option (Node V)) (opens : Fin n → OpenList V) : View n where
  empty b := (opens b).pq.empty
  best_value b := (opens b).best
  peek_g b := (opens b).pq.front.elim 0 (get_g closed)

namespace Shared

def view (sh : Shared V n) : View n := Pbnf.view sh.closed sh.opens

/-- `bound->read() * weight`. -/
def limit (D : SearchDomain V) (sh : Shared V n) : ℕ := sh.bound * D.weight

variable [DecidableEq V]

def set_closed (sh : Shared V n) (s : V) (node : Node V) : Shared V n :=
  { sh with closed := Function.update sh.closed s (some node) }

def set_open (sh : Shared V n) (b : Fin n) (o : OpenList V) : Shared V n :=
  { sh with opens := Function.update sh.opens b o }

/-- `open.add(s)`, which sets the flag of `s` as well. -/
def add_open (D : SearchDomain V) (P : Projection V n) (sh : Shared V n) (s : V) (node : Node V) : Shared V n :=
  let sh := sh.set_closed s { node with is_open := true }
  sh.set_open (P.project s) ((sh.opens (P.project s)).add D (get_g sh.closed) s)

end Shared

variable [DecidableEq V] [NeZero n] (D : SearchDomain V) (P : Projection V n) (detect_livelocks : Bool)

/-- Whether the thread gives `b` back.  `set_hot` and `wont_release` may broadcast; `none` is a failed
assertion in `set_hot`. -/
def should_switch (sh : Shared V n) (b : Fin n) (l : Look n) : Option ((NBlockGraph n × Bool) × Bool) :=
  let g := (sh.graph, false)
  if ¬ l.enough then some (g, false)
  else
    let cur := (sh.opens b).best
    if detect_livelocks then
      match NBlockGraph.best_in_scope P l.seen b with
      | some best_scope =>
        if ¬ (l.free < cur ∨ l.scope < cur) then
          -- `wont_release`
          if l.sigma_hot = 0 ∨ ¬ l.try_lock then some (g, false)
          else some (sh.graph.wont_release P sh.view b, false)
        else if l.scope < l.free then
          if ¬ l.try_lock then some (g, false)
          else (sh.graph.set_hot P sh.view l.val l.rival best_scope).map fun g => (g, true)
        else some (g, true)
      | none => some (g, l.free < cur)
    else some (g, l.free < cur)

/-- Where a thread goes with the result of `next_nblock`. -/
def after : Result n → Phase V n
  | .null => .leave
  | .wait => .asleep
  | .block b => .search b

/-- The beginning of `get_path`: the first copy, which nobody else writes. -/
def get_path (sh : Shared V n) (b : Fin n) (s : V) : Phase V n :=
  .path b (get_g sh.closed s) [s] ((sh.closed s).bind Node.parent)

/-- What the loop of `search_nblock` does with the best state of the open list; `none` is a null
pointer. -/
def take_open (sh : Shared V n) (b : Fin n) : Option (Shared V n × Phase V n) :=
  ((sh.opens b).take D (get_g sh.closed)).bind fun r =>
    (sh.closed r.1).map fun node =>
      let sh := (sh.set_closed r.1 { node with is_open := false }).set_open b r.2
      if sh.bound ≤ D.get_f node.g r.1 then (sh, .search b)
      else if D.is_goal r.1 then (sh, get_path sh b r.1)
      else (sh, .children b r.1 node.g (D.expand r.1))

/-- What it does with the child `t` of `s`, reached at the cost `c`; `todo` are the others.  `none` is a
failed assertion. -/
def see_child (sh : Shared V n) (b : Fin n) (s : V) (g : ℕ) (t : V) (c : ℕ) (todo : List (V × ℕ)) :
    Option (Shared V n × Phase V n) :=
  if sh.bound ≤ D.get_f (g + c) t then some (sh, .children b s g todo)
  else
    match sh.closed t with
    | some dup =>
      if g + c < dup.g then
        let node : Node V := { dup with parent := some s, c := c, g := g + c }
        if dup.is_open then
          let sh := sh.set_closed t node
          ((sh.opens (P.project t)).see_update D (get_g sh.closed) t).map fun o =>
            (sh.set_open (P.project t) o, .children b s g todo)
        else some (sh.add_open D P t node, .children b s g todo)
      else some (sh, .children b s g todo)
    | none =>
      let node : Node V := { parent := some s, c := c, g := g + c, is_open := false }
      if D.is_goal t then
        let sh := sh.set_closed t node
        some (sh, get_path sh b t)
      else some (sh.add_open D P t node, .children b s g todo)

/-- `see_solution` of the solution stream: a path replaces the best one if its first state has a smaller
`g`. -/
def SolutionStream.see_solution (best : Option (ℕ × List V)) (cost : ℕ) (path : List V) :
    Option (ℕ × List V) :=
  if best.all (fun best => cost < best.1) then some (cost, path) else best

/-- `solutions->see_solution`. -/
def see_solution (sh : Shared V n) (cost : ℕ) (path : List V) : Shared V n :=
  { sh with solution := SolutionStream.see_solution sh.solution cost path }

/-- A turn in which nobody in `cond_wait` hears of the thread. -/
def quiet (r : Shared V n × Phase V n) : Shared V n × Phase V n × Notice := (r.1, r.2, .nothing)

/-- One turn of a thread, and what it calls on the condition variable.  `none`: the action is not one of
this phase, or the program has failed. -/
def turn (a : Action n) (sh : Shared V n) : Phase V n → Option (Shared V n × Phase V n × Notice)
  | .next finished =>
    match a, finished with
    | .go, _ =>
      (sh.graph.next_nblock P sh.view (sh.limit D) finished).map fun r =>
        ({ sh with graph := r.1 }, after r.2.1, r.2.2)
    -- `try_lock` fails
    | .busy, some b => if (sh.opens b).pq.empty then none else some (quiet (sh, .search b))
    | _, _ => none
  | .asleep => some (quiet (sh, .woken))
  | .woken =>
    (sh.graph.choose P sh.view (sh.limit D) false).map fun r =>
      ({ sh with graph := r.1 }, after r.2.1, ⟨false, r.2.2⟩)
  | .search b =>
    if (sh.opens b).pq.empty then some (quiet (sh, .next (some b)))
    else
      match a with
      | .look l =>
        (should_switch P detect_livelocks sh b l).map fun r =>
          ({ sh with graph := r.1.1 }, if r.2 then .next (some b) else .take b, ⟨false, r.1.2⟩)
      | _ => none
  | .take b => (take_open D sh b).map quiet
  | .children b _ _ [] => some (quiet (sh, .search b))
  | .children b s g ((t, c) :: todo) => (see_child D P sh b s g t c todo).map quiet
  | .path b cost path none => some (quiet (sh, .solution b cost path))
  | .path b cost path (some p) =>
    (sh.closed p).map fun node => quiet (sh, .path b cost (path ++ [p]) node.parent)
  | .solution b cost path => some (quiet (see_solution sh cost path, .best b))
  | .best b => sh.solution.map fun best => quiet (sh, .swap b best.1 none)
  | .swap b v none =>
    some (quiet (if sh.bound ≤ v then (sh, .next (some b)) else (sh, .swap b v (some sh.bound))))
  | .swap b v (some old) =>
    some (quiet (if sh.bound = old then ({ sh with bound := v }, .next (some b)) else (sh, .swap b v none)))
  | .leave => some ({ sh with graph := sh.graph.set_done }, .finished, ⟨false, true⟩)
  | .finished => none

/-! ## The system -/

/-- The threads, and what they share. -/
structure State (ι V : Type) (n : ℕ) where
  shared : Shared V n
  threads : ι → Phase V n

/-- Out of `cond_wait`. -/
def Phase.wake : Phase V n → Phase V n
  | .asleep => .woken
  | ph => ph

variable {ι : Type} [DecidableEq ι]

/-- The threads besides `t` that come out of `cond_wait`: all of them after a broadcast, and at least one after
a signal, if there is one.  Others may come out of it as well. -/
structure Notice.Wakes (c : Notice) (t : ι) (threads : ι → Phase V n) (woken : ι → Bool) : Prop where
  broadcast : c.broadcast = true → ∀ u, u ≠ t → woken u = true
  signal : c.signal = true → (∃ u, u ≠ t ∧ threads u = .asleep) → ∃ u, u ≠ t ∧ threads u = .asleep ∧ woken u = true

/-- What the constructor of the graph sets up: the initial state is in the lists of its nblock. -/
def Shared.initial [Inhabited V] : Shared V n :=
  let start := D.initial_state
  let closed := Function.update (fun _ => none) start (some ⟨0, 0, none, true⟩)
  let opens := Function.update (fun _ => ⟨PriorityQueue.new, fp_infinity⟩) (P.project start)
    (OpenList.add D (get_g closed) ⟨PriorityQueue.new, fp_infinity⟩ start)
  { closed, opens, bound := fp_infinity, solution := none
    graph := NBlockGraph.initial (Pbnf.view closed opens) (P.project start) }

/-- Thread `t` takes the turn `a`, and of the others those of `woken` come out of `cond_wait`. -/
def State.next (s : State ι V n) (t : ι) (a : Action n) (woken : ι → Bool) : Option (State ι V n) :=
  (turn D P detect_livelocks a s.shared (s.threads t)).map fun r =>
    { shared := r.1
      threads := Function.update (fun u => if woken u then (s.threads u).wake else s.threads u) t r.2.1 }

/-- The turn that a thread takes when it is never time to look for a better nblock. -/
def State.usual (s : State ι V n) (t : ι) : Action n :=
  match s.threads t with
  | .search _ => .look ⟨false, 0, fun _ => ⟨true, 0, 0⟩, 0, 0, false, 0, fun _ => 0⟩
  | _ => .go

/-- Thread `t` takes it; a signal wakes everybody, as a broadcast does. -/
def State.go_on (t : ι) (s : State ι V n) : Option (State ι V n) :=
  (turn D P detect_livelocks (s.usual t) s.shared (s.threads t)).bind fun r =>
    s.next D P detect_livelocks t (s.usual t) fun _ => r.2.2.signal || r.2.2.broadcast

end Program

end PwsaStar.Pbnf
