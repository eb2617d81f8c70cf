/-
# PwsaStar.Pbnf.PRAStar — `prastar.cc`: every state has a thread, and is sent there.

Every thread has its own open and closed lists, a queue for the states that others send it, and a buffer for
each of the others.  Who is out of work posts its completion and waits; whoever sends it a state takes the
completion back.  A turn of a thread is one access to what the threads share, or what it does under one lock;
the lock on its queue that a thread keeps while it goes through the queue is the phase `receiving`.

A state of the search is an object (`Ref`): `search` puts the first one into an open list but into no closed
list, so a state like it that is generated later is another one.
-/
import PwsaStar.Pbnf.Turn

namespace PwsaStar.Pbnf

open PwsaStar.Lib

/-- `init`, or the object with the state `s` in the closed lists. -/
inductive Ref (V : Type)
  | init
  | state (s : V)
  deriving DecidableEq

instance {V : Type} : Inhabited (Ref V) := ⟨.init⟩

namespace SearchDomain

variable {V : Type} (D : SearchDomain V)

/-- The state of an object. -/
def state : Ref V → V
  | .init => D.initial_state
  | .state s => s

/-- The domain of the objects. -/
def objects : SearchDomain (Ref V) where
  expand r := (D.expand (D.state r)).map fun a => (.state a.1, a.2)
  is_goal r := D.is_goal (D.state r)
  get_h r := D.get_h (D.state r)
  weight := D.weight
  initial_state := .init

end SearchDomain

namespace PRAStar

/-- The arguments of the constructor. -/
structure Options where
  async_send : Bool
  async_recv : Bool
  max_exp : ℕ

/-- A state that was generated and is in no closed list yet. -/
structure Child (V : Type) where
  state : V
  parent : V
  c : ℕ
  g : ℕ
  deriving DecidableEq

/-- What all threads share, and the fields of the threads.  The closed lists are one map, in which a thread
only looks for the states that are sent to it. -/
structure Shared (V : Type) (n : ℕ) where
  closed : V → Option (Node V)
  opens : Fin n → OpenList V
  q : Fin n → List (Child V)
  q_empty : Fin n → Bool
  completed : Fin n → Bool
  out_qs : Fin n → Fin n → List (Child V)
  expansions : Fin n → ℕ
  counter : ℤ
  done : Bool
  bound : ℕ
  solution : Option (ℕ × List V)

/-- Where a thread is.  `first` tells the calls at the beginning of `take` from the ones in its loop.
* `run`: at the loop of `run`; `take`: at the beginning of `take`;
* `flush first i has_sends`: in `flush_sends`, at the buffer of thread `i`;
* `look has_sends`: at `if (!q_empty)`;
* `receive`: at the beginning of `flush_receives`; `wait`: in its busy wait; `relock`: after it;
  `receiving`: in its loop over the queue, with the lock, and `todo` to go;
* `test_open has_sends`: at `while (open.empty())`; `received`: at the end of the body of this loop;
* `take_open`: at `if (!p->is_done())`; `test s`: back in `run` with the state `s`;
* `path`, `solution`, `best`, `swap`: in `set_path` for the goal `s`, as in PBNF;
* `children s g todo`: in the loop over the children of `s`; `send`: in `send_state(m)` to another thread. -/
inductive Phase (V : Type)
  | run
  | take
  | flush (first : Bool) (i : ℕ) (has_sends : Bool)
  | look (has_sends : Bool)
  | receive (first has_sends : Bool)
  | wait (first has_sends : Bool)
  | relock (first has_sends : Bool)
  | receiving (first has_sends : Bool) (todo : List (Child V))
  | test_open (has_sends : Bool)
  | received (has_sends : Bool)
  | take_open
  | test (s : V)
  | path (s : V) (cost : ℕ) (path : List V) (p : Option V)
  | solution (s : V) (cost : ℕ) (path : List V)
  | best (s : V)
  | swap (s : V) (v : ℕ) (old : Option ℕ)
  | children (s : V) (g : ℕ) (todo : List (V × ℕ))
  | send (s : V) (g : ℕ) (todo : List (V × ℕ)) (m : Child V)
  | finished
  deriving DecidableEq

/-- `busy`: `try_lock` fails. -/
inductive Action
  | go
  | busy

/-- The thread has the lock on its queue. -/
def Phase.locks {V : Type} : Phase V → Bool
  | .receiving .. => true
  | _ => false

section Program

variable {V : Type} {n : ℕ}

/-- `post_send`. -/
def post_send (sh : Shared V n) (d : Fin n) : Shared V n :=
  { sh with
    counter := if sh.completed d then sh.counter - 1 else sh.counter
    completed := Function.update sh.completed d false
    q_empty := Function.update sh.q_empty d false }

/-- `msgs` are put into the queue of `d`. -/
def push (sh : Shared V n) (d : Fin n) (msgs : List (Child V)) : Shared V n :=
  post_send { sh with q := Function.update sh.q d (sh.q d ++ msgs) } d

/-- The buffer of `t` for `d` becomes `msgs`. -/
def set_buffer (sh : Shared V n) (t d : Fin n) (msgs : List (Child V)) : Shared V n :=
  { sh with out_qs := Function.update sh.out_qs t (Function.update (sh.out_qs t) d msgs) }

/-- Where `flush_sends` returns to. -/
def after_flush (first has_sends : Bool) : Phase V :=
  if first then .look has_sends else .receive false has_sends

/-- Where `flush_receives` returns to. -/
def after_receive (first has_sends : Bool) : Phase V :=
  if first then .test_open has_sends else .received has_sends

/-- The beginning of `flush_sends`. -/
def flush_sends (opts : Options) (sh : Shared V n) (t : Fin n) (first : Bool) : Shared V n × Phase V :=
  if opts.async_send then
    ({ sh with expansions := Function.update sh.expansions t 0 }, .flush first 0 false)
  else (sh, after_flush first false)

variable [DecidableEq V] (D : SearchDomain V)

def set_closed (sh : Shared V n) (s : V) (node : Node V) : Shared V n :=
  { sh with closed := Function.update sh.closed s (some node) }

def set_open (sh : Shared V n) (t : Fin n) (o : OpenList V) : Shared V n :=
  { sh with opens := Function.update sh.opens t o }

/-- `open.add(s)`, which sets the flag of `s` as well. -/
def add_open (t : Fin n) (sh : Shared V n) (s : V) (node : Node V) : Shared V n :=
  let sh := set_closed sh s { node with is_open := true }
  set_open sh t ((sh.opens t).add D (get_g sh.closed) s)

/-- The duplicate detection of `flush_receives` and of `send_state`; `none` is a failed assertion. -/
def see_state (t : Fin n) (sh : Shared V n) (m : Child V) : Option (Shared V n) :=
  match sh.closed m.state with
  | some dup =>
    if m.g < dup.g then
      let node : Node V := { dup with parent := some m.parent, c := m.c, g := m.g }
      if dup.is_open then
        let sh := set_closed sh m.state node
        ((sh.opens t).see_update D (get_g sh.closed) m.state).map (set_open sh t)
      else some (add_open D t sh m.state node)
    else some sh
  | none => some (add_open D t sh m.state ⟨m.g, m.c, some m.parent, false⟩)

/-- `solutions->see_solution`. -/
def see_solution (sh : Shared V n) (cost : ℕ) (path : List V) : Shared V n :=
  { sh with solution := SolutionStream.see_solution sh.solution cost path }

/-- `expand(s)`. -/
def expand (sh : Shared V n) (s : V) : Phase V := .children s (get_g sh.closed s) (D.expand s)

/-- The end of `take`: the best state of the open list; `none` is a null pointer. -/
def take_state (sh : Shared V n) (t : Fin n) : Option (Shared V n × Phase V) :=
  ((sh.opens t).take D (get_g sh.closed)).bind fun r =>
    (sh.closed r.1).map fun node =>
      (set_open (set_closed sh r.1 { node with is_open := false }) t r.2, .test r.1)

variable (home : V → Fin n)

/-- One turn of thread `t`; `locked` are the threads that have the lock on their queue.  `none`: the action
is not one of this phase, the thread waits, or the program has failed. -/
def turn (opts : Options) (locked : Fin n → Bool) (t : Fin n) (a : Action) (sh : Shared V n) :
    Phase V → Option (Shared V n × Phase V)
  | .run => some (sh, if sh.done then .finished else .take)
  | .take =>
    let sh := { sh with expansions := Function.update sh.expansions t (sh.expansions t + 1) }
    if opts.max_exp = 0 ∨ opts.max_exp < sh.expansions t then some (flush_sends opts sh t true)
    else some (sh, .look true)
  | .flush first i has_sends =>
    if h : i < n then
      let d : Fin n := ⟨i, h⟩
      let buffer := sh.out_qs t d
      if buffer = [] then some (sh, .flush first (i + 1) has_sends)
      else
        match a with
        | .busy => some (sh, .flush first (i + 1) true)
        | .go =>
          if locked d then none
          else some (set_buffer (push sh d buffer) t d [], .flush first (i + 1) has_sends)
    else some (sh, after_flush first has_sends)
  | .look has_sends => some (sh, if sh.q_empty t then .test_open has_sends else .receive true has_sends)
  | .receive first has_sends =>
    match a with
    | .busy =>
      if (sh.opens t).pq.empty ∨ ¬ opts.async_recv then none else some (sh, after_receive first has_sends)
    | .go =>
      if sh.q_empty t ∧ ¬ has_sends ∧ (sh.opens t).pq.empty then
        some ({ sh with completed := Function.update sh.completed t true, counter := sh.counter + 1 },
          .wait first has_sends)
      else some (sh, .receiving first has_sends (sh.q t))
  | .wait first has_sends =>
    if sh.q_empty t ∧ ¬ (n : ℤ) ≤ sh.counter ∧ ¬ sh.done then none else some (sh, .relock first has_sends)
  | .relock first has_sends =>
    if (n : ℤ) ≤ sh.counter then
      -- the assertion
      if sh.q_empty t then some (sh, after_receive first has_sends) else none
    else some (sh, .receiving first has_sends (sh.q t))
  | .receiving first has_sends [] =>
    some ({ sh with q := Function.update sh.q t [], q_empty := Function.update sh.q_empty t true },
      after_receive first has_sends)
  | .receiving first has_sends (m :: todo) =>
    if sh.bound ≤ D.get_f m.g m.state then some (sh, .receiving first has_sends todo)
    else (see_state D t sh m).map fun sh => (sh, .receiving first has_sends todo)
  | .test_open has_sends =>
    if (sh.opens t).pq.empty then
      if has_sends then some (flush_sends opts sh t false) else some (sh, .receive false false)
    else some (sh, .take_open)
  | .received has_sends =>
    if (n : ℤ) ≤ sh.counter then some ({ sh with done := true }, .run) else some (sh, .test_open has_sends)
  | .take_open => if sh.done then some (sh, .run) else take_state D sh t
  | .test s =>
    (sh.closed s).map fun node =>
      if sh.bound ≤ D.get_f node.g s then (sh, .run)
      else if D.is_goal s then (sh, .path s node.g [s] node.parent)
      else (sh, expand D sh s)
  | .path s cost path none => some (sh, .solution s cost path)
  | .path s cost path (some p) => (sh.closed p).map fun node => (sh, .path s cost (path ++ [p]) node.parent)
  | .solution s cost path => some (see_solution sh cost path, .best s)
  | .best s => sh.solution.map fun best => (sh, .swap s best.1 none)
  | .swap s v none =>
    if sh.bound ≤ v then some (sh, expand D sh s) else some (sh, .swap s v (some sh.bound))
  | .swap s v (some old) =>
    if sh.bound = old then some ({ sh with bound := v }, expand D sh s) else some (sh, .swap s v none)
  | .children _ _ [] => some (sh, .run)
  | .children s g ((x, c) :: todo) =>
    let m : Child V := ⟨x, s, c, g + c⟩
    if sh.bound ≤ D.get_f (g + c) x then some (sh, .children s g todo)
    else if home x = t then (see_state D t sh m).map fun sh => (sh, .children s g todo)
    else some (sh, .send s g todo m)
  | .send s g todo m =>
    let d := home m.state
    if opts.async_send then
      let buffer := sh.out_qs t d ++ [m]
      match a with
      | .busy => some (set_buffer sh t d buffer, .children s g todo)
      | .go => if locked d then none else some (set_buffer (push sh d buffer) t d [], .children s g todo)
    else
      match a with
      | .busy => none
      | .go => if locked d then none else some (push sh d [m], .children s g todo)
  | .finished => none

/-! ## The system -/

/-- The threads, and what they share. -/
structure State (V : Type) (n : ℕ) where
  shared : Shared V n
  threads : Fin n → Phase V

/-- Thread `t` takes the turn `a`. -/
def State.next (opts : Options) (s : State V n) (t : Fin n) (a : Action) : Option (State V n) :=
  (turn D home opts (fun d => (s.threads d).locks) t a s.shared (s.threads t)).map fun r =>
    { shared := r.1, threads := Function.update s.threads t r.2 }

variable [Inhabited V]

/-- `open.add(init)`, on the thread of the initial state. -/
def Shared.initial : Shared V n :=
  let start := D.initial_state
  let closed := Function.update (fun _ => none) start (some ⟨0, 0, none, true⟩)
  { closed
    opens := Function.update (fun _ => ⟨PriorityQueue.new, fp_infinity⟩) (home start)
      (OpenList.add D (get_g closed) ⟨PriorityQueue.new, fp_infinity⟩ start)
    q := fun _ => []
    q_empty := fun _ => true
    completed := fun _ => false
    out_qs := fun _ _ => []
    expansions := fun _ => 0
    counter := 0
    done := false
    bound := fp_infinity
    solution := none }

/-- The threads of `PRAStar::search`, in any interleaving, on a domain whose initial state is an object of
its own. -/
def searches (opts : Options) : System (State V n) where
  init s := s = { shared := Shared.initial D home, threads := fun _ => .run }
  step s s' := ∃ t a, s.next D home opts t a = some s'

end Program

/-- `PRAStar::search`; `home` is the thread that a state is sent to. -/
def prastar {V : Type} {n : ℕ} [DecidableEq V] (D : SearchDomain V) (home : V → Fin n) (opts : Options) :
    System (State (Ref V) n) := searches D.objects (fun r => home (D.state r)) opts

end PRAStar

end PwsaStar.Pbnf
