/-
# PwsaStar.Pbnf.NBlockGraph — `pbnf/nblock_graph.cc`.

The graph hands nblocks out to the threads.  It is a monitor: each function below is what one thread
does while it has the mutex, so it is one step of the whole system.  `none` is a failed assertion, or the
`abort` of `next_nblock`.  `sigma` counts the neighbours of an nblock that are in use, and `sigma_hot` its
hot neighbours, those that some thread wants next.

Nblocks are created lazily in the source; one that was not created is here one with all fields zero.
-/
import PwsaStar.Pbnf.PriorityQueue
import PwsaStar.Pbnf.NBlock
import Mathlib.Algebra.Group.Nat.Defs
import Mathlib.Algebra.GroupWithZero.Nat

namespace PwsaStar.Pbnf

/-- `numeric_limits<uint64_t>::max()`. -/
def fp_infinity : ℕ := 2 ^ 64 - 1

/-- What the graph reads of the open list of every nblock: `empty`, `get_best_val` and, if it is not
empty, the `get_g` of `peek`. -/
structure View (n : ℕ) where
  empty : Fin n → Bool
  best_value : Fin n → ℕ
  peek_g : Fin n → ℕ

/-- `NBlockPQFuncsFprime`.  The results of `get_f` are dropped there, so `af` and `bf` stay infinite. -/
def View.pred {n : ℕ} (view : View n) (a b : Fin n) : Bool :=
  let afp := view.best_value a
  let bfp := view.best_value b
  if afp = bfp then
    let af := fp_infinity
    let bf := fp_infinity
    let ag := if view.empty a then fp_infinity else view.peek_g a
    let bg := if view.empty b then fp_infinity else view.peek_g b
    if af = bf then ag > bg else af < bf
  else afp < bfp

structure NBlockGraph (n : ℕ) where
  sigma : Fin n → ℤ
  sigma_hot : Fin n → ℤ
  hot : Fin n → Bool
  inuse : Fin n → Bool
  num_sigma_zero : ℤ
  free_list : PriorityQueue (Fin n)
  done : Bool

/-- What a thread comes out of the monitor with: nothing, because the search is done; a place in
`cond_wait`; or an nblock. -/
inductive Result (n : ℕ)
  | null
  | wait
  | block (b : Fin n)
  deriving DecidableEq

/-- What a thread calls on the condition variable while it has the mutex: `cond_signal`, `cond_broadcast`. -/
structure Notice where
  signal : Bool
  broadcast : Bool

def Notice.nothing : Notice := ⟨false, false⟩

namespace NBlockGraph

variable {V : Type} {n : ℕ} [NeZero n]

section Program

variable (P : Projection V n) (view : View n)

/-- The constructor: the initial state is in the open list of `init_nblock`. -/
def initial (init_nblock : Fin n) : NBlockGraph n where
  sigma _ := 0
  sigma_hot _ := 0
  hot _ := false
  inuse _ := false
  num_sigma_zero := n
  free_list := PriorityQueue.new.add view.pred init_nblock
  done := false

def is_free (g : NBlockGraph n) (b : Fin n) : Bool :=
  !g.inuse b && g.sigma b = 0 && g.sigma_hot b = 0 && !view.empty b

/-- `free_list.add`. -/
def list (g : NBlockGraph n) (b : Fin n) : NBlockGraph n :=
  { g with free_list := g.free_list.add view.pred b }

/-- `if (is_free(m) && m->pq_index != -1) free_list.remove(m->pq_index)`. -/
def unlist (g : NBlockGraph n) (m : Fin n) : Option (NBlockGraph n) :=
  if g.is_free view m ∧ g.free_list.index m ≠ -1 then
    (g.free_list.remove view.pred (g.free_list.index m)).map fun l => { g with free_list := l }
  else some g

/-- One turn of the loop of `set_cold`; the flag is `broadcast`. -/
def cool (g : NBlockGraph n × Bool) (m : Fin n) : NBlockGraph n × Bool :=
  let g' := { g.1 with sigma_hot := Function.update g.1.sigma_hot m (g.1.sigma_hot m - 1) }
  if g'.is_free view m then (g'.list view m, true) else (g', g.2)

def set_cold (g : NBlockGraph n) (b : Fin n) : NBlockGraph n × Bool :=
  (P.interferes b).foldl (cool view) ({ g with hot := Function.update g.hot b false }, false)

/-- `if (m->hot) broadcast |= set_cold(m)`. -/
def cool_if_hot (g : NBlockGraph n × Bool) (m : Fin n) : NBlockGraph n × Bool :=
  if g.1.hot m then ((g.1.set_cold P view m).1, g.2 || (g.1.set_cold P view m).2) else g

/-- What the loop of `update_scope_sigmas` does when `m->sigma` was zero. -/
def leave_zero (delta : ℤ) (g : NBlockGraph n) (m : Fin n) : Option (NBlockGraph n) :=
  if g.sigma m = 0 then
    if ¬ 0 < delta then none
    else (g.unlist view m).map fun g => { g with num_sigma_zero := g.num_sigma_zero - 1 }
  else some g

/-- What it does when `m->sigma` has become zero. -/
def reach_zero (g : NBlockGraph n × Bool) (m : Fin n) : NBlockGraph n × Bool :=
  if g.1.sigma m = 0 then
    let g := cool_if_hot P view g m
    let g := if g.1.is_free view m then (g.1.list view m, true) else g
    ({ g.1 with num_sigma_zero := g.1.num_sigma_zero + 1 }, g.2)
  else g

/-- One turn of the loop of `update_scope_sigmas`. -/
def update_sigma (delta : ℤ) (g : NBlockGraph n × Bool) (m : Fin n) : Option (NBlockGraph n × Bool) :=
  (leave_zero view delta g.1 m).map fun g' =>
    reach_zero P view ({ g' with sigma := Function.update g'.sigma m (g'.sigma m + delta) }, g.2) m

/-- The flag says whether there is a broadcast. -/
def update_scope_sigmas (g : NBlockGraph n) (b : Fin n) (delta : ℤ) : Option (NBlockGraph n × Bool) :=
  if g.sigma b ≠ 0 then none else (P.interferes b).foldlM (update_sigma P view delta) (g, false)

def set_done (g : NBlockGraph n) : NBlockGraph n := { g with done := true }

def prune_free_list (g : NBlockGraph n) : NBlockGraph n := { g with free_list := g.free_list.reset }

/-- The first part of `next_nblock`: `finished` is released. -/
def release (g : NBlockGraph n) (finished : Fin n) : Option (NBlockGraph n × Notice) :=
  if g.sigma finished ≠ 0 then none
  else
    let g := { g with inuse := Function.update g.inuse finished false }
    let signal := g.is_free view finished
    let g := if signal then g.list view finished else g
    (g.update_scope_sigmas P view finished (-1)).map fun r => (r.1, ⟨signal, r.2⟩)

/-- The rest of `next_nblock`, up to `cond_wait` or the end; `limit` is `bound->read() * weight`.  From
`retry` on if `check`, and from behind `cond_wait` otherwise.  The flag says whether there is a
broadcast. -/
def choose (limit : ℕ) (check : Bool) (g : NBlockGraph n) : Option (NBlockGraph n × Result n × Bool) :=
  if check ∧ g.num_sigma_zero = n ∧ g.free_list.empty then some (g.set_done, .null, true)
  else if g.done then some (g, .null, false)
  else match h : g.free_list.front with
    | none => some (g, .wait, false)
    | some b =>
      if limit ≤ view.best_value b then choose limit true g.prune_free_list
      else match g.free_list.take view.pred with
        | none => none
        | some (b, l) =>
          let g := { g with free_list := l, inuse := Function.update g.inuse b true }
          (g.update_scope_sigmas P view b 1).map fun r => (r.1, .block b, r.2)
termination_by g.free_list.fill
decreasing_by
  have hfill : g.free_list.fill ≠ 0 := by
    intro h0
    rw [PriorityQueue.front, if_pos h0] at h
    exact Option.some_ne_none b h.symm
  exact Nat.pos_of_ne_zero hfill

/-- What the thread does under the lock when it calls `next_nblock`. -/
def next_nblock (limit : ℕ) (g : NBlockGraph n) (finished : Option (Fin n)) :
    Option (NBlockGraph n × Result n × Notice) :=
  match finished with
  | none => (choose P view limit true g).map fun r => (r.1, r.2.1, ⟨false, r.2.2⟩)
  | some b => (g.release P view b).bind fun f =>
      (choose P view limit true f.1).map fun r => (r.1, r.2.1, ⟨f.2.signal, f.2.broadcast || r.2.2⟩)

/-- One turn of the second loop of `set_hot`. -/
def heat (g : NBlockGraph n × Bool) (m : Fin n) : Option (NBlockGraph n × Bool) :=
  (g.1.unlist view m).map fun g' =>
    let g := cool_if_hot P view (g', g.2) m
    ({ g.1 with sigma_hot := Function.update g.1.sigma_hot m (g.1.sigma_hot m + 1) }, g.2)

/-- `val` is read before the thread has the mutex, and the `best_value` of the hot neighbours while
others may search them: `rival` is what the thread happens to read.  The flag is `broadcast`. -/
def set_hot (val : ℕ) (rival : Fin n → ℕ) (g : NBlockGraph n) (b : Fin n) : Option (NBlockGraph n × Bool) :=
  if ¬ g.hot b ∧ 0 < g.sigma b then
    if (P.interferes b).any fun m => g.hot m && rival m < val then some (g, false)
    else (P.interferes b).foldlM (heat P view) ({ g with hot := Function.update g.hot b true }, false)
  else some (g, false)

def wont_release (g : NBlockGraph n) (b : Fin n) : NBlockGraph n × Bool :=
  (P.interferes b).foldl (cool_if_hot P view) (g, false)

end Program

/-- What a thread without the mutex reads of an nblock: `open.empty()`, and `best_value()` twice. -/
structure Glimpse where
  empty : Bool
  first : ℕ
  second : ℕ

/-- One turn of the loop of `best_in_scope`: the best nblock so far, and its value. -/
def best_in_scope_step (seen : Fin n → Glimpse) (best : Option (Fin n) × ℕ) (b : Fin n) :
    Option (Fin n) × ℕ :=
  if (seen b).empty then best
  else if best.1 = none ∨ (seen b).first < best.2 then (some b, (seen b).second)
  else best

def best_in_scope (P : Projection V n) (seen : Fin n → Glimpse) (block : Fin n) : Option (Fin n) :=
  ((P.interferes block).foldl (best_in_scope_step seen) (none, fp_infinity)).1

end NBlockGraph

end PwsaStar.Pbnf
