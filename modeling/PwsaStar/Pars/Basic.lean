/-
# PwsaStar.Pars.Basic — the rounds of `pars` (PA*RS) as interleaved steps.

A round tests every vertex of the frontier for independence, closes all independent ones at once,
relaxes their arcs concurrently and builds the next frontier.  Each of the three loops of a round is
parallel; a step of the system is one atomic operation of one iteration, together with the private
code up to the next one, and any iteration may take the next step.

* `independence` — iteration `i` compares its vertex with every other one; each comparison is two
  loads.  `array_util::all` may evaluate the comparisons in any order, and may skip some once one of
  them has failed.
* `setDist` — iteration `i` loads a distance and stores it as final.
* `successors` — iteration `i` walks over the arcs of its vertex.  The minimum is written with
  `compare_exchange_weak`, which may fail for no reason (`spurious`); the flag is claimed with
  `compare_exchange_strong`.

`heur`, `K` and the two comparison functions are not used by the code and are left out.
-/
import PwsaStar.Lib.Transition
import PwsaStar.Lib.WeightedGraph
import PwsaStar.Pars.ArrayUtil

namespace PwsaStar.Pars

open PwsaStar.Lib PwsaStar.ArrayUtil

/-- `INFINITE` -/
def INFINITE : ℤ := -1

/-- The arguments of `pars`.  `graph` is what `outDegree` and `apply_to_each_in_range` see. -/
structure Problem (V : Type) where
  graph : WGraph V
  pairHeur : V → V → ℤ
  source : V
  destination : V

/-- The arrays the rounds share. -/
structure Mem (V : Type) where
  finalized : V → ℤ
  distance : V → ℤ
  discovered : V → Bool
  frontier : List V
  independent : ℕ → Bool

/-- One comparison of `indep_check`: nothing done, `distance[frontier[i]]` loaded, or decided. -/
inductive Check where
  | idle
  | loaded (mine : ℤ)
  | verdict (holds : Bool)

/-- An iteration of the loop that sets the final distances. -/
inductive SetPc where
  | start
  | loaded (dist : ℤ)
  | stored

/-- Where an iteration of the successor loop stands with its current arc. -/
inductive Point where
  /-- before the arc -/
  | arc
  /-- `distance[ngh].load()`, with `my_dist_to_ngh` -/
  | load (mine : ℤ)
  /-- `compare_exchange_weak(other, mine)` -/
  | cas (mine other : ℤ)
  /-- `discovered[ngh].load()` -/
  | check
  /-- `compare_exchange_strong(false, true)` -/
  | claim

/-- An iteration of the successor loop: `j` arcs are done. -/
structure SuccPc where
  j : ℕ
  point : Point

/-- Where a round stands, with the arrays that live in it only. -/
inductive Phase (V : Type) where
  /-- `while (finalized[destination] == INFINITE)` -/
  | test
  | independence (check : ℕ → ℕ → Check) (written : ℕ → Bool)
  | setDist (independents : List V) (pc : ℕ → SetPc)
  | successors (independents : List V) (offsets : List ℕ) (cells : List (Option V)) (pc : ℕ → SuccPc)
  | returned
  | aborted

structure State (V : Type) where
  mem : Mem V
  phase : Phase V

variable {V : Type} [DecidableEq V]

/-! ## The program -/

/-- An iteration of the initialisation loop. -/
def initVertex (m : Mem V) (i : V) : Mem V :=
  { m with
    finalized := Function.update m.finalized i INFINITE
    distance := Function.update m.distance i INFINITE
    discovered := Function.update m.discovered i false }

/-- The lines between the initialisation loop and the rounds. -/
def start (P : Problem V) (m : Mem V) : Mem V :=
  { m with
    frontier := [P.source]
    distance := Function.update m.distance P.source 0
    discovered := Function.update m.discovered P.source true }

/-- `indep_check` -/
def indepCheck (P : Problem V) (m : Mem V) (v other : V) (mine : ℤ) : Bool :=
  mine ≤ m.distance other + P.pairHeur v other

/-- The next operation of the iteration for `v` in the successor loop; `place` is
`offsets[i] + j`.  `none` when its arcs are done. -/
def succNext (P : Problem V) (spurious : Bool) (v : V) (place : ℕ) (m : Mem V)
    (cells : List (Option V)) (pc : SuccPc) : Option (Mem V × List (Option V) × SuccPc) :=
  match (P.graph.nbrs v)[pc.j]? with
  | none => none
  | some (ngh, weight) =>
    match pc.point with
    | .arc =>
      (store cells place none).map fun cells' =>
        (m, cells',
          if m.finalized ngh = INFINITE then ⟨pc.j, .load (m.finalized v + weight)⟩
          else ⟨pc.j + 1, .arc⟩)
    | .load mine =>
      let other := m.distance ngh
      some (m, cells, ⟨pc.j, if other ≠ INFINITE ∧ other ≤ mine then .check else .cas mine other⟩)
    | .cas mine other =>
      if m.distance ngh = other ∧ spurious = false then
        some ({ m with distance := Function.update m.distance ngh mine }, cells, ⟨pc.j, .check⟩)
      else some (m, cells, ⟨pc.j, .load mine⟩)
    | .check =>
      some (m, cells, if m.discovered ngh then ⟨pc.j + 1, .arc⟩ else ⟨pc.j, .claim⟩)
    | .claim =>
      if m.discovered ngh then some (m, cells, ⟨pc.j + 1, .arc⟩)
      else (store cells place (some ngh)).map fun cells' =>
        ({ m with discovered := Function.update m.discovered ngh true }, cells', ⟨pc.j + 1, .arc⟩)

/-- What the last `filter` of a round keeps. -/
def keepOpen (m : Mem V) (v : Option V) : Bool :=
  match v with
  | none => false
  | some v => m.finalized v = INFINITE

/-- **One step.** -/
inductive Step (P : Problem V) : State V → State V → Prop
  | enter {m : Mem V} : m.finalized P.destination = INFINITE →
      Step P ⟨m, .test⟩ ⟨m, .independence (fun _ _ => .idle) fun _ => false⟩
  | leave {m : Mem V} : m.finalized P.destination ≠ INFINITE → Step P ⟨m, .test⟩ ⟨m, .returned⟩
  | loadMine {m : Mem V} {check : ℕ → ℕ → Check} {written : ℕ → Bool} (i j : ℕ) {v u : V} :
      m.frontier[i]? = some v → m.frontier[j]? = some u → j ≠ i → written i = false →
      check i j = .idle →
      Step P ⟨m, .independence check written⟩
        ⟨m, .independence (Function.update check i
          (Function.update (check i) j (.loaded (m.distance v)))) written⟩
  | loadOther {m : Mem V} {check : ℕ → ℕ → Check} {written : ℕ → Bool} (i j : ℕ) {v u : V} {d : ℤ} :
      m.frontier[i]? = some v → m.frontier[j]? = some u → written i = false →
      check i j = .loaded d →
      Step P ⟨m, .independence check written⟩
        ⟨m, .independence (Function.update check i
          (Function.update (check i) j (.verdict (indepCheck P m v u d)))) written⟩
  | writeTrue {m : Mem V} {check : ℕ → ℕ → Check} {written : ℕ → Bool} (i : ℕ) :
      i < m.frontier.length → written i = false →
      (∀ j < m.frontier.length, j ≠ i → check i j = .verdict true) →
      Step P ⟨m, .independence check written⟩
        ⟨{ m with independent := Function.update m.independent i true },
          .independence check (Function.update written i true)⟩
  | writeFalse {m : Mem V} {check : ℕ → ℕ → Check} {written : ℕ → Bool} (i j : ℕ) :
      i < m.frontier.length → written i = false → check i j = .verdict false →
      Step P ⟨m, .independence check written⟩
        ⟨{ m with independent := Function.update m.independent i false },
          .independence check (Function.update written i true)⟩
  | choose {m : Mem V} {check : ℕ → ℕ → Check} {written : ℕ → Bool} (choice : Choice V)
      {independents : List V} : (∀ i < m.frontier.length, written i = true) →
      choice.order.Perm (List.range m.frontier.length) →
      filter choice (fun i _ => m.independent i) m.frontier = some independents →
      Step P ⟨m, .independence check written⟩
        ⟨m, if independents.length = 0 then .aborted else .setDist independents fun _ => .start⟩
  | load {m : Mem V} {independents : List V} {pc : ℕ → SetPc} (i : ℕ) {v : V} :
      independents[i]? = some v → pc i = .start →
      Step P ⟨m, .setDist independents pc⟩
        ⟨m, .setDist independents (Function.update pc i (.loaded (m.distance v)))⟩
  | finalize {m : Mem V} {independents : List V} {pc : ℕ → SetPc} (i : ℕ) {v : V} {d : ℤ} :
      independents[i]? = some v → pc i = .loaded d →
      Step P ⟨m, .setDist independents pc⟩
        ⟨{ m with finalized := Function.update m.finalized v d },
          .setDist independents (Function.update pc i .stored)⟩
  | scan {m : Mem V} {independents : List V} {pc : ℕ → SetPc} (treeMemory outMemory : ℕ → ℕ)
      (memory : ℕ → Option V) {offsets : List ℕ} {successorsLen : ℕ} {cells : List (Option V)} :
      (∀ i < independents.length, pc i = .stored) →
      plusScan treeMemory outMemory (fun _ v => (P.graph.nbrs v).length) independents
        = some offsets →
      offsets[independents.length]? = some successorsLen →
      myMalloc memory successorsLen = some cells →
      Step P ⟨m, .setDist independents pc⟩
        ⟨m, .successors independents offsets cells fun _ => ⟨0, .arc⟩⟩
  | relax {m m' : Mem V} {independents : List V} {offsets : List ℕ} {cells cells' : List (Option V)}
      {pc : ℕ → SuccPc} {pc' : SuccPc} (i : ℕ) (spurious : Bool) {v : V} {offset : ℕ} :
      independents[i]? = some v → offsets[i]? = some offset →
      succNext P spurious v (offset + (pc i).j) m cells (pc i) = some (m', cells', pc') →
      Step P ⟨m, .successors independents offsets cells pc⟩
        ⟨m', .successors independents offsets cells' (Function.update pc i pc')⟩
  | finish {m : Mem V} {independents : List V} {offsets : List ℕ} {cells : List (Option V)}
      {pc : ℕ → SuccPc} (choice choice' : Choice (Option V)) {all newfrontier : List (Option V)} :
      (∀ i v, independents[i]? = some v → (P.graph.nbrs v).length ≤ (pc i).j) →
      choice.order.Perm (List.range (m.frontier.length + cells.length)) →
      append choice (m.frontier.map some) cells = some all →
      choice'.order.Perm (List.range all.length) →
      filter choice' (fun _ v => keepOpen m v) all = some newfrontier →
      Step P ⟨m, .successors independents offsets cells pc⟩
        ⟨{ m with frontier := newfrontier.reduceOption }, .test⟩

/-- **The system.**  The initialisation loop visits the vertices in any order, and `garbage` is what
the allocated arrays hold before it. -/
def pars (P : Problem V) : System (State V) where
  init s := ∃ (garbage : Mem V) (order : List V), (∀ v, v ∈ order) ∧
    s = ⟨start P (order.foldl initVertex garbage), .test⟩
  step := Step P

/-- A `compare_exchange_weak` of iteration `i` fails although the value is the expected one. -/
def Spurious (P : Problem V) (s s' : State V) : Prop :=
  ∃ m independents offsets cells pc i v ngh weight mine other,
    s = ⟨m, .successors independents offsets cells pc⟩ ∧ independents[i]? = some v ∧
    (P.graph.nbrs v)[(pc i).j]? = some (ngh, weight) ∧ (pc i).point = .cas mine other ∧
    m.distance ngh = other ∧
    s' = ⟨m, .successors independents offsets cells
      (Function.update pc i ⟨(pc i).j, .load mine⟩)⟩

end PwsaStar.Pars
