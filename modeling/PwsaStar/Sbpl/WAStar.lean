/-
# PwsaStar.Sbpl.WAStar — `wAStar` and `wAStarPlanner` of the SBPL port.

The planner keeps one `astarState` per state id and fills in the goal heuristic the first time an id
is asked for (`getState`).  The search loop is not the one of `astar.hpp`: it runs until the
destination has a label, not until the destination is popped, and its priorities are
`eps * h + g`, a `double`, converted to the `long` of the heap.  Arithmetic is exact: `eps` is a
rational, labels are `Dist` with `⊤` for `INT_MAX`, and only the conversion to `long` rounds.

`Inv` holds of every run for every environment and every `eps`.  It gives the progress results:
each iteration lowers the number of queue entries plus the arcs not yet relaxed, and the queue runs
dry only when the destination cannot be reached.
-/
import PwsaStar.AStar
import PwsaStar.Lib.Transition
import Mathlib.Data.Rat.Floor

namespace PwsaStar.Sbpl

open PwsaStar.Lib PwsaStar.Heap

variable {V : Type*} [DecidableEq V]

/-! ## The program -/

/-- What the planner asks of the environment: `GetSuccs`, a fixed action list for every state, and
`GetGoalHeuristic`. -/
structure Environment (V : Type*) where
  getSuccs : WGraph V
  getGoalHeuristic : V → ℤ

/-- `astarState`: `none` is the predecessor `-1` and `⊤` is `INT_MAX`. -/
structure AstarState (V : Type*) where
  pred : Option V
  g : Dist
  expanded : Bool
  initialized : Bool
  h : ℤ

/-- The constructor `astarState()`, which leaves `h` as it finds it. -/
def AstarState.new (h : ℤ) : AstarState V where
  pred := none
  g := ⊤
  expanded := false
  initialized := false
  h := h

/-- `wAStarPlanner::GetState`: the effect on the table of states. -/
def getState (env : Environment V) (id : V) (states : V → AstarState V) : V → AstarState V :=
  if (states id).initialized then states
  else Function.update states id
    { states id with h := env.getGoalHeuristic id, initialized := true }

/-- The conversion from `double` to `long`, which drops the fraction. -/
def toLong (x : ℚ) : ℤ := if 0 ≤ x then ⌊x⌋ else ⌈x⌉

/-- The heap priority for the label `d` of a state with goal heuristic `h`. -/
def priority (eps : ℚ) (h : ℤ) (d : Dist) : Dist := d.map fun a : ℤ => toLong (eps * h + a)

/-- The table of states and the frontier. -/
structure Search (V : Type*) where
  states : V → AstarState V
  frontier : ValidHeap Dist V

/-- The body of the lambda passed to `for_each_neighbor_of(v, …)`. -/
def relax (env : Environment V) (eps : ℚ) (v : V) (st : Search V) (arc : V × ℤ) : Search V :=
  let nghdist := (st.states v).g + (arc.2 : Dist)
  let states := getState env arc.1 st.states
  if nghdist < (states arc.1).g then
    -- `heuristic(ngh)` asks for the state once more
    let states := getState env arc.1 states
    { states := Function.update states arc.1 { states arc.1 with pred := some v, g := nghdist }
      frontier := st.frontier.insert (priority eps (states arc.1).h nghdist) arc.1 }
  else { st with states := states }

/-- Marking `v` expanded; `for_each_neighbor_of` then asks for the state of the parent. -/
def mark (env : Environment V) (v : V) (states : V → AstarState V) : V → AstarState V :=
  getState env v (Function.update states v { states v with expanded := true })

/-- The body of the loop; `none` when `delete_min` is called on an empty heap. -/
def iteration (env : Environment V) (eps : ℚ) (st : Search V) : Option (Search V) :=
  match st.frontier.deleteMin with
  | none => none
  | some (v, frontier) =>
    let states := getState env v st.states
    if (states v).expanded then some { states := states, frontier := frontier }
    else some ((env.getSuccs.nbrs v).foldl (relax env eps v)
      { states := mark env v states, frontier := frontier })

/-- How the loop can end. -/
inductive Outcome (V : Type*) where
  /-- The destination has a label. -/
  | stopped (st : Search V)
  /-- `delete_min` was called on an empty heap. -/
  | emptyPop
  /-- The iterations ran out. -/
  | outOfFuel

/-- `while (dest->g == INT_MAX)`; the first number bounds the iterations. -/
def loop (env : Environment V) (eps : ℚ) (destination : V) : ℕ → Search V → Outcome V
  | fuel, st =>
    if (st.states destination).g = ⊤ then
      match fuel with
      | 0 => .outOfFuel
      | fuel + 1 =>
        match iteration env eps st with
        | none => .emptyPop
        | some st' => loop env eps destination fuel st'
    else .stopped st

/-- The lines of `wAStar` before its loop. -/
def wAStarStart (block : ℕ → KV Dist V) (env : Environment V) (eps : ℚ) (source destination : V)
    (states : V → AstarState V) : Search V :=
  let states := getState env source states
  let states := Function.update states source { states source with g := 0, pred := some source }
  -- `heuristic(source)`
  let states := getState env source states
  { states := getState env destination states
    frontier := (ValidHeap.new block).insert (priority eps (states source).h 0) source }

/-- `wAStar` on a table of states. -/
def wAStar (block : ℕ → KV Dist V) (env : Environment V) (eps : ℚ) (source destination : V)
    (states : V → AstarState V) (fuel : ℕ) : Outcome V :=
  loop env eps destination fuel (wAStarStart block env eps source destination states)

/-- The fresh table `replan` makes, after `initializeSearch`.  `memory` is what the `h` fields hold
before they are set. -/
def initializeSearch (memory : V → ℤ) (env : Environment V) (start goal : V) : V → AstarState V :=
  let states := getState env goal fun v => AstarState.new (memory v)
  let states := getState env start states
  Function.update states start { states start with g := 0 }

/-- The state `wAStarPlanner` starts its loop in. -/
def searchStart (block : ℕ → KV Dist V) (memory : V → ℤ) (env : Environment V) (eps : ℚ)
    (start goal : V) : Search V :=
  wAStarStart block env eps start goal (initializeSearch memory env start goal)

/-- `wAStarPlanner::Search` up to its failure test: `initializeSearch`, then `run_wAStar`. -/
def search (block : ℕ → KV Dist V) (memory : V → ℤ) (env : Environment V) (eps : ℚ)
    (start goal : V) (fuel : ℕ) : Outcome V :=
  wAStar block env eps start goal (initializeSearch memory env start goal) fuel

/-- The loop as a transition system: one step is one iteration. -/
def searchSystem (block : ℕ → KV Dist V) (memory : V → ℤ) (env : Environment V) (eps : ℚ)
    (start goal : V) : System (Search V) where
  init st := st = searchStart block memory env eps start goal
  step st st' := (st.states goal).g = ⊤ ∧ iteration env eps st = some st'

/-! ## What the operations do to the fields -/

/-- The labels of a search state. -/
def Search.g (st : Search V) (v : V) : Dist := (st.states v).g

/-- The predecessors of a search state. -/
def Search.pred (st : Search V) (v : V) : Option V := (st.states v).pred

/-- The expanded flags of a search state. -/
def Search.expanded (st : Search V) (v : V) : Bool := (st.states v).expanded

/-- Every heuristic that was filled in is the environment's. -/
def Memo (env : Environment V) (states : V → AstarState V) : Prop :=
  ∀ v, (states v).initialized = true → (states v).h = env.getGoalHeuristic v

variable {env : Environment V} {eps : ℚ}

/-- `GetState` touches nothing but the heuristic. -/
theorem getState_keeps (env : Environment V) (id v : V) (states : V → AstarState V) :
    (getState env id states v).g = (states v).g ∧ (getState env id states v).pred = (states v).pred ∧
      (getState env id states v).expanded = (states v).expanded := by
  unfold getState
  split_ifs
  · exact ⟨rfl, rfl, rfl⟩
  · by_cases hv : v = id
    · subst hv; simp
    · simp [Function.update_of_ne hv]

@[simp] theorem getState_g (env : Environment V) (id v : V) (states : V → AstarState V) :
    (getState env id states v).g = (states v).g := (getState_keeps env id v states).1

@[simp] theorem getState_pred (env : Environment V) (id v : V) (states : V → AstarState V) :
    (getState env id states v).pred = (states v).pred := (getState_keeps env id v states).2.1

@[simp] theorem getState_expanded (env : Environment V) (id v : V) (states : V → AstarState V) :
    (getState env id states v).expanded = (states v).expanded := (getState_keeps env id v states).2.2

theorem Memo.getState {states : V → AstarState V} (hm : Memo env states) (id : V) :
    Memo env (getState env id states) := by
  unfold Sbpl.getState
  split_ifs
  · exact hm
  · intro v hv
    by_cases hvid : v = id
    · subst hvid; simp
    · rw [Function.update_of_ne hvid] at hv ⊢
      exact hm v hv

/-- After `GetState(id)` the heuristic of `id` is there. -/
theorem Memo.getState_h {states : V → AstarState V} (hm : Memo env states) (id : V) :
    (Sbpl.getState env id states id).h = env.getGoalHeuristic id := by
  unfold Sbpl.getState
  split_ifs with hinit
  · exact hm id hinit
  · simp

/-- Setting fields other than the heuristic keeps the memo table right. -/
theorem Memo.update {states : V → AstarState V} (hm : Memo env states) {v : V} {x : AstarState V}
    (hinit : x.initialized = (states v).initialized) (hh : x.h = (states v).h) :
    Memo env (Function.update states v x) := by
  intro u hu
  by_cases huv : u = v
  · subst huv
    rw [Function.update_self] at hu ⊢
    rw [hh]
    exact hm u (hinit ▸ hu)
  · rw [Function.update_of_ne huv] at hu ⊢
    exact hm u hu

/-- An improving relaxation. -/
theorem relax_of_lt (eps : ℚ) {st : Search V} (hm : Memo env st.states) {v x : V} {w : ℤ}
    (hlt : st.g v + (w : Dist) < st.g x) :
    (relax env eps v st (x, w)).g = Function.update st.g x (st.g v + (w : Dist)) ∧
    (relax env eps v st (x, w)).pred = Function.update st.pred x (some v) ∧
    (relax env eps v st (x, w)).expanded = st.expanded ∧
    (relax env eps v st (x, w)).frontier = st.frontier.insert
      (priority eps (env.getGoalHeuristic x) (st.g v + (w : Dist))) x ∧
    Memo env (relax env eps v st (x, w)).states := by
  have hlt' : (st.states v).g + (w : Dist) < (Sbpl.getState env x st.states x).g := by
    rw [getState_g]
    exact hlt
  unfold relax
  simp only [if_pos hlt']
  have hh := (hm.getState x).getState_h x
  refine ⟨?_, ?_, ?_, ?_, ?_⟩
  · funext u
    by_cases hu : u = x
    · subst hu; simp [Search.g]
    · simp [Search.g, Function.update_of_ne hu]
  · funext u
    by_cases hu : u = x
    · subst hu; simp [Search.pred]
    · simp [Search.pred, Function.update_of_ne hu]
  · funext u
    by_cases hu : u = x
    · subst hu; simp [Search.expanded]
    · simp [Search.expanded, Function.update_of_ne hu]
  · rw [hh]
    rfl
  · exact ((hm.getState x).getState x).update rfl rfl

/-- A relaxation that does not improve. -/
theorem relax_of_not_lt (eps : ℚ) {st : Search V} (hm : Memo env st.states) {v x : V} {w : ℤ}
    (hlt : ¬ st.g v + (w : Dist) < st.g x) :
    (relax env eps v st (x, w)).g = st.g ∧ (relax env eps v st (x, w)).pred = st.pred ∧
    (relax env eps v st (x, w)).expanded = st.expanded ∧
    (relax env eps v st (x, w)).frontier = st.frontier ∧
    Memo env (relax env eps v st (x, w)).states := by
  have hlt' : ¬ (st.states v).g + (w : Dist) < (Sbpl.getState env x st.states x).g := by
    rw [getState_g]
    exact hlt
  have hrelax : relax env eps v st (x, w) = { st with states := Sbpl.getState env x st.states } :=
    if_neg hlt'
  rw [hrelax]
  refine ⟨?_, ?_, ?_, rfl, hm.getState x⟩ <;> funext u <;>
    simp [Search.g, Search.pred, Search.expanded]

/-- Marking sets one flag. -/
theorem mark_spec {states : V → AstarState V} (hm : Memo env states) (v : V)
    (frontier : ValidHeap Dist V) :
    (Search.mk (mark env v states) frontier).g = (Search.mk states frontier).g ∧
    (Search.mk (mark env v states) frontier).pred = (Search.mk states frontier).pred ∧
    (Search.mk (mark env v states) frontier).expanded
      = Function.update (Search.mk states frontier).expanded v true ∧
    Memo env (mark env v states) := by
  have hm' : Memo env (Function.update states v { states v with expanded := true }) :=
    hm.update rfl rfl
  refine ⟨?_, ?_, ?_, hm'.getState v⟩ <;> funext u <;> by_cases hu : u = v
  all_goals first
    | (subst hu; simp [mark, Search.g, Search.pred, Search.expanded])
    | simp [mark, Search.g, Search.pred, Search.expanded, Function.update_of_ne hu]

/-- **What one iteration does**: it pops `v`, and either drops it as expanded already or marks it and
relaxes its arcs. -/
theorem iteration_cases {st st' : Search V} (h : iteration env eps st = some st') :
    ∃ v frontier, st.frontier.deleteMin = some (v, frontier) ∧
      ((st.expanded v = true ∧
          st' = { states := getState env v st.states, frontier := frontier }) ∨
        (st.expanded v = false ∧ st' = (env.getSuccs.nbrs v).foldl (relax env eps v)
          { states := mark env v (getState env v st.states), frontier := frontier })) := by
  unfold iteration at h
  cases hpop : st.frontier.deleteMin with
  | none => simp [hpop] at h
  | some r =>
    obtain ⟨v, frontier⟩ := r
    simp only [hpop, getState_expanded] at h
    refine ⟨v, frontier, rfl, ?_⟩
    split_ifs at h with hexp
    · exact Or.inl ⟨hexp, (Option.some.inj h).symm⟩
    · exact Or.inr ⟨by simpa [Search.expanded] using hexp, (Option.some.inj h).symm⟩

/-- An iteration is undefined exactly on the empty frontier. -/
theorem iteration_eq_none_iff {st : Search V} :
    iteration env eps st = none ↔ st.frontier.size = 0 := by
  rw [← ValidHeap.deleteMin_eq_none_iff]
  unfold iteration
  cases hpop : st.frontier.deleteMin with
  | none => simp
  | some r =>
    simp only
    split_ifs <;> simp

/-! ## Priorities -/

theorem toLong_mono {x y : ℚ} (hxy : x ≤ y) : toLong x ≤ toLong y := by
  unfold toLong
  split_ifs with hx hy hy
  · exact Int.floor_mono hxy
  · exact absurd (hx.trans hxy) hy
  · -- a negative number is rounded up to 0 at most
    have h1 : ⌈x⌉ ≤ 0 := Int.ceil_le.mpr (by push_cast; exact (not_le.mp hx).le)
    exact h1.trans (Int.floor_nonneg.mpr hy)
  · exact Int.ceil_mono hxy

/-- Whole numbers are not rounded. -/
theorem toLong_intCast (k : ℤ) : toLong (k : ℚ) = k := by simp [toLong]

theorem priority_coe (eps : ℚ) (h a : ℤ) :
    priority eps h (a : Dist) = ((toLong (eps * h + a) : ℤ) : Dist) := rfl

theorem priority_mono (eps : ℚ) (h : ℤ) {d d' : Dist} (hle : d ≤ d') :
    priority eps h d ≤ priority eps h d' := by
  induction d' using WithTop.recTopCoe with
  | top => exact le_top
  | coe b =>
    induction d using WithTop.recTopCoe with
    | top => exact absurd hle (not_le.mpr (WithTop.coe_lt_top b))
    | coe a =>
      have hab : (a : ℚ) ≤ b := by exact_mod_cast hle
      rw [priority_coe, priority_coe]
      exact_mod_cast toLong_mono (by linarith)

/-! ## The invariant -/

/-- **What holds in every run**, for every environment and every `eps`.  `cur` is the vertex whose
arcs are being relaxed at the moment. -/
structure Inv (env : Environment V) (eps : ℚ) (s : V) (cur : Option V) (st : Search V) : Prop where
  memo : Memo env st.states
  forest : Forest env.getSuccs s (fun v => st.expanded v = true) st.g st.pred
  queued : ∀ v (a : ℤ), st.g v = (a : Dist) → st.expanded v = false →
    (⟨priority eps (env.getGoalHeuristic v) (a : Dist), v⟩ : KV Dist V) ∈ st.frontier.entries
  keys : ∀ e ∈ st.frontier.entries,
    priority eps (env.getGoalHeuristic e.value) (st.g e.value) ≤ e.priority ∧ st.g e.value ≠ ⊤
  heads : ∀ v u w, st.expanded v = true → cur ≠ some v → env.getSuccs.Arc v u w → st.g u ≠ ⊤

variable {s : V}

/-- What relaxing the arcs `arcs` of `v`, whose label is `a`, does to a search state. -/
structure Relaxed (env : Environment V) (eps : ℚ) (s v : V) (a : ℤ) (arcs : List (V × ℤ))
    (st st' : Search V) : Prop where
  inv : Inv env eps s (some v) st'
  own : st'.g v = (a : Dist)
  lower : ∀ u, st'.g u ≤ st.g u
  origin : ∀ u, st'.g u = st.g u ∨ ∃ w, (u, w) ∈ arcs ∧ st'.g u = ((a + w : ℤ) : Dist)
  expanded : st'.expanded = st.expanded
  grow : st'.frontier.size ≤ st.frontier.size + arcs.length
  heads : ∀ u w, (u, w) ∈ arcs → st'.g u ≤ ((a + w : ℤ) : Dist)

/-- Relaxing one arc. -/
theorem relaxed_one {st : Search V} {v x : V} {a w : ℤ} (I : Inv env eps s (some v) st)
    (hv : st.expanded v = true) (ha : st.g v = (a : Dist)) (harc : env.getSuccs.Arc v x w) :
    Relaxed env eps s v a [(x, w)] st (relax env eps v st (x, w)) := by
  have hcoe : st.g v + (w : Dist) = ((a + w : ℤ) : Dist) := by rw [ha]; rfl
  by_cases hlt : st.g v + (w : Dist) < st.g x
  · obtain ⟨hg, hpred, hexp, hfr, hmemo⟩ := relax_of_lt eps I.memo hlt
    have hxv : v ≠ x := by
      rintro rfl
      rw [hcoe, ha] at hlt
      have h1 : a + w < a := by exact_mod_cast hlt
      have h2 := harc.nonneg
      omega
    have hlower : ∀ u, Function.update st.g x (st.g v + (w : Dist)) u ≤ st.g u :=
      update_le_self_iff.mpr hlt.le
    refine ⟨⟨hmemo, ?_, ?_, ?_, ?_⟩, ?_, ?_, ?_, hexp, ?_, ?_⟩
    · rw [hg, hpred, hexp]
      exact I.forest.relax hv le_rfl harc hlt
    · intro u b hb hu
      rw [hfr, ValidHeap.entries_insert]
      rw [hexp] at hu
      rw [hg] at hb
      by_cases hux : u = x
      · subst hux
        rw [Function.update_self] at hb
        rw [hb]
        exact Multiset.mem_cons_self _ _
      · rw [Function.update_of_ne hux] at hb
        exact Multiset.mem_cons_of_mem (I.queued u b hb hu)
    · intro e he
      rw [hfr, ValidHeap.entries_insert] at he
      rw [hg]
      rcases Multiset.mem_cons.mp he with rfl | he
      · rw [Function.update_self, hcoe]
        exact ⟨le_rfl, WithTop.coe_ne_top⟩
      · obtain ⟨hkey, hfin⟩ := I.keys e he
        exact ⟨(priority_mono eps _ (hlower e.value)).trans hkey,
          ne_top_of_le_ne_top hfin (hlower e.value)⟩
    · intro p u w' hp hcur hpu
      rw [hexp] at hp
      rw [hg]
      exact ne_top_of_le_ne_top (I.heads p u w' hp hcur hpu) (hlower u)
    · rw [hg, Function.update_of_ne hxv]
      exact ha
    · rw [hg]
      exact hlower
    · intro u
      rw [hg]
      by_cases hux : u = x
      · subst hux
        rw [Function.update_self]
        exact Or.inr ⟨w, List.mem_singleton.mpr rfl, hcoe⟩
      · exact Or.inl (Function.update_of_ne hux _ _)
    · rw [hfr, ValidHeap.size_insert]
      exact le_rfl
    · intro u w' hmem
      obtain ⟨rfl, rfl⟩ := Prod.mk.inj (List.mem_singleton.mp hmem)
      rw [hg, Function.update_self, hcoe]
  · obtain ⟨hg, hpred, hexp, hfr, hmemo⟩ := relax_of_not_lt eps I.memo hlt
    refine ⟨⟨hmemo, ?_, ?_, ?_, ?_⟩, hg ▸ ha, ?_, ?_, hexp, ?_, ?_⟩
    · rw [hg, hpred, hexp]
      exact I.forest
    · rw [hg, hexp, hfr]
      exact I.queued
    · rw [hg, hfr]
      exact I.keys
    · rw [hg, hexp]
      exact I.heads
    · rw [hg]
      exact fun _ => le_rfl
    · rw [hg]
      exact fun _ => Or.inl rfl
    · rw [hfr]
      exact Nat.le_add_right _ _
    · intro u w' hmem
      obtain ⟨rfl, rfl⟩ := Prod.mk.inj (List.mem_singleton.mp hmem)
      rw [hg, ← hcoe]
      exact not_lt.mp hlt

omit [DecidableEq V] in
theorem Relaxed.refl {st : Search V} {v : V} {a : ℤ} (I : Inv env eps s (some v) st)
    (ha : st.g v = (a : Dist)) : Relaxed env eps s v a [] st st where
  inv := I
  own := ha
  lower _ := le_rfl
  origin _ := Or.inl rfl
  expanded := rfl
  grow := Nat.le_add_right _ _
  heads _ _ h := absurd h List.not_mem_nil

omit [DecidableEq V] in
theorem Relaxed.cons {st st₁ st₂ : Search V} {v : V} {a : ℤ} {arc : V × ℤ} {arcs : List (V × ℤ)}
    (h₁ : Relaxed env eps s v a [arc] st st₁) (h₂ : Relaxed env eps s v a arcs st₁ st₂) :
    Relaxed env eps s v a (arc :: arcs) st st₂ where
  inv := h₂.inv
  own := h₂.own
  lower u := (h₂.lower u).trans (h₁.lower u)
  origin u := by
    rcases h₂.origin u with h | ⟨w, hw, h⟩
    · rcases h₁.origin u with h' | ⟨w, hw, h'⟩
      · exact Or.inl (h.trans h')
      · exact Or.inr ⟨w, List.mem_cons.mpr (Or.inl (List.mem_singleton.mp hw)), h.trans h'⟩
    · exact Or.inr ⟨w, List.mem_cons_of_mem arc hw, h⟩
  expanded := h₂.expanded.trans h₁.expanded
  grow := by
    have := h₁.grow
    have := h₂.grow
    simp only [List.length_cons, List.length_nil] at *
    omega
  heads u w h := by
    rcases List.mem_cons.mp h with rfl | h
    · exact (h₂.lower u).trans (h₁.heads u w (List.mem_singleton.mpr rfl))
    · exact h₂.heads u w h

theorem relaxed_all {v : V} {a : ℤ} : ∀ (arcs : List (V × ℤ)) {st : Search V},
    Inv env eps s (some v) st → st.expanded v = true → st.g v = (a : Dist) →
    (∀ arc ∈ arcs, env.getSuccs.Arc v arc.1 arc.2) →
    Relaxed env eps s v a arcs st (arcs.foldl (relax env eps v) st) := by
  intro arcs
  induction arcs with
  | nil =>
    intro st I _ ha _
    exact Relaxed.refl I ha
  | cons arc arcs ih =>
    intro st I hv ha harcs
    have h₁ := relaxed_one I hv ha (harcs arc List.mem_cons_self)
    apply h₁.cons
    apply ih h₁.inv
    · rw [h₁.expanded]
      exact hv
    · exact h₁.own
    · exact fun arc' h => harcs arc' (List.mem_cons_of_mem arc h)

/-! ## One iteration -/

/-- Dropping an entry of an expanded vertex. -/
theorem Inv.drop {st : Search V} (I : Inv env eps s none st) {v : V} {frontier : ValidHeap Dist V}
    (hpop : st.frontier.deleteMin = some (v, frontier)) (hv : st.expanded v = true) :
    Inv env eps s none { states := getState env v st.states, frontier := frontier } := by
  obtain ⟨p, hent, -⟩ := ValidHeap.entries_deleteMin hpop
  have hg : (Search.mk (getState env v st.states) frontier).g = st.g := by
    funext u; simp [Search.g]
  have hpred : (Search.mk (getState env v st.states) frontier).pred = st.pred := by
    funext u; simp [Search.pred]
  have hexp : (Search.mk (getState env v st.states) frontier).expanded = st.expanded := by
    funext u; simp [Search.expanded]
  refine ⟨I.memo.getState v, ?_, ?_, ?_, ?_⟩
  · rw [hg, hpred, hexp]
    exact I.forest
  · rw [hg, hexp]
    intro u a ha hu
    have hmem := I.queued u a ha hu
    rw [hent] at hmem
    rcases Multiset.mem_cons.mp hmem with heq | hmem
    · have huv : u = v := congrArg KV.value heq
      rw [huv, hv] at hu
      cases hu
    · exact hmem
  · rw [hg]
    intro e he
    exact I.keys e (by rw [hent]; exact Multiset.mem_cons_of_mem he)
  · rw [hg, hexp]
    exact I.heads

/-- Marking a popped vertex as expanded, with none of its arcs relaxed yet. -/
theorem Inv.mark {st : Search V} (I : Inv env eps s none st) {v : V} {frontier : ValidHeap Dist V}
    (hpop : st.frontier.deleteMin = some (v, frontier)) :
    (Search.mk (mark env v (getState env v st.states)) frontier).g = st.g ∧
    (Search.mk (Sbpl.mark env v (getState env v st.states)) frontier).expanded
      = Function.update st.expanded v true ∧
    Inv env eps s (some v)
      { states := Sbpl.mark env v (getState env v st.states), frontier := frontier } := by
  obtain ⟨p, hent, -⟩ := ValidHeap.entries_deleteMin hpop
  obtain ⟨hg, hpred, hexp, hmemo⟩ := mark_spec (I.memo.getState v) v frontier
  have hg' : (Search.mk (getState env v st.states) frontier).g = st.g := by
    funext u; simp [Search.g]
  have hpred' : (Search.mk (getState env v st.states) frontier).pred = st.pred := by
    funext u; simp [Search.pred]
  have hexp' : (Search.mk (getState env v st.states) frontier).expanded = st.expanded := by
    funext u; simp [Search.expanded]
  rw [hg'] at hg
  rw [hpred'] at hpred
  rw [hexp'] at hexp
  refine ⟨hg, hexp, hmemo, ?_, ?_, ?_, ?_⟩
  · rw [hg, hpred, hexp]
    exact I.forest.mono fun u hu => update_mark_iff.mpr (Or.inr hu)
  · rw [hg, hexp]
    intro u a ha hu
    have huv : u ≠ v := by
      rintro rfl
      simp at hu
    rw [Function.update_of_ne huv] at hu
    have hmem := I.queued u a ha hu
    rw [hent] at hmem
    rcases Multiset.mem_cons.mp hmem with heq | hmem
    · exact absurd (congrArg KV.value heq) huv
    · exact hmem
  · rw [hg]
    intro e he
    exact I.keys e (by rw [hent]; exact Multiset.mem_cons_of_mem he)
  · rw [hg, hexp]
    intro u x w hu hcur harc
    have huv : u ≠ v := fun h => hcur (by rw [h])
    rw [Function.update_of_ne huv] at hu
    exact I.heads u x w hu (by simp) harc

omit [DecidableEq V] in
/-- A popped vertex is labelled. -/
theorem Inv.popped {st : Search V} (I : Inv env eps s none st) {v : V}
    {frontier : ValidHeap Dist V} (hpop : st.frontier.deleteMin = some (v, frontier)) :
    ∃ a : ℤ, st.g v = (a : Dist) := by
  obtain ⟨p, hent, -⟩ := ValidHeap.entries_deleteMin hpop
  obtain ⟨-, hfin⟩ := I.keys ⟨p, v⟩ (by rw [hent]; exact Multiset.mem_cons_self _ _)
  obtain ⟨a, ha⟩ := WithTop.ne_top_iff_exists.mp hfin
  exact ⟨a, ha.symm⟩

/-- **What an expansion does**: the arcs of the popped vertex are relaxed from its label, and the
invariant is back in force. -/
theorem Inv.expand {st : Search V} (I : Inv env eps s none st) {v : V} {frontier : ValidHeap Dist V}
    (hpop : st.frontier.deleteMin = some (v, frontier)) {a : ℤ} (ha : st.g v = (a : Dist))
    {st' : Search V} (hst' : st' = (env.getSuccs.nbrs v).foldl (relax env eps v)
      { states := Sbpl.mark env v (getState env v st.states), frontier := frontier }) :
    Inv env eps s none st' ∧ st'.expanded = Function.update st.expanded v true ∧
      (∀ u, st'.g u ≤ st.g u) ∧
      (∀ u, st'.g u = st.g u ∨ ∃ w, env.getSuccs.Arc v u w ∧ st'.g u = ((a + w : ℤ) : Dist)) ∧
      (∀ u w, env.getSuccs.Arc v u w → st'.g u ≤ ((a + w : ℤ) : Dist)) ∧
      st'.frontier.size ≤ frontier.size + (env.getSuccs.nbrs v).length := by
  obtain ⟨hg, hexp, hinv⟩ := I.mark hpop
  have R := relaxed_all (a := a) (env.getSuccs.nbrs v) hinv (by rw [hexp]; simp)
    (by rw [hg]; exact ha) fun arc harc => harc
  rw [← hst'] at R
  have hlower := R.lower
  have horigin := R.origin
  rw [hg] at hlower horigin
  refine ⟨⟨R.inv.memo, R.inv.forest, R.inv.queued, R.inv.keys, ?_⟩, R.expanded.trans hexp, hlower,
    horigin, R.heads, R.grow⟩
  intro p u w hp _ harc
  by_cases hpv : p = v
  · subst hpv
    exact ne_top_of_le_ne_top WithTop.coe_ne_top (R.heads u w harc)
  · exact R.inv.heads p u w hp (fun h => hpv (Option.some.inj h).symm) harc

theorem Inv.iteration {st st' : Search V} (I : Inv env eps s none st)
    (h : iteration env eps st = some st') : Inv env eps s none st' := by
  obtain ⟨v, frontier, hpop, ⟨hv, rfl⟩ | ⟨-, hst'⟩⟩ := iteration_cases h
  · exact I.drop hpop hv
  · obtain ⟨a, ha⟩ := I.popped hpop
    exact (I.expand hpop ha hst').1

/-- **Every iteration makes progress**: it takes an entry off the queue, and adds at most one for
every arc it relaxes. -/
theorem Inv.progress [Fintype V] {st st' : Search V} (I : Inv env eps s none st)
    (h : Sbpl.iteration env eps st = some st') :
    st'.frontier.size + 1 + AStar.expandedArcs env.getSuccs st.expanded
      ≤ st.frontier.size + AStar.expandedArcs env.getSuccs st'.expanded := by
  obtain ⟨v, frontier, hpop, hcases⟩ := iteration_cases h
  have hsize := ValidHeap.size_deleteMin hpop
  rcases hcases with ⟨-, rfl⟩ | ⟨hv, hst'⟩
  · have hexp : (Search.mk (getState env v st.states) frontier).expanded = st.expanded := by
      funext u; simp [Search.expanded]
    rw [hexp]
    dsimp only
    omega
  · obtain ⟨a, ha⟩ := I.popped hpop
    obtain ⟨-, hexp, -, -, -, hgrow⟩ := I.expand hpop ha hst'
    rw [hexp, AStar.expandedArcs_update env.getSuccs hv]
    omega

omit [DecidableEq V] in
/-- When the queue is empty, everything the start reaches has a label. -/
theorem Inv.labelled_of_empty {st : Search V} (I : Inv env eps s none st)
    (hempty : st.frontier.size = 0) {t : V} (hreach : env.getSuccs.Reaches s t) : st.g t ≠ ⊤ := by
  apply hreach.mem_of_closed (fun v => st.g v ≠ ⊤)
  · rw [I.forest.root]
    exact WithTop.coe_ne_top
  · intro u x w hu harc
    obtain ⟨a, ha⟩ := WithTop.ne_top_iff_exists.mp hu
    refine I.heads u x w ?_ (by simp) harc
    by_contra hexp
    have hmem := I.queued u a ha.symm (by simpa using hexp)
    rw [(ValidHeap.entries_eq_zero_iff st.frontier).mpr hempty] at hmem
    exact absurd hmem (Multiset.notMem_zero _)

/-! ## The start and the whole run -/

theorem memo_initializeSearch (memory : V → ℤ) (env : Environment V) (start goal : V) :
    Memo env (initializeSearch memory env start goal) := by
  have h₀ : Memo env fun v => AstarState.new (V := V) (memory v) := fun v hv => by
    simp [AstarState.new] at hv
  exact ((h₀.getState goal).getState start).update rfl rfl

theorem inv_searchStart (block : ℕ → KV Dist V) (memory : V → ℤ) (env : Environment V) (eps : ℚ)
    (start goal : V) : Inv env eps start none (searchStart block memory env eps start goal) := by
  have hinit := memo_initializeSearch memory env start goal
  have hsrc := (hinit.getState start).update (v := start)
    (x := { getState env start (initializeSearch memory env start goal) start with
      g := 0, pred := some start }) rfl rfl
  have hg : (searchStart block memory env eps start goal).g
      = Function.update (fun _ => (⊤ : Dist)) start 0 := by
    funext v
    by_cases hv : v = start
    · subst hv; simp [searchStart, wAStarStart, Search.g]
    · simp [searchStart, wAStarStart, initializeSearch, Search.g, Function.update_of_ne hv,
        AstarState.new]
  have hexp : (searchStart block memory env eps start goal).expanded = fun _ => false := by
    funext v
    by_cases hv : v = start
    · subst hv; simp [searchStart, wAStarStart, initializeSearch, Search.expanded, AstarState.new]
    · simp [searchStart, wAStarStart, initializeSearch, Search.expanded, Function.update_of_ne hv,
        AstarState.new]
  have hentries : (searchStart block memory env eps start goal).frontier.entries
      = {⟨priority eps (env.getGoalHeuristic start) 0, start⟩} := by
    rw [← hsrc.getState_h start]
    simp [searchStart, wAStarStart]
  refine ⟨(hsrc.getState start).getState goal, ?_, ?_, ?_, ?_⟩
  · rw [hg]
    exact Forest.start _ _ _ _
  · intro v a ha _
    rw [hentries, Multiset.mem_singleton]
    rw [hg] at ha
    by_cases hv : v = start
    · subst hv
      rw [Function.update_self] at ha
      rw [← ha]
    · simp [Function.update_of_ne hv] at ha
  · intro e he
    obtain rfl := Multiset.mem_singleton.mp (hentries ▸ he)
    simp [hg]
  · intro v u w hv
    simp [hexp] at hv

/-- Everything `Inv` says holds in every state the loop passes. -/
theorem reachable_inv {block : ℕ → KV Dist V} {memory : V → ℤ} {start goal : V} {st : Search V}
    (h : (searchSystem block memory env eps start goal).Reachable st) : Inv env eps start none st := by
  apply h.invariant (I := Inv env eps start none)
  · rintro st rfl
    exact inv_searchStart block memory env eps start goal
  · rintro st st' - I ⟨-, hit⟩
    exact I.iteration hit

theorem loop_of_ne_top {goal : V} {fuel : ℕ} {st : Search V} (hg : (st.states goal).g ≠ ⊤) :
    loop env eps goal fuel st = .stopped st := by
  unfold loop
  rw [if_neg hg]

theorem loop_of_top {goal : V} {fuel : ℕ} {st : Search V} (hg : (st.states goal).g = ⊤) :
    loop env eps goal (fuel + 1) st
      = match iteration env eps st with
        | none => .emptyPop
        | some st' => loop env eps goal fuel st' := by
  rw [loop, if_pos hg]

/-- **Every run ends**: with the destination labelled, or with an empty queue. -/
theorem loop_ends [Fintype V] {block : ℕ → KV Dist V} {memory : V → ℤ} {start goal : V} :
    ∀ (fuel : ℕ) {st : Search V}, (searchSystem block memory env eps start goal).Reachable st →
      st.frontier.size + env.getSuccs.arcCount
        ≤ AStar.expandedArcs env.getSuccs st.expanded + fuel →
      (∃ st', loop env eps goal (fuel + 1) st = .stopped st' ∧ st'.g goal ≠ ⊤ ∧
        (searchSystem block memory env eps start goal).Steps st st') ∨
      (loop env eps goal (fuel + 1) st = .emptyPop ∧
        ∃ st', (searchSystem block memory env eps start goal).Reachable st' ∧
          st'.g goal = ⊤ ∧ st'.frontier.size = 0) := by
  intro fuel
  induction fuel with
  | zero =>
    intro st hst hfuel
    have hle := AStar.expandedArcs_le env.getSuccs st.expanded
    have hempty : st.frontier.size = 0 := by omega
    by_cases hg : (st.states goal).g = ⊤
    · refine Or.inr ⟨?_, st, hst, hg, hempty⟩
      rw [loop_of_top hg, iteration_eq_none_iff.mpr hempty]
    · exact Or.inl ⟨st, loop_of_ne_top hg, hg, System.Steps.refl st⟩
  | succ fuel ih =>
    intro st hst hfuel
    by_cases hg : (st.states goal).g = ⊤
    · rw [loop_of_top hg]
      cases hit : iteration env eps st with
      | none => exact Or.inr ⟨rfl, st, hst, hg, iteration_eq_none_iff.mp hit⟩
      | some st₁ =>
        have hstep : (searchSystem block memory env eps start goal).step st st₁ := ⟨hg, hit⟩
        have hprog := (reachable_inv hst).progress hit
        rcases ih (hst.step hstep) (by omega) with ⟨st', hrun, hfin, hsteps⟩ | hdry
        · exact Or.inl ⟨st', hrun, hfin, System.Steps.head hstep hsteps⟩
        · exact Or.inr hdry
    · exact Or.inl ⟨st, loop_of_ne_top hg, hg, System.Steps.refl st⟩

/-- **The search stops with a label exactly when the goal can be reached**, and otherwise pops an
empty queue; `|arcs| + 2` rounds of the loop are always enough. -/
theorem search_ends [Fintype V] (block : ℕ → KV Dist V) (memory : V → ℤ) (env : Environment V)
    (eps : ℚ) (start goal : V) {fuel : ℕ} (hfuel : env.getSuccs.arcCount + 2 ≤ fuel) :
    (env.getSuccs.Reaches start goal →
      ∃ st, search block memory env eps start goal fuel = .stopped st ∧ st.g goal ≠ ⊤ ∧
        (searchSystem block memory env eps start goal).Reachable st) ∧
    (¬ env.getSuccs.Reaches start goal →
      search block memory env eps start goal fuel = .emptyPop) := by
  have hstart : (searchSystem block memory env eps start goal).Reachable
      (searchStart block memory env eps start goal) := System.Reachable.of_init rfl
  have hsize : (searchStart block memory env eps start goal).frontier.size = 1 := by
    rw [← ValidHeap.card_entries]
    simp [searchStart, wAStarStart]
  obtain ⟨n, rfl⟩ : ∃ n, fuel = n + 1 := ⟨fuel - 1, by omega⟩
  rcases loop_ends n hstart (by rw [hsize]; omega) with
    ⟨st, hrun, hfin, hsteps⟩ | ⟨hrun, st, hst, htop, hempty⟩
  · have hreach := hstart.steps hsteps
    refine ⟨fun _ => ⟨st, hrun, hfin, hreach⟩, fun hun => ?_⟩
    exact absurd ((reachable_inv hreach).forest.reaches hfin) hun
  · refine ⟨fun hr => ?_, fun _ => hrun⟩
    exact absurd htop ((reachable_inv hst).labelled_of_empty hempty hr)

end PwsaStar.Sbpl
