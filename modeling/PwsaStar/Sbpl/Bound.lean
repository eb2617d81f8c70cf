/-
# PwsaStar.Sbpl.Bound — how far from optimal `wAStar` may stop.

Weighted A* earns its bound when the destination is popped: at that moment its key is the least one
in the queue.  `wAStar` stops earlier, when the destination is labelled, and its keys lose their
fraction on the way into the heap.  Each of the two costs it the bound (`early_stop`,
`lost_fraction`).

`Timely` is what an iteration has to do to stay harmless: pop a vertex whose label no way through an
open vertex undercuts, and label the goal only with a value that no way through an open vertex
undercuts.  A way counts with the factor `eps` from the open vertex on.  A run of timely iterations
keeps the bound (`wAStar_bounded_of_timely`), whatever the heuristic is.  With a consistent one, when
`eps * h` is a whole number everywhere the first half comes from the heap, and when the last action
before the goal costs at most `eps * h` the second half does (`timely_of_close`).
-/
import PwsaStar.Sbpl.WAStar

namespace PwsaStar.Sbpl

open PwsaStar.Lib PwsaStar.Heap

variable {V : Type*} [DecidableEq V]

/-- A consistent goal heuristic: it drops by at most the cost along every action and is 0 at the
goal. -/
structure GoalHeuristic (env : Environment V) (goal : V) : Prop where
  drop : ∀ u v w, env.getSuccs.Arc u v w → env.getGoalHeuristic u ≤ w + env.getGoalHeuristic v
  zero : env.getGoalHeuristic goal = 0

/-- **A harmless iteration**, as a condition on the state before it.  `a` is the label of the vertex
`v` that is popped and not expanded yet. -/
structure Timely (env : Environment V) (eps : ℚ) (goal : V) (st : Search V) (v : V) (a : ℤ) :
    Prop where
  /-- No way through an open vertex undercuts the label of `v`. -/
  ordered : ∀ x (b d : ℤ), st.expanded x = false → st.g x = (b : Dist) →
    env.getSuccs.Walk x v d → (a : ℚ) ≤ b + eps * d
  /-- An action to the goal is undercut neither through another open vertex nor through another
  action of `v`. -/
  due : (∃ w, env.getSuccs.Arc v goal w) → ∃ w, env.getSuccs.Arc v goal w ∧
    (∀ x (b d : ℤ), x ≠ v → st.expanded x = false → st.g x = (b : Dist) →
      env.getSuccs.Walk x goal d → (a : ℚ) + w ≤ b + eps * d) ∧
    ∀ x w' d, env.getSuccs.Arc v x w' → st.expanded x = false → env.getSuccs.Walk x goal d →
      (w : ℚ) ≤ eps * (w' + d)

/-- The iteration out of `st` is harmless. -/
def TimelyStep (env : Environment V) (eps : ℚ) (goal : V) (st : Search V) : Prop :=
  ∀ v frontier (a : ℤ), st.frontier.deleteMin = some (v, frontier) → st.expanded v = false →
    st.g v = (a : Dist) → Timely env eps goal st v a

variable {env : Environment V} {eps : ℚ} {start goal : V}

/-! ## Timely iterations keep the bound -/

omit [DecidableEq V] in
/-- A goal heuristic drops by at most the cost along every walk. -/
theorem GoalHeuristic.le_walk (hh : GoalHeuristic env goal) {u v : V} {d : ℤ} (hw : env.getSuccs.Walk u v d) :
    env.getGoalHeuristic u ≤ d + env.getGoalHeuristic v := by
  have hc : env.getSuccs.Consistent 1 env.getGoalHeuristic := by
    intro p q w harc
    have := hh.drop p q w harc
    rw [one_mul]
    exact_mod_cast this
  have h := hw.potential_le hc
  rw [one_mul] at h
  exact_mod_cast h

/-- The labels of the expanded states are within the factor `eps`. -/
def Bounded (env : Environment V) (eps : ℚ) (start : V) (st : Search V) : Prop :=
  Settled env.getSuccs start eps (fun v => st.expanded v = true) st.g

omit [DecidableEq V] in
/-- The label of a vertex popped in order is within the factor `eps`. -/
theorem Timely.popped_le {st : Search V} (S : Bounded env eps start st) {v : V} {a : ℤ} (T : Timely env eps goal st v a)
    (hv : st.expanded v = false) (ha : st.g v = (a : Dist)) :
    ∀ d, env.getSuccs.Walk start v d → (a : ℝ) ≤ (eps : ℝ) * d := by
  intro d hw
  have hrule : ∀ u (b : ℤ) d₂, ¬ st.expanded u = true → st.g u = (b : Dist) →
      env.getSuccs.Walk u v d₂ → (a : ℝ) ≤ b + (eps : ℝ) * d₂ := by
    intro u b d₂ hu hb hrest
    exact_mod_cast T.ordered u b d₂ (by simpa using hu) hb hrest
  obtain ⟨a', ha', hle⟩ := Settled.select S (by simp [hv]) ha hrule hw
  rw [ha] at ha'
  obtain rfl : a = a' := by exact_mod_cast ha'
  exact hle

theorem Bounded.iteration (heps : 1 ≤ eps)
    {st st' : Search V} (I : Inv env eps start none st) (S : Bounded env eps start st)
    (hT : TimelyStep env eps goal st) (h : iteration env eps st = some st') :
    Bounded env eps start st' := by
  obtain ⟨v, frontier, hpop, ⟨-, rfl⟩ | ⟨hv, hst'⟩⟩ := iteration_cases h
  · have hg : (Search.mk (getState env v st.states) frontier).g = st.g := by
      funext u; simp [Search.g]
    have hexp : (Search.mk (getState env v st.states) frontier).expanded = st.expanded := by
      funext u; simp [Search.expanded]
    unfold Bounded
    rw [hg, hexp]
    exact S
  · obtain ⟨a, ha⟩ := I.popped hpop
    obtain ⟨I', hexp, hlower, -, hheads, -⟩ := I.expand hpop ha hst'
    have hbound := (hT v frontier a hpop hv ha).popped_le S hv ha
    have heps' : (1 : ℝ) ≤ eps := by exact_mod_cast heps
    have hself : st'.g v ≤ (a : Dist) := ha ▸ hlower v
    apply ((S.lower hlower I'.forest.root).close heps' hbound hself hheads).congr
    intro u hu
    rw [hexp] at hu
    exact (update_mark_iff.mp hu).symm

/-- **The iteration that labels the goal** labels it within the factor `eps`, if it is timely. -/
theorem Bounded.goal_le
    {st st' : Search V} (I : Inv env eps start none st)
    (S : Bounded env eps start st) (hT : TimelyStep env eps goal st)
    (htop : st.g goal = ⊤) (h : Sbpl.iteration env eps st = some st') {c : ℤ}
    (hc : st'.g goal = (c : Dist)) {d : ℤ} (hw : env.getSuccs.Walk start goal d) :
    (c : ℚ) ≤ eps * d := by
  obtain ⟨v, frontier, hpop, ⟨-, rfl⟩ | ⟨hv, hst'⟩⟩ := iteration_cases h
  · -- a dropped entry labels nothing
    have hsame : (Search.mk (getState env v st.states) frontier).g goal = st.g goal := by
      simp [Search.g]
    rw [hsame, htop] at hc
    cases hc
  · obtain ⟨a, ha⟩ := I.popped hpop
    obtain ⟨I', hexp, hlower, horigin, hheads, -⟩ := I.expand hpop ha hst'
    have T := hT v frontier a hpop hv ha
    have hbound := T.popped_le S hv ha
    have harcs : ∃ w, env.getSuccs.Arc v goal w := by
      rcases horigin goal with hsame | ⟨w, harc, -⟩
      · rw [hc, htop] at hsame
        cases hsame
      · exact ⟨w, harc⟩
    obtain ⟨w, harc, hopen, hnew⟩ := T.due harcs
    have hcw : c ≤ a + w := by exact_mod_cast hc ▸ hheads goal w harc
    have hcw' : (c : ℚ) ≤ a + w := by exact_mod_cast hcw
    -- cut the walk where it leaves the expanded states, `v` included, for the last time
    have hnot : ¬ (st.expanded goal = true ∨ goal = v) := by
      rintro (hg | rfl)
      · obtain ⟨b, hb, -⟩ := S.label goal d hg hw
        rw [htop] at hb
        cases hb
      · rw [htop] at ha
        cases ha
    obtain ⟨u, d₁, d₂, rfl, hu, hrest, hfirst⟩ :=
      hw.cut (fun x => st.expanded x = true ∨ x = v) hnot
    have huexp : st.expanded u = false := by
      have : ¬ st.expanded u = true := fun h => hu (Or.inl h)
      simpa using this
    have hthrough : ∀ b : ℤ, st.g u = (b : Dist) → (b : ℝ) ≤ (eps : ℝ) * d₁ →
        (c : ℚ) ≤ eps * ((d₁ + d₂ : ℤ) : ℚ) := by
      intro b hb hle
      have hle' : (b : ℚ) ≤ eps * d₁ := by exact_mod_cast hle
      have := hopen u b d₂ (fun h => hu (Or.inr h)) huexp hb hrest
      push_cast
      nlinarith
    rcases hfirst with ⟨rfl, rfl⟩ | ⟨p, d₀, w', hp | rfl, hpre, hpu, rfl⟩
    · exact hthrough 0 S.root (by simp)
    · obtain ⟨b, hb, hle⟩ := S.heads p u w' d₀ hp hpu hpre
      exact hthrough b hb (by exact_mod_cast hle)
    · have h1 : (a : ℚ) ≤ eps * d₀ := by exact_mod_cast hbound d₀ hpre
      have h2 := hnew u w' d₂ hpu huexp hrest
      push_cast
      nlinarith

/-! ## Whole runs -/

section Run

variable {block : ℕ → KV Dist V} {memory : V → ℤ}

theorem reachable_bounded (heps : 1 ≤ eps)
    (hT : ∀ c, (searchSystem block memory env eps start goal).Reachable c → c.g goal = ⊤ →
      TimelyStep env eps goal c)
    {st : Search V} (hst : (searchSystem block memory env eps start goal).Reachable st) :
    Bounded env eps start st := by
  apply hst.invariant (I := Bounded env eps start)
  · rintro st rfl
    have hroot := (inv_searchStart block memory env eps start goal).forest.root
    apply (Settled.start env.getSuccs start eps hroot).congr
    intro v hv
    have hnone : (searchStart block memory env eps start goal).expanded v = false := by
      by_cases hvs : v = start
      · subst hvs
        simp [searchStart, wAStarStart, initializeSearch, Search.expanded, AstarState.new]
      · simp [searchStart, wAStarStart, initializeSearch, Search.expanded, AstarState.new,
          Function.update_of_ne hvs]
    rw [hnone] at hv
    cases hv
  · rintro st st' hst S ⟨htop, hit⟩
    exact S.iteration heps (reachable_inv hst) (hT st hst htop) hit

/-- The goal has no label before the first iteration. -/
theorem searchStart_goal (hne : start ≠ goal) :
    (searchStart block memory env eps start goal).g goal = ⊤ := by
  simp [searchStart, wAStarStart, initializeSearch, Search.g, AstarState.new,
    Function.update_of_ne (Ne.symm hne)]

/-- Where a goal label comes from: an iteration out of a state without one. -/
theorem labelled_step (hne : start ≠ goal) {st : Search V}
    (hst : (searchSystem block memory env eps start goal).Reachable st) (hfin : st.g goal ≠ ⊤) :
    ∃ c, (searchSystem block memory env eps start goal).Reachable c ∧ c.g goal = ⊤ ∧
      iteration env eps c = some st := by
  obtain ⟨_, rfl, hsteps⟩ := hst
  rcases Relation.ReflTransGen.cases_tail hsteps with rfl | ⟨c, hpre, htop, hit⟩
  · exact absurd (searchStart_goal hne) hfin
  · exact ⟨c, ⟨_, rfl, hpre⟩, htop, hit⟩

end Run

/-- **The bound of `wAStar`.**  For every environment, every `eps ≥ 1`, every goal heuristic and every
reachable goal the search stops with a label for the goal; if every iteration of the run was timely,
the label is within the factor `eps` of the optimal cost. -/
theorem wAStar_bounded_of_timely [Fintype V] (env : Environment V) (eps : ℚ) (heps : 1 ≤ eps)
    (start goal : V) (hne : start ≠ goal) (hreach : env.getSuccs.Reaches start goal)
    (block : ℕ → KV Dist V) (memory : V → ℤ) (fuel : ℕ) (hfuel : env.getSuccs.arcCount + 2 ≤ fuel) :
    ∃ st, search block memory env eps start goal fuel = .stopped st ∧
      ((∀ c, (searchSystem block memory env eps start goal).Reachable c → c.g goal = ⊤ →
          TimelyStep env eps goal c) →
        ∃ a : ℤ, st.g goal = (a : Dist) ∧
          ∀ d, env.getSuccs.IsDist start goal d → (a : ℚ) ≤ eps * d) := by
  obtain ⟨st, hrun, hfin, hst⟩ := (search_ends block memory env eps start goal hfuel).1 hreach
  refine ⟨st, hrun, fun hT => ?_⟩
  obtain ⟨a, ha⟩ := WithTop.ne_top_iff_exists.mp hfin
  obtain ⟨c, hc, htop, hit⟩ := labelled_step hne hst hfin
  refine ⟨a, ha.symm, fun d hd => ?_⟩
  exact (reachable_bounded heps hT hc).goal_le (reachable_inv hc) (hT c hc htop) htop hit
    ha.symm hd.1

/-! ## When the iterations are timely -/

/-- No key loses a fraction. -/
def Whole (env : Environment V) (eps : ℚ) (start : V) : Prop :=
  ∀ v, env.getSuccs.Reaches start v → ∃ k : ℤ, eps * env.getGoalHeuristic v = k

/-- The cheapest action into the goal costs no more than `eps * h`. -/
def Close (env : Environment V) (eps : ℚ) (goal : V) : Prop :=
  ∀ v w₀, env.getSuccs.Arc v goal w₀ →
    ∃ w, env.getSuccs.Arc v goal w ∧ (w : ℚ) ≤ eps * env.getGoalHeuristic v

omit [DecidableEq V] in
/-- Whole keys are popped in order. -/
theorem Inv.ordered {st : Search V} (I : Inv env eps start none st) (hwhole : Whole env eps start)
    {v : V} {frontier : ValidHeap Dist V} (hpop : st.frontier.deleteMin = some (v, frontier)) {a : ℤ}
    (ha : st.g v = (a : Dist)) (x : V) (b : ℤ) (hx : st.expanded x = false)
    (hb : st.g x = (b : Dist)) :
    (a : ℚ) + eps * env.getGoalHeuristic v ≤ b + eps * env.getGoalHeuristic x := by
  obtain ⟨p, hent, hmin⟩ := ValidHeap.entries_deleteMin hpop
  obtain ⟨hkey, -⟩ := I.keys ⟨p, v⟩ (by rw [hent]; exact Multiset.mem_cons_self _ _)
  have hle := hkey.trans (hmin _ (I.queued x b hb hx))
  obtain ⟨k, hk⟩ := hwhole v (I.forest.reaches (by rw [ha]; exact WithTop.coe_ne_top))
  obtain ⟨l, hl⟩ := hwhole x (I.forest.reaches (by rw [hb]; exact WithTop.coe_ne_top))
  have hcast : ∀ m n : ℤ, (m : ℚ) + n = ((m + n : ℤ) : ℚ) := fun m n => (Int.cast_add m n).symm
  rw [ha, priority_coe, priority_coe, hk, hl, hcast, hcast, toLong_intCast, toLong_intCast] at hle
  have hle' : k + a ≤ l + b := WithTop.coe_le_coe.mp hle
  rw [hk, hl]
  have : (k : ℚ) + a ≤ l + b := by exact_mod_cast hle'
  linarith

/-- **Conditions on the inputs** under which every iteration is timely. -/
theorem timely_of_close (heps : 1 ≤ eps) (hh : GoalHeuristic env goal) (hwhole : Whole env eps start)
    (hclose : Close env eps goal) {block : ℕ → KV Dist V} {memory : V → ℤ} {st : Search V}
    (hst : (searchSystem block memory env eps start goal).Reachable st) :
    TimelyStep env eps goal st := by
  intro v frontier a hpop hv ha
  have hord := (reachable_inv hst).ordered hwhole hpop ha
  -- the heuristic bounds what is left of every way
  have hleft : ∀ {x y d}, env.getSuccs.Walk x y d →
      (env.getGoalHeuristic x : ℚ) ≤ d + env.getGoalHeuristic y :=
    fun hrest => by exact_mod_cast hh.le_walk hrest
  have hgoal : ∀ {x d}, env.getSuccs.Walk x goal d → (env.getGoalHeuristic x : ℚ) ≤ d :=
    fun hrest => by simpa [hh.zero] using hleft hrest
  refine ⟨?_, ?_⟩
  · intro x b d hx hb hrest
    have hkey := hord x b hx hb
    have hdrop := hleft hrest
    nlinarith
  · rintro ⟨w₀, hw₀⟩
    obtain ⟨w, harc, hw⟩ := hclose v w₀ hw₀
    refine ⟨w, harc, ?_, ?_⟩
    · intro x b d _ hx hb hrest
      have hkey := hord x b hx hb
      have hdrop := hgoal hrest
      nlinarith
    · intro x w' d hx _ hrest
      have hfirst : (env.getGoalHeuristic v : ℚ) ≤ w' + env.getGoalHeuristic x := by
        exact_mod_cast hh.drop v x w' hx
      have hdrop := hgoal hrest
      nlinarith

/-! ## Three stops and a detour -/

/-- The stops of a small network. -/
inductive Stop where
  | home
  | mid
  | shop
  deriving DecidableEq

instance : Fintype Stop where
  elems := {.home, .mid, .shop}
  complete v := by cases v <;> simp

/-- From home to the shop over `mid` for `1 + 1`, and directly for each of the costs listed. -/
def detour (direct : List ℕ) : WGraph Stop where
  nbrs v := match v with
    | .home => direct.map (fun c : ℕ => (.shop, (c : ℤ))) ++ [(.mid, 1)]
    | .mid => [(.shop, 1)]
    | .shop => []
  nonneg v a ha := by
    cases v with
    | home =>
      rcases List.mem_append.mp ha with h | h
      · obtain ⟨c, -, rfl⟩ := List.mem_map.mp h
        exact Int.natCast_nonneg c
      · obtain rfl := List.mem_singleton.mp h
        decide
    | mid =>
      obtain rfl := List.mem_singleton.mp ha
      decide
    | shop => exact absurd ha List.not_mem_nil

/-- The environment with the costs of `detour` and the remaining number of stops as heuristic. -/
def detourEnv (direct : List ℕ) : Environment Stop where
  getSuccs := detour direct
  getGoalHeuristic v := match v with
    | .home => 2
    | .mid => 1
    | .shop => 0

theorem goalHeuristic_detour (direct : List ℕ) (hdirect : ∀ c ∈ direct, 2 ≤ c) :
    GoalHeuristic (detourEnv direct) .shop where
  drop u v w harc := by
    cases u with
    | home =>
      rcases List.mem_append.mp harc with h | h
      · obtain ⟨c, hc, heq⟩ := List.mem_map.mp h
        obtain ⟨rfl, rfl⟩ := Prod.mk.inj heq
        have h2 : (2 : ℤ) ≤ c := by exact_mod_cast hdirect c hc
        simpa [detourEnv] using h2
      · obtain ⟨rfl, rfl⟩ := Prod.mk.inj (List.mem_singleton.mp h)
        simp [detourEnv]
    | mid =>
      obtain ⟨rfl, rfl⟩ := Prod.mk.inj (List.mem_singleton.mp harc)
      simp [detourEnv]
    | shop => exact absurd harc List.not_mem_nil
  zero := rfl

theorem walk_detour (direct : List ℕ) : (detour direct).Walk .home .shop 2 := by
  have h₁ : (detour direct).Arc .home .mid 1 := List.mem_append_right _ (List.mem_singleton.mpr rfl)
  have h₂ : (detour direct).Arc .mid .shop 1 := List.mem_singleton.mpr rfl
  exact (WGraph.Walk.single h₁).snoc h₂

/-- The direct action of cost 10 is taken although the detour costs 2. -/
theorem early_stop : GoalHeuristic (detourEnv [10]) .shop ∧
    (detour [10]).IsDist .home .shop 2 ∧
    ∃ st, search (fun _ => ⟨⊤, .home⟩) (fun _ => 0) (detourEnv [10]) 1 .home .shop 1 = .stopped st ∧
      st.g .shop = ((10 : ℤ) : Dist) ∧ ¬ ((10 : ℤ) : ℚ) ≤ 1 * ((2 : ℤ) : ℚ) := by
  have hh : GoalHeuristic (detourEnv [10]) .shop := goalHeuristic_detour [10] (by simp)
  refine ⟨hh, ⟨walk_detour [10], ?_⟩, ?_⟩
  · intro d hd
    have := hh.le_walk (d := d) hd
    simpa [detourEnv] using this
  · exact ⟨_, rfl, by decide +kernel, by norm_num⟩

/-- Without the direct action the search stops at the optimum. -/
theorem wAStar_bounded_of_timely_detour : ∃ st,
    search (fun _ => ⟨⊤, .home⟩) (fun _ => 0) (detourEnv []) 2 .home .shop 4 = .stopped st ∧
    ∃ a : ℤ, st.g .shop = (a : Dist) ∧
      ∀ d, (detour []).IsDist .home .shop d → (a : ℚ) ≤ 2 * d := by
  have hh : GoalHeuristic (detourEnv []) .shop := goalHeuristic_detour [] (by simp)
  have hwhole : Whole (detourEnv []) 2 .home := by
    intro v _
    exact ⟨2 * (detourEnv []).getGoalHeuristic v, by push_cast; rfl⟩
  have hclose : Close (detourEnv []) 2 .shop := by
    intro v w₀ hw₀
    refine ⟨w₀, hw₀, ?_⟩
    cases v with
    | home =>
      have heq := (Prod.mk.inj (List.mem_singleton.mp hw₀)).1
      cases heq
    | mid =>
      obtain ⟨-, rfl⟩ := Prod.mk.inj (List.mem_singleton.mp hw₀)
      norm_num [detourEnv]
    | shop => exact absurd hw₀ List.not_mem_nil
  have harcs : (detour []).arcCount = 2 := by decide
  obtain ⟨st, hrun, hbound⟩ := wAStar_bounded_of_timely (detourEnv []) 2 (by norm_num) .home .shop
    (by decide) ⟨2, walk_detour []⟩ (fun _ => ⟨⊤, .home⟩) (fun _ => 0) 4
    (by rw [show (detourEnv []).getSuccs.arcCount = 2 from harcs])
  exact ⟨st, hrun, hbound fun c hc _ => timely_of_close (by norm_num) hh hwhole hclose hc⟩

/-! ## Six stops and a lost fraction -/

/-- Two shortcuts in a row: `0 → 2` for 2 beside `0 → 1 → 2` for 1, and `2 → 4` for 2 beside
`2 → 3 → 4` for 1; then `4 → 5` for 1. -/
def shortcuts : WGraph (Fin 6) where
  nbrs v :=
    if v = 0 then [(2, 2), (1, 0)] else if v = 1 then [(2, 1)]
    else if v = 2 then [(3, 0), (4, 2)] else if v = 3 then [(4, 1)]
    else if v = 4 then [(5, 1)] else []
  nonneg := by decide

def shortcutsEnv : Environment (Fin 6) where
  getSuccs := shortcuts
  getGoalHeuristic v := if v = 5 then 0 else if v = 1 ∨ v = 3 then 2 else 1

/-- The loop stopped in a state that passes the test. -/
def Outcome.stopsWith (test : Search V → Bool) : Outcome V → Bool
  | .stopped st => test st
  | .emptyPop => false
  | .outOfFuel => false

omit [DecidableEq V] in
theorem Outcome.exists_of_stopsWith {test : Search V → Bool} {o : Outcome V}
    (h : o.stopsWith test = true) : ∃ st, o = .stopped st ∧ test st = true := by
  cases o with
  | stopped st => exact ⟨st, rfl, h⟩
  | emptyPop => cases h
  | outOfFuel => cases h

/-- With `eps = 3/2` half a unit of `eps * h` is lost at the stops with `h = 1`.  The goal's label is
the least key in the queue when the loop stops, and still beyond the bound. -/
theorem lost_fraction : GoalHeuristic shortcutsEnv 5 ∧ shortcuts.Walk 0 5 3 ∧
    ∃ st, search (fun _ => ⟨⊤, 0⟩) (fun _ => 0) shortcutsEnv (3 / 2) 0 5 9 = .stopped st ∧
      st.g 5 = ((5 : ℤ) : Dist) ∧ (∀ e ∈ st.frontier.entries, st.g 5 ≤ e.priority) ∧
      ¬ ((5 : ℤ) : ℚ) ≤ 3 / 2 * ((3 : ℤ) : ℚ) := by
  have hdrop : ∀ u, ∀ a ∈ shortcuts.nbrs u,
      shortcutsEnv.getGoalHeuristic u ≤ a.2 + shortcutsEnv.getGoalHeuristic a.1 := by decide
  refine ⟨⟨fun u v w harc => hdrop u (v, w) harc, rfl⟩, ?_, ?_⟩
  · have h₁ : shortcuts.Walk 0 1 0 := WGraph.Walk.single (by decide)
    have h₂ : shortcuts.Walk 0 2 1 := h₁.snoc (w := 1) (by decide)
    have h₃ : shortcuts.Walk 0 3 1 := h₂.snoc (w := 0) (by decide)
    have h₄ : shortcuts.Walk 0 4 2 := h₃.snoc (w := 1) (by decide)
    exact h₄.snoc (w := 1) (by decide)
  · have hrun : (search (fun _ => ⟨⊤, 0⟩) (fun _ => 0) shortcutsEnv (3 / 2) 0 5 9).stopsWith
        (fun st => st.g 5 = ((5 : ℤ) : Dist) ∧ ∀ e ∈ st.frontier.entries, st.g 5 ≤ e.priority)
        = true := by decide +kernel
    obtain ⟨st, hst, htest⟩ := Outcome.exists_of_stopsWith hrun
    obtain ⟨hlabel, hleast⟩ := of_decide_eq_true htest
    exact ⟨st, hst, hlabel, hleast, by norm_num⟩

end PwsaStar.Sbpl
