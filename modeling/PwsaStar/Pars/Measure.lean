/-
# PwsaStar.Pars.Measure — what every step of `pars` uses up.

A state is measured by

1. the vertices that are neither final nor about to be,
2. the phase,
3. the vertices without a label, and the sum of the labels,
4. the work left to the iterations,

in this order.  Every step lowers the measure, except a `compare_exchange_weak` that fails for no
reason: the first component drops when a round chooses its independent vertices, the third when an
exchange succeeds, and an exchange that is bound to fail counts more than the load it goes back to.
-/
import PwsaStar.Pars.Run
import Mathlib.Data.Prod.Lex
import Mathlib.Data.Fintype.Card
import Mathlib.Algebra.Order.BigOperators.Group.Finset

namespace PwsaStar.Pars

open PwsaStar.Lib PwsaStar.ArrayUtil

variable {V : Type} [DecidableEq V] {P : Problem V}

/-! ## The measure -/

/-- The vertices that a round has chosen and is making final. -/
def pending : Phase V → List V
  | .setDist ind _ => ind
  | _ => []

/-- The number of vertices that are neither final nor about to be. -/
def openCount [Fintype V] (s : State V) : ℕ :=
  (Finset.univ.filter fun v => s.mem.finalized v = INFINITE ∧ v ∉ pending s.phase).card

/-- The order of the phases between two choices. -/
def rank : Phase V → ℕ
  | .setDist _ _ => 4
  | .successors _ _ _ _ => 3
  | .test => 2
  | .independence _ _ => 1
  | .returned => 0
  | .aborted => 0

def unlabelled [Fintype V] (m : Mem V) : ℕ :=
  (Finset.univ.filter fun v => m.distance v = INFINITE).card

def labelSum [Fintype V] (m : Mem V) : ℕ := ∑ v, (m.distance v).toNat

def Check.work : Check → ℕ
  | .idle => 2
  | .loaded _ => 1
  | .verdict _ => 0

def SetPc.work : SetPc → ℕ
  | .start => 2
  | .loaded _ => 1
  | .stored => 0

/-- An exchange that is bound to fail is further from the end than the load before it. -/
def Point.work (m : Mem V) (x : V) : Point → ℕ
  | .arc => 5
  | .cas _ other => if m.distance x = other then 2 else 4
  | .load _ => 3
  | .check => 1
  | .claim => 0

/-- The work left to the iteration for `v`. -/
def SuccPc.work (P : Problem V) (m : Mem V) (v : V) (pc : SuccPc) : ℕ :=
  match (P.graph.nbrs v)[pc.j]? with
  | none => 0
  | some (x, _) => 6 * (outDegree P v - pc.j) + pc.point.work m x

/-- The work left in the loop of the phase. -/
def work (P : Problem V) (s : State V) : ℕ :=
  match s.phase with
  | .independence check written =>
    ∑ i ∈ Finset.range s.mem.frontier.length,
      ((∑ j ∈ Finset.range s.mem.frontier.length, (check i j).work) + (!written i).toNat)
  | .setDist ind pc => ∑ i ∈ Finset.range ind.length, (pc i).work
  | .successors ind _ _ pc =>
    ∑ i ∈ Finset.range ind.length, (ind[i]?).elim 0 fun v => (pc i).work P s.mem v
  | _ => 0

/-- The part of the measure that counts within a phase. -/
def inner [Fintype V] (P : Problem V) (s : State V) : ℕ ×ₗ ℕ ×ₗ ℕ :=
  toLex (unlabelled s.mem, toLex (labelSum s.mem, work P s))

theorem lex_lt {α β : Type} [LinearOrder α] [LinearOrder β] {a a' : α} {b b' : β} (h₁ : a' ≤ a)
    (h₂ : b' < b) : toLex (a', b') < toLex (a, b) := by
  rw [Prod.Lex.toLex_lt_toLex]
  rcases h₁.lt_or_eq with h | h
  · exact Or.inl h
  · exact Or.inr ⟨h, h₂⟩

theorem sum_range_lt {n i : ℕ} {f f' : ℕ → ℕ} (hi : i < n) (hlt : f' i < f i)
    (hsame : ∀ k, k ≠ i → f' k = f k) :
    ∑ k ∈ Finset.range n, f' k < ∑ k ∈ Finset.range n, f k := by
  refine Finset.sum_lt_sum ?_ ⟨i, Finset.mem_range.mpr hi, hlt⟩
  intro k _
  by_cases hk : k = i
  · exact hk ▸ hlt.le
  · exact (hsame k hk).le

section Inner

variable [Fintype V] {m m' : Mem V} {ind : List V} {cells cells' : List (Option V)}
  {pc : ℕ → SuccPc}

omit [DecidableEq V] in
/-- Without a new label it is the work that has to drop. -/
theorem inner_lt_of_work {s s' : State V} (hdist : s'.mem.distance = s.mem.distance)
    (hwork : work P s' < work P s) : inner P s' < inner P s := by
  unfold inner unlabelled labelSum
  rw [hdist]
  exact lex_lt le_rfl (lex_lt le_rfl hwork)

omit [DecidableEq V] in
theorem inner_check_lt {check : ℕ → ℕ → Check} {written : ℕ → Bool} {i j : ℕ} {c : Check}
    (hi : i < m.frontier.length) (hj : j < m.frontier.length) (hc : c.work < (check i j).work) :
    inner P ⟨m, .independence (Function.update check i (Function.update (check i) j c)) written⟩
      < inner P ⟨m, .independence check written⟩ := by
  refine inner_lt_of_work rfl (sum_range_lt hi ?_ ?_)
  · rw [Function.update_self]
    refine Nat.add_lt_add_right (sum_range_lt hj ?_ ?_) _
    · rw [Function.update_self]
      exact hc
    · intro k hk
      rw [Function.update_of_ne hk]
  · intro k hk
    rw [Function.update_of_ne hk]

omit [DecidableEq V] in
theorem inner_write_lt {check : ℕ → ℕ → Check} {written : ℕ → Bool} {i : ℕ} {b : Bool}
    (hi : i < m.frontier.length) (hw : written i = false) :
    inner P ⟨{ m with independent := Function.update m.independent i b },
        .independence check (Function.update written i true)⟩
      < inner P ⟨m, .independence check written⟩ := by
  refine inner_lt_of_work rfl (sum_range_lt hi ?_ ?_)
  · rw [Function.update_self, hw]
    exact Nat.lt_succ_self _
  · intro k hk
    rw [Function.update_of_ne hk]

omit [DecidableEq V] in
theorem inner_set_lt {pc : ℕ → SetPc} {i : ℕ} {p : SetPc} (hdist : m'.distance = m.distance)
    (hi : i < ind.length) (hp : p.work < (pc i).work) :
    inner P ⟨m', .setDist ind (Function.update pc i p)⟩ < inner P ⟨m, .setDist ind pc⟩ := by
  refine inner_lt_of_work hdist (sum_range_lt hi ?_ ?_)
  · rw [Function.update_self]
    exact hp
  · intro k hk
    rw [Function.update_of_ne hk]

omit [DecidableEq V] [Fintype V] in
theorem work_congr (hdist : m'.distance = m.distance) (v : V) (p : SuccPc) :
    p.work P m' v = p.work P m v := by
  unfold SuccPc.work
  cases (P.graph.nbrs v)[p.j]? with
  | none => rfl
  | some arc =>
    cases h : p.point with
    | arc => rfl
    | load _ => rfl
    | cas _ _ => simp [Point.work, hdist]
    | check => rfl
    | claim => rfl

omit [DecidableEq V] in
theorem inner_relax_lt {offsets : List ℕ} {i : ℕ} {v : V} {p : SuccPc}
    (hdist : m'.distance = m.distance) (hi : ind[i]? = some v)
    (hp : p.work P m v < (pc i).work P m v) :
    inner P ⟨m', .successors ind offsets cells' (Function.update pc i p)⟩
      < inner P ⟨m, .successors ind offsets cells pc⟩ := by
  refine inner_lt_of_work hdist (sum_range_lt (List.getElem?_eq_some_iff.mp hi).1 ?_ ?_)
  · rw [hi, Function.update_self]
    dsimp only [Option.elim_some]
    rw [work_congr hdist]
    exact hp
  · intro k hk
    rw [Function.update_of_ne hk]
    cases ind[k]? with
    | none => rfl
    | some u => exact work_congr hdist u (pc k)

omit [DecidableEq V] [Fintype V] in
theorem work_eq {v x : V} {w : ℤ} {j : ℕ} {point : Point}
    (harc : (P.graph.nbrs v)[j]? = some (x, w)) :
    SuccPc.work P m v ⟨j, point⟩ = 6 * (outDegree P v - j) + point.work m x := by
  simp [SuccPc.work, harc]

omit [DecidableEq V] [Fintype V] in
/-- Going on to the next arc leaves less to do. -/
theorem work_advance {v x : V} {w : ℤ} {j : ℕ} (harc : (P.graph.nbrs v)[j]? = some (x, w)) :
    SuccPc.work P m v ⟨j + 1, .arc⟩ < 6 * (outDegree P v - j) := by
  have hlt := lt_outDegree harc
  unfold SuccPc.work
  cases hnext : (P.graph.nbrs v)[j + 1]? with
  | none =>
    dsimp only
    omega
  | some arc =>
    have hlt' := lt_outDegree hnext
    dsimp only [Point.work]
    omega

/-- A successful exchange labels a vertex or lowers a label. -/
theorem inner_exchange_lt {ph ph' : Phase V} {x : V} {mine : ℤ} (hmine : 0 ≤ mine)
    (himp : m.distance x = INFINITE ∨ mine < m.distance x) :
    inner P ⟨{ m with distance := Function.update m.distance x mine }, ph'⟩ < inner P ⟨m, ph⟩ := by
  have hne : mine ≠ INFINITE := by
    unfold INFINITE
    omega
  have hsub : (Finset.univ.filter fun v => Function.update m.distance x mine v = INFINITE)
      ⊆ Finset.univ.filter fun v => m.distance v = INFINITE := by
    intro v hv
    simp only [Finset.mem_filter, Finset.mem_univ, true_and] at hv ⊢
    by_cases hvx : v = x
    · rw [hvx, Function.update_self] at hv
      exact absurd hv hne
    · rwa [Function.update_of_ne hvx] at hv
  unfold inner
  by_cases hinf : m.distance x = INFINITE
  · refine Prod.Lex.toLex_lt_toLex.mpr (Or.inl (Finset.card_lt_card ⟨hsub, fun h => ?_⟩))
    have hx := h (Finset.mem_filter.mpr ⟨Finset.mem_univ x, hinf⟩)
    simp only [Finset.mem_filter, Finset.mem_univ, true_and, Function.update_self] at hx
    exact hne hx
  · have hless := himp.resolve_left hinf
    refine lex_lt (Finset.card_le_card hsub) (Prod.Lex.toLex_lt_toLex.mpr (Or.inl ?_))
    refine Finset.sum_lt_sum ?_ ⟨x, Finset.mem_univ x, ?_⟩
    · intro v _
      by_cases hvx : v = x
      · subst hvx
        dsimp only
        rw [Function.update_self]
        omega
      · dsimp only
        rw [Function.update_of_ne hvx]
    · dsimp only
      rw [Function.update_self]
      omega

/-- **Every operation but a spurious failure makes progress.** -/
theorem inner_operation_lt {offsets : List ℕ} {i : ℕ} {v x : V} {w : ℤ} {place : ℕ} {pc' : SuccPc}
    (R : Relaxing P m ind cells pc) (hi : ind[i]? = some v)
    (harc : (P.graph.nbrs v)[(pc i).j]? = some (x, w))
    (hop : Operation v x w place m cells (pc i).j (pc i).point m' cells' pc') :
    Spurious P ⟨m, .successors ind offsets cells pc⟩
        ⟨m', .successors ind offsets cells' (Function.update pc i pc')⟩ ∨
      inner P ⟨m', .successors ind offsets cells' (Function.update pc i pc')⟩
        < inner P ⟨m, .successors ind offsets cells pc⟩ := by
  have hpci : pc i = ⟨(pc i).j, (pc i).point⟩ := rfl
  have hold : (pc i).work P m v = 6 * (outDegree P v - (pc i).j) + (pc i).point.work m x := by
    rw [hpci]
    exact work_eq harc
  have hadv := work_advance (m := m) harc
  have hok := R.point i v x w hi harc
  generalize hpt : (pc i).point = point at hop hold hok
  cases hop with
  | skip _ =>
    refine Or.inr (inner_relax_lt rfl hi ?_)
    rw [hold]
    omega
  | enter _ =>
    refine Or.inr (inner_relax_lt rfl hi ?_)
    rw [hold, work_eq harc]
    simp [Point.work]
  | enough mine _ _ =>
    refine Or.inr (inner_relax_lt rfl hi ?_)
    rw [hold, work_eq harc]
    simp [Point.work]
  | improve mine _ =>
    refine Or.inr (inner_relax_lt rfl hi ?_)
    rw [hold, work_eq harc]
    simp [Point.work]
  | exchange mine other hother =>
    have hv : v ∈ ind := List.mem_iff_getElem?.mpr ⟨i, hi⟩
    obtain ⟨hfin, hdist⟩ := R.final v (R.closed v hv)
    have hw : 0 ≤ w := WGraph.Arc.nonneg (List.mem_iff_getElem?.mpr ⟨_, harc⟩)
    have hnn := hdist.1.nonneg
    refine Or.inr (inner_exchange_lt ?_ ?_)
    · rw [hok.1, hfin]
      omega
    · rw [hother]
      exact hok.2.2
  | stale mine other hother =>
    refine Or.inr (inner_relax_lt rfl hi ?_)
    rw [hold, work_eq harc]
    simp [Point.work, hother]
  | spurious mine other hother =>
    exact Or.inl ⟨m, ind, offsets, cells, pc, i, v, x, w, mine, other, rfl, hi, harc, hpt, hother,
      rfl⟩
  | seen _ =>
    refine Or.inr (inner_relax_lt rfl hi ?_)
    rw [hold]
    omega
  | unseen _ =>
    refine Or.inr (inner_relax_lt rfl hi ?_)
    rw [hold, work_eq harc]
    simp [Point.work]
  | lost _ =>
    refine Or.inr (inner_relax_lt rfl hi ?_)
    rw [hold]
    omega
  | won _ =>
    refine Or.inr (inner_relax_lt rfl hi ?_)
    rw [hold]
    omega

end Inner

/-- The open vertices only get fewer when a step makes some of them final or chooses them. -/
theorem openCount_le [Fintype V] {s s' : State V}
    (h : ∀ v, s'.mem.finalized v = INFINITE → v ∉ pending s'.phase →
      s.mem.finalized v = INFINITE ∧ v ∉ pending s.phase) : openCount s' ≤ openCount s := by
  apply Finset.card_le_card
  intro v hv
  simp only [Finset.mem_filter, Finset.mem_univ, true_and] at hv ⊢
  exact h v hv.1 hv.2

/-- **What a step does to the measure.** -/
theorem step_measure [Fintype V] (hpair : PairAdmissible P)
    (hreach : P.graph.Reaches P.source P.destination) {s s' : State V} (h : Step P s s')
    (hs : PhaseOk P s.mem s.phase) :
    openCount s' < openCount s ∨ (openCount s' ≤ openCount s ∧
      (rank s'.phase < rank s.phase ∨
        (rank s'.phase = rank s.phase ∧ (Spurious P s s' ∨ inner P s' < inner P s)))) := by
  cases h with
  | enter _ => exact Or.inr ⟨le_rfl, Or.inl (by simp [rank])⟩
  | leave _ => exact Or.inr ⟨le_rfl, Or.inl (by simp [rank])⟩
  | loadMine i j hi hj _ _ hc =>
    refine Or.inr ⟨le_rfl, Or.inr ⟨rfl, Or.inr ?_⟩⟩
    exact inner_check_lt (List.getElem?_eq_some_iff.mp hi).1 (List.getElem?_eq_some_iff.mp hj).1
      (by rw [hc]; simp [Check.work])
  | loadOther i j hi hj _ hc =>
    refine Or.inr ⟨le_rfl, Or.inr ⟨rfl, Or.inr ?_⟩⟩
    exact inner_check_lt (List.getElem?_eq_some_iff.mp hi).1 (List.getElem?_eq_some_iff.mp hj).1
      (by rw [hc]; simp [Check.work])
  | writeTrue i hi hw _ => exact Or.inr ⟨le_rfl, Or.inr ⟨rfl, Or.inr (inner_write_lt hi hw)⟩⟩
  | writeFalse i j hi hw _ => exact Or.inr ⟨le_rfl, Or.inr ⟨rfl, Or.inr (inner_write_lt hi hw)⟩⟩
  | @choose m check written choice independents hall horder hfilter =>
    have C : Checking P m check written := hs
    rw [filter_eq choice _ (C.frontier_ne_nil C.open_ hreach) horder] at hfilter
    obtain rfl := Option.some.inj hfilter
    have hcl := C.choose hpair hreach hall
    have hlen := List.length_pos_iff.mpr hcl.nonempty
    rw [if_neg (by omega)]
    obtain ⟨v, hv⟩ := List.exists_mem_of_ne_nil _ hcl.nonempty
    have hopen : m.finalized v = INFINITE :=
      (((C.frontier v).mp (hcl.chosen v hv).1).2).resolve_right List.not_mem_nil
    -- a chosen vertex leaves the count
    refine Or.inl (Finset.card_lt_card ⟨?_, ?_⟩)
    · intro u hu
      simp only [Finset.mem_filter, Finset.mem_univ, true_and] at hu ⊢
      exact ⟨hu.1, List.not_mem_nil⟩
    · intro hsub
      have hmem := hsub (Finset.mem_filter.mpr ⟨Finset.mem_univ v, hopen, List.not_mem_nil⟩)
      simp only [Finset.mem_filter, Finset.mem_univ, true_and] at hmem
      exact hmem.2 hv
  | load i hi hpc =>
    refine Or.inr ⟨le_rfl, Or.inr ⟨rfl, Or.inr ?_⟩⟩
    exact inner_set_lt rfl (List.getElem?_eq_some_iff.mp hi).1 (by rw [hpc]; simp [SetPc.work])
  | @finalize m ind pc i v d hi hpc =>
    refine Or.inr ⟨openCount_le fun u hu hind => ⟨?_, hind⟩, Or.inr ⟨rfl, Or.inr ?_⟩⟩
    · have huv : u ≠ v := by
        rintro rfl
        exact hind (List.mem_iff_getElem?.mpr ⟨i, hi⟩)
      dsimp only at hu
      rwa [Function.update_of_ne huv] at hu
    · exact inner_set_lt rfl (List.getElem?_eq_some_iff.mp hi).1 (by rw [hpc]; simp [SetPc.work])
  | @scan m ind pc treeMemory outMemory memory offsets len cells hall _ _ _ =>
    have C : Closing P m ind pc := hs
    refine Or.inr ⟨openCount_le fun u hu _ => ⟨hu, fun hind => ?_⟩, Or.inl (by simp [rank])⟩
    obtain ⟨i, hi⟩ := List.mem_iff_getElem?.mp hind
    exact C.stored i u hi (hall i (List.getElem?_eq_some_iff.mp hi).1) hu
  | @relax m m' ind offsets cells cells' pc pc' i spurious v off hi hoff hnext =>
    obtain ⟨R, -⟩ : Relaxing P m ind cells pc ∧ _ := hs
    obtain ⟨x, w, harc, hop⟩ := operation_of_succNext hnext
    have hfin : m'.finalized = m.finalized := hop.finalized_eq
    refine Or.inr ⟨openCount_le fun u hu hind => ⟨?_, hind⟩,
      Or.inr ⟨rfl, inner_operation_lt R hi harc hop⟩⟩
    rw [← hfin]
    exact hu
  | finish => exact Or.inr ⟨openCount_le fun u hu hind => ⟨hu, hind⟩, Or.inl (by simp [rank])⟩

end PwsaStar.Pars
