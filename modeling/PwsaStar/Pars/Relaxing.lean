/-
# PwsaStar.Pars.Relaxing — the concurrent relaxation of a round of `pars`.

Every iteration walks over the arcs of one closed vertex.  `Relaxing` is the invariant: an arc that is
done has its head labelled well enough, a place of `successors` that is done holds a vertex only if
this iteration raised the vertex's flag, and a vertex with a label has its flag raised or some
iteration is about to see to it.

The invariant is kept in four ways (`Relaxing.move`, `.reset`, `.advance`, `.lower`, `.claim`), one
for each kind of operation; `Relaxing.step` puts them together.
-/
import PwsaStar.Pars.Rounds
import Mathlib.Data.List.ReduceOption

namespace PwsaStar.Pars

open PwsaStar.Lib PwsaStar.ArrayUtil

variable {V : Type} {P : Problem V} {m : Mem V} {ind : List V} {cells : List (Option V)}
  {pc : ℕ → SuccPc}

/-- `graph.outDegree` -/
def outDegree (P : Problem V) (v : V) : ℕ := (P.graph.nbrs v).length

/-- Iteration `i` is done with arc `j` of its vertex and has left `x` in its place. -/
def Holds (P : Problem V) (ind : List V) (cells : List (Option V)) (pc : ℕ → SuccPc) (x : V)
    (i j : ℕ) : Prop :=
  ∃ v, ind[i]? = some v ∧ j < outDegree P v ∧ j < (pc i).j ∧
    cells[offset (outDegree P) ind i + j]? = some (some x)

/-- The iteration has made sure of a label and looks after the flag. -/
def Point.Settling : Point → Prop
  | .check => True
  | .claim => True
  | _ => False

/-- What the iteration for `v` knows in the middle of its arc to `x`. -/
def PointOk (m : Mem V) (v x : V) (w : ℤ) : Point → Prop
  | .arc => True
  | .load mine => mine = m.finalized v + w ∧ m.finalized x = INFINITE
  | .cas mine other => mine = m.finalized v + w ∧ m.finalized x = INFINITE ∧
      (other = INFINITE ∨ mine < other)
  | .check => m.finalized x = INFINITE ∧ m.distance x ≠ INFINITE ∧ m.distance x ≤ m.finalized v + w
  | .claim => m.finalized x = INFINITE ∧ m.distance x ≠ INFINITE ∧ m.distance x ≤ m.finalized v + w

/-- **The relaxation in progress.** -/
structure Relaxing (P : Problem V) (m : Mem V) (ind : List V) (cells : List (Option V))
    (pc : ℕ → SuccPc) : Prop extends Base P m where
  nonempty : ind ≠ []
  closed : ∀ v ∈ ind, m.finalized v ≠ INFINITE
  chosen : ∀ v ∈ ind, v ∈ m.frontier
  flagged : ∀ v ∈ m.frontier, m.discovered v = true
  labelled : ∀ v, m.discovered v = true → m.distance v ≠ INFINITE
  size : cells.length = offset (outDegree P) ind ind.length
  heads : ∀ v x w, m.finalized v ≠ INFINITE → v ∉ ind → P.graph.Arc v x w →
    m.distance x ≠ INFINITE ∧ m.distance x ≤ m.finalized v + w
  relaxed : ∀ i v j x w, ind[i]? = some v → j < (pc i).j → (P.graph.nbrs v)[j]? = some (x, w) →
    m.distance x ≠ INFINITE ∧ m.distance x ≤ m.finalized v + w
  point : ∀ i v x w, ind[i]? = some v → (P.graph.nbrs v)[(pc i).j]? = some (x, w) →
    PointOk m v x w (pc i).point
  empty : ∀ i v, ind[i]? = some v → (pc i).j < outDegree P v → (pc i).point ≠ .arc →
    cells[offset (outDegree P) ind i + (pc i).j]? = some none
  known : ∀ x, m.discovered x = true → m.finalized x = INFINITE →
    x ∈ m.frontier ∨ ∃ i j, Holds P ind cells pc x i j
  sound : ∀ x i j, Holds P ind cells pc x i j → m.discovered x = true ∧ x ∉ m.frontier
  unique : ∀ x i j i' j', Holds P ind cells pc x i j → Holds P ind cells pc x i' j' →
    i = i' ∧ j = j'
  settling : ∀ x, m.distance x ≠ INFINITE → m.discovered x = true ∨
    ∃ i v w, ind[i]? = some v ∧ (P.graph.nbrs v)[(pc i).j]? = some (x, w) ∧ (pc i).point.Settling

theorem lt_outDegree {v : V} {j : ℕ} {arc : V × ℤ} (h : (P.graph.nbrs v)[j]? = some arc) :
    j < outDegree P v := (List.getElem?_eq_some_iff.mp h).1

/-- The relaxation starts when all final distances are set. -/
theorem Closing.relaxing {set : ℕ → SetPc} (C : Closing P m ind set)
    (hall : ∀ i < ind.length, set i = .stored)
    (hsize : cells.length = offset (outDegree P) ind ind.length) :
    Relaxing P m ind cells fun _ => ⟨0, .arc⟩ := by
  have hclosed : ∀ v ∈ ind, m.finalized v ≠ INFINITE := by
    intro v hv
    obtain ⟨i, hi⟩ := List.mem_iff_getElem?.mp hv
    exact C.stored i v hi (hall i (List.getElem?_eq_some_iff.mp hi).1)
  have hnone : ∀ x i j, ¬ Holds P ind cells (fun _ => ⟨0, .arc⟩) x i j := by
    rintro x i j ⟨v, -, -, hj, -⟩
    exact absurd hj (Nat.not_lt_zero j)
  refine { C with
    closed := hclosed, chosen := fun v hv => (C.chosen v hv).1, size := hsize
    flagged := ?_, labelled := ?_, relaxed := ?_, point := ?_, empty := ?_, known := ?_, sound := ?_
    unique := ?_, settling := ?_ }
  · exact fun v hv => ((C.frontier v).mp hv).1
  · exact fun v hv => (C.labelled v).mp hv
  · intro i v j x w _ hj
    exact absurd hj (Nat.not_lt_zero j)
  · intro i v x w _ _
    exact trivial
  · intro i v _ _ h
    exact absurd rfl h
  · exact fun x hx hopen => Or.inl ((C.frontier x).mpr ⟨hx, Or.inl hopen⟩)
  · exact fun x i j h => absurd h (hnone x i j)
  · exact fun x i j i' j' h => absurd h (hnone x i j)
  · exact fun x hx => Or.inl ((C.labelled x).mpr hx)

/-! ## Operations that keep the number of arcs done -/

/-- An iteration at another point of its arc, next to the others. -/
theorem point_get (pc : ℕ → SuccPc) (i : ℕ) (point : Point) (i' : ℕ) :
    (Function.update pc i ⟨(pc i).j, point⟩ i').j = (pc i').j ∧
      ((i' = i ∧ (Function.update pc i ⟨(pc i).j, point⟩ i').point = point) ∨
        (i' ≠ i ∧ (Function.update pc i ⟨(pc i).j, point⟩ i').point = (pc i').point)) := by
  by_cases hii : i' = i
  · subst hii
    rw [Function.update_self]
    exact ⟨rfl, Or.inl ⟨rfl, rfl⟩⟩
  · rw [Function.update_of_ne hii]
    exact ⟨rfl, Or.inr ⟨hii, rfl⟩⟩

/-- The places that are done do not depend on the point. -/
theorem holds_update_point {i : ℕ} {point : Point} {x : V} {i' j' : ℕ} :
    Holds P ind cells (Function.update pc i ⟨(pc i).j, point⟩) x i' j'
      ↔ Holds P ind cells pc x i' j' := by
  unfold Holds
  rw [(point_get pc i point i').1]

/-- An iteration moves to another point of the same arc. -/
theorem Relaxing.move (R : Relaxing P m ind cells pc) {i : ℕ} {v x : V} {w : ℤ} {point : Point}
    (hi : ind[i]? = some v) (harc : (P.graph.nbrs v)[(pc i).j]? = some (x, w))
    (hok : PointOk m v x w point)
    (hempty : point ≠ .arc → cells[offset (outDegree P) ind i + (pc i).j]? = some none)
    (hsettle : (pc i).point.Settling → point.Settling) :
    Relaxing P m ind cells (Function.update pc i ⟨(pc i).j, point⟩) := by
  have hget := point_get pc i point
  refine { R with
    relaxed := ?_, point := ?_, empty := ?_, known := ?_, sound := ?_, unique := ?_, settling := ?_ }
  · intro i' v' j x' w' hi' hj harc'
    rw [(hget i').1] at hj
    exact R.relaxed i' v' j x' w' hi' hj harc'
  · intro i' v' x' w' hi' harc'
    rw [(hget i').1] at harc'
    rcases (hget i').2 with ⟨rfl, hp⟩ | ⟨-, hp⟩
    · obtain rfl : v = v' := Option.some.inj (hi.symm.trans hi')
      obtain ⟨rfl, rfl⟩ := Prod.mk.inj (Option.some.inj (harc.symm.trans harc'))
      rw [hp]
      exact hok
    · rw [hp]
      exact R.point i' v' x' w' hi' harc'
  · intro i' v' hi' hj hpt
    rw [(hget i').1] at hj ⊢
    rcases (hget i').2 with ⟨rfl, hp⟩ | ⟨-, hp⟩
    · exact hempty (hp ▸ hpt)
    · exact R.empty i' v' hi' hj (hp ▸ hpt)
  · intro x' hx' hopen
    apply (R.known x' hx' hopen).imp id
    rintro ⟨i', j', h⟩
    exact ⟨i', j', holds_update_point.mpr h⟩
  · exact fun x' i' j' h => R.sound x' i' j' (holds_update_point.mp h)
  · exact fun x' i₁ j₁ i₂ j₂ h₁ h₂ =>
      R.unique x' i₁ j₁ i₂ j₂ (holds_update_point.mp h₁) (holds_update_point.mp h₂)
  · intro x' hx'
    apply (R.settling x' hx').imp id
    rintro ⟨i', v', w', hi', harc', hset⟩
    refine ⟨i', v', w', hi', by rw [(hget i').1]; exact harc', ?_⟩
    rcases (hget i').2 with ⟨rfl, hp⟩ | ⟨-, hp⟩
    · rw [hp]
      exact hsettle hset
    · rw [hp]
      exact hset

/-- The place of an arc that is not done yet may be overwritten. -/
theorem holds_set {i : ℕ} {v : V} (hi : ind[i]? = some v) (hlt : (pc i).j < outDegree P v)
    {y : Option V} {x : V} {i' j' : ℕ} :
    Holds P ind (cells.set (offset (outDegree P) ind i + (pc i).j) y) pc x i' j'
      ↔ Holds P ind cells pc x i' j' := by
  unfold Holds
  refine exists_congr fun v' => and_congr_right fun hi' => and_congr_right fun hlt' =>
    and_congr_right fun hj' => ?_
  have hne : offset (outDegree P) ind i + (pc i).j ≠ offset (outDegree P) ind i' + j' := by
    intro h
    obtain ⟨rfl, rfl⟩ := offset_add_inj hi hlt hi' hlt' h
    exact absurd hj' (lt_irrefl _)
  rw [List.getElem?_set_ne hne]

/-- Clearing the place of the arc that is about to be handled. -/
theorem Relaxing.reset (R : Relaxing P m ind cells pc) {i : ℕ} {v : V} (hi : ind[i]? = some v)
    (hlt : (pc i).j < outDegree P v) :
    Relaxing P m ind (cells.set (offset (outDegree P) ind i + (pc i).j) none) pc := by
  refine { R with size := ?_, empty := ?_, known := ?_, sound := ?_, unique := ?_ }
  · rw [List.length_set]
    exact R.size
  · intro i' v' hi' hlt' hpt
    by_cases hii : i' = i
    · subst hii
      exact List.getElem?_set_self (by rw [R.size]; exact offset_add_lt hi hlt)
    · have hne : offset (outDegree P) ind i + (pc i).j ≠ offset (outDegree P) ind i' + (pc i').j :=
        fun h => hii (offset_add_inj hi hlt hi' hlt' h).1.symm
      rw [List.getElem?_set_ne hne]
      exact R.empty i' v' hi' hlt' hpt
  · intro x hx hopen
    apply (R.known x hx hopen).imp id
    rintro ⟨i', j', h⟩
    exact ⟨i', j', (holds_set hi hlt).mpr h⟩
  · exact fun x i' j' h => R.sound x i' j' ((holds_set hi hlt).mp h)
  · exact fun x i₁ j₁ i₂ j₂ h₁ h₂ =>
      R.unique x i₁ j₁ i₂ j₂ ((holds_set hi hlt).mp h₁) ((holds_set hi hlt).mp h₂)

/-- A label that drops stays a label and below every bound. -/
theorem lower_le [DecidableEq V] {x : V} {mine : ℤ} (hmine : 0 ≤ mine)
    (hle : m.distance x = INFINITE ∨ mine ≤ m.distance x) {u : V} {c : ℤ}
    (h : m.distance u ≠ INFINITE ∧ m.distance u ≤ c) :
    Function.update m.distance x mine u ≠ INFINITE ∧ Function.update m.distance x mine u ≤ c := by
  by_cases hux : u = x
  · subst hux
    rw [Function.update_self]
    have h₁ := hle.resolve_left h.1
    refine ⟨?_, h₁.trans h.2⟩
    unfold INFINITE
    omega
  · rw [Function.update_of_ne hux]
    exact h

/-- The label of the source is never improved. -/
theorem Base.source_ne (B : Base P m) {x : V} {mine : ℤ} (hmine : 0 ≤ mine)
    (hless : m.distance x = INFINITE ∨ mine < m.distance x) : P.source ≠ x := by
  rintro rfl
  rw [B.source] at hless
  rcases hless with hinf | hneg
  · exact absurd hinf (by decide)
  · omega

/-- A label of an open vertex other than the source may be replaced by the weight of a walk. -/
theorem Base.lower [DecidableEq V] (B : Base P m) {x : V} {mine : ℤ}
    (hwalk : P.graph.Walk P.source x mine) (hxs : P.source ≠ x) (hopen : m.finalized x = INFINITE) :
    Base P { m with distance := Function.update m.distance x mine } := by
  refine ⟨?_, (Function.update_of_ne hxs _ _).trans B.source, ?_, B.nodup⟩
  · intro u hu
    dsimp only at hu ⊢
    by_cases hux : u = x
    · subst hux
      rw [Function.update_self]
      exact hwalk
    · rw [Function.update_of_ne hux] at hu ⊢
      exact B.walk u hu
  · intro u hu
    dsimp only at hu ⊢
    have hux : u ≠ x := by
      rintro rfl
      exact hu hopen
    rw [Function.update_of_ne hux]
    exact B.final u hu

/-- What an iteration knows survives when labels drop. -/
theorem PointOk.lower {v x : V} {w : ℤ} {point : Point} {distance : V → ℤ}
    (h : PointOk m v x w point)
    (hmono : ∀ {u : V} {c : ℤ}, m.distance u ≠ INFINITE ∧ m.distance u ≤ c →
      distance u ≠ INFINITE ∧ distance u ≤ c) :
    PointOk { m with distance := distance } v x w point := by
  cases point with
  | arc => exact trivial
  | load mine => exact h
  | cas mine other => exact h
  | check => exact ⟨h.1, hmono h.2⟩
  | claim => exact ⟨h.1, hmono h.2⟩

/-- A successful `compare_exchange_weak`. -/
theorem Relaxing.lower [DecidableEq V] (R : Relaxing P m ind cells pc) {i : ℕ} {v x : V} {w : ℤ}
    {mine other : ℤ} (hi : ind[i]? = some v) (harc : (P.graph.nbrs v)[(pc i).j]? = some (x, w))
    (hpt : (pc i).point = .cas mine other) (hother : m.distance x = other) :
    Relaxing P { m with distance := Function.update m.distance x mine } ind cells
      (Function.update pc i ⟨(pc i).j, .check⟩) := by
  have hok := R.point i v x w hi harc
  rw [hpt] at hok
  obtain ⟨hmine, hopen, himp⟩ := hok
  have hv : v ∈ ind := List.mem_iff_getElem?.mpr ⟨i, hi⟩
  obtain ⟨hfin, hdist⟩ := R.final v (R.closed v hv)
  have hwalk : P.graph.Walk P.source x mine := by
    rw [hmine, hfin]
    exact hdist.1.snoc (List.mem_iff_getElem?.mpr ⟨_, harc⟩)
  have hnn : 0 ≤ mine := hwalk.nonneg
  have hless : m.distance x = INFINITE ∨ mine < m.distance x := by
    rw [hother]
    exact himp
  have hle : m.distance x = INFINITE ∨ mine ≤ m.distance x := hless.imp id le_of_lt
  have hxs := R.source_ne hnn hless
  have hmono : ∀ {u : V} {c : ℤ}, m.distance u ≠ INFINITE ∧ m.distance u ≤ c →
      Function.update m.distance x mine u ≠ INFINITE ∧ Function.update m.distance x mine u ≤ c :=
    fun h => lower_le hnn hle h
  have hget := point_get pc i .check
  refine { R with
    toBase := R.toBase.lower hwalk hxs hopen
    labelled := ?_, heads := ?_, relaxed := ?_, point := ?_, empty := ?_, known := ?_, sound := ?_
    unique := ?_, settling := ?_ }
  · intro u hu
    exact (hmono ⟨R.labelled u hu, le_rfl⟩).1
  · intro p u w' hp hind hpu
    exact hmono (R.heads p u w' hp hind hpu)
  · intro i' v' j x' w' hi' hj harc'
    rw [(hget i').1] at hj
    exact hmono (R.relaxed i' v' j x' w' hi' hj harc')
  · intro i' v' x' w' hi' harc'
    rw [(hget i').1] at harc'
    rcases (hget i').2 with ⟨rfl, hp⟩ | ⟨-, hp⟩
    · obtain rfl : v = v' := Option.some.inj (hi.symm.trans hi')
      obtain ⟨rfl, rfl⟩ := Prod.mk.inj (Option.some.inj (harc.symm.trans harc'))
      rw [hp]
      refine ⟨hopen, ?_, ?_⟩
      · dsimp only
        rw [Function.update_self]
        unfold INFINITE
        omega
      · dsimp only
        rw [Function.update_self]
        exact hmine.le
    · rw [hp]
      exact (R.point i' v' x' w' hi' harc').lower hmono
  · intro i' v' hi' hj hne
    rw [(hget i').1] at hj ⊢
    rcases (hget i').2 with ⟨rfl, hp⟩ | ⟨-, hp⟩
    · exact R.empty i' v' hi' hj (by rw [hpt]; intro h; cases h)
    · exact R.empty i' v' hi' hj (hp ▸ hne)
  · intro x' hx' hopen'
    apply (R.known x' hx' hopen').imp id
    rintro ⟨i', j', h⟩
    exact ⟨i', j', holds_update_point.mpr h⟩
  · exact fun x' i' j' h => R.sound x' i' j' (holds_update_point.mp h)
  · exact fun x' i₁ j₁ i₂ j₂ h₁ h₂ =>
      R.unique x' i₁ j₁ i₂ j₂ (holds_update_point.mp h₁) (holds_update_point.mp h₂)
  · intro u hu
    dsimp only at hu
    by_cases hux : u = x
    · subst hux
      refine Or.inr ⟨i, v, w, hi, by rw [(hget i).1]; exact harc, ?_⟩
      rw [Function.update_self]
      exact trivial
    · rw [Function.update_of_ne hux] at hu
      apply (R.settling u hu).imp id
      rintro ⟨i', v', w', hi', harc', hset⟩
      refine ⟨i', v', w', hi', by rw [(hget i').1]; exact harc', ?_⟩
      rcases (hget i').2 with ⟨rfl, -⟩ | ⟨-, hp⟩
      · rw [hpt] at hset
        exact hset.elim
      · rw [hp]
        exact hset

/-! ## Operations that finish an arc -/

/-- One more place is done. -/
theorem holds_advance {i : ℕ} {v : V} (hi : ind[i]? = some v) (hlt : (pc i).j < outDegree P v)
    {x : V} {i' j' : ℕ} :
    Holds P ind cells (Function.update pc i ⟨(pc i).j + 1, .arc⟩) x i' j' ↔
      Holds P ind cells pc x i' j' ∨ (i' = i ∧ j' = (pc i).j ∧
        cells[offset (outDegree P) ind i + (pc i).j]? = some (some x)) := by
  unfold Holds
  by_cases hii : i' = i
  · subst hii
    rw [Function.update_self]
    constructor
    · rintro ⟨v', hv', hd, hj, hc⟩
      rcases Nat.lt_or_eq_of_le (Nat.lt_succ_iff.mp hj) with hlt' | rfl
      · exact Or.inl ⟨v', hv', hd, hlt', hc⟩
      · exact Or.inr ⟨rfl, rfl, hc⟩
    · rintro (⟨v', hv', hd, hj, hc⟩ | ⟨-, rfl, hc⟩)
      · exact ⟨v', hv', hd, Nat.lt_succ_of_lt hj, hc⟩
      · exact ⟨v, hi, hlt, Nat.lt_succ_self _, hc⟩
  · rw [Function.update_of_ne hii]
    constructor
    · exact fun h => Or.inl h
    · rintro (h | ⟨rfl, -⟩)
      · exact h
      · exact absurd rfl hii

/-- What an iteration that finishes its arc leaves to the others and to itself. -/
theorem advance_get (pc : ℕ → SuccPc) (i i' : ℕ) :
    (i' = i ∧ Function.update pc i ⟨(pc i).j + 1, .arc⟩ i' = ⟨(pc i).j + 1, .arc⟩) ∨
      (i' ≠ i ∧ Function.update pc i ⟨(pc i).j + 1, .arc⟩ i' = pc i') := by
  by_cases hii : i' = i
  · subst hii
    exact Or.inl ⟨rfl, Function.update_self ..⟩
  · exact Or.inr ⟨hii, Function.update_of_ne hii _ _⟩

theorem Relaxing.relaxed_advance (R : Relaxing P m ind cells pc) {i : ℕ} {v x : V} {w : ℤ}
    (hi : ind[i]? = some v) (harc : (P.graph.nbrs v)[(pc i).j]? = some (x, w))
    (hlabel : m.distance x ≠ INFINITE ∧ m.distance x ≤ m.finalized v + w) :
    ∀ i' v' j x' w', ind[i']? = some v' → j < (Function.update pc i ⟨(pc i).j + 1, .arc⟩ i').j →
      (P.graph.nbrs v')[j]? = some (x', w') →
      m.distance x' ≠ INFINITE ∧ m.distance x' ≤ m.finalized v' + w' := by
  intro i' v' j x' w' hi' hj harc'
  rcases advance_get pc i i' with ⟨rfl, hp⟩ | ⟨-, hp⟩
  · rw [hp] at hj
    rcases Nat.lt_or_eq_of_le (Nat.lt_succ_iff.mp hj) with hlt | rfl
    · exact R.relaxed i' v' j x' w' hi' hlt harc'
    · obtain rfl : v = v' := Option.some.inj (hi.symm.trans hi')
      obtain ⟨rfl, rfl⟩ := Prod.mk.inj (Option.some.inj (harc.symm.trans harc'))
      exact hlabel
  · rw [hp] at hj
    exact R.relaxed i' v' j x' w' hi' hj harc'

/-- The iteration that finishes its arc has nothing to know, and the others know what they knew. -/
theorem Relaxing.point_advance (R : Relaxing P m ind cells pc) {i : ℕ} :
    ∀ i' v' x' w', ind[i']? = some v' →
      (P.graph.nbrs v')[(Function.update pc i ⟨(pc i).j + 1, .arc⟩ i').j]? = some (x', w') →
      PointOk m v' x' w' (Function.update pc i ⟨(pc i).j + 1, .arc⟩ i').point := by
  intro i' v' x' w' hi' harc'
  rcases advance_get pc i i' with ⟨rfl, hp⟩ | ⟨-, hp⟩
  · rw [hp]
    exact trivial
  · rw [hp] at harc' ⊢
    exact R.point i' v' x' w' hi' harc'

/-- Who looks after the flag of a labelled vertex when an arc to `x` is finished. -/
theorem Relaxing.settling_advance (R : Relaxing P m ind cells pc) {i : ℕ} {v x : V} {w : ℤ}
    (hi : ind[i]? = some v) (harc : (P.graph.nbrs v)[(pc i).j]? = some (x, w)) {y : V}
    (hy : m.distance y ≠ INFINITE) :
    m.discovered y = true ∨ (y = x ∧ (pc i).point.Settling) ∨
      ∃ i' v' w', ind[i']? = some v' ∧
        (P.graph.nbrs v')[(Function.update pc i ⟨(pc i).j + 1, .arc⟩ i').j]? = some (y, w') ∧
        (Function.update pc i ⟨(pc i).j + 1, .arc⟩ i').point.Settling := by
  rcases R.settling y hy with h | ⟨i', v', w', hi', harc', hset⟩
  · exact Or.inl h
  · rcases advance_get pc i i' with ⟨rfl, -⟩ | ⟨-, hp⟩
    · obtain rfl : v = v' := Option.some.inj (hi.symm.trans hi')
      obtain ⟨rfl, -⟩ := Prod.mk.inj (Option.some.inj (harc.symm.trans harc'))
      exact Or.inr (Or.inl ⟨rfl, hset⟩)
    · exact Or.inr (Or.inr ⟨i', v', w', hi', by rw [hp]; exact harc', by rw [hp]; exact hset⟩)

/-- An iteration is done with an arc and leaves no vertex. -/
theorem Relaxing.advance (R : Relaxing P m ind cells pc) {i : ℕ} {v x : V} {w : ℤ}
    (hi : ind[i]? = some v) (harc : (P.graph.nbrs v)[(pc i).j]? = some (x, w))
    (hlabel : m.distance x ≠ INFINITE ∧ m.distance x ≤ m.finalized v + w)
    (hempty : cells[offset (outDegree P) ind i + (pc i).j]? = some none)
    (hflag : (pc i).point.Settling → m.discovered x = true) :
    Relaxing P m ind cells (Function.update pc i ⟨(pc i).j + 1, .arc⟩) := by
  have hholds : ∀ {y i' j'}, Holds P ind cells (Function.update pc i ⟨(pc i).j + 1, .arc⟩) y i' j' ↔
      Holds P ind cells pc y i' j' := by
    intro y i' j'
    rw [holds_advance hi (lt_outDegree harc), hempty]
    constructor
    · rintro (h | ⟨-, -, h⟩)
      · exact h
      · cases h
    · exact Or.inl
  refine { R with
    relaxed := R.relaxed_advance hi harc hlabel, point := R.point_advance
    empty := ?_, known := ?_, sound := ?_, unique := ?_, settling := ?_ }
  · intro i' v' hi' hj hpt
    rcases advance_get pc i i' with ⟨rfl, hp⟩ | ⟨-, hp⟩
    · rw [hp] at hpt
      exact absurd rfl hpt
    · rw [hp] at hj hpt ⊢
      exact R.empty i' v' hi' hj hpt
  · intro y hy hopen
    apply (R.known y hy hopen).imp id
    rintro ⟨i', j', h⟩
    exact ⟨i', j', hholds.mpr h⟩
  · exact fun y i' j' h => R.sound y i' j' (hholds.mp h)
  · exact fun y i₁ j₁ i₂ j₂ h₁ h₂ => R.unique y i₁ j₁ i₂ j₂ (hholds.mp h₁) (hholds.mp h₂)
  · intro y hy
    rcases R.settling_advance hi harc hy with h | ⟨rfl, hset⟩ | h
    · exact Or.inl h
    · exact Or.inl (hflag hset)
    · exact Or.inr h

/-- A successful `compare_exchange_strong`: the flag is raised and the vertex left in the place. -/
theorem Relaxing.claim [DecidableEq V] (R : Relaxing P m ind cells pc) {i : ℕ} {v x : V} {w : ℤ}
    (hi : ind[i]? = some v) (harc : (P.graph.nbrs v)[(pc i).j]? = some (x, w))
    (hpt : (pc i).point = .claim) (hflag : m.discovered x = false) :
    Relaxing P { m with discovered := Function.update m.discovered x true } ind
      (cells.set (offset (outDegree P) ind i + (pc i).j) (some x))
      (Function.update pc i ⟨(pc i).j + 1, .arc⟩) := by
  have hok := R.point i v x w hi harc
  rw [hpt] at hok
  have hlt := lt_outDegree harc
  have hself : (cells.set (offset (outDegree P) ind i + (pc i).j) (some x))[
      offset (outDegree P) ind i + (pc i).j]? = some (some x) :=
    List.getElem?_set_self (by rw [R.size]; exact offset_add_lt hi hlt)
  have hmono : ∀ {y}, m.discovered y = true → Function.update m.discovered x true y = true := by
    intro y hy
    by_cases hyx : y = x
    · subst hyx
      exact Function.update_self ..
    · rw [Function.update_of_ne hyx]
      exact hy
  have hholds : ∀ {y i' j'}, Holds P ind (cells.set (offset (outDegree P) ind i + (pc i).j) (some x))
      (Function.update pc i ⟨(pc i).j + 1, .arc⟩) y i' j' ↔
      Holds P ind cells pc y i' j' ∨ (i' = i ∧ j' = (pc i).j ∧ y = x) := by
    intro y i' j'
    rw [holds_advance hi hlt, holds_set hi hlt, hself]
    simp [eq_comm]
  refine { R with
    flagged := fun y hy => hmono (R.flagged y hy), relaxed := R.relaxed_advance hi harc hok.2
    point := R.point_advance
    labelled := ?_, size := ?_, empty := ?_, known := ?_, sound := ?_, unique := ?_, settling := ?_ }
  · intro y hy
    dsimp only at hy ⊢
    by_cases hyx : y = x
    · subst hyx
      exact hok.2.1
    · rw [Function.update_of_ne hyx] at hy
      exact R.labelled y hy
  · rw [List.length_set]
    exact R.size
  · intro i' v' hi' hj hne
    rcases advance_get pc i i' with ⟨rfl, hp⟩ | ⟨hii, hp⟩
    · rw [hp] at hne
      exact absurd rfl hne
    · rw [hp] at hj hne ⊢
      have hplace : offset (outDegree P) ind i + (pc i).j ≠ offset (outDegree P) ind i' + (pc i').j :=
        fun h => hii (offset_add_inj hi hlt hi' hj h).1.symm
      rw [List.getElem?_set_ne hplace]
      exact R.empty i' v' hi' hj hne
  · intro y hy hopen
    dsimp only at hy
    by_cases hyx : y = x
    · subst hyx
      exact Or.inr ⟨i, (pc i).j, hholds.mpr (Or.inr ⟨rfl, rfl, rfl⟩)⟩
    · rw [Function.update_of_ne hyx] at hy
      apply (R.known y hy hopen).imp id
      rintro ⟨i', j', h⟩
      exact ⟨i', j', hholds.mpr (Or.inl h)⟩
  · intro y i' j' h
    rcases hholds.mp h with h | ⟨-, -, rfl⟩
    · exact ⟨hmono (R.sound y i' j' h).1, (R.sound y i' j' h).2⟩
    · refine ⟨Function.update_self .., fun hfr => ?_⟩
      rw [R.flagged y hfr] at hflag
      cases hflag
  · -- nobody can have left `x` before its flag was raised
    have hnot : ∀ i' j', ¬ Holds P ind cells pc x i' j' := by
      intro i' j' h
      rw [(R.sound x i' j' h).1] at hflag
      cases hflag
    intro y i₁ j₁ i₂ j₂ h₁ h₂
    rcases hholds.mp h₁ with hold₁ | ⟨rfl, rfl, rfl⟩
    · rcases hholds.mp h₂ with hold₂ | ⟨-, -, rfl⟩
      · exact R.unique y i₁ j₁ i₂ j₂ hold₁ hold₂
      · exact absurd hold₁ (hnot i₁ j₁)
    · rcases hholds.mp h₂ with hold₂ | ⟨rfl, rfl, -⟩
      · exact absurd hold₂ (hnot i₂ j₂)
      · exact ⟨rfl, rfl⟩
  · intro y hy
    dsimp only at hy ⊢
    rcases R.settling_advance hi harc hy with h | ⟨rfl, -⟩ | h
    · exact Or.inl (hmono h)
    · exact Or.inl (Function.update_self ..)
    · exact Or.inr h

/-! ## One operation -/

/-- **What an operation can do**: the iteration for `v` with its current arc to `x` of weight `w`. -/
inductive Operation [DecidableEq V] (v x : V) (w : ℤ) (place : ℕ) (m : Mem V)
    (cells : List (Option V)) (j : ℕ) : Point → Mem V → List (Option V) → SuccPc → Prop
  | skip : m.finalized x ≠ INFINITE →
      Operation v x w place m cells j .arc m (cells.set place none) ⟨j + 1, .arc⟩
  | enter : m.finalized x = INFINITE →
      Operation v x w place m cells j .arc m (cells.set place none) ⟨j, .load (m.finalized v + w)⟩
  | enough (mine : ℤ) : m.distance x ≠ INFINITE → m.distance x ≤ mine →
      Operation v x w place m cells j (.load mine) m cells ⟨j, .check⟩
  | improve (mine : ℤ) : m.distance x = INFINITE ∨ mine < m.distance x →
      Operation v x w place m cells j (.load mine) m cells ⟨j, .cas mine (m.distance x)⟩
  | exchange (mine other : ℤ) : m.distance x = other →
      Operation v x w place m cells j (.cas mine other)
        { m with distance := Function.update m.distance x mine } cells ⟨j, .check⟩
  | stale (mine other : ℤ) : m.distance x ≠ other →
      Operation v x w place m cells j (.cas mine other) m cells ⟨j, .load mine⟩
  | spurious (mine other : ℤ) : m.distance x = other →
      Operation v x w place m cells j (.cas mine other) m cells ⟨j, .load mine⟩
  | seen : m.discovered x = true → Operation v x w place m cells j .check m cells ⟨j + 1, .arc⟩
  | unseen : m.discovered x = false → Operation v x w place m cells j .check m cells ⟨j, .claim⟩
  | lost : m.discovered x = true → Operation v x w place m cells j .claim m cells ⟨j + 1, .arc⟩
  | won : m.discovered x = false →
      Operation v x w place m cells j .claim
        { m with discovered := Function.update m.discovered x true } (cells.set place (some x))
        ⟨j + 1, .arc⟩

/-- No operation of this loop makes a vertex final. -/
theorem Operation.finalized_eq [DecidableEq V] {v x : V} {w : ℤ} {place j : ℕ} {point : Point}
    {m' : Mem V} {cells' : List (Option V)} {pc' : SuccPc}
    (h : Operation v x w place m cells j point m' cells' pc') : m'.finalized = m.finalized := by
  cases h <;> rfl

theorem store_eq_some {α : Type} {a b : List α} {i : ℕ} {y : α} (h : store a i y = some b) :
    b = a.set i y := by
  unfold store at h
  split_ifs at h
  exact (Option.some.inj h).symm

theorem operation_of_succNext [DecidableEq V] {spurious : Bool} {v : V} {place : ℕ} {m' : Mem V}
    {cells' : List (Option V)} {pc₀ pc' : SuccPc}
    (h : succNext P spurious v place m cells pc₀ = some (m', cells', pc')) :
    ∃ x w, (P.graph.nbrs v)[pc₀.j]? = some (x, w) ∧
      Operation v x w place m cells pc₀.j pc₀.point m' cells' pc' := by
  unfold succNext at h
  cases harc : (P.graph.nbrs v)[pc₀.j]? with
  | none => simp [harc] at h
  | some arc =>
    obtain ⟨x, w⟩ := arc
    refine ⟨x, w, rfl, ?_⟩
    cases hpt : pc₀.point with
    | arc =>
      simp only [harc, hpt, Option.map_eq_some_iff] at h
      obtain ⟨b, hstore, heq⟩ := h
      obtain rfl := store_eq_some hstore
      split_ifs at heq with hopen
      · cases heq
        exact .enter hopen
      · cases heq
        exact .skip hopen
    | load mine =>
      simp only [harc, hpt, Option.some.injEq] at h
      split_ifs at h with hle
      · cases h
        exact .enough mine hle.1 hle.2
      · cases h
        refine .improve mine ?_
        by_cases hfin : m.distance x = INFINITE
        · exact Or.inl hfin
        · exact Or.inr (not_le.mp fun hge => hle ⟨hfin, hge⟩)
    | cas mine other =>
      simp only [harc, hpt] at h
      split_ifs at h with hswap
      · cases h
        exact .exchange mine other hswap.1
      · cases h
        by_cases hother : m.distance x = other
        · exact .spurious mine other hother
        · exact .stale mine other hother
    | check =>
      simp only [harc, hpt, Option.some.injEq] at h
      split_ifs at h with hflag
      · cases h
        exact .seen hflag
      · cases h
        exact .unseen (by simpa using hflag)
    | claim =>
      simp only [harc, hpt] at h
      split_ifs at h with hflag
      · cases h
        exact .lost hflag
      · obtain ⟨b, hstore, heq⟩ := Option.map_eq_some_iff.mp h
        obtain rfl := store_eq_some hstore
        cases heq
        exact .won (by simpa using hflag)

/-- **Every operation of every iteration keeps the invariant.** -/
theorem Relaxing.step [DecidableEq V] (R : Relaxing P m ind cells pc) {i : ℕ} {v x : V} {w : ℤ}
    {m' : Mem V} {cells' : List (Option V)} {pc' : SuccPc} (hi : ind[i]? = some v)
    (harc : (P.graph.nbrs v)[(pc i).j]? = some (x, w))
    (hop : Operation v x w (offset (outDegree P) ind i + (pc i).j) m cells (pc i).j (pc i).point
      m' cells' pc') :
    Relaxing P m' ind cells' (Function.update pc i pc') := by
  have hlt := lt_outDegree harc
  have hv : v ∈ ind := List.mem_iff_getElem?.mpr ⟨i, hi⟩
  have hok := R.point i v x w hi harc
  have hempty := R.empty i v hi hlt
  have hcleared : (cells.set (offset (outDegree P) ind i + (pc i).j) none)[
      offset (outDegree P) ind i + (pc i).j]? = some none :=
    List.getElem?_set_self (by rw [R.size]; exact offset_add_lt hi hlt)
  generalize hpt : (pc i).point = point at hop hok hempty
  cases hop with
  | skip hclosed =>
    obtain ⟨hfin, hdist⟩ := R.final x hclosed
    obtain ⟨hfinv, hdistv⟩ := R.final v (R.closed v hv)
    have hwalk := hdistv.1.snoc (List.mem_iff_getElem?.mpr ⟨_, harc⟩)
    refine (R.reset hi hlt).advance hi harc ⟨hfin ▸ hclosed, ?_⟩ hcleared ?_
    · rw [hfinv]
      exact hdist.2 _ hwalk
    · rw [hpt]
      exact fun h => h.elim
  | enter hopen =>
    refine (R.reset hi hlt).move hi harc ⟨rfl, hopen⟩ (fun _ => hcleared) ?_
    rw [hpt]
    exact fun h => h.elim
  | enough mine hfin hle =>
    refine R.move hi harc ⟨hok.2, hfin, hok.1 ▸ hle⟩ (fun _ => hempty (by intro h; cases h)) ?_
    exact fun _ => trivial
  | improve mine hless =>
    refine R.move hi harc ⟨hok.1, hok.2, hless⟩ (fun _ => hempty (by intro h; cases h)) ?_
    rw [hpt]
    exact fun h => h.elim
  | exchange mine other hother => exact R.lower hi harc hpt hother
  | stale mine other _ =>
    refine R.move hi harc ⟨hok.1, hok.2.1⟩ (fun _ => hempty (by intro h; cases h)) ?_
    rw [hpt]
    exact fun h => h.elim
  | spurious mine other _ =>
    refine R.move hi harc ⟨hok.1, hok.2.1⟩ (fun _ => hempty (by intro h; cases h)) ?_
    rw [hpt]
    exact fun h => h.elim
  | seen hflag => exact R.advance hi harc hok.2 (hempty (by intro h; cases h)) fun _ => hflag
  | unseen _ => exact R.move hi harc hok (fun _ => hempty (by intro h; cases h)) fun _ => trivial
  | lost hflag => exact R.advance hi harc hok.2 (hempty (by intro h; cases h)) fun _ => hflag
  | won hflag => exact R.claim hi harc hpt hflag

/-! ## The end of the round -/

/-- What the next frontier holds. -/
theorem mem_next_frontier {x : V} :
    x ∈ (kept (fun _ v => keepOpen m v) (m.frontier.map some ++ cells)).reduceOption ↔
      (x ∈ m.frontier ∨ some x ∈ cells) ∧ m.finalized x = INFINITE := by
  rw [List.reduceOption_mem_iff, mem_kept]
  constructor
  · rintro ⟨i, hi, hkeep⟩
    have hmem : some x ∈ m.frontier.map some ++ cells := List.mem_iff_getElem?.mpr ⟨i, hi⟩
    refine ⟨?_, by simpa [keepOpen] using hkeep⟩
    rcases List.mem_append.mp hmem with h | h
    · exact Or.inl (by simpa using h)
    · exact Or.inr h
  · rintro ⟨hx, hopen⟩
    have hmem : some x ∈ m.frontier.map some ++ cells := by
      rcases hx with h | h
      · exact List.mem_append_left _ (List.mem_map_of_mem h)
      · exact List.mem_append_right _ h
    obtain ⟨i, hi⟩ := List.mem_iff_getElem?.mp hmem
    exact ⟨i, hi, by simp [keepOpen, hopen]⟩

/-- When every iteration is done, all places are. -/
theorem Relaxing.holds_of_mem (R : Relaxing P m ind cells pc)
    (hall : ∀ i v, ind[i]? = some v → outDegree P v ≤ (pc i).j) {k : ℕ} {x : V}
    (hk : cells[k]? = some (some x)) :
    ∃ i j, offset (outDegree P) ind i + j = k ∧ Holds P ind cells pc x i j := by
  have hlt : k < offset (outDegree P) ind ind.length := by
    rw [← R.size]
    exact (List.getElem?_eq_some_iff.mp hk).1
  obtain ⟨i, v, j, hi, hj, rfl⟩ := exists_offset_add hlt
  exact ⟨i, j, rfl, v, hi, hj, hj.trans_le (hall i v hi), hk⟩

/-- No vertex is in two places of the old frontier and the successors together. -/
theorem Relaxing.nodup_all (R : Relaxing P m ind cells pc)
    (hall : ∀ i v, ind[i]? = some v → outDegree P v ≤ (pc i).j) :
    (m.frontier.map some ++ cells).reduceOption.Nodup := by
  rw [List.reduceOption_append]
  have hleft : (m.frontier.map some).reduceOption = m.frontier := by simp [List.reduceOption]
  rw [hleft]
  refine List.nodup_append.mpr ⟨R.nodup, ?_, ?_⟩
  · -- two places with the same vertex are the same place
    have hinj : ∀ (k k' : ℕ) (x : V), cells[k]? = some (some x) → cells[k']? = some (some x) → k = k' := by
      intro k k' x hk hk'
      obtain ⟨i, j, rfl, h⟩ := R.holds_of_mem hall hk
      obtain ⟨i', j', rfl, h'⟩ := R.holds_of_mem hall hk'
      obtain ⟨rfl, rfl⟩ := R.unique x i j i' j' h h'
      rfl
    refine List.pairwise_filterMap.mpr (List.pairwise_iff_getElem.mpr ?_)
    rintro k k' hk hk' hlt x hx _ hx' rfl
    have heq := hinj k k' x (by rw [List.getElem?_eq_getElem hk]; exact congrArg some hx)
      (by rw [List.getElem?_eq_getElem hk']; exact congrArg some hx')
    omega
  · rintro x hx y hy rfl
    obtain ⟨k, hk⟩ := List.mem_iff_getElem?.mp (List.reduceOption_mem_iff.mp hy)
    obtain ⟨i, j, -, h⟩ := R.holds_of_mem hall hk
    exact (R.sound x i j h).2 hx

/-- **The round ends ready for the next one.** -/
theorem Relaxing.finish (R : Relaxing P m ind cells pc)
    (hall : ∀ i v, ind[i]? = some v → outDegree P v ≤ (pc i).j) :
    Ready P { m with frontier :=
      (kept (fun _ v => keepOpen m v) (m.frontier.map some ++ cells)).reduceOption } [] := by
  have hlabelled : ∀ x, m.discovered x = true ↔ m.distance x ≠ INFINITE := by
    intro x
    refine ⟨R.labelled x, fun hx => ?_⟩
    rcases R.settling x hx with h | ⟨i, v, w, hi, harc, -⟩
    · exact h
    · exact absurd (lt_outDegree harc) (not_lt.mpr (hall i v hi))
  refine ⟨⟨R.walk, R.source, R.final, ?_⟩, ?_, hlabelled, ?_⟩
  · exact ((kept_sublist _ _).filterMap id).nodup (R.nodup_all hall)
  · intro x
    dsimp only
    rw [mem_next_frontier]
    constructor
    · rintro ⟨hx | hx, hopen⟩
      · exact ⟨R.flagged x hx, Or.inl hopen⟩
      · obtain ⟨k, hk⟩ := List.mem_iff_getElem?.mp hx
        obtain ⟨i, j, -, h⟩ := R.holds_of_mem hall hk
        exact ⟨(R.sound x i j h).1, Or.inl hopen⟩
    · rintro ⟨hdisc, hopen | h⟩
      · refine ⟨?_, hopen⟩
        rcases R.known x hdisc hopen with h | ⟨i, j, v, -, -, -, hc⟩
        · exact Or.inl h
        · exact Or.inr (List.mem_iff_getElem?.mpr ⟨_, hc⟩)
      · exact absurd h List.not_mem_nil
  · intro v x w hv _ harc
    by_cases hind : v ∈ ind
    · obtain ⟨i, hi⟩ := List.mem_iff_getElem?.mp hind
      obtain ⟨j, hj⟩ := List.mem_iff_getElem?.mp harc
      exact R.relaxed i v j x w hi ((lt_outDegree hj).trans_le (hall i v hi)) hj
    · exact R.heads v x w hv hind harc

end PwsaStar.Pars
