/-
# PwsaStar.Pars.Rounds — what a round of `pars` maintains.

`Ready` holds between two rounds: the frontier lists, once each, the vertices that are discovered and
not final; every label is the weight of a walk; final distances are shortest; and the heads of the
arcs of a final vertex carry labels of at most its distance plus the weight.  From this a vertex that
passes all its independence checks is labelled with its shortest distance (`Ready.optimal`), since
every walk to it leaves the final vertices through a vertex of the frontier.

The other invariants say how far a round has got: `Checking` during the independence checks,
`Closing` while final distances are set, `Relaxing` while the arcs of the closed vertices are
relaxed.  In the last one the iterations interfere with each other: labels drop under their feet and
flags are raised by others.  What an iteration relies on is only ever made truer by the others.
-/
import PwsaStar.Pars.Basic
import Mathlib.Data.Finset.Max

namespace PwsaStar.Pars

open PwsaStar.Lib PwsaStar.ArrayUtil

variable {V : Type} {P : Problem V} {m : Mem V}

/-- `0 ≤ pair_heur(v, u)`, and it is at most the shortest distance from `u` to `v`. -/
def PairAdmissible (P : Problem V) : Prop :=
  ∀ v u, 0 ≤ P.pairHeur v u ∧ ∀ d, P.graph.IsDist u v d → P.pairHeur v u ≤ d

/-- What holds at every moment. -/
structure Base (P : Problem V) (m : Mem V) : Prop where
  walk : ∀ v, m.distance v ≠ INFINITE → P.graph.Walk P.source v (m.distance v)
  source : m.distance P.source = 0
  final : ∀ v, m.finalized v ≠ INFINITE →
    m.finalized v = m.distance v ∧ P.graph.IsDist P.source v (m.distance v)
  nodup : m.frontier.Nodup

/-- **What holds between two rounds**, and, with the vertices `ind` of the frontier that are being
closed left out, until their arcs are relaxed. -/
structure Ready (P : Problem V) (m : Mem V) (ind : List V) : Prop extends Base P m where
  frontier : ∀ v, v ∈ m.frontier ↔
    m.discovered v = true ∧ (m.finalized v = INFINITE ∨ v ∈ ind)
  labelled : ∀ v, m.discovered v = true ↔ m.distance v ≠ INFINITE
  heads : ∀ v x w, m.finalized v ≠ INFINITE → v ∉ ind → P.graph.Arc v x w →
    m.distance x ≠ INFINITE ∧ m.distance x ≤ m.finalized v + w

/-- The labels are not negative. -/
theorem Base.nonneg (B : Base P m) {v : V} (hv : m.distance v ≠ INFINITE) : 0 ≤ m.distance v :=
  (B.walk v hv).nonneg

/-! ## Why independent vertices are final -/

/-- Every walk to an open vertex leaves the final vertices through the frontier, with a label that is
not above the weight so far. -/
theorem Ready.exists_frontier (R : Ready P m []) {v : V} {d : ℤ} (hv : m.finalized v = INFINITE)
    (hw : P.graph.Walk P.source v d) :
    ∃ u ∈ m.frontier, ∃ d₁ d₂, d = d₁ + d₂ ∧ m.distance u ≤ d₁ ∧ P.graph.Walk u v d₂ := by
  obtain ⟨u, d₁, d₂, hd, hu, hrest, hfirst⟩ :=
    hw.cut (fun x => m.finalized x ≠ INFINITE) (by simp [hv])
  have hopen : m.finalized u = INFINITE := not_not.mp hu
  have hlabel : m.distance u ≠ INFINITE ∧ m.distance u ≤ d₁ := by
    rcases hfirst with ⟨rfl, rfl⟩ | ⟨p, d₀, w, hp, hpre, harc, rfl⟩
    · rw [R.source]
      exact ⟨by decide, le_rfl⟩
    · obtain ⟨hfin, hle⟩ := R.heads p u w hp (by simp) harc
      obtain ⟨heq, hdist⟩ := R.final p hp
      have := hdist.2 d₀ hpre
      exact ⟨hfin, by omega⟩
  refine ⟨u, (R.frontier u).mpr ⟨(R.labelled u).mpr hlabel.1, Or.inl hopen⟩, d₁, d₂, hd, hlabel.2,
    hrest⟩

theorem Ready.frontier_ne_nil (R : Ready P m []) {v : V} (hv : m.finalized v = INFINITE)
    (hreach : P.graph.Reaches P.source v) : m.frontier ≠ [] := by
  obtain ⟨d, hw⟩ := hreach
  obtain ⟨u, hu, -⟩ := R.exists_frontier hv hw
  exact List.ne_nil_of_mem hu

/-- `v` passes all its checks. -/
def Independent (P : Problem V) (m : Mem V) (v : V) : Prop :=
  ∀ u ∈ m.frontier, u ≠ v → m.distance v ≤ m.distance u + P.pairHeur v u

/-- **An independent vertex of the frontier is labelled with its shortest distance.** -/
theorem Ready.optimal (R : Ready P m []) (hpair : PairAdmissible P) {v : V} (hv : v ∈ m.frontier)
    (hind : Independent P m v) : P.graph.IsDist P.source v (m.distance v) := by
  obtain ⟨hdisc, hopen⟩ := (R.frontier v).mp hv
  have hfin : m.finalized v = INFINITE := hopen.resolve_right (by simp)
  refine ⟨R.walk v ((R.labelled v).mp hdisc), ?_⟩
  intro d hd
  obtain ⟨u, hu, d₁, d₂, rfl, hle, hrest⟩ := R.exists_frontier hfin hd
  by_cases huv : u = v
  · subst huv
    have := hrest.nonneg
    omega
  · obtain ⟨e, he⟩ := WGraph.Reaches.exists_isDist ⟨d₂, hrest⟩
    have h₁ := hind u hu huv
    have h₂ := (hpair v u).2 e he
    have h₃ := he.2 d₂ hrest
    omega

/-- A vertex of the frontier with a least label is independent. -/
theorem exists_independent (hpair : PairAdmissible P) (hne : m.frontier ≠ []) :
    ∃ v ∈ m.frontier, Independent P m v := by
  classical
  obtain ⟨x, hx⟩ := List.exists_mem_of_ne_nil _ hne
  obtain ⟨v, hv, hmin⟩ := m.frontier.toFinset.exists_min_image m.distance
    ⟨x, List.mem_toFinset.mpr hx⟩
  refine ⟨v, List.mem_toFinset.mp hv, ?_⟩
  intro u hu _
  have h₁ := hmin u (List.mem_toFinset.mpr hu)
  have h₂ := (hpair v u).1
  omega

/-! ## The independence checks -/

/-- **The independence checks in progress.** -/
structure Checking (P : Problem V) (m : Mem V) (check : ℕ → ℕ → Check) (written : ℕ → Bool) :
    Prop extends Ready P m [] where
  open_ : m.finalized P.destination = INFINITE
  other : ∀ i j, check i j ≠ .idle → j ≠ i ∧ j < m.frontier.length
  loaded : ∀ i j v d, m.frontier[i]? = some v → check i j = .loaded d → d = m.distance v
  verdict : ∀ i j v u b, m.frontier[i]? = some v → m.frontier[j]? = some u →
    check i j = .verdict b → (b = true ↔ m.distance v ≤ m.distance u + P.pairHeur v u)
  written : ∀ i v, m.frontier[i]? = some v → written i = true →
    (m.independent i = true ↔ Independent P m v)

/-- Writing `independent` does not touch what holds between the rounds. -/
theorem Ready.congr_independent {ind : List V} (R : Ready P m ind) (f : ℕ → Bool) :
    Ready P { m with independent := f } ind :=
  ⟨⟨R.walk, R.source, R.final, R.nodup⟩, R.frontier, R.labelled, R.heads⟩

theorem Ready.checking (R : Ready P m []) (hopen : m.finalized P.destination = INFINITE) :
    Checking P m (fun _ _ => .idle) fun _ => false := by
  refine ⟨R, hopen, fun _ _ h => absurd rfl h, ?_, ?_, ?_⟩
  · intro i j v d _ h
    cases h
  · intro i j v u b _ _ h
    cases h
  · intro i v _ h
    cases h

variable {check : ℕ → ℕ → Check} {written : ℕ → Bool}

/-- Two different places of the frontier hold different vertices. -/
theorem Base.frontier_inj (B : Base P m) {i j : ℕ} {v : V} (hi : m.frontier[i]? = some v)
    (hj : m.frontier[j]? = some v) : i = j :=
  (List.getElem?_inj (List.getElem?_eq_some_iff.mp hi).1 B.nodup).mp (hi.trans hj.symm)

/-- Changing one comparison. -/
theorem Checking.update (C : Checking P m check written) {i j : ℕ} {v u : V} {c : Check}
    (hi : m.frontier[i]? = some v) (hj : m.frontier[j]? = some u) (hne : j ≠ i)
    (hloaded : ∀ d, c = .loaded d → d = m.distance v)
    (hverdict : ∀ b, c = .verdict b →
      (b = true ↔ m.distance v ≤ m.distance u + P.pairHeur v u)) :
    Checking P m (Function.update check i (Function.update (check i) j c)) written := by
  have hget : ∀ i' j', Function.update check i (Function.update (check i) j c) i' j' = check i' j' ∨
      (i' = i ∧ j' = j ∧ Function.update check i (Function.update (check i) j c) i' j' = c) := by
    intro i' j'
    by_cases hi' : i' = i
    · subst hi'
      by_cases hj' : j' = j
      · subst hj'
        exact Or.inr ⟨rfl, rfl, by simp⟩
      · exact Or.inl (by simp [Function.update_of_ne hj'])
    · exact Or.inl (by simp [Function.update_of_ne hi'])
  refine { C with other := ?_, loaded := ?_, verdict := ?_ }
  · intro i' j' h
    rcases hget i' j' with hsame | ⟨rfl, rfl, -⟩
    · rw [hsame] at h
      exact C.other i' j' h
    · exact ⟨hne, (List.getElem?_eq_some_iff.mp hj).1⟩
  · intro i' j' v' d hv' h
    rcases hget i' j' with hsame | ⟨rfl, rfl, hc⟩
    · rw [hsame] at h
      exact C.loaded i' j' v' d hv' h
    · obtain rfl : v = v' := Option.some.inj (hi.symm.trans hv')
      exact hloaded d (hc.symm.trans h)
  · intro i' j' v' u' b hv' hu' h
    rcases hget i' j' with hsame | ⟨rfl, rfl, hc⟩
    · rw [hsame] at h
      exact C.verdict i' j' v' u' b hv' hu' h
    · obtain rfl : v = v' := Option.some.inj (hi.symm.trans hv')
      obtain rfl : u = u' := Option.some.inj (hj.symm.trans hu')
      exact hverdict b (hc.symm.trans h)

/-- Writing the result of an iteration. -/
theorem Checking.write (C : Checking P m check written) {i : ℕ} {b : Bool}
    (hb : ∀ v, m.frontier[i]? = some v → (b = true ↔ Independent P m v)) :
    Checking P { m with independent := Function.update m.independent i b } check
      (Function.update written i true) := by
  refine { C with toReady := C.toReady.congr_independent _, written := ?_ }
  intro i' v hv hw
  dsimp only at hv ⊢
  by_cases hi : i' = i
  · subst hi
    rw [Function.update_self]
    exact hb v hv
  · rw [Function.update_of_ne hi] at hw ⊢
    exact C.written i' v hv hw

theorem Checking.writeTrue (C : Checking P m check written) {i : ℕ}
    (hall : ∀ j < m.frontier.length, j ≠ i → check i j = .verdict true) :
    Checking P { m with independent := Function.update m.independent i true } check
      (Function.update written i true) := by
  refine C.write fun v hv => ⟨fun _ => ?_, fun _ => rfl⟩
  intro u hu huv
  obtain ⟨j, hj⟩ := List.mem_iff_getElem?.mp hu
  have hne : j ≠ i := by
    rintro rfl
    exact huv (Option.some.inj (hj.symm.trans hv))
  exact (C.verdict i j v u true hv hj (hall j (List.getElem?_eq_some_iff.mp hj).1 hne)).mp rfl

theorem Checking.writeFalse (C : Checking P m check written) {i j : ℕ}
    (hfail : check i j = .verdict false) :
    Checking P { m with independent := Function.update m.independent i false } check
      (Function.update written i true) := by
  refine C.write fun v hv => ⟨fun h => absurd h Bool.false_ne_true, fun hind => ?_⟩
  obtain ⟨hne, hlt⟩ := C.other i j (by rw [hfail]; intro h; cases h)
  have hj : m.frontier[j]? = some m.frontier[j] := List.getElem?_eq_getElem hlt
  have huv : m.frontier[j] ≠ v := by
    intro h
    rw [h] at hj
    exact hne (C.frontier_inj hj hv)
  exact (C.verdict i j v _ false hv hj hfail).mpr (hind _ (List.getElem_mem hlt) huv)

/-! ## Setting the final distances -/

/-- **The final distances of `ind` being set.** -/
structure Closing (P : Problem V) (m : Mem V) (ind : List V) (pc : ℕ → SetPc) : Prop
    extends Ready P m ind where
  indNodup : ind.Nodup
  nonempty : ind ≠ []
  chosen : ∀ v ∈ ind, v ∈ m.frontier ∧ P.graph.IsDist P.source v (m.distance v)
  loaded : ∀ i v d, ind[i]? = some v → pc i = .loaded d → d = m.distance v
  stored : ∀ i v, ind[i]? = some v → pc i = .stored → m.finalized v ≠ INFINITE

/-- The chosen vertices are the independent ones of the frontier, and there is at least one. -/
theorem Checking.choose (C : Checking P m check written) (hpair : PairAdmissible P)
    (hreach : P.graph.Reaches P.source P.destination)
    (hall : ∀ i < m.frontier.length, written i = true) :
    Closing P m (kept (fun i _ => m.independent i) m.frontier) fun _ => .start := by
  have hmem : ∀ v, v ∈ kept (fun i _ => m.independent i) m.frontier ↔
      v ∈ m.frontier ∧ Independent P m v := by
    intro v
    rw [mem_kept]
    constructor
    · rintro ⟨i, hi, hind⟩
      have hlt := (List.getElem?_eq_some_iff.mp hi).1
      exact ⟨List.mem_iff_getElem?.mpr ⟨i, hi⟩, (C.written i v hi (hall i hlt)).mp hind⟩
    · rintro ⟨hv, hind⟩
      obtain ⟨i, hi⟩ := List.mem_iff_getElem?.mp hv
      have hlt := (List.getElem?_eq_some_iff.mp hi).1
      exact ⟨i, hi, (C.written i v hi (hall i hlt)).mpr hind⟩
  refine ⟨⟨C.toBase, ?_, C.labelled, ?_⟩, ?_, ?_, ?_, ?_, ?_⟩
  · -- the chosen vertices are open ones
    intro v
    rw [C.frontier v]
    constructor
    · rintro ⟨hdisc, hopen | hmem⟩
      · exact ⟨hdisc, Or.inl hopen⟩
      · exact absurd hmem List.not_mem_nil
    · rintro ⟨hdisc, hopen | hind⟩
      · exact ⟨hdisc, Or.inl hopen⟩
      · exact (C.frontier v).mp ((hmem v).mp hind).1
  · intro v x w hv _ harc
    exact C.heads v x w hv List.not_mem_nil harc
  · exact (kept_sublist _ _).nodup C.nodup
  · obtain ⟨v, hv, hind⟩ := exists_independent hpair (C.frontier_ne_nil C.open_ hreach)
    exact List.ne_nil_of_mem ((hmem v).mpr ⟨hv, hind⟩)
  · intro v hv
    obtain ⟨hfr, hind⟩ := (hmem v).mp hv
    exact ⟨hfr, C.toReady.optimal hpair hfr hind⟩
  · intro i v d _ h
    cases h
  · intro i v _ h
    cases h

variable {ind : List V}

theorem Closing.load {pc : ℕ → SetPc} (C : Closing P m ind pc) {i : ℕ} {v : V}
    (hi : ind[i]? = some v) :
    Closing P m ind (Function.update pc i (.loaded (m.distance v))) := by
  refine { C with loaded := ?_, stored := ?_ }
  · intro i' v' d hv' h
    by_cases hii : i' = i
    · subst hii
      obtain rfl : v = v' := Option.some.inj (hi.symm.trans hv')
      rw [Function.update_self] at h
      cases h
      rfl
    · rw [Function.update_of_ne hii] at h
      exact C.loaded i' v' d hv' h
  · intro i' v' hv' h
    by_cases hii : i' = i
    · subst hii
      rw [Function.update_self] at h
      cases h
    · rw [Function.update_of_ne hii] at h
      exact C.stored i' v' hv' h

/-- A chosen vertex has a label. -/
theorem Closing.label_ne {pc : ℕ → SetPc} (C : Closing P m ind pc) {v : V} (hv : v ∈ ind) :
    m.distance v ≠ INFINITE :=
  (C.labelled v).mp ((C.frontier v).mp (C.chosen v hv).1).1

theorem Closing.finalize [DecidableEq V] {pc : ℕ → SetPc} (C : Closing P m ind pc) {i : ℕ} {v : V}
    {d : ℤ} (hi : ind[i]? = some v) (hpc : pc i = .loaded d) :
    Closing P { m with finalized := Function.update m.finalized v d } ind
      (Function.update pc i .stored) := by
  obtain rfl := C.loaded i v d hi hpc
  have hv : v ∈ ind := List.mem_iff_getElem?.mpr ⟨i, hi⟩
  have hget : ∀ u, Function.update m.finalized v (m.distance v) u = m.finalized u ∨
      (u = v ∧ Function.update m.finalized v (m.distance v) u = m.distance v) := by
    intro u
    by_cases huv : u = v
    · subst huv
      exact Or.inr ⟨rfl, Function.update_self ..⟩
    · exact Or.inl (Function.update_of_ne huv _ _)
  refine { C with final := ?_, frontier := ?_, heads := ?_, loaded := ?_, stored := ?_ }
  · intro u hu
    dsimp only at hu ⊢
    rcases hget u with hsame | ⟨rfl, hnew⟩
    · rw [hsame] at hu ⊢
      exact C.final u hu
    · exact ⟨hnew, (C.chosen u hv).2⟩
  · intro u
    dsimp only
    rw [C.frontier u]
    rcases hget u with hsame | ⟨rfl, -⟩
    · rw [hsame]
    · simp [hv]
  · intro u x w hu hind harc
    dsimp only at hu ⊢
    rcases hget u with hsame | ⟨rfl, -⟩
    · rw [hsame] at hu ⊢
      exact C.heads u x w hu hind harc
    · exact absurd hv hind
  · intro i' v' d hv' h
    by_cases hii : i' = i
    · subst hii
      rw [Function.update_self] at h
      cases h
    · rw [Function.update_of_ne hii] at h
      exact C.loaded i' v' d hv' h
  · intro i' v' hv' h
    dsimp only
    by_cases hii : i' = i
    · subst hii
      obtain rfl : v = v' := Option.some.inj (hi.symm.trans hv')
      rw [Function.update_self]
      exact C.label_ne hv
    · rw [Function.update_of_ne hii] at h
      rcases hget v' with hsame | ⟨rfl, hnew⟩
      · rw [hsame]
        exact C.stored i' v' hv' h
      · rw [hnew]
        exact C.label_ne hv

end PwsaStar.Pars
