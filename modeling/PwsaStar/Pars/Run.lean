/-
# PwsaStar.Pars.Run — the invariant of `pars` over all its phases, and why it is never stuck.

`PhaseOk` joins the invariants of the phases, and `step_ok` says that every step keeps it; abortion
is not among the phases it allows.  `exists_step` is progress: whatever the scheduler has done so
far, some iteration can go on, or the loop is over.
-/
import PwsaStar.Pars.Relaxing

namespace PwsaStar.Pars

open PwsaStar.Lib PwsaStar.ArrayUtil

variable {V : Type} [DecidableEq V] {P : Problem V}

/-! ## The invariant -/

/-- **What holds in each phase.** -/
def PhaseOk (P : Problem V) (m : Mem V) : Phase V → Prop
  | .test => Ready P m []
  | .independence check written => Checking P m check written
  | .setDist ind pc => Closing P m ind pc
  | .successors ind offsets cells pc => Relaxing P m ind cells pc ∧
      offsets = (List.range (ind.length + 1)).map (offset (outDegree P) ind)
  | .returned => Ready P m [] ∧ m.finalized P.destination ≠ INFINITE
  | .aborted => False

/-- After the initialisation loop, in whatever order it ran, nothing is labelled. -/
theorem foldl_initVertex (order : List V) (m : Mem V) {v : V} (hv : v ∈ order) :
    (order.foldl initVertex m).finalized v = INFINITE ∧
      (order.foldl initVertex m).distance v = INFINITE ∧
      (order.foldl initVertex m).discovered v = false := by
  have hone : ∀ (m : Mem V) (i v : V),
      (v = i ∨ (m.finalized v = INFINITE ∧ m.distance v = INFINITE ∧ m.discovered v = false)) →
      (initVertex m i).finalized v = INFINITE ∧ (initVertex m i).distance v = INFINITE ∧
        (initVertex m i).discovered v = false := by
    intro m i v h
    by_cases hvi : v = i
    · subst hvi
      simp [initVertex]
    · simpa [initVertex, Function.update_of_ne hvi] using h.resolve_left hvi
  have key : ∀ (order : List V) (m : Mem V),
      (v ∈ order ∨ (m.finalized v = INFINITE ∧ m.distance v = INFINITE ∧ m.discovered v = false)) →
      (order.foldl initVertex m).finalized v = INFINITE ∧
        (order.foldl initVertex m).distance v = INFINITE ∧
        (order.foldl initVertex m).discovered v = false := by
    intro order
    induction order with
    | nil => exact fun m h => h.resolve_left List.not_mem_nil
    | cons i order ih =>
      intro m h
      apply ih (initVertex m i)
      rcases h with h | h
      · rcases List.mem_cons.mp h with rfl | h
        · exact Or.inr (hone m v v (Or.inl rfl))
        · exact Or.inl h
      · exact Or.inr (hone m i v (Or.inr h))
  exact key order m (Or.inl hv)

theorem ready_start (P : Problem V) {m : Mem V}
    (hm : ∀ v, m.finalized v = INFINITE ∧ m.distance v = INFINITE ∧ m.discovered v = false) :
    Ready P (start P m) [] := by
  have hdist : ∀ v, v ≠ P.source → (start P m).distance v = INFINITE := by
    intro v hv
    simp [start, Function.update_of_ne hv, (hm v).2.1]
  have hsource : (start P m).distance P.source = 0 := by simp [start]
  have hopen : ∀ v, (start P m).finalized v = INFINITE := fun v => (hm v).1
  refine ⟨⟨?_, hsource, fun v hv => absurd (hopen v) hv, List.nodup_singleton _⟩, ?_, ?_,
    fun v x w hv => absurd (hopen v) hv⟩
  · intro v hv
    by_cases hvs : v = P.source
    · subst hvs
      rw [hsource]
      exact WGraph.Walk.nil
    · exact absurd (hdist v hvs) hv
  · intro v
    by_cases hvs : v = P.source
    · simp [start, hvs, hm]
    · simp [start, hvs, hm]
  · intro v
    by_cases hvs : v = P.source
    · subst hvs
      rw [hsource]
      simp [start, INFINITE]
    · rw [hdist v hvs]
      simp [start, Function.update_of_ne hvs, hm]

/-- **Every step keeps what holds in its phase.** -/
theorem step_ok (hpair : PairAdmissible P) (hreach : P.graph.Reaches P.source P.destination)
    {s s' : State V} (h : Step P s s') (hs : PhaseOk P s.mem s.phase) :
    PhaseOk P s'.mem s'.phase := by
  cases h with
  | enter hopen => exact Ready.checking hs hopen
  | leave hdone => exact ⟨hs, hdone⟩
  | loadMine i j hi hj hne _ _ =>
    apply Checking.update hs hi hj hne
    · intro d h
      cases h
      rfl
    · intro b h
      cases h
  | loadOther i j hi hj _ hc =>
    have hne := (Checking.other hs i j (by rw [hc]; intro h; cases h)).1
    have hd := Checking.loaded hs i j _ _ hi hc
    apply Checking.update hs hi hj hne
    · intro d h
      cases h
    · intro b h
      cases h
      rw [hd]
      simp [indepCheck]
  | writeTrue i _ _ hall => exact Checking.writeTrue hs hall
  | writeFalse i j _ _ hfail => exact Checking.writeFalse hs hfail
  | @choose m check written choice independents hall horder hfilter =>
    have C : Checking P m check written := hs
    rw [filter_eq choice _ (C.frontier_ne_nil C.open_ hreach) horder] at hfilter
    obtain rfl := Option.some.inj hfilter
    have hcl := C.choose hpair hreach hall
    have hlen := List.length_pos_iff.mpr hcl.nonempty
    dsimp only
    rw [if_neg (by omega)]
    exact hcl
  | load i hi _ => exact Closing.load hs hi
  | finalize i hi hpc => exact Closing.finalize hs hi hpc
  | @scan m ind pc treeMemory outMemory memory offsets len cells hall hscan hlen hmalloc =>
    have C : Closing P m ind pc := hs
    rw [plusScan_eq treeMemory outMemory _ C.nonempty] at hscan
    obtain rfl := Option.some.inj hscan
    refine ⟨C.relaxing hall ?_, rfl⟩
    have hlast := hlen
    rw [List.getElem?_map, List.getElem?_range (Nat.lt_succ_self _), Option.map_some] at hlast
    obtain rfl := Option.some.inj hlast
    rw [myMalloc, if_pos (Int.natCast_nonneg _)] at hmalloc
    obtain rfl := Option.some.inj hmalloc
    rw [List.length_map, List.length_range, Int.toNat_natCast]
    rfl
  | @relax m m' ind offsets cells cells' pc pc' i spurious v off hi hoff hnext =>
    obtain ⟨R, rfl⟩ : Relaxing P m ind cells pc ∧ _ := hs
    obtain rfl : off = offset (outDegree P) ind i := by
      have hlt : i < ind.length + 1 := Nat.lt_succ_of_lt (List.getElem?_eq_some_iff.mp hi).1
      rw [List.getElem?_map, List.getElem?_range hlt, Option.map_some] at hoff
      exact (Option.some.inj hoff).symm
    obtain ⟨x, w, harc, hop⟩ := operation_of_succNext hnext
    exact ⟨R.step hi harc hop, rfl⟩
  | @finish m ind offsets cells pc choice choice' all newfrontier hall horder happend horder' hfilter =>
    obtain ⟨R, -⟩ : Relaxing P m ind cells pc ∧ _ := hs
    rw [append_eq choice _ _ (by rwa [List.length_map])] at happend
    obtain rfl := Option.some.inj happend
    have hne : m.frontier.map some ++ cells ≠ [] := by
      obtain ⟨v, hv⟩ := List.exists_mem_of_ne_nil _ R.nonempty
      exact List.ne_nil_of_mem (List.mem_append_left _ (List.mem_map_of_mem (R.chosen v hv)))
    rw [filter_eq choice' _ hne horder'] at hfilter
    obtain rfl := Option.some.inj hfilter
    exact R.finish hall

theorem reachable_ok (hpair : PairAdmissible P) (hreach : P.graph.Reaches P.source P.destination)
    {s : State V} (hs : (pars P).Reachable s) : PhaseOk P s.mem s.phase := by
  apply hs.invariant (I := fun s => PhaseOk P s.mem s.phase)
  · rintro _ ⟨garbage, order, hall, rfl⟩
    exact ready_start P fun v => foldl_initVertex order garbage (hall v)
  · intro s t _ hok hstep
    exact step_ok hpair hreach hstep hok

/-! ## Progress -/

section Progress

variable {m : Mem V} {ind : List V}

theorem Checking.exists_step (hreach : P.graph.Reaches P.source P.destination)
    {check : ℕ → ℕ → Check} {written : ℕ → Bool} (C : Checking P m check written) :
    ∃ s', Step P ⟨m, .independence check written⟩ s' := by
  by_cases hall : ∀ i < m.frontier.length, written i = true
  · have hne := C.frontier_ne_nil C.open_ hreach
    have hfilter := filter_eq ⟨fun _ => 0, fun _ => 0, fun _ => P.source,
      List.range m.frontier.length⟩ (fun i _ => m.independent i) hne (List.Perm.refl _)
    exact ⟨_, .choose _ hall (List.Perm.refl _) hfilter⟩
  push Not at hall
  obtain ⟨i, hi, hw⟩ := hall
  have hw' : written i = false := by simpa using hw
  have hv : m.frontier[i]? = some m.frontier[i] := List.getElem?_eq_getElem hi
  by_cases hdone : ∀ j < m.frontier.length, j ≠ i → check i j = .verdict true
  · exact ⟨_, .writeTrue i hi hw' hdone⟩
  push Not at hdone
  obtain ⟨j, hj, hne, hc⟩ := hdone
  have hu : m.frontier[j]? = some m.frontier[j] := List.getElem?_eq_getElem hj
  cases hcheck : check i j with
  | idle => exact ⟨_, .loadMine i j hv hu hne hw' hcheck⟩
  | loaded d => exact ⟨_, .loadOther i j hv hu hw' hcheck⟩
  | verdict b =>
    cases b with
    | false => exact ⟨_, .writeFalse i j hi hw' hcheck⟩
    | true => exact absurd hcheck hc

theorem Closing.exists_step {pc : ℕ → SetPc} (C : Closing P m ind pc) :
    ∃ s', Step P ⟨m, .setDist ind pc⟩ s' := by
  by_cases hall : ∀ i < ind.length, pc i = .stored
  · have hscan := plusScan_eq (fun _ => 0) (fun _ => 0) (fun _ v => (P.graph.nbrs v).length)
      C.nonempty
    have hlen : ((List.range (ind.length + 1)).map fun i =>
        total (fun _ v => (P.graph.nbrs v).length) ind 0 i)[ind.length]?
          = some (offset (outDegree P) ind ind.length) := by
      rw [List.getElem?_map, List.getElem?_range (Nat.lt_succ_self _)]
      rfl
    have hmalloc : myMalloc (fun _ => (none : Option V))
        ((offset (outDegree P) ind ind.length : ℕ) : ℤ)
          = some ((List.range (offset (outDegree P) ind ind.length)).map fun _ => none) := by
      rw [myMalloc, if_pos (Int.natCast_nonneg _), Int.toNat_natCast]
    exact ⟨_, .scan (fun _ => 0) (fun _ => 0) (fun _ => none) hall hscan hlen hmalloc⟩
  push Not at hall
  obtain ⟨i, hi, hpc⟩ := hall
  have hv : ind[i]? = some ind[i] := List.getElem?_eq_getElem hi
  cases hstate : pc i with
  | start => exact ⟨_, .load i hv hstate⟩
  | loaded d => exact ⟨_, .finalize i hv hstate⟩
  | stored => exact absurd hstate hpc

/-- An iteration that has an arc left has an operation to do. -/
theorem exists_succNext {v : V} {place : ℕ} {cells : List (Option V)} {pc : SuccPc}
    (hlt : pc.j < (P.graph.nbrs v).length) (hplace : place < cells.length) :
    ∃ r, succNext P false v place m cells pc = some r := by
  unfold succNext
  rw [List.getElem?_eq_getElem hlt]
  cases pc.point with
  | arc => exact ⟨_, by rw [store_eq hplace]; rfl⟩
  | load mine => exact ⟨_, rfl⟩
  | cas mine other =>
    dsimp only
    split_ifs
    · exact ⟨_, rfl⟩
    · exact ⟨_, rfl⟩
  | check => exact ⟨_, rfl⟩
  | claim =>
    dsimp only
    split_ifs
    · exact ⟨_, rfl⟩
    · exact ⟨_, by rw [store_eq hplace]; rfl⟩

/-- An exchange that is let succeed goes on to the check. -/
theorem not_spurious_of_succNext {m' : Mem V} {offsets : List ℕ} {cells cells' : List (Option V)}
    {pc : ℕ → SuccPc} {pc' : SuccPc} {i place : ℕ} {v : V} (hi : ind[i]? = some v)
    (h : succNext P false v place m cells (pc i) = some (m', cells', pc')) :
    ¬ Spurious P ⟨m, .successors ind offsets cells pc⟩
      ⟨m', .successors ind offsets cells' (Function.update pc i pc')⟩ := by
  rintro ⟨_, _, _, _, _, k, u, ngh, weight, mine, other, ⟨⟩, hk, harc, hcas, hother, heq⟩
  obtain ⟨rfl, -, hpc⟩ : m' = m ∧ cells' = cells ∧ Function.update pc i pc' =
      Function.update pc k ⟨(pc k).j, .load mine⟩ := by simpa using heq
  by_cases hki : k = i
  · subst hki
    obtain rfl : u = v := Option.some.inj (hk.symm.trans hi)
    have hload : pc' = ⟨(pc k).j, .load mine⟩ := by simpa using congrFun hpc k
    simp [succNext, harc, hcas, hother, hload] at h
  · have hsame := congrFun hpc k
    rw [Function.update_of_ne hki, Function.update_self] at hsame
    rw [hsame] at hcas
    cases hcas

theorem Relaxing.exists_step {cells : List (Option V)} {pc : ℕ → SuccPc}
    (R : Relaxing P m ind cells pc) :
    ∃ s', Step P ⟨m, .successors ind
        ((List.range (ind.length + 1)).map (offset (outDegree P) ind)) cells pc⟩ s' ∧
      ¬ Spurious P ⟨m, .successors ind
        ((List.range (ind.length + 1)).map (offset (outDegree P) ind)) cells pc⟩ s' := by
  by_cases hall : ∀ i v, ind[i]? = some v → (P.graph.nbrs v).length ≤ (pc i).j
  · have hne : m.frontier.map some ++ cells ≠ [] := by
      obtain ⟨v, hv⟩ := List.exists_mem_of_ne_nil _ R.nonempty
      exact List.ne_nil_of_mem (List.mem_append_left _ (List.mem_map_of_mem (R.chosen v hv)))
    have happend := append_eq ⟨fun _ => 0, fun _ => 0, fun _ => none,
      List.range (m.frontier.length + cells.length)⟩ (m.frontier.map some) cells
      (by rw [List.length_map])
    have hfilter := filter_eq ⟨fun _ => 0, fun _ => 0, fun _ => none,
      List.range (m.frontier.map some ++ cells).length⟩ (fun _ v => keepOpen m v) hne
      (List.Perm.refl _)
    refine ⟨_, .finish _ _ hall (List.Perm.refl _) happend (List.Perm.refl _) hfilter, ?_⟩
    rintro ⟨_, _, _, _, _, _, _, _, _, _, _, -, -, -, -, -, ⟨⟩⟩
  push Not at hall
  obtain ⟨i, v, hi, hlt⟩ := hall
  have hoff : ((List.range (ind.length + 1)).map (offset (outDegree P) ind))[i]?
      = some (offset (outDegree P) ind i) := by
    have hlt' : i < ind.length + 1 := Nat.lt_succ_of_lt (List.getElem?_eq_some_iff.mp hi).1
    rw [List.getElem?_map, List.getElem?_range hlt', Option.map_some]
  have hplace : offset (outDegree P) ind i + (pc i).j < cells.length := by
    rw [R.size]
    exact offset_add_lt hi hlt
  obtain ⟨⟨m', cells', pc'⟩, hr⟩ := exists_succNext (m := m) (P := P) hlt hplace
  exact ⟨_, .relax i false hi hoff hr, not_spurious_of_succNext hi hr⟩

end Progress

/-- **No state but the last one is stuck**, and going on need not fail an exchange spuriously. -/
theorem exists_step (hreach : P.graph.Reaches P.source P.destination) {s : State V}
    (hs : PhaseOk P s.mem s.phase) (hret : s.phase ≠ .returned) :
    ∃ s', Step P s s' ∧ ¬ Spurious P s s' := by
  obtain ⟨m, phase⟩ := s
  cases phase with
  | test =>
    by_cases hopen : m.finalized P.destination = INFINITE
    · exact ⟨_, .enter hopen, by rintro ⟨_, _, _, _, _, _, _, _, _, _, _, ⟨⟩, -⟩⟩
    · exact ⟨_, .leave hopen, by rintro ⟨_, _, _, _, _, _, _, _, _, _, _, ⟨⟩, -⟩⟩
  | independence check written =>
    obtain ⟨s', hstep⟩ := Checking.exists_step hreach hs
    exact ⟨s', hstep, by rintro ⟨_, _, _, _, _, _, _, _, _, _, _, ⟨⟩, -⟩⟩
  | setDist ind pc =>
    obtain ⟨s', hstep⟩ := Closing.exists_step hs
    exact ⟨s', hstep, by rintro ⟨_, _, _, _, _, _, _, _, _, _, _, ⟨⟩, -⟩⟩
  | successors ind offsets cells pc =>
    obtain ⟨R, rfl⟩ : Relaxing P m ind cells pc ∧ _ := hs
    exact R.exists_step
  | returned => exact absurd rfl hret
  | aborted => exact hs.elim

end PwsaStar.Pars
