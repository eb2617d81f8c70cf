/-
# PwsaStar.Range.Pwsa — the sums of `pwsa_pc` and `pwsa_pcT`, in every run.

A vertex is popped from the frontier of the worker that inserted it, or from one that was split off when
that worker was not expanding anything.  Either way the vertex it was found through has been relaxed
completely by then, so the popped vertex is `Ready`.  While a worker is relaxing the arcs of a vertex,
its own frontier may hold entries that wait for the rest of these arcs (`Pending`).
-/
import PwsaStar.Pwsa.Body
import PwsaStar.Lib.ChordlessPath

namespace PwsaStar.Pwsa

open PwsaStar.Lib PwsaStar.Heap PwsaStar.ParallelWhile

variable {W V : Type*} {P : Problem V} {m m' : Shared W V} {v : V} {vdistance : Dist}
  {arc : V × ℤ} {arcs : List (V × ℤ)}

/-! ## What a worker knows of the vertex it expands -/

/-- A vertex that may be expanded. -/
def ReadyIn (P : Problem V) (m : Shared W V) (v : V) : Prop :=
  Ready P.graph P.source P.destination (fun v => m.isExpanded v = true) m.g v

/-- What holds while the arcs of `v` are relaxed with this snapshot of its label. -/
def ExpandingIn (P : Problem V) (m : Shared W V) (v : V) (vdistance : Dist) (arcs : List (V × ℤ)) :
    Prop :=
  ∃ (d : ℤ) (q : List (V × ℤ)), (0 ≤ vdistance ∧ vdistance ≤ (d : Dist)) ∧
    Expanding P.graph P.source P.destination (fun v => m.isExpanded v = true) m.g v arcs d q

/-- What holds in a frame. -/
def FrameBacked (P : Problem V) (m : Shared W V) : Frame V → Prop
  | .loop _ => True
  | .loadExpanded _ v | .casExpanded _ v => ReadyIn P m v
  | .loadG _ v => v ≠ P.destination ∧ m.isExpanded v = true ∧
    ∃ d q, Backed P.graph P.source P.destination (fun v => m.isExpanded v = true) m.g v d q
  | .relax _ v vdistance arcs => ExpandingIn P m v vdistance arcs
  | .reload .. => False
  | .casG _ v vdistance arc arcs expected =>
    ExpandingIn P m v vdistance (arc :: arcs) ∧ vdistance + (arc.2 : Dist) < expected.distance
  | .checkInsert _ v vdistance arc arcs =>
    ExpandingIn P m v vdistance arcs ∧ P.graph.Arc v arc.1 arc.2

/-- The vertex whose arcs a worker is relaxing. -/
def Frame.relaxing : Frame V → Option V
  | .relax _ v _ _ | .casG _ v _ _ _ _ | .checkInsert _ v _ _ _ => some v
  | _ => none

/-- An entry of the worker's own frontier is ready, or is so when the worker is through with its
vertex. -/
def Pending (P : Problem V) (m : Shared W V) (b : Frame V) (e : KV Dist V) : Prop :=
  ReadyIn P m e.value ∨ ∃ v w, b.relaxing = some v ∧ P.graph.Arc v e.value w

/-- Labels that are there are between 0 and `M`. -/
def LabelsWithin (M : ℤ) (m : Shared W V) : Prop :=
  ∀ v, 0 ≤ m.g v ∧ (m.g v ≠ ⊤ → m.g v ≤ (M : Dist))

section Mono

theorem ReadyIn.mono (h : ReadyIn P m v) (hm : Grows m m') : ReadyIn P m' v :=
  Ready.mono h hm.expanded hm.label

theorem ExpandingIn.mono (h : ExpandingIn P m v vdistance arcs) (hm : Grows m m') :
    ExpandingIn P m' v vdistance arcs := by
  obtain ⟨d, q, hle, h⟩ := h
  exact ⟨d, q, hle, h.mono hm.expanded hm.label⟩

theorem FrameBacked.mono {b : Frame V} (h : FrameBacked P m b) (hm : Grows m m') :
    FrameBacked P m' b := by
  cases b with
  | loop => trivial
  | loadExpanded | casExpanded => exact ReadyIn.mono h hm
  | loadG steps v =>
    obtain ⟨hinner, hexp, d, q, hbacked⟩ := h
    exact ⟨hinner, hm.expanded v hexp, d, q, hbacked.mono hm.expanded hm.label⟩
  | relax => exact ExpandingIn.mono h hm
  | reload => exact h
  | casG | checkInsert => exact ⟨ExpandingIn.mono h.1 hm, h.2⟩

theorem Pending.mono {b : Frame V} {e : KV Dist V} (h : Pending P m b e) (hm : Grows m m') :
    Pending P m' b e := h.imp_left (ReadyIn.mono · hm)

/-- Nothing waits for a worker that has no vertex. -/
theorem Pending.ready {b : Frame V} {e : KV Dist V} (h : Pending P m b e)
    (hidle : b.relaxing = none) : ReadyIn P m e.value := by
  rcases h with h | ⟨v, w, hv, -⟩
  · exact h
  · rw [hidle] at hv
    cases hv

/-- One arc less. -/
theorem ExpandingIn.tail (h : ExpandingIn P m v vdistance (arc :: arcs))
    (harc : m.g arc.1 ≤ vdistance + (arc.2 : Dist)) : ExpandingIn P m v vdistance arcs := by
  obtain ⟨d, q, hle, h⟩ := h
  exact ⟨d, q, hle, h.tail (harc.trans (Expanding.sum_le_path hle.2))⟩

theorem ExpandingIn.isArc (h : ExpandingIn P m v vdistance (arc :: arcs)) :
    P.graph.Arc v arc.1 arc.2 := by
  obtain ⟨d, q, -, h⟩ := h
  exact h.remaining arc List.mem_cons_self

/-- **A sum that is computed is at most `M`.** -/
theorem ExpandingIn.sum_le {M : ℤ} (hM : ChordlessWithin P.graph P.source P.destination M)
    (h : ExpandingIn P m v vdistance (arc :: arcs)) :
    0 ≤ vdistance + (arc.2 : Dist) ∧ vdistance + (arc.2 : Dist) ≤ (M : Dist) := by
  have harc := h.isArc.nonneg
  obtain ⟨d, q, ⟨hnonneg, hle⟩, h⟩ := h
  exact ⟨add_nonneg hnonneg (by exact_mod_cast harc), h.sum_le hM hle⟩

/-- An access that goes on, with what was pending still pending. -/
structure GoesOn (P : Problem V) (m m' : Shared W V) (b b' : Frame V) : Prop where
  frame : FrameBacked P m' b'
  pending : ∀ e, Pending P m b e → Pending P m' b' e

/-- A worker that stays with its vertex. -/
theorem GoesOn.same {b b' : Frame V} (h : FrameBacked P m' b') (hm : Grows m m')
    (hsame : b'.relaxing = b.relaxing) : GoesOn P m m' b b' where
  frame := h
  pending e he := by
    unfold Pending at he ⊢
    rw [hsame]
    exact he.imp_left (ReadyIn.mono · hm)

/-- A worker that had no vertex. -/
theorem GoesOn.idle {b b' : Frame V} (h : FrameBacked P m' b') (hm : Grows m m')
    (hidle : b.relaxing = none) : GoesOn P m m' b b' where
  frame := h
  pending _ he := Or.inl ((he.ready hidle).mono hm)

end Mono

/-! ## Single steps -/

section Step

variable [DecidableEq V] {M : ℤ} {variant : Variant}

theorem labelsWithin_exchange (hm : LabelsWithin M m) {u : V} {mine : Vertpack V}
    (h : 0 ≤ mine.distance ∧ mine.distance ≤ (M : Dist)) : LabelsWithin M (m.exchange u mine) := by
  intro v
  rw [g_exchange]
  by_cases hvu : v = u
  · subst hvu
    rw [Function.update_self]
    exact ⟨h.1, fun _ => h.2⟩
  · rw [Function.update_of_ne hvu]
    exact hm v

/-- What an access does for the memory, the frame and the worker's own frontier. -/
theorem access_backed (hvariant : variant ≠ .pwsa)
    (hM : ChordlessWithin P.graph P.source P.destination M) {w : W} {x : Bool} {b : Frame V}
    {effect : Effect V} (hm : LabelsWithin M m) (hb : FrameBacked P m b)
    (h : access variant P w x m b = some (m', effect)) :
    Grows m m' ∧ LabelsWithin M m' ∧
      (∀ b', effect.frame = some b' → GoesOn P m m' b b' ∧ ∀ e ∈ effect.inserted, Pending P m' b' e) ∧
      (effect.frame = none → effect.inserted = 0 ∧ b.relaxing = none) := by
  have hgoto : ∀ {m' : Shared W V} {b' : Frame V}, GoesOn P m m' b b' →
      (∀ b'', (Effect.goto b').frame = some b'' → GoesOn P m m' b b'' ∧
        ∀ e ∈ (Effect.goto b').inserted, Pending P m' b'' e) ∧
      ((Effect.goto b').frame = none → (Effect.goto b').inserted = 0 ∧ b.relaxing = none) := by
    intro m' b' hgo
    refine ⟨fun b'' hb'' => ?_, nofun⟩
    obtain rfl := Option.some.inj hb''
    exact ⟨hgo, fun e he => absurd he (Multiset.notMem_zero e)⟩
  have hrefl := Grows.refl m
  cases access_cases h with
  | skip | lose => exact ⟨hrefl, hm, hgoto (.idle trivial hrefl rfl)⟩
  | see => exact ⟨hrefl, hm, hgoto (.idle hb hrefl rfl)⟩
  | find =>
    exact ⟨grows_mark m w _, hm, nofun, fun _ => ⟨rfl, rfl⟩⟩
  | @win steps v hv hne =>
    have hgrow := grows_mark m w v
    refine ⟨hgrow, hm, hgoto (.idle ⟨hne, isExpanded_mark_self m w v, ?_⟩ hgrow rfl)⟩
    rcases hb with hexp | ⟨d, q, hbacked⟩
    · rw [hv] at hexp
      cases hexp
    · exact ⟨d, q, hbacked.mono hgrow.expanded hgrow.label⟩
  | @snapshot steps v =>
    obtain ⟨hne, hexp, d, q, hbacked⟩ := hb
    refine ⟨⟨fun _ h => h, fun _ => le_rfl⟩, hm, hgoto (.idle ?_ ⟨fun _ h => h, fun _ => le_rfl⟩ rfl)⟩
    exact ⟨d, q, ⟨(hm v).1, hbacked.label⟩, .start hbacked hne hexp⟩
  | @done steps v vdistance =>
    obtain ⟨d, q, -, hexpanding⟩ := hb
    refine ⟨hrefl, hm, hgoto ⟨trivial, ?_⟩⟩
    -- the vertex is relaxed completely, and nothing waits for it any more
    rintro e (he | ⟨v, w, hv, harc⟩)
    · exact Or.inl he
    · cases hv
      exact Or.inl (hexpanding.ready harc)
  | first heq | giveUp heq => exact absurd heq hvariant
  | better _ hlt => exact ⟨hrefl, hm, hgoto (.same ⟨hb, hlt⟩ hrefl rfl)⟩
  | worse _ hle => exact ⟨hrefl, hm, hgoto (.same (ExpandingIn.tail hb hle) hrefl rfl)⟩
  | reload => exact hb.elim
  | @exchange steps v vdistance arc arcs hx =>
    obtain ⟨hexpanding, hlt⟩ := hb
    have hgrow := grows_exchange m arc.1 ⟨vdistance + (arc.2 : Dist), some v⟩ hlt.le
    have hrelaxed : (m.exchange arc.1 ⟨vdistance + (arc.2 : Dist), some v⟩).g arc.1 ≤
        vdistance + (arc.2 : Dist) := by
      rw [g_exchange, Function.update_self]
    exact ⟨hgrow, labelsWithin_exchange hm (hexpanding.sum_le hM),
      hgoto (.same ⟨(hexpanding.mono hgrow).tail hrelaxed, hexpanding.isArc⟩ hgrow rfl)⟩
  | retry => exact ⟨hrefl, hm, hgoto (.same hb.1 hrefl rfl)⟩
  | known => exact ⟨hrefl, hm, hgoto (.same hb.1 hrefl rfl)⟩
  | @insert steps v vdistance arc arcs p memo hv =>
    have hgrow : Grows m { m with h := memo } := ⟨fun _ h => h, fun _ => le_rfl⟩
    refine ⟨hgrow, hm, fun b' hb' => ?_, nofun⟩
    obtain rfl := Option.some.inj hb'
    refine ⟨.same (ExpandingIn.mono hb.1 hgrow) hgrow rfl, fun e he => ?_⟩
    obtain rfl := Multiset.mem_singleton.mp he
    exact Or.inr ⟨v, arc.2, rfl, hb.2⟩

/-- **What every worker relies on is kept by all of them.** -/
theorem localInvariant (hvariant : variant ≠ .pwsa)
    (hM : ChordlessWithin P.graph P.source P.destination M) (block : ℕ → KV Dist V) :
    LocalInvariant (client (W := W) variant block P) ValidHeap.entries (LabelsWithin M)
      (FrameBacked P) (fun m e => ReadyIn P m e.value) (Pending P) where
  enter m _ := ⟨trivial, fun e he => Or.inl he⟩
  body w x m l f b m' l' f' r hm hb hf hbody := by
    rcases doWork_cases hbody with ⟨n, v, rfl, rfl, hpop, rfl⟩ | ⟨n, rfl, rfl, rfl, rfl⟩ |
      ⟨effect, haccess, hentries, rfl⟩
    · obtain ⟨p, hent, -⟩ := ValidHeap.entries_deleteMin hpop
      have hready : ∀ e ∈ f.entries, ReadyIn P m' e.value := fun e he => (hf e he).ready rfl
      refine ⟨hm, fun b' hb' => ?_, nofun, fun _ h => h, fun _ h => h, fun _ _ h => h⟩
      obtain rfl := Sum.inl.inj hb'
      rw [hent] at hready
      refine ⟨hready ⟨p, v⟩ (Multiset.mem_cons_self _ _), fun e he => Or.inl ?_⟩
      exact hready e (Multiset.mem_cons_of_mem he)
    · exact ⟨hm, nofun, fun _ _ e he => (hf e he).ready rfl, fun _ h => h, fun _ h => h,
        fun _ _ h => h⟩
    · obtain ⟨hgrow, hm', hgoes, hends⟩ := access_backed hvariant hM hm hb haccess
      refine ⟨hm', fun b' hb' => ?_, fun d hd e he => ?_, fun _ h => h.mono hgrow,
        fun _ h => h.mono hgrow, fun _ _ h => h.mono hgrow⟩
      · have hframe : effect.frame = some b' := by
          cases effect <;> cases hb' <;> rfl
        obtain ⟨hgo, hinserted⟩ := hgoes b' hframe
        refine ⟨hgo.frame, fun e he => ?_⟩
        rw [hentries] at he
        rcases Multiset.mem_add.mp he with he | he
        · exact hinserted e he
        · exact hgo.pending e (hf e he)
      · have hframe : effect.frame = none := by
          cases effect <;> first | rfl | cases hd
        obtain ⟨hnone, hidle⟩ := hends hframe
        rw [hentries, hnone, zero_add] at he
        exact ((hf e he).ready hidle).mono hgrow

/-- **The sums of a search.**  In every run, every sum that a worker computes is between 0 and `M`, and
so is every label. -/
theorem reachable_within [DecidableEq W] [Fintype W] (hvariant : variant ≠ .pwsa) (h0 : 0 ≤ M)
    (hM : ChordlessWithin P.graph P.source P.destination M) {block : ℕ → KV Dist V} {leader : W}
    {c : SearchConfig W V} (hc : (search variant block P leader).Reachable c) :
    (∀ w steps v vdistance arc arcs, c.pc w = .work (.relax steps v vdistance (arc :: arcs)) →
      0 ≤ vdistance + (arc.2 : Dist) ∧ vdistance + (arc.2 : Dist) ≤ (M : Dist)) ∧
      LabelsWithin M c.shared := by
  have hg : (initF (W := W) block P).1.g = (Shared.new (W := W) P).g := by
    obtain ⟨memo, hmemo⟩ := myHeur_frame P.heuristic (Shared.new (W := W) P) P.source
    show (myHeur P.heuristic (Shared.new P) P.source).2.g = _
    rw [hmemo]
    rfl
  have hsource : (Shared.new (W := W) P).g P.source = 0 := by simp [Shared.g, Shared.new]
  have hinit : LabelsWithin M (initF (W := W) block P).1 := by
    intro v
    rw [hg]
    by_cases hvs : v = P.source
    · rw [hvs, hsource]
      exact ⟨le_rfl, fun _ => by exact_mod_cast h0⟩
    · simp [Shared.g, Shared.new, hvs]
  have hinput : ∀ e ∈ (initF (W := W) block P).2.entries, ReadyIn P (initF (W := W) block P).1 e.value := by
    intro e he
    simp only [initF, ValidHeap.entries_insert, ValidHeap.entries_new] at he
    obtain rfl := Multiset.mem_singleton.mp he
    exact ready_source (hg ▸ hsource)
  have hall := (localInvariant (W := W) hvariant hM block).reachable (client_lawful variant block P)
    hinit hinput hc
  refine ⟨?_, hall.memory⟩
  intro w steps v vdistance arc arcs hpc
  exact ExpandingIn.sum_le hM (hall.inside w _ hpc).1

end Step

end PwsaStar.Pwsa
