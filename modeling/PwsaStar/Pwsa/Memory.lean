/-
# PwsaStar.Pwsa.Memory — what one access of `do_work` does to labels and predecessors.

A worker relaxes the arcs of an expanded vertex with a snapshot of its label.  Other workers may
lower that label at any time, so the snapshot is only an upper bound; and they may redirect the
predecessors of expanded vertices.  `MemOk` says that the predecessors form a forest
(`Lib.Forest`), `FrameOk` what a worker may rely on in the middle of `do_work`.  Both survive
whatever the others do because labels only drop and vertices stay expanded (`Grows`), as long as
every winning exchange stores a lower label (`Lowers`).  `pwsa_pc` and `pwsa_pcT` compare before they
exchange, so theirs do (`Guarded`).
-/
import PwsaStar.Pwsa.Basic

namespace PwsaStar.Pwsa

open PwsaStar.Lib PwsaStar.Heap PwsaStar.ParallelWhile

variable {W V : Type*}

/-- Vertices stay expanded and labels only drop. -/
structure Grows (m m' : Shared W V) : Prop where
  expanded : ∀ v, m.isExpanded v = true → m'.isExpanded v = true
  label : ∀ v, m'.g v ≤ m.g v

theorem Grows.refl (m : Shared W V) : Grows m m := ⟨fun _ h => h, fun _ => le_rfl⟩

theorem Grows.trans {m₁ m₂ m₃ : Shared W V} (h₁ : Grows m₁ m₂) (h₂ : Grows m₂ m₃) : Grows m₁ m₃ :=
  ⟨fun v h => h₂.expanded v (h₁.expanded v h), fun v => (h₂.label v).trans (h₁.label v)⟩

theorem Grows.ne_top {m m' : Shared W V} (h : Grows m m') {v : V} (hv : m.g v ≠ ⊤) : m'.g v ≠ ⊤ :=
  ne_top_of_le_ne_top hv (h.label v)

/-- Every vertex but the source that has a predecessor is the head of an arc from it. -/
def PairsAreArcs (P : Problem V) (m : Shared W V) : Prop :=
  ∀ v p, v ≠ P.source → m.pred v = some p → ∃ w, P.graph.Arc p v w

/-- The memory of a search between two accesses. -/
structure MemOk (P : Problem V) (m : Shared W V) : Prop where
  forest : Forest P.graph P.source (fun v => m.isExpanded v = true) m.g m.pred
  source : m.gpred P.source = ⟨0, some P.source⟩
  labelled : ∀ v, m.isExpanded v = true → m.g v ≠ ⊤
  pairs : PairsAreArcs P m

/-- `v` is expanded, `vdistance` is a finite snapshot of its label, and `arcs` are arcs of `v`. -/
structure Relaxing (P : Problem V) (m : Shared W V) (v : V) (vdistance : Dist)
    (arcs : List (V × ℤ)) : Prop where
  expanded : m.isExpanded v = true
  snapshot : m.g v ≤ vdistance
  finite : vdistance ≠ ⊤
  arcs : ∀ a ∈ arcs, a ∈ P.graph.nbrs v

theorem Relaxing.tail {P : Problem V} {m : Shared W V} {v : V} {vdistance : Dist} {arc : V × ℤ}
    {arcs : List (V × ℤ)} (h : Relaxing P m v vdistance (arc :: arcs)) :
    Relaxing P m v vdistance arcs :=
  ⟨h.expanded, h.snapshot, h.finite, fun a ha => h.arcs a (List.mem_cons_of_mem _ ha)⟩

theorem Relaxing.mono {P : Problem V} {m m' : Shared W V} {v : V} {vdistance : Dist}
    {arcs : List (V × ℤ)} (h : Relaxing P m v vdistance arcs) (hm : Grows m m') :
    Relaxing P m' v vdistance arcs :=
  ⟨hm.expanded v h.expanded, (hm.label v).trans h.snapshot, h.finite, h.arcs⟩

/-- What a worker may rely on inside `do_work`. -/
def FrameOk (P : Problem V) (m : Shared W V) : Frame V → Prop
  | .loop _ => True
  | .loadExpanded _ v | .casExpanded _ v => m.g v ≠ ⊤
  | .loadG _ v => m.isExpanded v = true
  | .relax _ v vdistance arcs => Relaxing P m v vdistance arcs
  | .reload _ v vdistance arc arcs | .casG _ v vdistance arc arcs _ =>
    Relaxing P m v vdistance (arc :: arcs)
  | .checkInsert _ v vdistance arc arcs => Relaxing P m v vdistance arcs ∧ m.g arc.1 ≠ ⊤

theorem FrameOk.mono {P : Problem V} {m m' : Shared W V} {b : Frame V} (h : FrameOk P m b)
    (hm : Grows m m') : FrameOk P m' b := by
  cases b with
  | loop => trivial
  | loadExpanded | casExpanded => exact hm.ne_top h
  | loadG steps v => exact hm.expanded v h
  | relax | reload | casG => exact Relaxing.mono h hm
  | checkInsert => exact ⟨h.1.mono hm, hm.ne_top h.2⟩

/-- If the exchange of the frame wins, it stores a lower label than it finds. -/
def Lowers (m : Shared W V) (x : Bool) : Frame V → Prop
  | .casG _ _ vdistance arc _ expected =>
    x = true → m.gpred arc.1 = expected → vdistance + (arc.2 : Dist) < m.g arc.1
  | _ => True

/-- The frame is one of `pwsa_pc`: before an exchange it has compared the label it expects with the
one it wants to store. -/
def Guarded : Frame V → Prop
  | .casG _ _ vdistance arc _ expected => vdistance + (arc.2 : Dist) < expected.distance
  | .reload .. => False
  | _ => True

theorem Guarded.lowers {b : Frame V} (h : Guarded b) (m : Shared W V) (x : Bool) : Lowers m x b := by
  cases b with
  | casG steps v vdistance arc arcs expected =>
    rintro - rfl
    exact h
  | _ => trivial

/-- The frame a worker goes on in. -/
def Effect.frame : Effect V → Option (Frame V)
  | .goto b | .insert _ _ b => some b
  | .found => none

/-- The entries an effect adds to the frontier. -/
def Effect.inserted : Effect V → Multiset (KV Dist V)
  | .insert p v _ => {⟨p, v⟩}
  | _ => 0

/-- What is inserted has a label, and the frame that is entered is in order. -/
structure EffectOk (P : Problem V) (m : Shared W V) (effect : Effect V) : Prop where
  inserted : ∀ e ∈ effect.inserted, m.g e.value ≠ ⊤
  frame : ∀ b, effect.frame = some b → FrameOk P m b

theorem effectOk_goto {P : Problem V} {m : Shared W V} {b : Frame V} (h : FrameOk P m b) :
    EffectOk P m (.goto b) where
  inserted e he := absurd he (Multiset.notMem_zero e)
  frame b' hb' := by
    cases hb'
    exact h

variable [DecidableEq V]

/-! ## What one access can do -/

/-- The outcomes of `access`, one constructor per branch. -/
inductive Accessed (variant : Variant) (P : Problem V) (w : W) (x : Bool) (m : Shared W V) :
    Frame V → Shared W V → Effect V → Prop
  | skip {steps : ℤ} {v : V} : m.isExpanded v = true →
      Accessed variant P w x m (.loadExpanded steps v) m (.goto (.loop steps))
  | see {steps : ℤ} {v : V} : m.isExpanded v = false →
      Accessed variant P w x m (.loadExpanded steps v) m (.goto (.casExpanded steps v))
  | lose {steps : ℤ} {v : V} : m.isExpanded v = true →
      Accessed variant P w x m (.casExpanded steps v) m (.goto (.loop steps))
  | find {steps : ℤ} : m.isExpanded P.destination = false →
      Accessed variant P w x m (.casExpanded steps P.destination) (m.mark w P.destination) .found
  | win {steps : ℤ} {v : V} : m.isExpanded v = false → v ≠ P.destination →
      Accessed variant P w x m (.casExpanded steps v) (m.mark w v) (.goto (.loadG steps v))
  | snapshot {steps : ℤ} {v : V} : ¬ (variant = .pwsa_pcT ∧ m.g v < 0) →
      Accessed variant P w x m (.loadG steps v) { m with expansions := (w, v) :: m.expansions }
        (.goto (.relax steps v (m.g v) (P.graph.nbrs v)))
  | done {steps : ℤ} {v : V} {vdistance : Dist} :
      Accessed variant P w x m (.relax steps v vdistance []) m (.goto (.loop steps))
  | first {steps : ℤ} {v : V} {vdistance : Dist} {arc : V × ℤ} {arcs : List (V × ℤ)} :
      variant = .pwsa → Accessed variant P w x m (.relax steps v vdistance (arc :: arcs)) m
        (.goto (.reload steps v vdistance arc arcs))
  | better {steps : ℤ} {v : V} {vdistance : Dist} {arc : V × ℤ} {arcs : List (V × ℤ)} :
      variant ≠ .pwsa → vdistance + (arc.2 : Dist) < m.g arc.1 →
      Accessed variant P w x m (.relax steps v vdistance (arc :: arcs)) m
        (.goto (.casG steps v vdistance arc arcs (m.gpred arc.1)))
  | worse {steps : ℤ} {v : V} {vdistance : Dist} {arc : V × ℤ} {arcs : List (V × ℤ)} :
      variant ≠ .pwsa → m.g arc.1 ≤ vdistance + (arc.2 : Dist) →
      Accessed variant P w x m (.relax steps v vdistance (arc :: arcs)) m
        (.goto (.relax steps v vdistance arcs))
  | reload {steps : ℤ} {v : V} {vdistance : Dist} {arc : V × ℤ} {arcs : List (V × ℤ)} :
      Accessed variant P w x m (.reload steps v vdistance arc arcs) m
        (.goto (.casG steps v vdistance arc arcs (m.gpred arc.1)))
  | exchange {steps : ℤ} {v : V} {vdistance : Dist} {arc : V × ℤ} {arcs : List (V × ℤ)} :
      x = true → Accessed variant P w x m (.casG steps v vdistance arc arcs (m.gpred arc.1))
        (m.exchange arc.1 ⟨vdistance + (arc.2 : Dist), some v⟩)
        (.goto (.checkInsert steps v vdistance arc arcs))
  | giveUp {steps : ℤ} {v : V} {vdistance : Dist} {arc : V × ℤ} {arcs : List (V × ℤ)}
      {expected : Vertpack V} : variant = .pwsa →
      Accessed variant P w x m (.casG steps v vdistance arc arcs expected) m
        (.goto (.relax steps v vdistance arcs))
  | retry {steps : ℤ} {v : V} {vdistance : Dist} {arc : V × ℤ} {arcs : List (V × ℤ)}
      {expected : Vertpack V} : variant ≠ .pwsa →
      Accessed variant P w x m (.casG steps v vdistance arc arcs expected) m
        (.goto (.relax steps v vdistance (arc :: arcs)))
  | known {steps : ℤ} {v : V} {vdistance : Dist} {arc : V × ℤ} {arcs : List (V × ℤ)} :
      m.isExpanded arc.1 = true →
      Accessed variant P w x m (.checkInsert steps v vdistance arc arcs) m
        (.goto (.relax steps v vdistance arcs))
  | insert {steps : ℤ} {v : V} {vdistance : Dist} {arc : V × ℤ} {arcs : List (V × ℤ)} {p : Dist}
      {h : V → ℤ} : m.isExpanded arc.1 = false →
      Accessed variant P w x m (.checkInsert steps v vdistance arc arcs) { m with h := h }
        (.insert p arc.1 (.relax steps v vdistance arcs))

/-- `my_heur` touches nothing but its own memo. -/
theorem myHeur_frame (heuristic : V → ℤ) (m : Shared W V) (v : V) :
    ∃ h, (myHeur heuristic m v).2 = { m with h := h } := by
  unfold myHeur
  split
  · exact ⟨_, rfl⟩
  · exact ⟨m.h, rfl⟩

theorem access_cases {variant : Variant} {P : Problem V} {w : W} {x : Bool} {m m' : Shared W V}
    {b : Frame V} {effect : Effect V} (h : access variant P w x m b = some (m', effect)) :
    Accessed variant P w x m b m' effect := by
  cases b with
  | loop steps => cases h
  | loadExpanded steps v =>
    cases hv : m.isExpanded v <;> simp only [access, hv] at h <;> cases h
    · exact .see hv
    · exact .skip hv
  | casExpanded steps v =>
    simp only [access] at h
    split at h
    · cases h
      exact .lose ‹_›
    · rename_i hv
      rw [Bool.not_eq_true] at hv
      split at h <;> cases h
      · subst v
        exact .find hv
      · exact .win hv ‹_›
  | loadG steps v =>
    simp only [access] at h
    split at h <;> cases h
    exact .snapshot ‹_›
  | relax steps v vdistance arcs =>
    cases arcs with
    | nil =>
      cases h
      exact .done
    | cons arc arcs =>
      simp only [access] at h
      split at h
      · cases h
        exact .first ‹_›
      · split at h <;> cases h
        · exact .better ‹_› ‹_›
        · exact .worse ‹_› (not_lt.mp ‹_›)
  | reload steps v vdistance arc arcs =>
    cases h
    exact .reload
  | casG steps v vdistance arc arcs expected =>
    simp only [access] at h
    split at h
    · rename_i hwin
      obtain ⟨hx, rfl⟩ := hwin
      cases h
      exact .exchange hx
    · split at h <;> cases h
      · exact .giveUp ‹_›
      · exact .retry ‹_›
  | checkInsert steps v vdistance arc arcs =>
    cases hv : m.isExpanded arc.1
    · obtain ⟨memo, hheur⟩ := myHeur_frame P.heuristic m arc.1
      simp only [access, hv, hheur, Bool.false_eq_true, if_false] at h
      cases h
      exact .insert hv
    · simp only [access, hv, if_true] at h
      cases h
      exact .known hv

/-! ## The writes -/

theorem isExpanded_mark (m : Shared W V) (w : W) (v u : V) :
    (m.mark w v).isExpanded u = true ↔ u = v ∨ m.isExpanded u = true := update_mark_iff

@[simp] theorem isExpanded_mark_self (m : Shared W V) (w : W) (v : V) :
    (m.mark w v).isExpanded v = true := (isExpanded_mark m w v v).mpr (Or.inl rfl)

theorem grows_mark (m : Shared W V) (w : W) (v : V) : Grows m (m.mark w v) where
  expanded u hu := (isExpanded_mark m w v u).mpr (Or.inr hu)
  label _ := le_rfl

theorem MemOk.mark {P : Problem V} {m : Shared W V} (h : MemOk P m) {v : V} (hv : m.g v ≠ ⊤)
    (w : W) : MemOk P (m.mark w v) where
  forest := h.forest.mono fun u hu => (isExpanded_mark m w v u).mpr (Or.inr hu)
  source := h.source
  labelled u hu := by
    rcases (isExpanded_mark m w v u).mp hu with rfl | hu
    · exact hv
    · exact h.labelled u hu
  pairs := h.pairs

section Exchange

variable (m : Shared W V) (u : V) (mine : Vertpack V)

theorem g_exchange : (m.exchange u mine).g = Function.update m.g u mine.distance := by
  funext v
  by_cases hv : v = u
  · subst hv
    simp [Shared.g, Shared.exchange]
  · simp [Shared.g, Shared.exchange, hv]

theorem pred_exchange : (m.exchange u mine).pred = Function.update m.pred u mine.pred := by
  funext v
  by_cases hv : v = u
  · subst hv
    simp [Shared.pred, Shared.exchange]
  · simp [Shared.pred, Shared.exchange, hv]

theorem grows_exchange (h : mine.distance ≤ m.g u) : Grows m (m.exchange u mine) where
  expanded _ hv := hv
  label v := by
    rw [g_exchange]
    exact update_le_self_iff.mpr h v

end Exchange

/-- Whatever the label is, the predecessor that an exchange stores is the tail of the arc. -/
theorem PairsAreArcs.exchange {P : Problem V} {m : Shared W V} (h : PairsAreArcs P m) {v : V}
    {arc : V × ℤ} (harc : P.graph.Arc v arc.1 arc.2) (label : Dist) :
    PairsAreArcs P (m.exchange arc.1 ⟨label, some v⟩) := by
  intro u p hu hp
  rw [pred_exchange] at hp
  by_cases harcu : u = arc.1
  · subst harcu
    obtain rfl : v = p := by simpa using hp
    exact ⟨arc.2, harc⟩
  · exact h u p hu (by simpa [harcu] using hp)

theorem MemOk.exchange {P : Problem V} {m : Shared W V} (h : MemOk P m) {v : V} {vdistance : Dist}
    {arc : V × ℤ} {arcs : List (V × ℤ)} (hr : Relaxing P m v vdistance (arc :: arcs))
    (hlt : vdistance + (arc.2 : Dist) < m.g arc.1) :
    MemOk P (m.exchange arc.1 ⟨vdistance + (arc.2 : Dist), some v⟩) := by
  have harc : P.graph.Arc v arc.1 arc.2 := hr.arcs arc (List.mem_cons_self ..)
  have hF := h.forest.relax hr.expanded hr.snapshot harc hlt
  refine ⟨?_, ?_, ?_, h.pairs.exchange harc _⟩
  · rw [g_exchange, pred_exchange]
    exact hF
  · -- the label of the source is 0, so nothing lower is ever stored there
    have hne : arc.1 ≠ P.source := by
      intro heq
      have h0 : m.g P.source = 0 := by simp [Shared.g, h.source]
      rw [heq, h0] at hlt
      have hroot : (0 : Dist) ≤ Function.update m.g arc.1 (vdistance + (arc.2 : Dist)) arc.1 :=
        hF.nonneg arc.1
      rw [Function.update_self] at hroot
      exact absurd hlt (not_lt.mpr hroot)
    show Function.update m.gpred arc.1 _ P.source = _
    rw [Function.update_of_ne (Ne.symm hne)]
    exact h.source
  · intro u hu
    exact (grows_exchange m arc.1 _ hlt.le).ne_top (h.labelled u hu)

/-! ## One access -/

/-- **An access keeps the forest**, lets the memory grow, and leaves the worker in order. -/
theorem access_ok {variant : Variant} {P : Problem V} {w : W} {x : Bool} {m m' : Shared W V}
    {b : Frame V} {effect : Effect V} (hm : MemOk P m) (hb : FrameOk P m b) (hlow : Lowers m x b)
    (h : access variant P w x m b = some (m', effect)) :
    MemOk P m' ∧ Grows m m' ∧ EffectOk P m' effect := by
  cases access_cases h with
  | skip | lose | done => exact ⟨hm, Grows.refl m, effectOk_goto trivial⟩
  | see => exact ⟨hm, Grows.refl m, effectOk_goto hb⟩
  | find => exact ⟨hm.mark hb w, grows_mark m w _, fun e he => absurd he (Multiset.notMem_zero e), nofun⟩
  | @win steps v hv =>
    exact ⟨hm.mark hb w, grows_mark m w v, effectOk_goto (isExpanded_mark_self m w v)⟩
  | @snapshot steps v =>
    exact ⟨⟨hm.forest, hm.source, hm.labelled, hm.pairs⟩, ⟨fun _ hu => hu, fun _ => le_rfl⟩,
      effectOk_goto ⟨hb, le_rfl, hm.labelled v hb, fun a ha => ha⟩⟩
  | first | better | reload | retry => exact ⟨hm, Grows.refl m, effectOk_goto hb⟩
  | worse | giveUp => exact ⟨hm, Grows.refl m, effectOk_goto (Relaxing.tail hb)⟩
  | @exchange steps v vdistance arc arcs hx =>
    have hlt : vdistance + (arc.2 : Dist) < m.g arc.1 := hlow hx rfl
    have hgrow := grows_exchange m arc.1 ⟨vdistance + (arc.2 : Dist), some v⟩ hlt.le
    refine ⟨hm.exchange hb hlt, hgrow, effectOk_goto ⟨(Relaxing.tail hb).mono hgrow, ?_⟩⟩
    rw [g_exchange, Function.update_self]
    exact ne_top_of_lt hlt
  | known => exact ⟨hm, Grows.refl m, effectOk_goto hb.1⟩
  | @insert steps v vdistance arc arcs p memo hv =>
    have hgrow : Grows m { m with h := memo } := ⟨fun _ hu => hu, fun _ => le_rfl⟩
    refine ⟨⟨hm.forest, hm.source, hm.labelled, hm.pairs⟩, hgrow, ?_, ?_⟩
    · intro e he
      obtain rfl := Multiset.mem_singleton.mp he
      exact hgrow.ne_top hb.2
    · intro b hframe
      cases hframe
      exact hb.1.mono hgrow

/-- **`pwsa_pc` and `pwsa_pcT` compare before they exchange.** -/
theorem access_guarded {variant : Variant} (hvariant : variant ≠ .pwsa) {P : Problem V} {w : W}
    {x : Bool} {m m' : Shared W V} {b b' : Frame V} {effect : Effect V} (hb : Guarded b)
    (h : access variant P w x m b = some (m', effect)) (hb' : effect.frame = some b') :
    Guarded b' := by
  cases access_cases h <;> cases hb'
  case better hlt => exact hlt
  case first heq => exact hvariant heq
  case reload => exact hb.elim
  all_goals trivial

end PwsaStar.Pwsa
