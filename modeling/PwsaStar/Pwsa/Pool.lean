/-
# PwsaStar.Pwsa.Pool — the searches over one shared pool of entries.

What the searches guarantee does not depend on who holds an entry or in which order entries are
popped.  The pool machine keeps the shared memory and the frames of `do_work` as they are and puts
all entries into one multiset from which any worker inside `do_work` may take any entry at any time.
`PwsaStar.Pwsa.Refine` shows that every run of a search under `parallel_while_pwsa` is a run of this
machine.

`PathInv` carries the forest of predecessors through all interleavings.  `TrackInv` says that no
labelled vertex is forgotten, that every arc of an expanded vertex is relaxed or about to be, and
that no vertex is expanded twice.
-/
import PwsaStar.Pwsa.Memory

namespace PwsaStar.Pwsa

open PwsaStar.Lib PwsaStar.Heap PwsaStar.ParallelWhile

variable {W V : Type*} [DecidableEq V] [DecidableEq W]

/-! ## The machine -/

/-- The shared memory, all entries, and the frames of the workers that are inside `do_work`. -/
structure PoolState (W V : Type*) where
  mem : Shared W V
  pool : Multiset (KV Dist V)
  frames : W → Option (Frame V)

/-- Worker `w` is in frame `b`, or outside `do_work`. -/
def PoolState.setFrame (s : PoolState W V) (w : W) (b : Option (Frame V)) : PoolState W V :=
  { s with frames := Function.update s.frames w b }

/-- One step of one worker.  `allowed` restricts the accesses that are considered. -/
inductive PoolStep (variant : Variant) (P : Problem V)
    (allowed : Shared W V → Bool → Frame V → Prop) (s : PoolState W V) : PoolState W V → Prop
  | enter (w : W) : s.frames w = none →
      PoolStep variant P allowed s (s.setFrame w (some (.loop 0)))
  | leave (w : W) (n : ℤ) : s.frames w = some (.loop n) →
      PoolStep variant P allowed s (s.setFrame w none)
  | pop (w : W) (n : ℤ) (e : KV Dist V) (rest : Multiset (KV Dist V)) :
      s.frames w = some (.loop n) → s.pool = e ::ₘ rest →
      PoolStep variant P allowed s
        ({ s with pool := rest }.setFrame w (some (.loadExpanded (n + 1) e.value)))
  | access (w : W) (x : Bool) (b : Frame V) (m : Shared W V) (effect : Effect V) :
      s.frames w = some b → allowed s.mem x b → access variant P w x s.mem b = some (m, effect) →
      PoolStep variant P allowed s
        ({ s with mem := m, pool := effect.inserted + s.pool }.setFrame w effect.frame)

/-- The memory and the only entry with which a search starts. -/
def poolStart (P : Problem V) : PoolState W V where
  mem := (myHeur P.heuristic (Shared.new P) P.source).2
  pool := {⟨((myHeur P.heuristic (Shared.new (W := W) P) P.source).1 : Dist), P.source⟩}
  frames _ := none

/-- All runs of the pool machine. -/
def poolSystem (variant : Variant) (P : Problem V)
    (allowed : Shared W V → Bool → Frame V → Prop) : System (PoolState W V) where
  init s := s = poolStart P
  step := PoolStep variant P allowed

/-- No restriction. -/
def unrestricted : Shared W V → Bool → Frame V → Prop := fun _ _ _ => True

variable {variant : Variant} {P : Problem V} {allowed : Shared W V → Bool → Frame V → Prop}

/-! ## Labels and predecessors -/

/-- **The path invariant.** -/
structure PathInv (variant : Variant) (P : Problem V) (s : PoolState W V) : Prop where
  mem : MemOk P s.mem
  pool : ∀ e ∈ s.pool, s.mem.g e.value ≠ ⊤
  frames : ∀ w b, s.frames w = some b → FrameOk P s.mem b
  guarded : variant ≠ .pwsa → ∀ w b, s.frames w = some b → Guarded b

/-- The exchanges under consideration lower labels: either the search compares, or only such steps
are allowed. -/
def Improving (variant : Variant) (allowed : Shared W V → Bool → Frame V → Prop) : Prop :=
  variant ≠ .pwsa ∨ ∀ m x b, allowed m x b → Lowers m x b

omit [DecidableEq W] [DecidableEq V] in
theorem PathInv.lowers {s : PoolState W V} (I : PathInv variant P s)
    (himp : Improving variant allowed) {w : W} {x : Bool} {b : Frame V} (hb : s.frames w = some b)
    (hallowed : allowed s.mem x b) : Lowers s.mem x b := by
  rcases himp with hvariant | hlow
  · exact (I.guarded hvariant w b hb).lowers s.mem x
  · exact hlow s.mem x b hallowed

omit [DecidableEq W] in
theorem memOk_new (P : Problem V) : MemOk P (Shared.new P : Shared W V) where
  forest := by
    have hg : Shared.g (Shared.new P : Shared W V) = Function.update (fun _ => ⊤) P.source 0 := by
      funext v
      by_cases hv : v = P.source <;> simp [Shared.g, Shared.new, hv]
    rw [hg]
    exact Forest.start ..
  source := by simp [Shared.new]
  labelled v hv := by simp [Shared.new] at hv
  pairs v p hv hp := by simp [Shared.pred, Shared.new, hv] at hp

omit [DecidableEq W] in
theorem pathInv_start (P : Problem V) : PathInv variant P (poolStart P : PoolState W V) where
  mem := by
    obtain ⟨h', hheur⟩ := myHeur_frame P.heuristic (Shared.new (W := W) P) P.source
    have hnew := memOk_new (W := W) P
    simp only [poolStart, hheur]
    exact ⟨hnew.forest, hnew.source, hnew.labelled, hnew.pairs⟩
  pool := by
    intro e he
    obtain ⟨h', hheur⟩ := myHeur_frame P.heuristic (Shared.new (W := W) P) P.source
    obtain rfl := Multiset.mem_singleton.mp he
    simp only [poolStart, hheur]
    simp [Shared.g, Shared.new]
  frames w b hb := by cases hb
  guarded _ w b hb := by cases hb

omit [DecidableEq V] in
/-- What changes when one worker changes its frame. -/
theorem frames_setFrame {s : PoolState W V} {w v : W} {o : Option (Frame V)} {b : Frame V}
    (h : (s.setFrame w o).frames v = some b) : (v = w ∧ o = some b) ∨ (v ≠ w ∧ s.frames v = some b) := by
  rcases eq_or_ne v w with rfl | hne
  · exact Or.inl ⟨rfl, by simpa [PoolState.setFrame] using h⟩
  · exact Or.inr ⟨hne, by simpa [PoolState.setFrame, hne] using h⟩

omit [DecidableEq V] in
/-- A worker changes its frame; memory and pool stay, or the pool shrinks. -/
theorem PathInv.setFrame {s : PoolState W V} (I : PathInv variant P s) {w : W}
    {o : Option (Frame V)} (pool : Multiset (KV Dist V)) (hpool : pool ≤ s.pool)
    (ho : ∀ b, o = some b → FrameOk P s.mem b ∧ Guarded b) :
    PathInv variant P ({ s with pool := pool }.setFrame w o) where
  mem := I.mem
  pool e he := I.pool e (Multiset.mem_of_le hpool he)
  frames v b hb := by
    rcases frames_setFrame hb with ⟨-, hb⟩ | ⟨-, hb⟩
    · exact (ho b hb).1
    · exact I.frames v b hb
  guarded hvariant v b hb := by
    rcases frames_setFrame hb with ⟨-, hb⟩ | ⟨-, hb⟩
    · exact (ho b hb).2
    · exact I.guarded hvariant v b hb

/-- **Every step keeps the path invariant and lets the memory grow.** -/
theorem pathInv_step (himp : Improving variant allowed) {s s' : PoolState W V}
    (I : PathInv variant P s) (h : PoolStep variant P allowed s s') :
    PathInv variant P s' ∧ Grows s.mem s'.mem := by
  cases h with
  | enter w hw =>
    refine ⟨I.setFrame s.pool le_rfl ?_, Grows.refl _⟩
    rintro b ⟨⟩
    exact ⟨trivial, trivial⟩
  | leave w n hw => exact ⟨I.setFrame s.pool le_rfl nofun, Grows.refl _⟩
  | pop w n e rest hw hpool =>
    refine ⟨I.setFrame rest ?_ ?_, Grows.refl _⟩
    · rw [hpool]
      exact Multiset.le_cons_self rest e
    · rintro b ⟨⟩
      exact ⟨I.pool e (by rw [hpool]; exact Multiset.mem_cons_self e rest), trivial⟩
  | access w x b m effect hw hallowed haccess =>
    obtain ⟨hm, hgrow, heffect⟩ :=
      access_ok I.mem (I.frames w b hw) (I.lowers himp hw hallowed) haccess
    refine ⟨⟨hm, ?_, ?_, ?_⟩, hgrow⟩
    · intro e he
      rcases Multiset.mem_add.mp he with he | he
      · exact heffect.inserted e he
      · exact hgrow.ne_top (I.pool e he)
    · intro v b' hb'
      rcases frames_setFrame hb' with ⟨-, hb'⟩ | ⟨-, hb'⟩
      · exact heffect.frame b' hb'
      · exact (I.frames v b' hb').mono hgrow
    · intro hvariant v b' hb'
      rcases frames_setFrame hb' with ⟨-, hb'⟩ | ⟨-, hb'⟩
      · exact access_guarded hvariant (I.guarded hvariant w b hw) haccess hb'
      · exact I.guarded hvariant v b' hb'

theorem reachable_pathInv (himp : Improving variant allowed) {s : PoolState W V}
    (hs : (poolSystem variant P allowed).Reachable s) : PathInv variant P s := by
  apply hs.invariant (I := PathInv variant P)
  · rintro _ rfl
    exact pathInv_start P
  · intro s t _ I hstep
    exact (pathInv_step himp I hstep).1

/-- Labels only drop and vertices stay expanded along every run. -/
theorem steps_grows (himp : Improving variant allowed) {s t : PoolState W V}
    (hs : (poolSystem variant P allowed).Reachable s)
    (h : (poolSystem variant P allowed).Steps s t) : Grows s.mem t.mem := by
  refine hs.steps_rel (R := fun s t => Grows s.mem t.mem) ?_ ?_ ?_ h
  · exact fun s => Grows.refl s.mem
  · intro s t r h₁ h₂
    exact h₁.trans h₂
  · intro s t hreach hstep
    exact (pathInv_step himp (reachable_pathInv himp hreach) hstep).2

/-! ## No vertex is forgotten -/

/-- The worker in frame `b` has taken an entry of `v` and not tried to mark it, or has labelled `v`
and not yet inserted it. -/
def Frame.Holds (v : V) : Frame V → Prop
  | .loadExpanded _ u | .casExpanded _ u => u = v
  | .checkInsert _ _ _ arc _ => arc.1 = v
  | _ => False

/-- The worker in frame `b` is still going to relax the arc `a` of `u`. -/
def Frame.Pending (u : V) (a : V × ℤ) : Frame V → Prop
  | .loadG _ v => v = u
  | .relax _ v _ arcs | .checkInsert _ v _ _ arcs => v = u ∧ a ∈ arcs
  | .reload _ v _ arc arcs | .casG _ v _ arc arcs _ => v = u ∧ a ∈ arc :: arcs
  | _ => False

/-- Some worker is in a frame with the given property. -/
def PoolState.Busy (s : PoolState W V) (p : Frame V → Prop) : Prop := ∃ w b, s.frames w = some b ∧ p b

omit [DecidableEq W] in
/-- A labelled vertex that an access does not leave expanded stays with the worker or goes into the
pool. -/
theorem access_holds {w : W} {x : Bool} {m m' : Shared W V} {b : Frame V} {effect : Effect V}
    (h : access variant P w x m b = some (m', effect)) {v : V} (hlabel : m'.g v ≠ ⊤)
    (hopen : m'.isExpanded v = false) (hold : m.g v = ⊤ ∨ b.Holds v) :
    (∃ e ∈ effect.inserted, e.value = v) ∨ ∃ b', effect.frame = some b' ∧ b'.Holds v := by
  cases access_cases h with
  | @exchange steps u vdistance arc arcs hx =>
    rcases hold with hnew | hfalse
    · refine Or.inr ⟨_, rfl, ?_⟩
      by_contra hne
      rw [g_exchange, Function.update_of_ne (Ne.symm hne)] at hlabel
      exact hlabel hnew
    · exact hfalse.elim
  | @see steps u hu =>
    rcases hold with hnew | rfl
    · exact absurd hnew hlabel
    · exact Or.inr ⟨_, rfl, rfl⟩
  | @insert steps u vdistance arc arcs p memo hv =>
    rcases hold with hnew | rfl
    · exact absurd hnew hlabel
    · exact Or.inl ⟨⟨p, arc.1⟩, Multiset.mem_singleton_self _, rfl⟩
  | find | win =>
    rcases hold with hnew | rfl
    · exact absurd hnew hlabel
    · simp at hopen
  | skip hv | lose hv | known hv =>
    rcases hold with hnew | rfl
    · exact absurd hnew hlabel
    · exact absurd hv (by simp [hopen])
  | _ =>
    rcases hold with hnew | hfalse
    · exact absurd hnew hlabel
    · exact hfalse.elim

omit [DecidableEq W] in
/-- An arc of an expanded vertex whose head an access leaves without a label is still going to be
relaxed. -/
theorem access_pending (hvariant : variant ≠ .pwsa) {w : W} {x : Bool} {m m' : Shared W V}
    {b : Frame V} {effect : Effect V} (hb : FrameOk P m b)
    (h : access variant P w x m b = some (m', effect)) {u : V} {a : V × ℤ}
    (harc : a ∈ P.graph.nbrs u) (hu : m'.isExpanded u = true) (hne : u ≠ P.destination)
    (hlabel : m'.g a.1 = ⊤) (hold : m.isExpanded u = false ∨ b.Pending u a) :
    ∃ b', effect.frame = some b' ∧ b'.Pending u a := by
  cases access_cases h with
  | find =>
    rcases hold with hnew | hfalse
    · rcases (isExpanded_mark m w _ u).mp hu with rfl | hu
      · exact absurd rfl hne
      · exact absurd hu (by simp [hnew])
    · exact hfalse.elim
  | @win steps v hv =>
    rcases hold with hnew | hfalse
    · rcases (isExpanded_mark m w _ u).mp hu with rfl | hu
      · exact ⟨_, rfl, rfl⟩
      · exact absurd hu (by simp [hnew])
    · exact hfalse.elim
  | snapshot =>
    rcases hold with hnew | rfl
    · exact absurd hu (by simp [hnew])
    · exact ⟨_, rfl, rfl, harc⟩
  | @done =>
    rcases hold with hnew | ⟨-, hmem⟩
    · exact absurd hu (by simp [hnew])
    · cases hmem
  | first heq | giveUp heq => exact absurd heq hvariant
  | better | reload | retry | known =>
    rcases hold with hnew | hold
    · exact absurd hu (by simp [hnew])
    · exact ⟨_, rfl, hold⟩
  | @worse steps v vdistance arc arcs _ hle =>
    rcases hold with hnew | ⟨rfl, hmem⟩
    · exact absurd hu (by simp [hnew])
    · rcases List.mem_cons.mp hmem with rfl | hmem
      · -- the head has a label: it is not above the finite one that was offered
        rw [hlabel, top_le_iff] at hle
        exact absurd hle (WithTop.add_ne_top.mpr ⟨hb.finite, WithTop.coe_ne_top⟩)
      · exact ⟨_, rfl, rfl, hmem⟩
  | @exchange steps v vdistance arc arcs hx =>
    rcases hold with hnew | ⟨rfl, hmem⟩
    · exact absurd hu (by simp [Shared.exchange, hnew])
    · rcases List.mem_cons.mp hmem with rfl | hmem
      · rw [g_exchange, Function.update_self] at hlabel
        exact absurd hlabel (WithTop.add_ne_top.mpr ⟨hb.finite, WithTop.coe_ne_top⟩)
      · exact ⟨_, rfl, rfl, hmem⟩
  | insert =>
    rcases hold with hnew | hold
    · exact absurd hu (by simp [hnew])
    · exact ⟨_, rfl, hold⟩
  | skip | see | lose =>
    rcases hold with hnew | hfalse
    · exact absurd hu (by simp [hnew])
    · exact hfalse.elim

/-- The worker in frame `b` has marked `v` and is about to enumerate its arcs. -/
def Frame.Claims (v : V) : Frame V → Prop
  | .loadG _ u => u = v
  | _ => False

/-- **The tracking invariant.** -/
structure TrackInv (P : Problem V) (s : PoolState W V) : Prop where
  /-- A labelled vertex that is not expanded is in the pool or in the hands of a worker. -/
  tracked : ∀ v, s.mem.g v ≠ ⊤ → s.mem.isExpanded v = false →
    (∃ e ∈ s.pool, e.value = v) ∨ s.Busy (Frame.Holds v)
  /-- The arcs of an expanded vertex are relaxed, or a worker is going to relax them. -/
  relaxed : ∀ u, ∀ a ∈ P.graph.nbrs u, s.mem.isExpanded u = true → u ≠ P.destination →
    s.mem.g a.1 = ⊤ → s.Busy (Frame.Pending u a)
  /-- Every vertex is enumerated at most once. -/
  nodup : (s.mem.expansions.map Prod.snd).Nodup
  logged : ∀ v ∈ s.mem.expansions.map Prod.snd, s.mem.isExpanded v = true
  claimed : ∀ v w b, s.frames w = some b → b.Claims v →
    s.mem.isExpanded v = true ∧ v ∉ s.mem.expansions.map Prod.snd ∧
      ∀ w' b', s.frames w' = some b' → b'.Claims v → w' = w

omit [DecidableEq W] in
theorem trackInv_start (P : Problem V) : TrackInv P (poolStart P : PoolState W V) := by
  obtain ⟨memo, hheur⟩ := myHeur_frame P.heuristic (Shared.new (W := W) P) P.source
  refine { tracked := ?_, relaxed := ?_, nodup := ?_, logged := ?_, claimed := ?_ }
  · intro v hv _
    refine Or.inl ⟨_, Multiset.mem_singleton_self _, ?_⟩
    by_contra hne
    simp only [poolStart, hheur] at hv
    simp [Shared.g, Shared.new, Ne.symm hne] at hv
  · intro u a _ hu
    simp only [poolStart, hheur] at hu
    simp [Shared.new] at hu
  · simp only [poolStart, hheur]
    simp [Shared.new]
  · simp only [poolStart, hheur]
    simp [Shared.new]
  · intro v w b hb
    cases hb

omit [DecidableEq V] in
/-- When one worker changes its frame, whoever else was busy still is. -/
theorem busy_setFrame {s : PoolState W V} {p : Frame V → Prop} (h : s.Busy p) (w : W)
    (o : Option (Frame V)) :
    (∃ b, s.frames w = some b ∧ p b) ∨ (s.setFrame w o).Busy p := by
  obtain ⟨v, b, hb, hp⟩ := h
  rcases eq_or_ne v w with rfl | hne
  · exact Or.inl ⟨b, hb, hp⟩
  · exact Or.inr ⟨v, b, by simpa [PoolState.setFrame, hne] using hb, hp⟩

omit [DecidableEq V] in
theorem busy_self {s : PoolState W V} {p : Frame V → Prop} {w : W} {b : Frame V} (hp : p b) :
    (s.setFrame w (some b)).Busy p := ⟨w, b, by simp [PoolState.setFrame], hp⟩

omit [DecidableEq W] in
/-- Only the enumeration of a vertex is logged, and only a vertex that was not expanded is newly
claimed. -/
theorem access_log {w : W} {x : Bool} {m m' : Shared W V} {b : Frame V} {effect : Effect V}
    (h : access variant P w x m b = some (m', effect)) :
    (m'.expansions = m.expansions ∧ ∀ b' v, effect.frame = some b' → b'.Claims v →
      m.isExpanded v = false ∧ m'.isExpanded v = true) ∨
    ∃ v, b.Claims v ∧ m'.expansions = (w, v) :: m.expansions ∧
      ∀ b' u, effect.frame = some b' → ¬ b'.Claims u := by
  cases access_cases h with
  | @win steps v hv =>
    refine Or.inl ⟨rfl, ?_⟩
    rintro b' u ⟨⟩ rfl
    exact ⟨hv, isExpanded_mark_self m w v⟩
  | @snapshot steps v hv =>
    refine Or.inr ⟨v, rfl, rfl, ?_⟩
    rintro b' u ⟨⟩
    exact id
  | find => exact Or.inl ⟨rfl, nofun⟩
  | _ =>
    refine Or.inl ⟨rfl, ?_⟩
    rintro b' u ⟨⟩ hfalse
    exact hfalse.elim

omit [DecidableEq V] in
/-- A worker whose frame is the loop test, or that is outside, holds nothing; it may change its frame
as long as it claims nothing new. -/
theorem TrackInv.setFrame {s : PoolState W V} (I : TrackInv P s) {w : W} {o : Option (Frame V)}
    (pool : Multiset (KV Dist V)) (hw : s.frames w = none ∨ ∃ n, s.frames w = some (.loop n))
    (hclaims : ∀ b v, o = some b → ¬ b.Claims v)
    (hpool : ∀ e ∈ s.pool, (∃ e' ∈ pool, e'.value = e.value) ∨
      ∃ b, o = some b ∧ b.Holds e.value) :
    TrackInv P ({ s with pool := pool }.setFrame w o) := by
  have hnone : ∀ (p : Frame V → Prop) b, (∀ n, ¬ p (.loop n)) → s.frames w = some b → ¬ p b := by
    intro p b hp hb
    rcases hw with hw | ⟨n, hw⟩ <;> rw [hw] at hb <;> cases hb
    exact hp n
  have hbusy : ∀ p : Frame V → Prop, (∀ n, ¬ p (.loop n)) → s.Busy p →
      ({ s with pool := pool }.setFrame w o).Busy p := by
    intro p hp h
    rcases busy_setFrame h w o with ⟨b, hb, hpb⟩ | h
    · exact absurd hpb (hnone p b hp hb)
    · exact h
  refine ⟨?_, ?_, I.nodup, I.logged, ?_⟩
  · intro v hv hopen
    rcases I.tracked v hv hopen with ⟨e, he, rfl⟩ | h
    · rcases hpool e he with h | ⟨b, rfl, hb⟩
      · exact Or.inl h
      · exact Or.inr (busy_self hb)
    · exact Or.inr (hbusy _ (fun _ => id) h)
  · intro u a ha hu hne hlabel
    exact hbusy _ (fun _ => id) (I.relaxed u a ha hu hne hlabel)
  · intro v w' b hb hclaim
    rcases frames_setFrame hb with ⟨-, hb⟩ | ⟨-, hb⟩
    · exact absurd hclaim (hclaims b v hb)
    · obtain ⟨hv, hlog, huniq⟩ := I.claimed v w' b hb hclaim
      refine ⟨hv, hlog, ?_⟩
      intro w'' b'' hb'' hclaim''
      rcases frames_setFrame hb'' with ⟨-, hb''⟩ | ⟨-, hb''⟩
      · exact absurd hclaim'' (hclaims b'' v hb'')
      · exact huniq w'' b'' hb'' hclaim''

/-! ### The tracking invariant under an access -/

section Access

variable {s : PoolState W V} {w : W} {x : Bool} {b : Frame V} {m : Shared W V} {effect : Effect V}

/-- The state after an access. -/
def PoolState.after (s : PoolState W V) (w : W) (m : Shared W V) (effect : Effect V) :
    PoolState W V :=
  { s with mem := m, pool := effect.inserted + s.pool }.setFrame w effect.frame

omit [DecidableEq V] in
/-- Whoever was busy still is, or it was the worker that made the access. -/
theorem busy_after {p : Frame V → Prop} (hw : s.frames w = some b)
    (hself : p b → ∃ b', effect.frame = some b' ∧ p b') (h : s.Busy p) :
    (s.after w m effect).Busy p := by
  rcases busy_setFrame h w effect.frame with ⟨b', hb', hp⟩ | ⟨v, b', hb', hp⟩
  · rw [hw] at hb'
    cases hb'
    obtain ⟨b', hframe, hp'⟩ := hself hp
    exact ⟨w, b', by simpa [PoolState.after, PoolState.setFrame] using hframe, hp'⟩
  · exact ⟨v, b', hb', hp⟩

theorem TrackInv.access_tracked (I : TrackInv P s) (hw : s.frames w = some b)
    (hgrow : Grows s.mem m) (haccess : access variant P w x s.mem b = some (m, effect)) {v : V}
    (hv : m.g v ≠ ⊤) (hopen : m.isExpanded v = false) :
    (∃ e ∈ effect.inserted + s.pool, e.value = v) ∨ (s.after w m effect).Busy (Frame.Holds v) := by
  -- what the access itself does with `v`, if it is new or in its hands
  have hnew : s.mem.g v = ⊤ ∨ b.Holds v →
      (∃ e ∈ effect.inserted + s.pool, e.value = v) ∨
        ∃ b', effect.frame = some b' ∧ b'.Holds v := by
    intro hold
    rcases access_holds haccess hv hopen hold with ⟨e, he, hev⟩ | h
    · exact Or.inl ⟨e, Multiset.mem_add.mpr (Or.inl he), hev⟩
    · exact Or.inr h
  have hbusy : (∃ b', effect.frame = some b' ∧ b'.Holds v) →
      (s.after w m effect).Busy (Frame.Holds v) := by
    rintro ⟨b', hframe, hholds⟩
    exact ⟨w, b', by simpa [PoolState.after, PoolState.setFrame] using hframe, hholds⟩
  by_cases hlabel : s.mem.g v = ⊤
  · exact (hnew (Or.inl hlabel)).imp id hbusy
  · have hold : s.mem.isExpanded v = false := by
      by_contra hexp
      rw [Bool.not_eq_false] at hexp
      exact absurd (hgrow.expanded v hexp) (by simpa using hopen)
    rcases I.tracked v hlabel hold with ⟨e, he, hev⟩ | h
    · exact Or.inl ⟨e, Multiset.mem_add.mpr (Or.inr he), hev⟩
    · by_cases hholds : b.Holds v
      · exact (hnew (Or.inr hholds)).imp id hbusy
      · exact Or.inr (busy_after hw (fun h => absurd h hholds) h)

theorem TrackInv.access_relaxed (I : TrackInv P s) (hvariant : variant ≠ .pwsa)
    (hw : s.frames w = some b) (hb : FrameOk P s.mem b) (hgrow : Grows s.mem m)
    (haccess : access variant P w x s.mem b = some (m, effect)) {u : V} {a : V × ℤ}
    (ha : a ∈ P.graph.nbrs u) (hu : m.isExpanded u = true) (hne : u ≠ P.destination)
    (hlabel : m.g a.1 = ⊤) : (s.after w m effect).Busy (Frame.Pending u a) := by
  have hnew := access_pending hvariant hb haccess ha hu hne hlabel
  cases hexp : s.mem.isExpanded u with
  | false =>
    obtain ⟨b', hframe, hp⟩ := hnew (Or.inl hexp)
    exact ⟨w, b', by simpa [PoolState.after, PoolState.setFrame] using hframe, hp⟩
  | true =>
    have hold : s.mem.g a.1 = ⊤ := by
      by_contra hfin
      exact hgrow.ne_top hfin hlabel
    exact busy_after hw (fun hp => hnew (Or.inr hp)) (I.relaxed u a ha hexp hne hold)

omit [DecidableEq V] in
/-- An access that logs nothing: nobody else claims what `w` has just marked, and it was not
enumerated before. -/
theorem TrackInv.access_claimed_new (I : TrackInv P s) (hgrow : Grows s.mem m)
    (hlog : m.expansions = s.mem.expansions)
    (hclaims : ∀ b' v, effect.frame = some b' → b'.Claims v →
      s.mem.isExpanded v = false ∧ m.isExpanded v = true) {u : V} {w' : W} {b' : Frame V}
    (hb' : (s.after w m effect).frames w' = some b') (hclaim : b'.Claims u) :
    m.isExpanded u = true ∧ u ∉ m.expansions.map Prod.snd ∧
      ∀ w'' b'', (s.after w m effect).frames w'' = some b'' → b''.Claims u → w'' = w' := by
  rw [hlog]
  rcases frames_setFrame hb' with ⟨rfl, hframe⟩ | ⟨hne, hb'⟩
  · obtain ⟨hopen, hexp⟩ := hclaims b' u hframe hclaim
    refine ⟨hexp, fun hu => absurd (I.logged u hu) (by simp [hopen]), ?_⟩
    intro w'' b'' hb'' hclaim''
    rcases frames_setFrame hb'' with ⟨rfl, -⟩ | ⟨-, hb''⟩
    · rfl
    · exact absurd (I.claimed u w'' b'' hb'' hclaim'').1 (by simp [hopen])
  · obtain ⟨hexp, hfresh, huniq⟩ := I.claimed u w' b' hb' hclaim
    refine ⟨hgrow.expanded u hexp, hfresh, ?_⟩
    intro w'' b'' hb'' hclaim''
    rcases frames_setFrame hb'' with ⟨rfl, hframe⟩ | ⟨-, hb''⟩
    · exact absurd hexp (by simp [(hclaims b'' u hframe hclaim'').1])
    · exact huniq w'' b'' hb'' hclaim''

omit [DecidableEq V] in
/-- An access that logs the vertex `v` that `w` has claimed: `w` claims nothing any more. -/
theorem TrackInv.access_claimed_logged (I : TrackInv P s) (hw : s.frames w = some b)
    (hgrow : Grows s.mem m) {v : V} (hv : b.Claims v)
    (hlog : m.expansions = (w, v) :: s.mem.expansions)
    (hclaims : ∀ b' u, effect.frame = some b' → ¬ b'.Claims u) {u : V} {w' : W} {b' : Frame V}
    (hb' : (s.after w m effect).frames w' = some b') (hclaim : b'.Claims u) :
    m.isExpanded u = true ∧ u ∉ m.expansions.map Prod.snd ∧
      ∀ w'' b'', (s.after w m effect).frames w'' = some b'' → b''.Claims u → w'' = w' := by
  rw [hlog, List.map_cons]
  rcases frames_setFrame hb' with ⟨rfl, hframe⟩ | ⟨hne, hb'⟩
  · exact absurd hclaim (hclaims b' u hframe)
  · obtain ⟨hexp, hfresh, huniq⟩ := I.claimed u w' b' hb' hclaim
    have huv : u ≠ v := by
      rintro rfl
      exact hne (huniq w b hw hv).symm
    refine ⟨hgrow.expanded u hexp, ?_, ?_⟩
    · simpa [huv] using hfresh
    · intro w'' b'' hb'' hclaim''
      rcases frames_setFrame hb'' with ⟨rfl, hframe⟩ | ⟨-, hb''⟩
      · exact absurd hclaim'' (hclaims b'' u hframe)
      · exact huniq w'' b'' hb'' hclaim''

/-- **An access keeps the tracking invariant.** -/
theorem TrackInv.access (I : TrackInv P s) (hvariant : variant ≠ .pwsa)
    (hw : s.frames w = some b) (hb : FrameOk P s.mem b) (hgrow : Grows s.mem m)
    (haccess : access variant P w x s.mem b = some (m, effect)) :
    TrackInv P (s.after w m effect) := by
  have htracked : ∀ v, m.g v ≠ ⊤ → m.isExpanded v = false → _ :=
    fun v hv hopen => I.access_tracked hw hgrow haccess hv hopen
  have hrelaxed : ∀ u, ∀ a ∈ P.graph.nbrs u, m.isExpanded u = true → _ :=
    fun u a ha hu hne hlabel => I.access_relaxed hvariant hw hb hgrow haccess ha hu hne hlabel
  rcases access_log haccess with ⟨hlog, hclaims⟩ | ⟨v, hv, hlog, hclaims⟩
  · refine ⟨htracked, hrelaxed, ?_, ?_, ?_⟩
    · exact hlog ▸ I.nodup
    · intro u hu
      exact hgrow.expanded u (I.logged u (hlog ▸ hu))
    · intro u w' b' hb' hclaim
      exact I.access_claimed_new hgrow hlog hclaims hb' hclaim
  · obtain ⟨hexp, hfresh, -⟩ := I.claimed v w b hw hv
    refine ⟨htracked, hrelaxed, ?_, ?_, ?_⟩
    · show (m.expansions.map Prod.snd).Nodup
      rw [hlog, List.map_cons]
      exact List.nodup_cons.mpr ⟨hfresh, I.nodup⟩
    · intro u hu
      have hu : u ∈ v :: s.mem.expansions.map Prod.snd := by
        simpa [PoolState.after, PoolState.setFrame, hlog] using hu
      rcases List.mem_cons.mp hu with rfl | hu
      · exact hgrow.expanded u hexp
      · exact hgrow.expanded u (I.logged u hu)
    · intro u w' b' hb' hclaim
      exact I.access_claimed_logged hw hgrow hv hlog hclaims hb' hclaim

end Access

/-- **Every step keeps the tracking invariant.** -/
theorem trackInv_step (hvariant : variant ≠ .pwsa) {s s' : PoolState W V}
    (J : PathInv variant P s) (I : TrackInv P s) (h : PoolStep variant P allowed s s') :
    TrackInv P s' := by
  have hgrow := (pathInv_step (Or.inl hvariant) J h).2
  cases h with
  | enter w hw =>
    refine I.setFrame s.pool (Or.inl hw) ?_ fun e he => Or.inl ⟨e, he, rfl⟩
    rintro b v ⟨⟩
    exact id
  | leave w n hw =>
    exact I.setFrame s.pool (Or.inr ⟨n, hw⟩) nofun fun e he => Or.inl ⟨e, he, rfl⟩
  | pop w n e rest hw hpool =>
    refine I.setFrame rest (Or.inr ⟨n, hw⟩) ?_ ?_
    · rintro b v ⟨⟩
      exact id
    · -- the popped entry is in the hands of the worker
      intro e' he'
      rw [hpool] at he'
      rcases Multiset.mem_cons.mp he' with rfl | he'
      · exact Or.inr ⟨_, rfl, rfl⟩
      · exact Or.inl ⟨e', he', rfl⟩
  | access w x b m effect hw hallowed haccess =>
    exact I.access hvariant hw (J.frames w b hw) hgrow haccess

theorem reachable_trackInv (hvariant : variant ≠ .pwsa) {s : PoolState W V}
    (hs : (poolSystem variant P allowed).Reachable s) : TrackInv P s := by
  apply hs.invariant (I := TrackInv P)
  · rintro _ rfl
    exact trackInv_start P
  · intro s t hreach I hstep
    exact trackInv_step hvariant (reachable_pathInv (Or.inl hvariant) hreach) I hstep

/-! ## Exhaustion -/

omit [DecidableEq W] [DecidableEq V] in
/-- When the pool is empty, nobody is in the middle of a vertex and the destination is not expanded,
every vertex the source reaches is expanded, and no other. -/
theorem expanded_iff_reaches {s : PoolState W V} (J : PathInv variant P s) (I : TrackInv P s)
    (hdest : s.mem.isExpanded P.destination = false) (hpool : s.pool = 0)
    (hframes : ∀ w b, s.frames w = some b → ∃ n, b = .loop n) (v : V) :
    s.mem.isExpanded v = true ↔ P.graph.Reaches P.source v := by
  have hidle : ∀ p : Frame V → Prop, (∀ n, ¬ p (.loop n)) → ¬ s.Busy p := by
    rintro p hp ⟨w, b, hb, hpb⟩
    obtain ⟨n, rfl⟩ := hframes w b hb
    exact hp n hpb
  have hexp : ∀ u, s.mem.g u ≠ ⊤ → s.mem.isExpanded u = true := by
    intro u hu
    by_contra hopen
    rcases I.tracked u hu (by simpa using hopen) with ⟨e, he, -⟩ | h
    · rw [hpool] at he
      exact Multiset.notMem_zero e he
    · exact hidle _ (fun _ => id) h
  constructor
  · intro hv
    exact J.mem.forest.reaches (J.mem.labelled v hv)
  · intro hv
    apply hv.mem_of_closed (fun u => s.mem.isExpanded u = true)
    · exact hexp _ (by simp [Shared.g, J.mem.source])
    · intro u x w hu harc
      apply hexp x
      intro htop
      refine hidle _ (fun _ => id) (I.relaxed u (x, w) harc hu ?_ htop)
      rintro rfl
      simp [hdest] at hu

end PwsaStar.Pwsa
