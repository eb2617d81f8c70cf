/-
# PwsaStar.Pwsa.Body — an invariant of a body is an invariant of the whole machine.

What a search relies on has three parts: a property of the shared memory, one of the frame a worker
stands in, which may speak about the memory, and one of the entries of the frontiers.  The loop around
the body moves entries about and starts bodies, and does nothing else to these.  So it is enough to
look at single steps of the body, alone and next to the frames of other workers.

A body may leave entries in its own frontier that are not yet as they should be, as long as it has put
them in order when it returns: nobody else sees them before.  `LocalInvariant` is the rule with this
freedom, `BodyInvariant` the one for bodies that do not need it.
-/
import PwsaStar.Pwsa.Refine

namespace PwsaStar.ParallelWhile

open PwsaStar.Lib

variable {W F S L B X E : Type*} [DecidableEq W] [Fintype W]

/-! ## Entries on the way -/

/-- What single steps of the body keep, when `own` is asked of the entries of a frontier as long as its
worker is inside the body, and `entry` of all others. -/
structure LocalInvariant (K : Client W F S L B X) (entries : F → Multiset E) (memory : S → Prop)
    (frame : S → B → Prop) (entry : S → E → Prop) (own : S → B → E → Prop) : Prop where
  enter : ∀ s, memory s → frame s K.enter ∧ ∀ e, entry s e → own s K.enter e
  body : ∀ w x s l f b s' l' f' r, memory s → frame s b → (∀ e ∈ entries f, own s b e) →
    K.body w x s l f b = some (s', l', f', r) →
    memory s' ∧
      (∀ b', r = .inl b' → frame s' b' ∧ ∀ e ∈ entries f', own s' b' e) ∧
      (∀ d, r = .inr d → ∀ e ∈ entries f', entry s' e) ∧
      -- nothing that was in order gets out of order
      (∀ b', frame s b' → frame s' b') ∧ (∀ e, entry s e → entry s' e) ∧
      ∀ b' e, own s b' e → own s' b' e

/-- The invariant, of a configuration. -/
structure HoldsLocally (entries : F → Multiset E) (memory : S → Prop) (frame : S → B → Prop)
    (entry : S → E → Prop) (own : S → B → E → Prop) (c : Config W F S L B) : Prop where
  memory : memory c.shared
  inside : ∀ w b, c.pc w = .work b →
    frame c.shared b ∧ ∀ e ∈ entries (c.myFrontier w), own c.shared b e
  outside : ∀ w, (∀ b, c.pc w ≠ .work b) → ∀ e ∈ entries (c.myFrontier w), entry c.shared e
  between : ∀ e, e ∈ entries c.input ∨ (∃ w, e ∈ entries (c.frontiers w)) → entry c.shared e

variable {K : Client W F S L B X} {entries : F → Multiset E} {memory : S → Prop}
  {frame : S → B → Prop} {leader : W}

/-- Everything there is but the frontiers of the other workers. -/
def within (entries : F → Multiset E) (w : W) (c : Config W F S L B) : Multiset E :=
  entries c.input + entries (c.myFrontier w) + ∑ v, entries (c.frontiers v)

omit [DecidableEq W] in
theorem mem_within {c : Config W F S L B} {w : W} {e : E} : e ∈ within entries w c ↔
    e ∈ entries c.input ∨ e ∈ entries (c.myFrontier w) ∨ ∃ v, e ∈ entries (c.frontiers v) := by
  simp [within, Multiset.mem_sum, or_assoc]

theorem total_within (entries : F → Multiset E) (w : W) (c : Config W F S L B) :
    total entries c =
      within entries w c + ∑ v ∈ Finset.univ.erase w, entries (c.myFrontier v) := by
  have hsum := Finset.add_sum_erase Finset.univ (fun v => entries (c.myFrontier v))
    (Finset.mem_univ w)
  simp only [total, within, ← hsum]
  abel

/-- A control step of `w` moves entries about among these. -/
theorem advance_within (hK : K.Lawful entries) {c c' : Config W F S L B} {w : W}
    (I : Inv entries c) (h : advance K leader w c = some c') :
    within entries w c' = within entries w c := by
  have htotal := advance_total hK (fun j hj => I.fork_empty hj) h
  obtain ⟨-, hothers⟩ := advance_frame h
  have hrest : ∑ v ∈ Finset.univ.erase w, entries (c'.myFrontier v) =
      ∑ v ∈ Finset.univ.erase w, entries (c.myFrontier v) := by
    apply Finset.sum_congr rfl
    intro v hv
    rw [(hothers v (Finset.ne_of_mem_erase hv)).2.1]
  rw [total_within entries w c', total_within entries w c, hrest] at htotal
  exact add_right_cancel htotal

variable {entry : S → E → Prop} {own : S → B → E → Prop}

theorem LocalInvariant.advance (H : LocalInvariant K entries memory frame entry own)
    (hK : K.Lawful entries) {c c' : Config W F S L B} {w : W} (I : Inv entries c)
    (h : HoldsLocally entries memory frame entry own c) (hadv : advance K leader w c = some c') :
    HoldsLocally entries memory frame entry own c' := by
  obtain ⟨hshared, hothers⟩ := advance_frame hadv
  obtain ⟨hout, hin⟩ := Pwsa.advance_work hadv
  have hwithin : ∀ e ∈ within entries w c', entry c'.shared e := by
    intro e he
    rw [advance_within hK I hadv, mem_within] at he
    rw [hshared]
    rcases he with he | he | he
    · exact h.between e (Or.inl he)
    · refine h.outside w (fun b hb => ?_) e he
      rw [Pwsa.frameOf_eq_some.mpr hb] at hout
      cases hout
    · exact h.between e (Or.inr he)
  refine ⟨hshared ▸ h.memory, fun v b hv => ?_, fun v hv e he => ?_, fun e he => ?_⟩
  · by_cases hvw : v = w
    · subst hvw
      have hsome : Pwsa.frameOf (c'.pc v) = some b := Pwsa.frameOf_eq_some.mpr hv
      rcases hin with hin | hin
      · rw [hin] at hsome
        cases hsome
      · obtain rfl : K.enter = b := Option.some.inj (hin.symm.trans hsome)
        obtain ⟨hframe, hown⟩ := H.enter c'.shared (hshared ▸ h.memory)
        exact ⟨hframe, fun e he => hown e (hwithin e (mem_within.mpr (Or.inr (Or.inl he))))⟩
    · obtain ⟨hpc, hmine, -⟩ := hothers v hvw
      rw [hpc] at hv
      rw [hshared, hmine]
      exact h.inside v b hv
  · by_cases hvw : v = w
    · subst hvw
      exact hwithin e (mem_within.mpr (Or.inr (Or.inl he)))
    · obtain ⟨hpc, hmine, -⟩ := hothers v hvw
      rw [hpc] at hv
      rw [hmine] at he
      rw [hshared]
      exact h.outside v hv e he
  · refine hwithin e (mem_within.mpr ?_)
    rcases he with he | he
    · exact Or.inl he
    · exact Or.inr (Or.inr he)

theorem LocalInvariant.next (H : LocalInvariant K entries memory frame entry own)
    (hK : K.Lawful entries) {c c' : Config W F S L B} {a : W × Act W X} (I : Inv entries c)
    (h : HoldsLocally entries memory frame entry own c)
    (hstep : ParallelWhile.next K leader a c = some c') :
    HoldsLocally entries memory frame entry own c' := by
  obtain ⟨w, a⟩ := a
  rcases next_cases hstep with hadv | ⟨j, -, hpc, rfl⟩ | ⟨x, b, s, l, f, r, -, hpc, hbody, rfl⟩
  · exact H.advance hK I h hadv
  · refine ⟨h.memory, fun v b hv => ?_, fun v hv => ?_, h.between⟩
    · by_cases hvw : v = w
      · subst hvw
        simp [Config.goto] at hv
      · exact h.inside v b (by simpa [Config.goto, hvw] using hv)
    · by_cases hvw : v = w
      · subst hvw
        exact h.outside v fun b hb => by rw [hpc] at hb; cases hb
      · exact h.outside v fun b hb => hv b (by simpa [Config.goto, hvw] using hb)
  · obtain ⟨hframe, hown⟩ := h.inside w b hpc
    obtain ⟨hmem, hgoon, hreturn, hframes, hentries, howns⟩ :=
      H.body w x _ _ _ b s l f r h.memory hframe hown hbody
    refine ⟨hmem, fun v b' hv => ?_, fun v hv e he => ?_, fun e he => ?_⟩
    · by_cases hvw : v = w
      · subst hvw
        have hafter : (afterBody r : Pc W B) = .work b' := by simpa [Config.goto] using hv
        rcases r with b'' | done
        · obtain rfl : b'' = b' := Pc.work.inj hafter
          obtain ⟨hframe', hown'⟩ := hgoon b'' rfl
          refine ⟨hframe', fun e he => hown' e ?_⟩
          simpa [Config.goto, Config.setMine] using he
        · cases done <;> cases hafter
      · have hold : c.pc v = .work b' := by simpa [Config.goto, Config.setMine, hvw] using hv
        obtain ⟨hframe', hown'⟩ := h.inside v b' hold
        refine ⟨hframes b' hframe', fun e he => howns b' e (hown' e ?_)⟩
        simpa [Config.goto, Config.setMine, hvw] using he
    · by_cases hvw : v = w
      · subst hvw
        have hmine : e ∈ entries f := by simpa [Config.goto, Config.setMine] using he
        rcases r with b'' | done
        · exact absurd (by simp [Config.goto, afterBody]) (hv b'')
        · exact hreturn done rfl e hmine
      · have hold : ∀ b', c.pc v ≠ .work b' := fun b' hb' =>
          hv b' (by simpa [Config.goto, Config.setMine, hvw] using hb')
        refine hentries e (h.outside v hold e ?_)
        simpa [Config.goto, Config.setMine, hvw] using he
    · refine hentries e (h.between e ?_)
      simpa [Config.goto, Config.setMine] using he

/-- **The invariant of the body holds in every run.** -/
theorem LocalInvariant.reachable (H : LocalInvariant K entries memory frame entry own)
    (hK : K.Lawful entries) {input : F} {loc : L} {shared : S} (hmem : memory shared)
    (hinput : ∀ e ∈ entries input, entry shared e) {c : Config W F S L B}
    (hc : (system K leader input loc shared).Reachable c) :
    HoldsLocally entries memory frame entry own c := by
  apply hc.invariant (I := HoldsLocally entries memory frame entry own)
  · rintro _ ⟨answers, rfl⟩
    refine ⟨hmem, fun w b h => ?_, fun w _ e he => ?_, fun e he => ?_⟩
    · cases h
    · have hnone : e ∈ entries K.fresh := he
      rw [hK.fresh] at hnone
      exact absurd hnone (Multiset.notMem_zero e)
    · rcases he with he | ⟨w, he⟩
      · exact hinput e he
      · have hnone : e ∈ entries K.fresh := he
        rw [hK.fresh] at hnone
        exact absurd hnone (Multiset.notMem_zero e)
  · rintro c c' hreach h ⟨a, hstep⟩
    exact H.next hK (reachable_inv hK hreach) h hstep

/-! ## Entries in order -/

/-- What single steps of the body keep, when all entries are in order at all times. -/
structure BodyInvariant (K : Client W F S L B X) (entries : F → Multiset E) (memory : S → Prop)
    (frame : S → B → Prop) (entry : E → Prop) : Prop where
  enter : ∀ s, memory s → frame s K.enter
  body : ∀ w x s l f b s' l' f' r, memory s → frame s b → (∀ e ∈ entries f, entry e) →
    K.body w x s l f b = some (s', l', f', r) →
    memory s' ∧ (∀ e ∈ entries f', entry e) ∧ (∀ b', r = .inl b' → frame s' b') ∧
      -- the other workers keep what they rely on
      ∀ b', frame s b' → frame s' b'

/-- The invariant, of a configuration. -/
structure Holds (entries : F → Multiset E) (memory : S → Prop) (frame : S → B → Prop)
    (entry : E → Prop) (c : Config W F S L B) : Prop where
  memory : memory c.shared
  frame : ∀ w b, c.pc w = .work b → frame c.shared b
  entry : ∀ e ∈ total entries c, entry e

omit [DecidableEq W] [Fintype W] in
/-- Such a body has no use for the freedom. -/
theorem BodyInvariant.toLocal {entry : E → Prop} (H : BodyInvariant K entries memory frame entry) :
    LocalInvariant K entries memory frame (fun _ => entry) (fun _ _ => entry) where
  enter s hs := ⟨H.enter s hs, fun _ he => he⟩
  body w x s l f b s' l' f' r hs hb hf hrun := by
    obtain ⟨hmem, hentry, hnext, hothers⟩ := H.body w x s l f b s' l' f' r hs hb hf hrun
    exact ⟨hmem, fun b' hb' => ⟨hnext b' hb', hentry⟩, fun _ _ => hentry, hothers, fun _ he => he,
      fun _ _ he => he⟩

/-- **The invariant of the body holds in every run.** -/
theorem BodyInvariant.reachable {entry : E → Prop} (H : BodyInvariant K entries memory frame entry)
    (hK : K.Lawful entries) {input : F} {loc : L} {shared : S} (hmem : memory shared)
    (hinput : ∀ e ∈ entries input, entry e) {c : Config W F S L B}
    (hc : (system K leader input loc shared).Reachable c) :
    Holds entries memory frame entry c := by
  have h := H.toLocal.reachable hK hmem hinput hc
  refine ⟨h.memory, fun w b hb => (h.inside w b hb).1, fun e he => ?_⟩
  rcases mem_total.mp he with he | ⟨w, he⟩ | he
  · exact h.between e (Or.inl he)
  · by_cases hwork : ∃ b, c.pc w = .work b
    · obtain ⟨b, hb⟩ := hwork
      exact (h.inside w b hb).2 e he
    · exact h.outside w (fun b hb => hwork ⟨b, hb⟩) e he
  · exact h.between e (Or.inr he)

end PwsaStar.ParallelWhile
