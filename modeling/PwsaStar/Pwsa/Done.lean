/-
# PwsaStar.Pwsa.Done — when the searches set `is_done`, and who may return.

`is_done` is set by the one worker whose exchange marks the destination, and a worker returns only
when it sees the flag or sets it.  So the flag stands for an expanded destination, and a destination
that is expanded has a worker on its way to the flag (`DoneInv`).  Together with the forest invariant
this decides what happens when the destination cannot be reached: nobody ever returns.
-/
import PwsaStar.Pwsa.Refine

namespace PwsaStar.Pwsa

open PwsaStar.Lib PwsaStar.Heap PwsaStar.ParallelWhile

variable {W V : Type*} [DecidableEq V] [DecidableEq W]

/-- **The flag and the start of a run.** -/
structure DoneInv (P : Problem V) (leader : W) (c : SearchConfig W V) : Prop where
  flagged : c.isDone = true → c.shared.isExpanded P.destination = true
  setting : ∀ w, c.pc w = .setDone → c.shared.isExpanded P.destination = true
  expanded : c.shared.isExpanded P.destination = true → c.isDone = true ∨ ∃ w, c.pc w = .setDone
  left : c.isDone = true → ∃ w, c.pc w = .returned
  waiting : ∀ w, c.pc w = .start → (c.myFrontier w).entries = 0
  input : c.input.entries ≠ 0 → c.pc leader = .start

/-- Nobody goes back to the start, and there the leader swaps its frontier with the input. -/
theorem advance_start {F S L B X : Type*} {K : Client W F S L B X} {leader w : W}
    {c c' : Config W F S L B} (h : advance K leader w c = some c') :
    c'.pc w ≠ .start ∧ (c'.input = c.input ∨ c.pc w = .start ∧ c'.input = c.myFrontier w) ∧
      (w = leader → c.pc w = .start → c'.input = c.myFrontier w) := by
  cases hpc : c.pc w <;> simp only [advance, hpc] at h
  case fork other =>
    obtain ⟨⟨l, src, dst⟩, -, rfl⟩ := Option.map_eq_some_iff.mp h
    simp [Config.goto, Config.setMine]
  all_goals
    repeat' split at h
    all_goals cases h
    all_goals simp [Config.goto, Config.setMine, Config.storeRequest, Config.storeAnswer, *]

/-- Returning is for good. -/
theorem advance_returned {F S L B X : Type*} {K : Client W F S L B X} {leader w : W}
    {c c' : Config W F S L B} (h : advance K leader w c = some c') : c.pc w ≠ .returned := by
  intro hpc
  simp [advance, hpc] at h

/-- Only setting the flag leaves `setDone`. -/
theorem advance_setDone {F S L B X : Type*} {K : Client W F S L B X} {leader w : W}
    {c c' : Config W F S L B} (h : advance K leader w c = some c') (hpc : c.pc w = .setDone) :
    c'.isDone = true ∧ c'.pc w = .returned := by
  simp only [advance, hpc] at h
  cases h
  simp [Config.goto]

omit [DecidableEq W] in
/-- `do_work` returns `true` exactly in the step that marks the destination. -/
theorem doWork_found {variant : Variant} {P : Problem V} {w : W} {x : Bool} {m m' : Shared W V}
    {balance balance' : ℤ} {frontier frontier' : Frontier V} {b : Frame V} {r : Frame V ⊕ Bool}
    (h : doWork variant P w x m balance frontier b = some (m', balance', frontier', r)) :
    (m'.isExpanded P.destination = true ↔ m.isExpanded P.destination = true ∨ r = .inr true) := by
  rcases doWork_cases h with ⟨n, v, -, rfl, -, rfl⟩ | ⟨n, -, rfl, -, rfl⟩ | ⟨effect, haccess, -, rfl⟩
  · simp
  · simp
  · cases access_cases haccess with
    | find => simp [Effect.result]
    | win hv hne =>
      rw [isExpanded_mark]
      simp [Effect.result, Ne.symm hne]
    | exchange => simp [Effect.result, Shared.exchange]
    | _ => simp [Effect.result]

theorem doneInv_start (variant : Variant) (block : ℕ → KV Dist V) (P : Problem V) (leader : W)
    {c : SearchConfig W V} (hc : (search variant block P leader).init c) : DoneInv P leader c := by
  obtain ⟨answers, rfl⟩ := hc
  have hopen : (initF (W := W) block P).1.isExpanded P.destination = false := by
    obtain ⟨memo, hheur⟩ := myHeur_frame P.heuristic (Shared.new (W := W) P) P.source
    simp only [initF, hheur]
    rfl
  refine
    { flagged := ?_
      setting := ?_
      expanded := ?_
      left := ?_
      waiting := fun w _ => ValidHeap.entries_new block
      input := fun _ => rfl }
  · rintro ⟨⟩
  · rintro w ⟨⟩
  · intro h
    exact absurd h (by simpa [start] using hopen)
  · rintro ⟨⟩

variable {variant : Variant} {block : ℕ → KV Dist V} {P : Problem V} {leader : W}

theorem doneInv_advance {w : W} {c c' : SearchConfig W V} (I : DoneInv P leader c)
    (h : advance (client variant block P) leader w c = some c') : DoneInv P leader c' := by
  obtain ⟨hshared, hframe⟩ := advance_frame h
  obtain ⟨hdone, hset, -⟩ := advance_done h
  obtain ⟨hstart, hinput, hleader⟩ := advance_start h
  refine { flagged := ?_, setting := ?_, expanded := ?_, left := ?_, waiting := ?_, input := ?_ }
  · intro hflag
    rw [hshared]
    rcases hdone.mp hflag with hflag | hpc
    · exact I.flagged hflag
    · exact I.setting w hpc
  · intro v hv
    rcases eq_or_ne v w with rfl | hne
    · exact absurd hv hset
    · rw [hshared]
      exact I.setting v ((hframe v hne).1 ▸ hv)
  · intro hexp
    rw [hshared] at hexp
    rcases I.expanded hexp with hflag | ⟨v, hv⟩
    · exact Or.inl (hdone.mpr (Or.inl hflag))
    · rcases eq_or_ne v w with rfl | hne
      · exact Or.inl (hdone.mpr (Or.inr hv))
      · exact Or.inr ⟨v, (hframe v hne).1.trans hv⟩
  · intro hflag
    rcases hdone.mp hflag with hflag | hpc
    · obtain ⟨v, hv⟩ := I.left hflag
      have hne : v ≠ w := by
        rintro rfl
        exact advance_returned h hv
      exact ⟨v, (hframe v hne).1.trans hv⟩
    · exact ⟨w, (advance_setDone h hpc).2⟩
  · intro v hv
    rcases eq_or_ne v w with rfl | hne
    · exact absurd hv hstart
    · rw [(hframe v hne).2.1]
      exact I.waiting v ((hframe v hne).1 ▸ hv)
  · intro hne
    have hold : c.input.entries ≠ 0 := by
      rcases hinput with heq | ⟨hpc, heq⟩ <;> rw [heq] at hne
      · exact hne
      · exact absurd (I.waiting w hpc) hne
    have hpc := I.input hold
    rcases eq_or_ne leader w with rfl | hlw
    · rw [hleader rfl hpc] at hne
      exact absurd (I.waiting leader hpc) hne
    · exact (hframe leader hlw).1.trans hpc

theorem doneInv_body {w : W} {x : Bool} {c : SearchConfig W V} {b : Frame V} {m : Shared W V} {l : ℤ}
    {f : Frontier V} {r : Frame V ⊕ Bool} (I : DoneInv P leader c) (hpc : c.pc w = .work b)
    (h : doWork variant P w x c.shared (c.loc w) (c.myFrontier w) b = some (m, l, f, r)) :
    DoneInv P leader (({ c.setMine w l f with shared := m }).goto w (afterBody r)) := by
  have hfound := doWork_found h
  have hself : (({ c.setMine w l f with shared := m }).goto w (afterBody r)).pc w = afterBody r := by
    simp [Config.goto]
  have hother : ∀ v, v ≠ w →
      (({ c.setMine w l f with shared := m }).goto w (afterBody r)).pc v = c.pc v := by
    intro v hv
    simp [Config.goto, Config.setMine, hv]
  refine { flagged := ?_, setting := ?_, expanded := ?_, left := ?_, waiting := ?_, input := ?_ }
  · intro hflag
    exact hfound.mpr (Or.inl (I.flagged hflag))
  · intro v hv
    apply hfound.mpr
    rcases eq_or_ne v w with rfl | hne
    · rw [hself] at hv
      rcases r with b' | (_ | _)
      · cases hv
      · cases hv
      · exact Or.inr rfl
    · exact Or.inl (I.setting v ((hother v hne) ▸ hv))
  · intro hexp
    rcases hfound.mp hexp with hexp | rfl
    · rcases I.expanded hexp with hflag | ⟨v, hv⟩
      · exact Or.inl hflag
      · have hne : v ≠ w := by
          rintro rfl
          rw [hpc] at hv
          cases hv
        exact Or.inr ⟨v, (hother v hne).trans hv⟩
    · exact Or.inr ⟨w, hself⟩
  · intro hflag
    obtain ⟨v, hv⟩ := I.left hflag
    have hne : v ≠ w := by
      rintro rfl
      rw [hpc] at hv
      cases hv
    exact ⟨v, (hother v hne).trans hv⟩
  · intro v hv
    rcases eq_or_ne v w with rfl | hne
    · rw [hself] at hv
      rcases r with b' | (_ | _) <;> cases hv
    · have hmine := I.waiting v ((hother v hne) ▸ hv)
      simpa [Config.goto, Config.setMine, hne] using hmine
  · intro hne
    have hstart := I.input hne
    have hlw : leader ≠ w := by
      rintro rfl
      rw [hpc] at hstart
      cases hstart
    exact (hother leader hlw).trans hstart

theorem doneInv_next {a : W × Act W Bool} {c c' : SearchConfig W V} (I : DoneInv P leader c)
    (h : next (client variant block P) leader a c = some c') : DoneInv P leader c' := by
  obtain ⟨w, a⟩ := a
  rcases next_cases h with h | ⟨j, -, hpc, rfl⟩ | ⟨x, b, m, l, f, r, ha, hpc, hbody, rfl⟩
  · exact doneInv_advance I h
  · -- picking a victim changes nothing that is said here
    have hne : ∀ v p, (c.goto w (.loadVictim j)).pc v = p → p ≠ .loadVictim j → c.pc v = p := by
      intro v p hv hp
      rcases eq_or_ne v w with rfl | hvw
      · exact absurd (by simpa [Config.goto] using hv.symm) hp
      · simpa [Config.goto, hvw] using hv
    have hkeep : ∀ v p, c.pc v = p → p ≠ .pickVictim → (c.goto w (.loadVictim j)).pc v = p := by
      intro v p hv hp
      rcases eq_or_ne v w with rfl | hvw
      · exact absurd (hv.symm.trans hpc) hp
      · simpa [Config.goto, hvw] using hv
    refine { I with
      setting := fun v hv => I.setting v (hne v _ hv (by simp))
      waiting := fun v hv => I.waiting v (hne v _ hv (by simp))
      input := fun hi => hkeep _ _ (I.input hi) (by simp)
      expanded := ?_, left := ?_ }
    · intro hexp
      rcases I.expanded hexp with hflag | ⟨v, hv⟩
      · exact Or.inl hflag
      · exact Or.inr ⟨v, hkeep v _ hv (by simp)⟩
    · intro hflag
      obtain ⟨v, hv⟩ := I.left hflag
      exact ⟨v, hkeep v _ hv (by simp)⟩
  · exact doneInv_body I hpc hbody

theorem reachable_doneInv {c : SearchConfig W V}
    (hc : (search variant block P leader).Reachable c) : DoneInv P leader c := by
  apply hc.invariant (I := DoneInv P leader)
  · intro c h
    exact doneInv_start variant block P leader h
  · rintro c c' - I ⟨a, h⟩
    exact doneInv_next I h

end PwsaStar.Pwsa
