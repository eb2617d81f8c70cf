/-
# PwsaStar.Pbnf.PRACompletion — when the counter is complete, nothing is left anywhere.

A thread posts its completion when it has no open state, no buffered state and no state in its queue.  It may
be sent a state after that, but then whoever sends it takes the completion back under the lock on the queue,
and a thread that has posted its completion sends nothing.  So when all completions are posted at once, no
state is open, buffered or in a queue, and it stays so.
-/
import PwsaStar.Pbnf.PRATurn
import Mathlib.Data.Fintype.Card
import Mathlib.Data.Finset.Card

namespace PwsaStar.Pbnf.PRAStar

open PwsaStar.Lib

variable {V : Type} {n : ℕ}

/-- The buffers of `t` are empty. -/
def Clear (sh : Shared V n) (t : Fin n) : Prop := ∀ d, sh.out_qs t d = []

/-- Thread `t` has nothing to do and nothing to send, and was sent nothing. -/
structure Idle (sh : Shared V n) (t : Fin n) : Prop where
  q_empty : sh.q_empty t = true
  pq_empty : (sh.opens t).pq.empty = true
  clear : Clear sh t

/-- Where a thread is that has posted its completion. -/
def Resting (sh : Shared V n) : Phase V → Prop
  | .wait _ _ => True
  | .relock _ _ => (n : ℤ) ≤ sh.counter
  | .received _ => (n : ℤ) ≤ sh.counter
  | .run => sh.done = true
  | .finished => True
  | _ => False

/-- What a thread knows from where it is. -/
def Duty (home : V → Fin n) (sh : Shared V n) (t : Fin n) : Phase V → Prop
  | .flush _ i has_sends => has_sends = false → ∀ d : Fin n, d.val < i → sh.out_qs t d = []
  | .look has_sends => has_sends = false → Clear sh t
  | .receive first has_sends => (has_sends = false → Clear sh t) ∧ (first = true → sh.q_empty t = false)
  | .wait first _ => first = false ∧ Clear sh t ∧ (sh.completed t = true ∨ sh.q_empty t = false)
  | .relock first _ => first = false ∧ Clear sh t
  | .receiving _ has_sends todo => (has_sends = false → Clear sh t) ∧ ∀ m ∈ todo, home m.state = t
  | .test_open has_sends => has_sends = false → Clear sh t
  | .received has_sends => has_sends = false → Clear sh t
  | .take_open => (sh.opens t).pq.empty = false
  | .send _ _ _ m => home m.state ≠ t
  | .finished => sh.done = true
  | _ => True

/-- What holds of thread `t` and of what is its own. -/
structure Local (home : V → Fin n) (opts : Options) (sh : Shared V n) (t : Fin n) (ph : Phase V) : Prop where
  queue : sh.q_empty t = true → sh.q t = []
  mine : ∀ m ∈ sh.q t, home m.state = t
  addressed : ∀ d, ∀ m ∈ sh.out_qs t d, home m.state = d ∧ d ≠ t
  sync : opts.async_send = false → Clear sh t
  duty : Duty home sh t ph
  completed : sh.completed t = true → Idle sh t ∧ Resting sh ph

/-- The threads that have posted their completion. -/
def Shared.posted (sh : Shared V n) : Finset (Fin n) := Finset.univ.filter fun t => sh.completed t = true

/-- **The protocol of completion.** -/
structure Protocol (home : V → Fin n) (opts : Options) (s : State V n) : Prop where
  threads : ∀ t, Local home opts s.shared t (s.threads t)
  counter : s.shared.counter = s.shared.posted.card
  done : s.shared.done = true → (n : ℤ) ≤ s.shared.counter

/-! ## What others do -/

section Others

variable {home : V → Fin n} {opts : Options} {sh sh' : Shared V n} {t u : Fin n} {ph : Phase V}

/-- What is of thread `u` is as before, but for what it was sent. -/
structure Kept (home : V → Fin n) (sh sh' : Shared V n) (u : Fin n) : Prop where
  out_qs : sh'.out_qs u = sh.out_qs u
  opens : sh'.opens u = sh.opens u
  sent : (sh'.q u = sh.q u ∧ sh'.q_empty u = sh.q_empty u ∧ sh'.completed u = sh.completed u)
    ∨ ∃ msgs, sh'.q u = sh.q u ++ msgs ∧ (∀ m ∈ msgs, home m.state = u) ∧ sh'.q_empty u = false
      ∧ sh'.completed u = false

/-- What does not change is kept. -/
theorem Kept.refl (home : V → Fin n) (sh : Shared V n) (u : Fin n) : Kept home sh sh u :=
  ⟨rfl, rfl, Or.inl ⟨rfl, rfl, rfl⟩⟩

/-- Thread `t` sends something. -/
theorem kept_push (d : Fin n) {msgs : List (Child V)} (hmsgs : ∀ m ∈ msgs, home m.state = d) (u : Fin n) :
    Kept home sh (push sh d msgs) u := by
  refine ⟨rfl, rfl, ?_⟩
  by_cases hu : u = d
  · subst hu
    refine Or.inr ⟨msgs, ?_, hmsgs, ?_, ?_⟩
    · exact Function.update_self ..
    · exact Function.update_self ..
    · exact Function.update_self ..
  · refine Or.inl ⟨?_, ?_, ?_⟩
    · exact Function.update_of_ne hu ..
    · exact Function.update_of_ne hu ..
    · exact Function.update_of_ne hu ..

/-- A buffer of the thread that moves is none of `u`'s. -/
theorem Kept.set_buffer (hk : Kept home sh sh' u) (hu : u ≠ t) (d : Fin n) (msgs : List (Child V)) :
    Kept home sh (set_buffer sh' t d msgs) u :=
  ⟨(Function.update_of_ne hu ..).trans hk.out_qs, hk.opens, hk.sent⟩

theorem Kept.clear (hk : Kept home sh sh' u) (h : Clear sh u) : Clear sh' u := by
  intro d
  rw [hk.out_qs]
  exact h d

theorem Kept.not_empty (hk : Kept home sh sh' u) (h : sh.q_empty u = false) : sh'.q_empty u = false := by
  rcases hk.sent with ⟨-, hsame, -⟩ | ⟨msgs, -, -, hsent, -⟩
  · exact hsame.trans h
  · exact hsent

/-- The duty of a thread survives the turns of the others. -/
theorem Duty.kept (hk : Kept home sh sh' u) (hdone : sh.done = true → sh'.done = true)
    (h : Duty home sh u ph) : Duty home sh' u ph := by
  cases ph with
  | flush first i has_sends =>
    intro hsends d hd
    rw [hk.out_qs]
    exact h hsends d hd
  | look has_sends => exact fun hsends => hk.clear (h hsends)
  | receive first has_sends =>
    exact ⟨fun hsends => hk.clear (h.1 hsends), fun hfirst => hk.not_empty (h.2 hfirst)⟩
  | wait first has_sends =>
    rcases h with ⟨hfirst, hclear, hwhy⟩
    refine ⟨hfirst, hk.clear hclear, ?_⟩
    rcases hk.sent with ⟨-, hempty, hsame⟩ | ⟨msgs, -, -, hsent, -⟩
    · rw [hempty, hsame]
      exact hwhy
    · exact Or.inr hsent
  | relock first has_sends => exact ⟨h.1, hk.clear h.2⟩
  | receiving first has_sends todo => exact ⟨fun hsends => hk.clear (h.1 hsends), h.2⟩
  | test_open has_sends => exact fun hsends => hk.clear (h hsends)
  | received has_sends => exact fun hsends => hk.clear (h hsends)
  | take_open =>
    show (sh'.opens u).pq.empty = false
    rw [hk.opens]
    exact h
  | finished => exact hdone h
  | _ => exact h

theorem Resting.mono (hcount : (n : ℤ) ≤ sh.counter → (n : ℤ) ≤ sh'.counter)
    (hdone : sh.done = true → sh'.done = true) (h : Resting sh ph) : Resting sh' ph := by
  cases ph with
  | relock first has_sends => exact hcount h
  | received has_sends => exact hcount h
  | run => exact hdone h
  | _ => exact h

/-- So does what it knows of itself. -/
theorem Local.kept (h : Local home opts sh u ph) (hk : Kept home sh sh' u)
    (hcount : (n : ℤ) ≤ sh.counter → (n : ℤ) ≤ sh'.counter) (hdone : sh.done = true → sh'.done = true) :
    Local home opts sh' u ph where
  queue := by
    rcases hk.sent with ⟨hq, hempty, -⟩ | ⟨msgs, -, -, hsent, -⟩
    · rw [hq, hempty]
      exact h.queue
    · exact fun htrue => absurd (htrue.symm.trans hsent) Bool.noConfusion
  mine := by
    rcases hk.sent with ⟨hq, -, -⟩ | ⟨msgs, hq, hmsgs, -, -⟩
    · rw [hq]
      exact h.mine
    · rw [hq]
      exact fun m hm => (List.mem_append.mp hm).elim (h.mine m) (hmsgs m)
  addressed := by
    rw [hk.out_qs]
    exact h.addressed
  sync := fun hsync => hk.clear (h.sync hsync)
  duty := h.duty.kept hk hdone
  completed := by
    intro htrue
    rcases hk.sent with ⟨-, hempty, hsame⟩ | ⟨msgs, -, -, -, hsent⟩
    · rcases h.completed (hsame ▸ htrue) with ⟨hidle, hresting⟩
      exact ⟨⟨hempty.trans hidle.q_empty, hk.opens ▸ hidle.pq_empty, hk.clear hidle.clear⟩,
        hresting.mono hcount hdone⟩
    · exact absurd (htrue.symm.trans hsent) Bool.noConfusion

end Others

/-! ## What a thread does -/

section Turns

variable [DecidableEq V] {D : SearchDomain V} {home : V → Fin n} {opts : Options} {locked : Fin n → Bool}
  {sh sh' : Shared V n} {t u : Fin n} {ph ph' : Phase V}

omit [DecidableEq V] in
/-- A message and the ones that are buffered for its thread. -/
theorem Local.buffered {s : V} {g : ℕ} {todo : List (V × ℕ)} {m : Child V}
    (h : Local home opts sh t (.send s g todo m)) :
    ∀ x ∈ sh.out_qs t (home m.state) ++ [m], home x.state = home m.state := by
  intro x hx
  rcases List.mem_append.mp hx with hx | hx
  · exact (h.addressed _ x hx).1
  · rw [List.mem_singleton.mp hx]

/-- **What a turn leaves of the other threads.** -/
theorem Turn.kept (h : Turn D home opts locked t sh ph sh' ph') (hl : Local home opts sh t ph) (hu : u ≠ t) :
    Kept home sh sh' u := by
  cases h with
  | own expansions hmove => exact ⟨rfl, rfl, Or.inl ⟨rfl, rfl, rfl⟩⟩
  | known hsees hdup hle => exact .refl home sh u
  | update hsees hdup hlt hopen ho => exact ⟨rfl, Function.update_of_ne hu .., Or.inl ⟨rfl, rfl, rfl⟩⟩
  | reopen hsees hdup hlt hopen => exact ⟨rfl, Function.update_of_ne hu .., Or.inl ⟨rfl, rfl, rfl⟩⟩
  | create hsees hnone => exact ⟨rfl, Function.update_of_ne hu .., Or.inl ⟨rfl, rfl, rfl⟩⟩
  | flush hi hne hlocked => exact (kept_push _ (fun m hm => (hl.addressed _ m hm).1) u).set_buffer hu _ _
  | buffer hasync => exact (Kept.refl home sh u).set_buffer hu _ _
  | send_all hasync hlocked => exact (kept_push _ hl.buffered u).set_buffer hu _ _
  | @send s g todo m hsync hlocked =>
    exact kept_push _ (fun x hx => congrArg (fun c => home c.state) (List.mem_singleton.mp hx)) u
  | complete hempty hpq => exact ⟨rfl, rfl, Or.inl ⟨rfl, rfl, Function.update_of_ne hu ..⟩⟩
  | clear =>
    exact ⟨rfl, rfl, Or.inl ⟨Function.update_of_ne hu .., Function.update_of_ne hu .., rfl⟩⟩
  | finish hcomplete => exact ⟨rfl, rfl, Or.inl ⟨rfl, rfl, rfl⟩⟩
  | take hdone ho hnode => exact ⟨rfl, Function.update_of_ne hu .., Or.inl ⟨rfl, rfl, rfl⟩⟩
  | report => exact ⟨rfl, rfl, Or.inl ⟨rfl, rfl, rfl⟩⟩
  | swap heq => exact ⟨rfl, rfl, Or.inl ⟨rfl, rfl, rfl⟩⟩

omit [DecidableEq V] in
/-- A thread that goes on with what it does. -/
theorem Local.busy (h : Local home opts sh t ph) (hph : ¬ Resting sh ph) : sh.completed t = false := by
  by_contra htrue
  exact hph (h.completed (by simpa using htrue)).2

omit [DecidableEq V] in
/-- The same thread further on; what is its own has not changed. -/
theorem Local.goto (h : Local home opts sh t ph) (hq : sh'.q t = sh.q t) (hempty : sh'.q_empty t = sh.q_empty t)
    (hcompleted : sh'.completed t = sh.completed t) (hout : sh'.out_qs t = sh.out_qs t)
    (hopens : sh'.completed t = true → sh'.opens t = sh.opens t) (hduty : Duty home sh' t ph')
    (hrest : sh'.completed t = true → Resting sh' ph') : Local home opts sh' t ph' where
  queue := by
    rw [hq, hempty]
    exact h.queue
  mine := by
    rw [hq]
    exact h.mine
  addressed := by
    rw [hout]
    exact h.addressed
  sync := by
    intro hsync d
    rw [hout]
    exact h.sync hsync d
  duty := hduty
  completed := by
    intro htrue
    rcases h.completed (hcompleted ▸ htrue) with ⟨hidle, -⟩
    refine ⟨⟨hempty.trans hidle.q_empty, ?_, ?_⟩, hrest htrue⟩
    · rw [hopens htrue]
      exact hidle.pq_empty
    · intro d
      rw [hout]
      exact hidle.clear d

omit [DecidableEq V] in
/-- Thread `t` has put something into one of its buffers, or has sent what was there. -/
theorem Local.sent (h : Local home opts sh t ph) (hbusy : ¬ Resting sh ph) {d : Fin n} (hd : d ≠ t)
    {msgs : List (Child V)} (hmsgs : ∀ m ∈ msgs, home m.state = d)
    (hsync : opts.async_send = false → msgs = []) (hq : sh'.q t = sh.q t)
    (hempty : sh'.q_empty t = sh.q_empty t) (hcompleted : sh'.completed t = sh.completed t)
    (hout : sh'.out_qs t = Function.update (sh.out_qs t) d msgs) (hduty : Duty home sh' t ph') :
    Local home opts sh' t ph' where
  queue := by
    rw [hq, hempty]
    exact h.queue
  mine := by
    rw [hq]
    exact h.mine
  addressed := by
    intro e m hm
    rw [hout] at hm
    by_cases he : e = d
    · subst he
      rw [Function.update_self] at hm
      exact ⟨hmsgs m hm, hd⟩
    · rw [Function.update_of_ne he] at hm
      exact h.addressed e m hm
  sync := by
    intro hfalse e
    rw [hout]
    by_cases he : e = d
    · subst he
      rw [Function.update_self]
      exact hsync hfalse
    · rw [Function.update_of_ne he]
      exact h.sync hfalse e
  duty := hduty
  completed := by
    rw [hcompleted, h.busy hbusy]
    exact nofun

omit [DecidableEq V] in
/-- A move keeps the duty of its thread. -/
theorem Move.duty (h : Move D home opts t sh ph ph') (hl : Local home opts sh t ph) : Duty home sh t ph' := by
  have hduty := hl.duty
  cases h with
  | stop hdone => exact hdone
  | flush hasync => exact fun _ d hd => absurd hd (Nat.not_lt_zero d.val)
  | sync hsync => exact fun _ => hl.sync hsync
  | keep_sends => exact nofun
  | skip hi hnil =>
    intro hsends d hd
    rcases Nat.lt_succ_iff_lt_or_eq.mp hd with hlt | heq
    · exact hduty hsends d hlt
    · rw [show d = ⟨_, hi⟩ from Fin.ext heq]
      exact hnil
  | busy => exact nofun
  | @flushed first i has_sends hn =>
    have hclear : has_sends = false → Clear sh t := fun hsends d => hduty hsends d (d.isLt.trans_le hn)
    cases first with
    | true => exact hclear
    | false => exact ⟨hclear, nofun⟩
  | look_empty => exact hduty
  | look hempty => exact ⟨hduty, fun _ => hempty⟩
  | @skip_receive first has_sends => cases first <;> exact hduty.1
  | lock => exact ⟨hduty.1, hl.mine⟩
  | awake hwhy => exact ⟨hduty.1, hduty.2.1⟩
  | @complete first has_sends hcomplete hempty => cases first <;> exact fun _ => hduty.2
  | relock hlt => exact ⟨fun _ => hduty.2, hl.mine⟩
  | late hlate => exact ⟨hduty.1, fun m hm => hduty.2 m (List.mem_cons_of_mem _ hm)⟩
  | flush_again hasync => exact fun _ d hd => absurd hd (Nat.not_lt_zero d.val)
  | sync_again hsync => exact ⟨fun _ => hl.sync hsync, nofun⟩
  | empty => exact ⟨hduty, nofun⟩
  | some_open hopen => exact hopen
  | again hlt => exact hduty
  | send hhome => exact hhome
  | _ => trivial

omit [DecidableEq V] in
/-- Whoever has posted its completion does nothing but wait, and end. -/
theorem Move.resting (h : Move D home opts t sh ph ph') (hl : Local home opts sh t ph)
    (hdone : sh.done = true → (n : ℤ) ≤ sh.counter) (hcompleted : sh.completed t = true) :
    Resting sh ph' := by
  rcases hl.completed hcompleted with ⟨hidle, hresting⟩
  cases h with
  | stop hstop => trivial
  | start hstart => exact absurd (hresting.symm.trans hstart) Bool.noConfusion
  | awake hwhy =>
    rcases hwhy with hempty | hcomplete | htrue
    · exact absurd (hidle.q_empty.symm.trans hempty) Bool.noConfusion
    · exact hcomplete
    · exact hdone htrue
  | complete hcomplete hempty =>
    rcases hl.duty with ⟨rfl, -⟩
    exact hcomplete
  | relock hlt => exact absurd hresting (not_le.mpr hlt)
  | again hlt => exact absurd hresting (not_le.mpr hlt)
  | _ => exact hresting.elim

omit [DecidableEq V] in
/-- A thread that looks at a message is not resting. -/
theorem Sees.busy {m : Child V} (h : Sees home t ph m ph') : ¬ Resting sh ph := by
  cases h <;> exact id

omit [DecidableEq V] in
theorem Sees.duty {m : Child V} (h : Sees home t ph m ph') (hd : Duty home sh t ph)
    (hout : sh'.out_qs = sh.out_qs) : Duty home sh' t ph' := by
  cases h with
  | received => exact ⟨fun hsends d => hout ▸ hd.1 hsends d, fun x hx => hd.2 x (List.mem_cons_of_mem _ hx)⟩
  | own hhome => trivial

/-- **A turn keeps what its thread knows of itself.** -/
theorem Local.turn (h : Local home opts sh t ph) (hdone : sh.done = true → (n : ℤ) ≤ sh.counter)
    (hturn : Turn D home opts locked t sh ph sh' ph') : Local home opts sh' t ph' := by
  -- a thread that does something has not posted its completion
  have hgo : ∀ {P : Prop}, ¬ Resting sh ph → sh.completed t = true → P :=
    fun hbusy htrue => absurd (htrue.symm.trans (h.busy hbusy)) Bool.noConfusion
  have hnone : ∀ {d : Fin n}, ∀ m ∈ ([] : List (Child V)), home m.state = d :=
    fun m hm => absurd hm List.not_mem_nil
  cases hturn with
  | own expansions hmove =>
    exact h.goto rfl rfl rfl rfl (fun _ => rfl) (hmove.duty h) (hmove.resting h hdone)
  | known hsees hdup hle =>
    exact h.goto rfl rfl rfl rfl (fun _ => rfl) (hsees.duty h.duty rfl) (hgo hsees.busy)
  | update hsees hdup hlt hopen ho =>
    exact h.goto rfl rfl rfl rfl (hgo hsees.busy) (hsees.duty h.duty rfl) (hgo hsees.busy)
  | reopen hsees hdup hlt hopen =>
    exact h.goto rfl rfl rfl rfl (hgo hsees.busy) (hsees.duty h.duty rfl) (hgo hsees.busy)
  | create hsees hnone =>
    exact h.goto rfl rfl rfl rfl (hgo hsees.busy) (hsees.duty h.duty rfl) (hgo hsees.busy)
  | @flush first i has_sends hi hne hlocked =>
    rcases List.exists_mem_of_ne_nil _ hne with ⟨m, hm⟩
    have hd : (⟨i, hi⟩ : Fin n) ≠ t := (h.addressed _ m hm).2
    have hout : Function.update sh.out_qs t (Function.update (sh.out_qs t) ⟨i, hi⟩ []) t
        = Function.update (sh.out_qs t) ⟨i, hi⟩ [] := Function.update_self ..
    refine h.sent id hd hnone (fun _ => rfl) (Function.update_of_ne hd.symm ..)
      (Function.update_of_ne hd.symm ..) (Function.update_of_ne hd.symm ..) hout ?_
    intro hsends d hlt
    show Function.update sh.out_qs t (Function.update (sh.out_qs t) ⟨i, hi⟩ []) t d = []
    rw [hout]
    by_cases hdi : d = ⟨i, hi⟩
    · rw [hdi, Function.update_self]
    · rw [Function.update_of_ne hdi]
      have hne : d.val ≠ i := fun heq => hdi (Fin.ext heq)
      exact h.duty hsends d (by omega)
  | @buffer s g todo m hasync =>
    refine h.sent id h.duty h.buffered ?_ rfl rfl rfl (Function.update_self ..) trivial
    exact fun hsync => absurd (hasync.symm.trans hsync) Bool.noConfusion
  | @send_all s g todo m hasync hlocked =>
    have hd : t ≠ home m.state := fun heq => h.duty heq.symm
    exact h.sent id h.duty hnone (fun _ => rfl) (Function.update_of_ne hd ..)
      (Function.update_of_ne hd ..) (Function.update_of_ne hd ..) (Function.update_self ..) trivial
  | @send s g todo m hsync hlocked =>
    have hd : t ≠ home m.state := fun heq => h.duty heq.symm
    have hcompleted : (push sh (home m.state) [m]).completed t = sh.completed t := Function.update_of_ne hd ..
    refine h.goto (Function.update_of_ne hd ..) (Function.update_of_ne hd ..) hcompleted rfl
      (fun _ => rfl) trivial ?_
    rw [hcompleted]
    exact hgo id
  | @complete first hempty hpq =>
    have hfirst : first = false := by
      by_contra hne
      exact absurd (hempty.symm.trans (h.duty.2 (by simpa using hne))) Bool.noConfusion
    have hclear : Clear sh t := h.duty.1 rfl
    exact ⟨h.queue, h.mine, h.addressed, h.sync, ⟨hfirst, hclear, Or.inl (Function.update_self ..)⟩,
      fun _ => ⟨⟨hempty, hpq, hclear⟩, trivial⟩⟩
  | @clear first has_sends =>
    have hq : Function.update sh.q t [] t = [] := Function.update_self ..
    refine ⟨fun _ => hq, ?_, h.addressed, h.sync, ?_, hgo id⟩
    · show ∀ m ∈ Function.update sh.q t [] t, home m.state = t
      rw [hq]
      exact hnone
    · cases first <;> exact h.duty.1
  | finish hcomplete => exact h.goto rfl rfl rfl rfl (fun _ => rfl) trivial (fun _ => rfl)
  | take hnot ho hnode => exact h.goto rfl rfl rfl rfl (hgo id) trivial (hgo id)
  | report => exact h.goto rfl rfl rfl rfl (fun _ => rfl) trivial (hgo id)
  | swap heq => exact h.goto rfl rfl rfl rfl (fun _ => rfl) trivial (hgo id)

/-- `done` is set only when the counter has reached the number of threads. -/
theorem Turn.done (h : Turn D home opts locked t sh ph sh' ph') :
    sh'.done = sh.done ∨ sh'.done = true ∧ (n : ℤ) ≤ sh'.counter := by
  cases h with
  | finish hcomplete => exact Or.inr ⟨rfl, hcomplete⟩
  | _ => exact Or.inl rfl

/-- A turn of a thread that has posted its completion. -/
theorem Turn.rest (h : Turn D home opts locked t sh ph sh' ph') (hl : Local home opts sh t ph)
    (hcompleted : sh.completed t = true) :
    ∃ expansions done, sh' = { sh with expansions := expansions, done := done } := by
  rcases hl.completed hcompleted with ⟨-, hresting⟩
  cases h with
  | own expansions hmove => exact ⟨expansions, sh.done, rfl⟩
  | known hsees hdup hle => exact ⟨sh.expansions, sh.done, rfl⟩
  | update hsees hdup hlt hopen ho => exact absurd hresting hsees.busy
  | reopen hsees hdup hlt hopen => exact absurd hresting hsees.busy
  | create hsees hnone => exact absurd hresting hsees.busy
  | finish hcomplete => exact ⟨sh.expansions, true, rfl⟩
  | _ => exact hresting.elim

end Turns

/-! ## The counter -/

section Counter

variable {sh : Shared V n} {t d : Fin n}

theorem mem_posted : t ∈ sh.posted ↔ sh.completed t = true := by
  simp [Shared.posted]

/-- A counter that has reached the number of threads was moved by all of them. -/
theorem all_posted (hcounter : sh.counter = sh.posted.card) (hcomplete : (n : ℤ) ≤ sh.counter) (t : Fin n) :
    sh.completed t = true := by
  have hle : n ≤ sh.posted.card := by omega
  have huniv : sh.posted = Finset.univ := Finset.eq_univ_of_card _ <|
    le_antisymm (Finset.card_le_univ _) (by rwa [Fintype.card_fin])
  exact mem_posted.mp (huniv ▸ Finset.mem_univ t)

/-- A push takes back the completion of its receiver, in the counter and in the flags. -/
theorem counter_push (hcounter : sh.counter = sh.posted.card) (d : Fin n) (msgs : List (Child V)) :
    (push sh d msgs).counter = (push sh d msgs).posted.card := by
  have hposted : (push sh d msgs).posted = sh.posted.erase d := by
    ext u
    rw [Finset.mem_erase, mem_posted, mem_posted]
    by_cases hu : u = d
    · subst hu
      rw [show (push sh u msgs).completed u = false from Function.update_self ..]
      simp
    · rw [show (push sh d msgs).completed u = sh.completed u from Function.update_of_ne hu ..]
      simp [hu]
  rw [hposted]
  show (if sh.completed d then sh.counter - 1 else sh.counter) = ((sh.posted.erase d).card : ℤ)
  by_cases hd : sh.completed d = true
  · have hmem : d ∈ sh.posted := mem_posted.mpr hd
    have hpos := Finset.card_pos.mpr ⟨d, hmem⟩
    rw [if_pos hd, Finset.card_erase_of_mem hmem, hcounter]
    omega
  · rw [if_neg hd, Finset.erase_eq_of_notMem (fun hmem => hd (mem_posted.mp hmem)), hcounter]

/-- A completion is counted once. -/
theorem counter_complete (hcounter : sh.counter = sh.posted.card) (ht : sh.completed t = false) :
    sh.counter + 1
      = ({ sh with completed := Function.update sh.completed t true } : Shared V n).posted.card := by
  have hposted : ({ sh with completed := Function.update sh.completed t true } : Shared V n).posted
      = insert t sh.posted := by
    ext u
    rw [Finset.mem_insert, mem_posted, mem_posted]
    by_cases hu : u = t
    · simp [hu]
    · simp [hu]
  have hnot : t ∉ sh.posted := by
    rw [mem_posted, ht]
    exact Bool.false_ne_true
  rw [hposted, Finset.card_insert_of_notMem hnot, hcounter]
  push_cast
  rfl

end Counter

/-! ## Runs -/

section Runs

variable [DecidableEq V] {D : SearchDomain V} {home : V → Fin n} {opts : Options}

/-- **The counter is the number of completions posted.** -/
theorem Turn.counter {locked : Fin n → Bool} {sh sh' : Shared V n} {t : Fin n} {ph ph' : Phase V}
    (h : Turn D home opts locked t sh ph sh' ph') (hl : Local home opts sh t ph)
    (hcounter : sh.counter = sh.posted.card) : sh'.counter = sh'.posted.card := by
  cases h with
  | flush hi hne hlocked => exact counter_push hcounter _ _
  | send_all hasync hlocked => exact counter_push hcounter _ _
  | send hsync hlocked => exact counter_push hcounter _ _
  | complete hempty hpq => exact counter_complete hcounter (hl.busy id)
  | _ => exact hcounter

variable {s s' : State V n} [Inhabited V]

/-- When all completions are posted, a step changes nothing that matters. -/
theorem Protocol.rest (h : Protocol home opts s) (hcomplete : (n : ℤ) ≤ s.shared.counter)
    (hstep : (searches D home opts).step s s') :
    ∃ expansions done, s'.shared = { s.shared with expansions := expansions, done := done } := by
  rcases step_cases hstep with ⟨t, ph', hturn, -⟩
  exact hturn.rest (h.threads t) (all_posted h.counter hcomplete t)

theorem Protocol.step (h : Protocol home opts s) (hstep : (searches D home opts).step s s') :
    Protocol home opts s' := by
  have hcomplete : (n : ℤ) ≤ s.shared.counter → (n : ℤ) ≤ s'.shared.counter := by
    intro hcomplete
    rcases h.rest hcomplete hstep with ⟨expansions, done, heq⟩
    rw [heq]
    exact hcomplete
  rcases step_cases hstep with ⟨t, ph', hturn, hthreads⟩
  have hdone : s.shared.done = true → s'.shared.done = true :=
    fun htrue => hturn.done.elim (fun hsame => hsame.trans htrue) And.left
  refine { threads := ?_, counter := hturn.counter (h.threads t) h.counter, done := ?_ }
  · intro u
    rw [hthreads]
    by_cases hu : u = t
    · subst hu
      rw [Function.update_self]
      exact (h.threads u).turn h.done hturn
    · rw [Function.update_of_ne hu]
      exact (h.threads u).kept (hturn.kept (h.threads t) hu) hcomplete hdone
  · intro htrue
    rcases hturn.done with hsame | ⟨-, hle⟩
    · exact hcomplete (h.done (hsame ▸ htrue))
    · exact hle

/-- The protocol holds in every reachable state. -/
theorem protocol_reachable (hs : (searches D home opts).Reachable s) : Protocol home opts s := by
  apply hs.invariant (I := Protocol home opts)
  · rintro s rfl
    refine { threads := ?_, counter := ?_, done := nofun }
    · intro t
      exact ⟨fun _ => rfl, nofun, nofun, fun _ _ => rfl, trivial, nofun⟩
    · have hnone : (Shared.initial D home : Shared V n).posted = ∅ := by
        simp [Shared.posted, Shared.initial]
      show (0 : ℤ) = ((Shared.initial D home : Shared V n).posted.card : ℤ)
      rw [hnone]
      rfl
  · exact fun s s' _ h hstep => h.step hstep

omit [DecidableEq V] [Inhabited V] in
/-- When all completions are posted, nothing is left. -/
theorem Protocol.idle (h : Protocol home opts s) (hcomplete : (n : ℤ) ≤ s.shared.counter) (t : Fin n) :
    Idle s.shared t ∧ s.shared.q t = [] ∧ Resting s.shared (s.threads t) := by
  have hl := h.threads t
  rcases hl.completed (all_posted h.counter hcomplete t) with ⟨hidle, hresting⟩
  exact ⟨hidle, hl.queue hidle.q_empty, hresting⟩

omit [Inhabited V] in
/-- **Completion is detected only when nothing is left.**  Once the counter shows all completions, or a thread
has returned, and ever after: no state is open, buffered, in a queue or in the hands of a thread, and the closed
lists, the bound and the solution stay as they are. -/
theorem completion_sound {D : SearchDomain V} {s s' : State (Ref V) n}
    (hs : (prastar D home opts).Reachable s)
    (hend : (n : ℤ) ≤ s.shared.counter ∨ ∃ t, s.threads t = .finished)
    (hrun : (prastar D home opts).Steps s s') :
    (s'.shared.closed = s.shared.closed ∧ s'.shared.bound = s.shared.bound
        ∧ s'.shared.solution = s.shared.solution)
      ∧ ∀ t, Idle s'.shared t ∧ s'.shared.q t = [] ∧ Resting s'.shared (s'.threads t) := by
  have hcomplete : (n : ℤ) ≤ s.shared.counter := by
    rcases hend with hle | ⟨t, ht⟩
    · exact hle
    · have hprotocol := protocol_reachable hs
      have hduty := (hprotocol.threads t).duty
      rw [ht] at hduty
      exact hprotocol.done hduty
  have hlater : (n : ℤ) ≤ s'.shared.counter ∧ s'.shared.closed = s.shared.closed
      ∧ s'.shared.bound = s.shared.bound ∧ s'.shared.solution = s.shared.solution := by
    induction hrun with
    | refl => exact ⟨hcomplete, rfl, rfl, rfl⟩
    | @tail r s' hpre hlast ih =>
      rcases ih with ⟨hle, hclosed, hbound, hsolution⟩
      rcases (protocol_reachable (hs.steps hpre)).rest hle hlast with ⟨expansions, done, heq⟩
      rw [heq]
      exact ⟨hle, hclosed, hbound, hsolution⟩
  exact ⟨hlater.2, (protocol_reachable (hs.steps hrun)).idle hlater.1⟩

/-- Both threads return, after one of them has waited for the goal. -/
theorem completion_sound_triangle : ∃ s : State (Ref Corner) 2,
    (∀ t, s.threads t = .finished) ∧ ∀ t, Idle s.shared t ∧ s.shared.q t = [] ∧ Resting s.shared (s.threads t) := by
  let first : Fin 2 := (Fin.last 1).rev
  let second : Fin 2 := Fin.last 1
  rcases exists_run (triangle 20).objects (fun r => halves.project ((triangle 20).state r)) ⟨true, true, 0⟩
    (List.replicate 8 second ++ List.replicate 33 first ++ List.replicate 29 second ++ List.replicate 4 first)
    (fun s => ∀ t, s.threads t = .finished) (by decide +kernel) with ⟨s, hs, ht⟩
  exact ⟨s, ht, (completion_sound hs (Or.inr ⟨first, ht first⟩) (.refl s)).2⟩

end Runs

end PwsaStar.Pbnf.PRAStar
