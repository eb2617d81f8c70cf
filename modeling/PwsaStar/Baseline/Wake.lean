/-
# PwsaStar.Baseline.Wake — what the return of `pthread_cond_wait` decides.

After it the main thread keeps the mutex until all workers are joined.  If all workers have left the
loop by then, they have exited and nothing can go wrong.  If one has not, the main thread comes to join
it, and without the mutex the worker cannot go further than its next lock.

A signal says that no worker is in the loop.  It does not say that all of them have been there: `ids`
is zero again when those that have started are through.
-/
import PwsaStar.Baseline.Threads

namespace PwsaStar.Baseline

open PwsaStar.Lib

variable {n : ℕ} {S B : Type*} {K : Body S B} {locked : B → Prop} {rank : B → ℕ} {memory : S}
  {c c' : Config n S B}

/-! ## Timely runs -/

/-- The main thread has come back from `pthread_cond_wait`. -/
def MainPc.Woken : MainPc → Prop
  | .join _ | .release | .done => True
  | _ => False

/-- A worker that has left the loop and does not hold the mutex has exited. -/
theorem Pc.Left.exited {p : Pc B} (h : p.Left) (locked : B → Prop) (hfree : ¬ p.Holds locked) :
    p = .exited := by
  cases p <;> first | rfl | exact absurd trivial hfree | exact h.elim

/-- When all workers have exited, only the main thread makes steps, and they stay where they are. -/
theorem exited_next {a : Act n} (hc : ∀ w, c.pc w = .exited) (hmain : c.main.Woken)
    (h : next K a c = some c') : (∀ w, c'.pc w = .exited) ∧ c'.main.Woken := by
  cases a with
  | main =>
    simp only [next, mainStep] at h
    cases hpc : c.main with
    | join i =>
      rw [hpc] at h
      simp only at h
      split at h
      · split at h
        · obtain rfl := Option.some.inj h
          exact ⟨hc, trivial⟩
        · cases h
      · obtain rfl := Option.some.inj h
        exact ⟨hc, trivial⟩
    | release =>
      rw [hpc] at h
      obtain rfl := Option.some.inj h
      exact ⟨hc, trivial⟩
    | done =>
      rw [hpc] at h
      cases h
    | _ =>
      rw [hpc] at hmain
      exact hmain.elim
  | spurious =>
    simp only [next] at h
    split at h
    · rename_i hsleep
      rw [hsleep] at hmain
      exact hmain.elim
    · cases h
  | worker w =>
    simp only [next, workerStep, hc w] at h
    cases h

/-- No worker that has exited wants the mutex. -/
theorem not_deadlocked_of_exited (hc : ∀ w, c.pc w = .exited) : ¬ Deadlocked K c := by
  rintro ⟨-, w, -, h | ⟨_, _, _, h, -⟩⟩
  · rw [hc w] at h
    cases h
  · rw [hc w] at h
    cases h

/-- A worker does nothing to the main thread but wake it. -/
theorem workerStep_main {w : Fin n} (h : workerStep K w c = some c') :
    c'.main = c.main ∨ c'.main = .awake true := by
  unfold workerStep at h
  cases hpc : c.pc w with
  | body threadId b =>
    rw [hpc] at h
    simp only [applyMove] at h
    split at h
    · exact Or.inl (by rw [← Option.some.inj h]; rfl)
    · exact Or.inl (by rw [← Option.some.inj h]; rfl)
    · split at h
      · exact Or.inl (by rw [← Option.some.inj h]; rfl)
      · cases h
    · exact Or.inl (by rw [← Option.some.inj h]; rfl)
    · exact Or.inl (by rw [← Option.some.inj h]; rfl)
  | acquire =>
    rw [hpc] at h
    simp only at h
    split at h
    · exact Or.inl (by rw [← Option.some.inj h]; rfl)
    · cases h
  | check =>
    rw [hpc] at h
    obtain rfl := Option.some.inj h
    show (if c.ids = 0 ∧ c.main = MainPc.sleeping then MainPc.awake true else c.main) = c.main ∨ _
    split
    · exact Or.inr rfl
    · exact Or.inl rfl
  | number | test _ | countDown | release =>
    rw [hpc] at h
    exact Or.inl (by rw [← Option.some.inj h]; rfl)
  | uncreated | exited =>
    rw [hpc] at h
    cases h

/-- The main thread comes back from `pthread_cond_wait` in a step of its own. -/
theorem woken_next {a : Act n} (h : next K a c = some c') (hmain : ¬ c.main.Woken)
    (hmain' : c'.main.Woken) : a = .main ∧ c.mutex = none ∧ (∃ signalled, c.main = .awake signalled) ∧
      c' = { c with mutex := some .main, main := .join 0 } := by
  cases a with
  | main =>
    simp only [next, mainStep] at h
    cases hpc : c.main with
    | awake signalled =>
      rw [hpc] at h
      simp only at h
      split at h
      · exact ⟨rfl, ‹_›, ⟨signalled, rfl⟩, (Option.some.inj h).symm⟩
      · cases h
    | acquire =>
      rw [hpc] at h
      simp only at h
      split at h
      · rw [← Option.some.inj h] at hmain'
        exact hmain'.elim
      · cases h
    | create i =>
      rw [hpc] at h
      simp only at h
      split at h
      · rw [← Option.some.inj h] at hmain'
        exact hmain'.elim
      · rw [← Option.some.inj h] at hmain'
        exact hmain'.elim
    | wait =>
      rw [hpc] at h
      rw [← Option.some.inj h] at hmain'
      exact hmain'.elim
    | sleeping =>
      rw [hpc] at h
      cases h
    | join _ | release | done =>
      rw [hpc] at hmain
      exact absurd trivial hmain
  | spurious =>
    simp only [next] at h
    split at h
    · rw [← Option.some.inj h] at hmain'
      exact hmain'.elim
    · cases h
  | worker w =>
    rcases workerStep_main h with heq | heq
    · rw [heq] at hmain'
      exact absurd hmain' hmain
    · rw [heq] at hmain'
      exact hmain'.elim

/-- **In a timely run the main thread comes back when all workers have exited.** -/
theorem timely_exited (hK : K.Lawful locked rank) (h : (timelySystem n K memory).Reachable c) :
    c.main.Woken → ∀ w, c.pc w = .exited := by
  apply h.invariant (I := fun c => c.main.Woken → ∀ w, c.pc w = .exited)
  · rintro c rfl hwoken
    exact hwoken.elim
  · rintro c c' hc hquiet ⟨a, htimely, ha⟩ hwoken
    by_cases hold : c.main.Woken
    · exact (exited_next (hquiet hold) hold ha).1
    · obtain ⟨rfl, hfree, ⟨signalled, hawake⟩, rfl⟩ := woken_next ha hold hwoken
      intro w
      apply (htimely signalled hawake w).exited locked
      intro hholds
      rw [← (reachable_inv hK (reachable_of_timely hc)).worker w, hfree] at hholds
      cases hholds

theorem Deadlocked.woken (h : Deadlocked K c) : c.main.Woken := by
  obtain ⟨-, w, hw, -⟩ := h
  rw [hw]
  trivial

/-- **A timely run does not deadlock.** -/
theorem timely_not_deadlocked (hK : K.Lawful locked rank)
    (h : (timelySystem n K memory).Reachable c) : ¬ Deadlocked K c :=
  fun hdead => not_deadlocked_of_exited (timely_exited hK h hdead.woken) hdead

/-! ## Waking up too early -/

/-- The main thread joins the workers that have exited. -/
theorem join_steps (hmain : c.main = .join 0) {k : ℕ} (hk : k ≤ n)
    (hexited : ∀ w : Fin n, w.val < k → c.pc w = .exited) :
    (system n K memory).Steps c { c with main := .join k } := by
  induction k with
  | zero =>
    rw [← hmain]
    exact System.Steps.refl c
  | succ k ih =>
    refine (ih (Nat.le_of_succ_le hk) fun w hw => hexited w (Nat.lt_succ_of_lt hw)).tail ⟨.main, ?_⟩
    simp only [next, mainStep, dif_pos (Nat.lt_of_succ_le hk), hexited ⟨k, hk⟩ (Nat.lt_succ_self k)]

/-- Without the mutex a worker comes to a lock, whoever holds the mutex. -/
theorem steps_wantsMutex (hK : K.Lawful locked rank) (memory : S) {w : Fin n} {threadId : ℕ} :
    ∀ (b : B) (c : Config n S B), c.pc w = .body threadId b → ¬ locked b →
      ∃ c', (system n K memory).Steps c c' ∧ c'.mutex = c.mutex ∧ c'.main = c.main ∧
        WantsMutex K c' w := by
  intro b
  induction hrank : rank b using Nat.strong_induction_on generalizing b with
  | _ r ih =>
    intro c hpc hfree
    have hallowed := hK.move threadId c.searchDone c.memory b
    cases hmove : K.move threadId c.searchDone c.memory b with
    | lock b' => exact ⟨c, System.Steps.refl c, rfl, rfl, Or.inr ⟨threadId, b, b', hpc, hmove⟩⟩
    | go s' b' =>
      rw [hmove] at hallowed
      obtain ⟨hiff, hlt⟩ := hallowed
      have hstep : (system n K memory).step c ({ c with memory := s' }.goto w (.body threadId b')) := by
        refine ⟨.worker w, ?_⟩
        simp only [next, workerStep, hpc, hmove, applyMove]
      obtain ⟨c', hsteps, hmutex, hmain, hwants⟩ :=
        ih (rank b') (hrank ▸ hlt hfree) b' rfl ({ c with memory := s' }.goto w (.body threadId b'))
          (by simp [Config.goto]) fun h => hfree (hiff.mp h)
      exact ⟨c', System.Steps.head hstep hsteps, hmutex, hmain, hwants⟩
    | unlock | leave =>
      rw [hmove] at hallowed
      exact absurd hallowed.1 hfree
    | again =>
      rw [hmove] at hallowed
      exact absurd hallowed hfree

/-- A worker that is there and neither holds the mutex nor has exited wants the mutex or is on its way
to a lock. -/
theorem Pc.acquire_or_body {p : Pc B} (hcreated : p ≠ .uncreated) (hfree : ¬ p.Holds locked)
    (hexited : p ≠ .exited) : p = .acquire ∨ ∃ threadId b, p = .body threadId b ∧ ¬ locked b := by
  cases p with
  | uncreated => exact absurd rfl hcreated
  | acquire => exact Or.inl rfl
  | body threadId b => exact Or.inr ⟨threadId, b, rfl, hfree⟩
  | exited => exact absurd rfl hexited
  | _ => exact absurd trivial hfree

/-- **The main thread joins a worker that has not exited.** -/
theorem exists_deadlock (hK : K.Lawful locked rank) (I : Inv locked c) (hmain : c.main = .join 0)
    (hleft : ∃ w, c.pc w ≠ .exited) :
    ∃ c', (system n K memory).Steps c c' ∧ Deadlocked K c' := by
  classical
  have hmutex : c.mutex = some .main := I.main.mpr (by rw [hmain]; trivial)
  -- the first worker that has not exited
  have hex : ∃ i, ∃ h : i < n, c.pc ⟨i, h⟩ ≠ .exited := by
    obtain ⟨w, hw⟩ := hleft
    exact ⟨w, w.isLt, hw⟩
  obtain ⟨hi, hnot⟩ := Nat.find_spec hex
  have hbefore : ∀ w : Fin n, w.val < Nat.find hex → c.pc w = .exited := by
    intro w hw
    by_contra hne
    exact Nat.find_min hex hw ⟨w.isLt, hne⟩
  have hjoin : (system n K memory).Steps c { c with main := .join (Nat.find hex) } :=
    join_steps hmain hi.le hbefore
  have hfree : ¬ (c.pc ⟨Nat.find hex, hi⟩).Holds locked := by
    rw [← I.worker, hmutex]
    simp
  have hcreated : c.pc ⟨Nat.find hex, hi⟩ ≠ .uncreated :=
    (I.created _).mpr (by rw [hmain]; trivial)
  rcases Pc.acquire_or_body hcreated hfree hnot with hacq | ⟨threadId, b, hbody, hb⟩
  · exact ⟨_, hjoin, hmutex, ⟨Nat.find hex, hi⟩, rfl, Or.inl hacq⟩
  · obtain ⟨c', hsteps, hmutex', hmain', hwants⟩ :=
      steps_wantsMutex hK memory b { c with main := .join (Nat.find hex) } hbody hb
    exact ⟨c', hjoin.trans hsteps, hmutex'.trans hmutex, ⟨Nat.find hex, hi⟩, hmain', hwants⟩

/-- What the threads do after all workers have exited does not deadlock. -/
theorem not_deadlocked_of_steps (hc : ∀ w, c.pc w = .exited) (hmain : c.main.Woken)
    (h : (system n K memory).Steps c c') : ¬ Deadlocked K c' := by
  have hquiet : (∀ w, c'.pc w = .exited) ∧ c'.main.Woken := by
    induction h with
    | refl => exact ⟨hc, hmain⟩
    | tail _ hstep ih =>
      obtain ⟨a, ha⟩ := hstep
      exact exited_next ih.1 ih.2 ha
  exact not_deadlocked_of_exited hquiet.1

/-- **The return of `pthread_cond_wait` decides**: the threads can deadlock after it if and only if it
was not timely. -/
theorem deadlock_iff (hK : K.Lawful locked rank) (h : (system n K memory).Reachable c)
    {signalled : Bool} (hmain : c.main = .awake signalled) (hstep : next K .main c = some c') :
    (∃ d, (system n K memory).Steps c' d ∧ Deadlocked K d) ↔ ¬ Timely c .main := by
  have hI := reachable_inv hK h
  have hI' := hI.next hK hstep
  have hwoken : ¬ c.main.Woken := by
    rw [hmain]
    exact id
  have hmain' : c'.main = .join 0 := by
    simp only [next, mainStep, hmain] at hstep
    split at hstep
    · rw [← Option.some.inj hstep]
    · cases hstep
  obtain ⟨-, hfree, -, rfl⟩ := woken_next hstep hwoken (by rw [hmain']; trivial)
  constructor
  · rintro ⟨d, hsteps, hdead⟩ htimely
    refine not_deadlocked_of_steps (fun w => ?_) (by trivial) hsteps hdead
    apply (htimely signalled hmain w).exited locked
    intro hholds
    rw [← hI.worker w, hfree] at hholds
    cases hholds
  · intro hlate
    apply exists_deadlock hK hI' rfl
    by_contra hall
    push Not at hall
    apply hlate
    intro _ _ w
    rw [show c.pc w = .exited from hall w]
    trivial

/-- **A return after the signal** is timely if and only if every worker has locked the mutex once. -/
theorem timely_iff_of_signalled (hK : K.Lawful locked rank) (h : (system n K memory).Reachable c)
    (hmain : c.main = .awake true) (hfree : c.mutex = none) :
    Timely c .main ↔ ∀ w, c.pc w ≠ .acquire := by
  have hI := reachable_inv hK h
  constructor
  · intro htimely w hacq
    have hleft := htimely true hmain w
    rw [hacq] at hleft
    exact hleft
  · intro hstarted _ _ w
    have hcreated : c.pc w ≠ .uncreated := (hI.created w).mpr (by rw [hmain]; trivial)
    have hholds : ¬ (c.pc w).Holds locked := by
      rw [← hI.worker w, hfree]
      simp
    by_cases hexited : c.pc w = .exited
    · rw [hexited]
      trivial
    · rcases Pc.acquire_or_body hcreated hholds hexited with hacq | ⟨threadId, b, hbody, -⟩
      · exact absurd hacq (hstarted w)
      · exact absurd (by rw [hbody]; trivial) ((hI.signalled hmain).2.1 w)

/-- **With one worker** a return after the signal is timely. -/
theorem timely_single {c : Config 1 S B} (hK : K.Lawful locked rank)
    (h : (system 1 K memory).Reachable c) (hmain : c.main = .awake true) : Timely c .main := by
  intro _ _ w
  obtain ⟨-, -, v, hv⟩ := (reachable_inv hK h).signalled hmain
  rw [Subsingleton.elim w v]
  rcases hv with hv | hv
  · rw [hv]
    trivial
  · rw [hv]
    trivial

end PwsaStar.Baseline
