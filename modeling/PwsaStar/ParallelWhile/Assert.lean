/-
# PwsaStar.ParallelWhile.Assert — the assertion `sz > 0` after the acquiring loop.

A worker comes to the assertion in three ways.  It has found its frontier non-empty; or it has been
told of a transfer, and then its mailbox holds what was split off for it (`Stocked`: whoever splits
has at least two entries); or the acquiring loop has ended because `is_done` was set.  In the third
case nothing has been transferred, the mailbox is empty and so is the frontier after the swap.

`unseen` are the runs in which nobody takes the third way.  The assertion holds in all of them, and
every worker that does take it runs into the assertion with an empty frontier.
-/
import PwsaStar.ParallelWhile.Sharing

namespace PwsaStar.ParallelWhile

open PwsaStar.Lib PwsaStar.Lib.Handshake PwsaStar.Heap

variable {W F S L B X E : Type*} [DecidableEq W] {K : Client W F S L B X} {leader : W}
  {entries : F → Multiset E} {c c' : Config W F S L B} {w : W}

/-- Worker `w` is about to find `is_done` set at the head of its acquiring loop. -/
def SeesDone (c : Config W F S L B) (w : W) : Prop := c.pc w = .acquireTest ∧ c.isDone = true

/-- The interleavings in which no acquiring loop ends because of `is_done`. -/
def unseen (K : Client W F S L B X) (leader : W) (input : F) (loc : L) (shared : S) :
    System (Config W F S L B) where
  init := (system K leader input loc shared).init
  step c c' := ∃ a, next K leader a c = some c' ∧ ¬ SeesDone c a.1

theorem unseen_reachable {input : F} {loc : L} {shared : S}
    (hc : (unseen K leader input loc shared).Reachable c) :
    (system K leader input loc shared).Reachable c := by
  apply hc.invariant (I := (system K leader input loc shared).Reachable)
  · exact fun c hinit => System.Reachable.of_init hinit
  · rintro c c' - hreach ⟨a, h, -⟩
    exact hreach.step ⟨a, h⟩

/-! ## What is in the mailboxes -/

/-- A frontier that `size_input` calls splittable fills the mailbox it is split into. -/
def Client.Divides (K : Client W F S L B X) (entries : F → Multiset E) : Prop :=
  ∀ l l' l'' f g f' g', (K.sizeInput l f).1 = .split → entries g = 0 →
    K.forkInput l' f g = some (l'', f', g') → entries g' ≠ 0

/-- **What a worker finds where it stands.** -/
def Stocked (K : Client W F S L B X) (entries : F → Multiset E) (c : Config W F S L B) (w : W) :
    Prop :=
  match c.pc w with
  | .spinLoad _ | .spinDone _ | .recheck => c.answers w = .transferred → entries (c.frontiers w) ≠ 0
  | .swapMailbox => entries (c.frontiers w) ≠ 0
  | .callSizeAgain => entries (c.myFrontier w) ≠ 0
  | .respondLoad sz => sz ≠ .empty ∧ ∃ l, (K.sizeInput l (c.myFrontier w)).1 = sz
  | .fork _ => ∃ l, (K.sizeInput l (c.myFrontier w)).1 = .split
  | .transfer j => entries (c.frontiers j) ≠ 0
  | _ => True

/-- A mailbox loses what it holds only to its owner. -/
theorem advance_mail (I : Inv entries c) (h : advance K leader w c = some c') {j : W}
    (hj : entries (c.frontiers j) ≠ 0) :
    entries (c'.frontiers j) ≠ 0 ∨ (j = w ∧ c.pc w = .swapMailbox) := by
  cases hpc : c.pc w <;> simp only [advance, hpc] at h
  case fork other =>
    obtain ⟨⟨l, src, dst⟩, -, rfl⟩ := Option.map_eq_some_iff.mp h
    have hne : j ≠ other := by
      rintro rfl
      exact hj (I.fork_empty hpc)
    exact Or.inl (by simpa [Config.goto, Config.setMine, hne] using hj)
  case swapMailbox =>
    cases h
    rcases eq_or_ne j w with rfl | hne
    · exact Or.inr ⟨rfl, rfl⟩
    · exact Or.inl (by simpa [Config.goto, hne] using hj)
  all_goals
    repeat' split at h
    all_goals cases h
    all_goals exact Or.inl hj

/-- A transfer is announced by the worker that made it. -/
theorem advance_answer (h : advance K leader w c = some c') {j : W}
    (hj : c'.answers j = .transferred) : c.answers j = .transferred ∨ c.pc w = .transfer j := by
  cases hpc : c.pc w <;> simp only [advance, hpc] at h
  case fork other =>
    obtain ⟨⟨l, src, dst⟩, -, rfl⟩ := Option.map_eq_some_iff.mp h
    exact Or.inl hj
  case resetAnswer =>
    cases h
    rcases eq_or_ne j w with rfl | hne
    · simp [Config.goto] at hj
    · exact Or.inl (by simpa [Config.goto, hne] using hj)
  case blockReject other | reject other =>
    cases h
    rcases eq_or_ne j other with rfl | hne
    · simp [Config.goto, Config.storeAnswer] at hj
    · exact Or.inl (by simpa [Config.goto, Config.storeAnswer, hne] using hj)
  case transfer other =>
    cases h
    rcases eq_or_ne j other with rfl | hne
    · exact Or.inr rfl
    · exact Or.inl (by simpa [Config.goto, Config.storeAnswer, hne] using hj)
  all_goals
    repeat' split at h
    all_goals cases h
    all_goals exact Or.inl hj

/-! ## Steps -/

/-- A control step of another worker leaves `v` with what it finds. -/
theorem Stocked.other (I : Inv entries c) (h : advance K leader w c = some c')
    (hw : Stocked K entries c w) {v : W} (hne : v ≠ w) (hv : Stocked K entries c v) :
    Stocked K entries c' v := by
  obtain ⟨hpc, hmine, -⟩ := (advance_frame h).2 v hne
  have hmail : ∀ j, entries (c.frontiers j) ≠ 0 → (j = w → c.pc w ≠ .swapMailbox) →
      entries (c'.frontiers j) ≠ 0 := by
    intro j hj hown
    rcases advance_mail I h hj with hj | ⟨rfl, hswap⟩
    · exact hj
    · exact absurd hswap (hown rfl)
  have hown : ∀ {p : Pc W B}, v = w → c.pc w ≠ p := fun heq => absurd heq hne
  simp only [Stocked] at hv hw ⊢
  rw [hpc, hmine]
  cases hp : c.pc v with
  | spinLoad | spinDone | recheck =>
    rw [hp] at hv
    intro ha
    rcases advance_answer h ha with ha | htransfer
    · exact hmail v (hv ha) hown
    · rw [htransfer] at hw
      exact hmail v hw hown
  | swapMailbox =>
    rw [hp] at hv
    exact hmail v hv hown
  | transfer j =>
    rw [hp] at hv
    apply hmail j hv
    -- the owner of the mailbox is polling or gone, so it does not swap
    rintro rfl hswap
    have howes : Owes (view entries c) v j :=
      I.protocol.owes_of_handling (Or.inr (by simp [view, hp, Pc.role]))
    rcases I.protocol.owed v j howes with ⟨hrole, -⟩ | hrole <;>
      simp [view, hswap, Pc.role] at hrole
  | callSizeAgain | respondLoad | fork =>
    rw [hp] at hv
    exact hv
  | _ => trivial

/-- A control step of `w` that does not leave the acquiring loop because of `is_done`. -/
theorem Stocked.own (hK : K.Lawful entries) (hdiv : K.Divides entries) (I : Inv entries c)
    (h : advance K leader w c = some c') (hunseen : ¬ SeesDone c w) (hw : Stocked K entries c w) :
    Stocked K entries c' w := by
  simp only [Stocked] at hw ⊢
  cases hpc : c.pc w <;> simp only [advance, hpc] at h <;> simp only [hpc] at hw
  case callSize =>
    by_cases hempty : (K.sizeInput (c.loc w) (c.myFrontier w)).1 = .empty
    · simp only [hempty, if_true] at h
      cases h
      simp [Config.goto]
    · simp only [hempty, if_false] at h
      cases h
      simp only [Config.goto, Config.setMine, Function.update_self]
      exact ⟨hempty, c.loc w, rfl⟩
  case acquireTest =>
    have hdone : c.isDone = false := by
      by_contra htrue
      exact hunseen ⟨hpc, by simpa using htrue⟩
    simp only [hdone] at h
    cases h
    simp [Config.goto]
  case postRequest other =>
    -- the answer word was reset before the request is posted
    have hreset : c.answers w = .waiting :=
      I.protocol.reset w (by simp [view, hpc, Pc.role])
    split at h <;> cases h <;> simp [Config.goto, Config.storeRequest, hreset]
  case spinLoad other =>
    split at h <;> cases h <;> simpa [Config.goto] using hw
  case spinDone other =>
    split at h <;> cases h
    · simp [Config.goto]
    · simpa [Config.goto] using hw
  case recheck =>
    split at h <;> cases h
    · simpa [Config.goto] using hw ‹_›
    · simp [Config.goto]
  case swapMailbox =>
    cases h
    simpa [Config.goto] using hw
  case callSizeAgain =>
    cases h
    simp only [Config.goto, Config.setMine, Function.update_self]
    exact ⟨fun hempty => hw ((hK.size _ _).mp hempty), c.loc w, rfl⟩
  case respondLoad sz =>
    obtain ⟨-, l, hsz⟩ := hw
    cases hreq : c.requests w <;> simp only [hreq] at h
    case «from» other =>
      by_cases hsplit : sz = .split
      · simp only [hsplit, if_true] at h
        cases h
        simpa [Config.goto] using ⟨l, hsz.trans hsplit⟩
      · simp only [hsplit, if_false] at h
        cases h
        simp [Config.goto]
    all_goals
      cases h
      simp [Config.goto]
  case fork other =>
    obtain ⟨⟨l', src, dst⟩, hfork, rfl⟩ := Option.map_eq_some_iff.mp h
    obtain ⟨l, hsz⟩ := hw
    simpa [Config.goto] using hdiv l _ l' _ _ src dst hsz (I.fork_empty hpc) hfork
  all_goals
    repeat' split at h
    all_goals cases h
    all_goals simp [Config.goto]

theorem stocked_next (hK : K.Lawful entries) (hdiv : K.Divides entries) (I : Inv entries c)
    {a : Act W X} (h : next K leader (w, a) c = some c') (hunseen : ¬ SeesDone c w)
    (hc : ∀ v, Stocked K entries c v) (v : W) : Stocked K entries c' v := by
  rcases next_cases h with h | ⟨j, -, hpc, rfl⟩ | ⟨x, b, s, l, f, r, -, hpc, -, rfl⟩
  · rcases eq_or_ne v w with rfl | hne
    · exact Stocked.own hK hdiv I h hunseen (hc v)
    · exact Stocked.other I h (hc w) hne (hc v)
  · rcases eq_or_ne v w with rfl | hne
    · simp [Stocked, Config.goto]
    · simpa [Stocked, Config.goto, hne] using hc v
  · rcases eq_or_ne v w with rfl | hne
    · rcases r with b | (_ | _) <;> simp [Stocked, Config.goto, afterBody]
    · simpa [Stocked, Config.goto, Config.setMine, hne] using hc v

/-! ## Runs -/

section

variable {input : F} {loc : L} {shared : S}

theorem reachable_stocked (hK : K.Lawful entries) (hdiv : K.Divides entries)
    (hc : (unseen K leader input loc shared).Reachable c) (v : W) : Stocked K entries c v := by
  refine hc.invariant (I := fun c => ∀ v, Stocked K entries c v) ?_ ?_ v
  · rintro _ ⟨answers, rfl⟩ v
    trivial
  · rintro c c' hreach hstocked ⟨⟨w, a⟩, h, hunseen⟩ v
    exact stocked_next hK hdiv (reachable_inv hK (unseen_reachable hreach)) h hunseen hstocked v

/-- A worker that finds `is_done` set in its acquiring loop comes to the assertion with nothing. -/
theorem assert_empty_of_seesDone (leader : W) (input : F) (loc : L) (shared : S)
    (hK : K.Lawful entries) (I : Inv entries c) (hsees : SeesDone c w) :
    ∃ c', (system K leader input loc shared).Steps c c' ∧
      c'.pc w = .respondLoad .empty ∧ entries (c'.myFrontier w) = 0 := by
  obtain ⟨hpc, hdone⟩ := hsees
  -- nothing is under way to a worker that has not asked
  have hmail : entries (c.frontiers w) = 0 := by
    have hno := I.protocol.no_mail (w := w) (by simp [view, hpc, Pc.role, Role.awaitsMail])
      (by simp [view, hpc, Pc.role])
    simpa [view] using hno
  have hsize : (K.sizeInput (c.loc w) (c.frontiers w)).1 = .empty := (hK.size _ _).mpr hmail
  have hrun : ∃ c', runSchedule (next K leader) (List.replicate 3 (w, Act.step)) c = some c' ∧
      c'.pc w = .respondLoad .empty ∧ entries (c'.myFrontier w) = 0 := by
    simp [runSchedule, next, advance, hpc, hdone, Config.goto, Config.setMine, hsize, hmail]
  obtain ⟨c', hc', hassert⟩ := hrun
  refine ⟨c', steps_of_runSchedule ?_ hc', hassert⟩
  intro a s t h
  exact ⟨a, h⟩

end

/-! ## Heaps as frontiers -/

section

variable {P V : Type*} [LinearOrder P] [OrderTop P]

omit [DecidableEq W] in
/-- With `split_cutoff` at least 1 only heaps with two entries or more are split. -/
theorem heapClient_divides (block : ℕ → KV P V) {splitCutoff : ℤ} (hcutoff : 1 ≤ splitCutoff)
    (enter : B)
    (body : W → X → S → ℤ → ValidHeap P V → B → Option (S × ℤ × ValidHeap P V × (B ⊕ Bool))) :
    (heapClient block splitCutoff enter body).Divides ValidHeap.entries := by
  intro l l' l'' f g f' g' hsplit hempty hfork
  have hlarge : 2 ≤ f.size := by
    simp only [heapClient, size] at hsplit
    split_ifs at hsplit with h₁ h₂
    rcases h₂ with h₂ | h₂ <;> omega
  obtain ⟨src, dst, hrun, -, -, hpos⟩ :=
    ValidHeap.split_empty f g ((ValidHeap.entries_eq_zero_iff g).mp hempty)
  have heq : some (0, src, dst) = some (l'', f', g') := by
    simpa [heapClient, fork, hrun] using hfork
  cases heq
  rw [ne_eq, ValidHeap.entries_eq_zero_iff]
  exact (hpos hlarge).ne'

/-- **When the assertion holds.**  For every number of workers, leader, cutoff of at least 1 and
body: it holds in every run in which no acquiring loop ends because of `is_done`, and a worker whose
acquiring loop does end so comes to it with an empty frontier. -/
theorem assert_iff_unseen (leader : W) (block : ℕ → KV P V) (splitCutoff : ℤ)
    (hcutoff : 1 ≤ splitCutoff) (enter : B)
    (body : W → X → S → ℤ → ValidHeap P V → B → Option (S × ℤ × ValidHeap P V × (B ⊕ Bool)))
    (input : ValidHeap P V) (shared : S) :
    (∀ c, (unseen (heapClient block splitCutoff enter body) leader input 0 shared).Reachable c →
      ∀ w sz, c.pc w = .respondLoad sz → sz ≠ .empty ∧ (c.myFrontier w).size ≠ 0) ∧
    ∀ c, (system (heapClient block splitCutoff enter body) leader input 0 shared).Reachable c →
      ∀ w, SeesDone c w →
        ∃ c', (system (heapClient block splitCutoff enter body) leader input 0 shared).Steps c c' ∧
          c'.pc w = .respondLoad .empty ∧ (c'.myFrontier w).size = 0 := by
  have hK := heapClient_lawful (W := W) block splitCutoff enter body
  refine ⟨?_, ?_⟩
  · intro c hc w sz hpc
    have hstocked := reachable_stocked hK (heapClient_divides block hcutoff enter body) hc w
    simp only [Stocked, hpc] at hstocked
    obtain ⟨hne, l, hsz⟩ := hstocked
    refine ⟨hne, ?_⟩
    rw [ne_eq, ← ValidHeap.entries_eq_zero_iff, ← hK.size l, hsz]
    exact hne
  · intro c hc w hsees
    obtain ⟨c', hsteps, hpc, hmine⟩ :=
      assert_empty_of_seesDone leader input 0 shared hK (reachable_inv hK hc) hsees
    exact ⟨c', hsteps, hpc, (ValidHeap.entries_eq_zero_iff _).mp hmine⟩

end

/-! ## A search that is over at once

The leader has one entry, which is the destination.  Worker 1 has blocked its word and is about to
look for a victim when the leader sets `is_done`. -/

/-- A body that finds the destination. -/
def foundBody : Fin 3 → Unit → Unit → ℤ → ValidHeap Long ℕ → Unit →
    Option (Unit × ℤ × ValidHeap Long ℕ × (Unit ⊕ Bool)) :=
  fun _ _ s l f _ => some (s, l, f, .inr true)

def foundClient : Client (Fin 3) (ValidHeap Long ℕ) Unit ℤ Unit Unit :=
  heapClient (fun _ => ⟨⊤, 0⟩) 1 () foundBody

def foundInput : ValidHeap Long ℕ := (ValidHeap.new fun _ => ⟨⊤, 0⟩).insert ⟨0, by decide⟩ 1

theorem exists_found_run (schedule : List (Fin 3 × Act (Fin 3) Unit))
    (P : Config (Fin 3) (ValidHeap Long ℕ) Unit ℤ Unit → Prop) [DecidablePred P]
    (h : (runSchedule (next foundClient 0) schedule
      (start foundClient 0 foundInput 0 () fun _ => .waiting)).any (fun c => decide (P c)) = true) :
    ∃ c, (system foundClient 0 foundInput 0 ()).Reachable c ∧ P c :=
  exists_reachable (system foundClient 0 foundInput 0 ()) _ (fun a _ _ ha => ⟨a, ha⟩) ⟨_, rfl⟩ schedule P h

/-- Worker 1 sees the flag and comes to the assertion with `sz` equal to 0. -/
theorem assert_fails : ∃ c, (system foundClient 0 foundInput 0 ()).Reachable c ∧
    c.pc 1 = .respondLoad .empty ∧ (c.myFrontier 1).size = 0 :=
  exists_found_run (List.replicate 4 (1, .step) ++ List.replicate 4 (0, .step) ++
      [(0, .choose ()), (0, .step)] ++ List.replicate 3 (1, .step))
    (fun c => c.pc 1 = .respondLoad .empty ∧ (c.myFrontier 1).size = 0) (by decide +kernel)

/-- Three workers share two entries and nobody sets the flag: worker 2 asks the leader, which splits,
and comes to the assertion with one entry. -/
theorem exists_shared_run : ∃ c, (unseen twoWordsClient 0 twoWordsInput 0 ()).Reachable c ∧
    c.pc 2 = .respondLoad .keep := by
  have hinit : (unseen twoWordsClient 0 twoWordsInput 0 ()).init twoWordsStart :=
    ⟨fun _ => .waiting, rfl⟩
  refine exists_reachable (unseen twoWordsClient 0 twoWordsInput 0 ())
    (fun a c => if c.pc a.1 = .acquireTest ∧ c.isDone = true then none else next twoWordsClient 0 a c)
    ?_ hinit
    (List.replicate 3 (0, .step) ++ List.replicate 6 (2, .step) ++ [(2, .pick 0)] ++
      List.replicate 2 (2, .step) ++ List.replicate 4 (0, .step) ++ List.replicate 4 (2, .step))
    (fun c => c.pc 2 = .respondLoad .keep) (by decide +kernel)
  intro a c c' h
  by_cases hsees : c.pc a.1 = .acquireTest ∧ c.isDone = true
  · rw [if_pos hsees] at h
    cases h
  · rw [if_neg hsees] at h
    exact ⟨a, h, hsees⟩

/-- Both halves at work: the worker that got an entry from the leader passes the assertion, and in the
search that is over at once nothing that worker 1 does keeps it away from running into it. -/
theorem assert_iff_unseen_found :
    (∃ c, (unseen twoWordsClient 0 twoWordsInput 0 ()).Reachable c ∧ c.pc 2 = .respondLoad .keep ∧
      (c.myFrontier 2).size ≠ 0) ∧
    ∃ c c', (system foundClient 0 foundInput 0 ()).Reachable c ∧
      SeesDone c 1 ∧ (system foundClient 0 foundInput 0 ()).Steps c c' ∧
      c'.pc 1 = .respondLoad .empty := by
  constructor
  · obtain ⟨c, hc, hpc⟩ := exists_shared_run
    have hpass :=
      (assert_iff_unseen 0 (fun _ => ⟨⊤, 0⟩) 1 le_rfl () idleBody twoWordsInput ()).1 c hc 2 .keep hpc
    exact ⟨c, hc, hpc, hpass.2⟩
  · obtain ⟨c, hreach, hflag⟩ := exists_found_run
      (List.replicate 4 (1, .step) ++ List.replicate 4 (0, .step) ++ [(0, .choose ()), (0, .step)])
      (fun c => c.pc 1 = .acquireTest ∧ c.isDone = true) (by decide +kernel)
    obtain ⟨c', hsteps, hpc, -⟩ :=
      (assert_iff_unseen 0 (fun _ => ⟨⊤, 0⟩) 1 le_rfl () foundBody foundInput ()).2 c hreach 1 hflag
    exact ⟨c, c', hreach, hflag, hsteps, hpc⟩

end PwsaStar.ParallelWhile
