/-
# PwsaStar.ParallelWhile.Sharing — no work is lost or duplicated when heaps are shared.

The searches call `parallel_while_pwsa` with heaps as frontiers: `size` counts the entries and
`fork` is `Heap::split`.  Both also keep the per-worker counter `steps_since_load_balancing`.  The
body stays arbitrary here: it may change its own frontier, its counter and what it shares.

A request stays in the word of the victim until the victim has answered it, and while the victim is
on its way from the answer to reopening its word the asker may already have posted its name
elsewhere.  So a name can stand in two words, but only one of them is a request that waits for an
answer (`Unanswered`).
-/
import PwsaStar.ParallelWhile.Protocol
import PwsaStar.Heap.Refine

namespace PwsaStar.ParallelWhile

open PwsaStar.Lib PwsaStar.Lib.Handshake PwsaStar.Heap

variable {W P V S B X : Type*} [LinearOrder P] [OrderTop P]

/-! ## The callbacks of the searches -/

/-- `size`; the counter is reset when the frontier is found empty. -/
def size (splitCutoff steps : ℤ) (frontier : ValidHeap P V) : SizeType × ℤ :=
  if frontier.size = 0 then (.empty, 0)
  else if (frontier.size : ℤ) > splitCutoff ∨ steps > splitCutoff ∧ frontier.size > 1 then
    (.split, steps)
  else (.keep, steps)

/-- `fork` -/
def fork (src dst : ValidHeap P V) : Option (ℤ × ValidHeap P V × ValidHeap P V) :=
  (src.split dst).map fun (src', dst') => (0, src', dst')

/-- `parallel_while_pwsa` with heaps as frontiers. -/
def heapClient (block : ℕ → KV P V) (splitCutoff : ℤ) (enter : B)
    (body : W → X → S → ℤ → ValidHeap P V → B → Option (S × ℤ × ValidHeap P V × (B ⊕ Bool))) :
    Client W (ValidHeap P V) S ℤ B X where
  fresh := ValidHeap.new block
  sizeInput := size splitCutoff
  forkInput _ := fork
  enter := enter
  body := body

theorem heapClient_lawful (block : ℕ → KV P V) (splitCutoff : ℤ) (enter : B)
    (body : W → X → S → ℤ → ValidHeap P V → B → Option (S × ℤ × ValidHeap P V × (B ⊕ Bool))) :
    (heapClient block splitCutoff enter body).Lawful ValidHeap.entries where
  fresh := ValidHeap.entries_new block
  size l f := by
    rw [ValidHeap.entries_eq_zero_iff]
    show (size splitCutoff l f).1 = .empty ↔ f.size = 0
    unfold size
    split_ifs <;> simp_all
  fork l f g hg := by
    obtain ⟨f', g', hrun, hent, -⟩ :=
      ValidHeap.split_empty f g ((ValidHeap.entries_eq_zero_iff g).mp hg)
    exact ⟨0, f', g', by simp [heapClient, fork, hrun], hent⟩

/-! ## What the protocol guarantees -/

section Safe

variable {F L : Type*} {E : Type*} [DecidableEq W]

/-- The request of `j` stands in the word of `k`, or `k` has just taken it out, and `k` has not
answered it. -/
def Unanswered (c : Config W F S L B) (k j : W) : Prop :=
  (c.requests k = .from j ∧ c.pc k ≠ .reopen) ∨ c.pc k = .blockReject j

/-- `j` is in the loop that polls `answers[j]`, for an answer of `k`. -/
def Polls (c : Config W F S L B) (j k : W) : Prop := c.pc j = .spinLoad k ∨ c.pc j = .spinDone k

/-- `j` has been told of a transfer and has not swapped in its mailbox yet. -/
def Collects (c : Config W F S L B) (j : W) : Prop :=
  c.answers j = .transferred ∧
    ((∃ k, Polls c j k) ∨ c.pc j = .recheck ∨ c.pc j = .swapMailbox)

variable [Fintype W]

/-- **What holds of every configuration of `parallel_while_pwsa`.** -/
structure Safe (K : Client W F S L B X) (leader : W) (entries : F → Multiset E)
    (c : Config W F S L B) : Prop where
  /-- Outside the body no step changes what there is to do. -/
  conserved : ∀ w a c', next K leader (w, a) c = some c' → (∀ b, c.pc w ≠ .work b) →
    total entries c' = total entries c
  /-- A step of the body changes it by what it does to its own frontier. -/
  body : ∀ w a c', next K leader (w, a) c = some c' → (∃ b, c.pc w = .work b) →
    total entries c' + entries (c.myFrontier w) = total entries c + entries (c'.myFrontier w)
  /-- At most one request of a worker waits for an answer. -/
  unique : ∀ k k' j, Unanswered c k j → Unanswered c k' j → k = k'
  /-- Another word with the same name in it belongs to a worker about to reopen it. -/
  stale : ∀ k k' j, c.requests k = .from j → c.requests k' = .from j → k ≠ k' →
    c.pc k = .reopen ∨ c.pc k' = .reopen
  /-- A worker posts only when all its requests are answered, and every answer answers a request
  that waits for it. -/
  alternate : ∀ j, ((∃ k, Unanswered c k j) → c.posted j = c.answered j + 1) ∧
    ((∀ k, ¬ Unanswered c k j) → c.posted j = c.answered j) ∧
    ∀ k, c.pc j = .postRequest k → c.posted j = c.answered j
  /-- What is in a mailbox was just split into it, or has been announced and not been collected, or
  stays there because its owner has returned. -/
  mailbox : ∀ j, entries (c.frontiers j) ≠ 0 →
    (∃ k, c.pc k = .transfer j ∧ Polls c j k) ∨ Collects c j ∨
      (c.pc j = .returned ∧ c.isDone = true)
  /-- A victim splits into an empty mailbox, alone, while its owner polls or has returned. -/
  exclusive : ∀ k j, c.pc k = .fork j → entries (c.frontiers j) = 0 ∧
    (Polls c j k ∧ c.answers j = .waiting ∨ c.pc j = .returned ∧ c.isDone = true) ∧
    ∀ k', c.pc k' = .fork j ∨ c.pc k' = .transfer j → k' = k

omit [Fintype W] [DecidableEq W]

theorem owes_view {entries : F → Multiset E} (c : Config W F S L B) (k j : W) :
    Owes (view entries c) k j ↔ Unanswered c k j := by
  simp only [Owes, Unanswered, view, ne_eq, Pc.role_clearing, Pc.role_declining]

theorem mailbox_cases {entries : F → Multiset E} {c : Config W F S L B} (I : Inv entries c) {j : W}
    (h : entries (c.frontiers j) ≠ 0) :
    (∃ k, c.pc k = .transfer j ∧ Polls c j k) ∨ Collects c j ∨
      (c.pc j = .returned ∧ c.isDone = true) := by
  rcases I.protocol.mail_cases (j := j) h with hg | ⟨k, hk, hj⟩ | ⟨ha, hr⟩
  · have hret := (Pc.role_gone _).mp hg
    exact Or.inr (Or.inr ⟨hret, I.returned j hret⟩)
  · exact Or.inl ⟨k, (Pc.role_delivering _ _).mp hk, (Pc.role_waiting _ _).mp hj⟩
  · refine Or.inr (Or.inl ⟨ha, ?_⟩)
    have hr : (c.pc j).role.awaitsMail := hr
    cases hpc : c.pc j <;> simp only [hpc, Pc.role, Role.awaitsMail] at hr
    case spinLoad k => exact Or.inl ⟨k, Or.inl hpc⟩
    case spinDone k => exact Or.inl ⟨k, Or.inr hpc⟩
    case recheck => exact Or.inr (Or.inl rfl)
    case swapMailbox => exact Or.inr (Or.inr rfl)

theorem fork_exclusive {entries : F → Multiset E} {c : Config W F S L B} (I : Inv entries c)
    {k j : W} (h : c.pc k = .fork j) :
    (Polls c j k ∧ c.answers j = .waiting ∨ c.pc j = .returned ∧ c.isDone = true) ∧
      ∀ k', c.pc k' = .fork j ∨ c.pc k' = .transfer j → k' = k := by
  have howes : Owes (view entries c) k j :=
    I.protocol.owes_of_handling (Or.inl (by simp [view, h, Pc.role]))
  refine ⟨?_, ?_⟩
  · rcases I.protocol.owed k j howes with ⟨hj, ha⟩ | hj
    · exact Or.inl ⟨(Pc.role_waiting _ _).mp hj, ha⟩
    · have hret := (Pc.role_gone _).mp hj
      exact Or.inr ⟨hret, I.returned j hret⟩
  · intro k' hk'
    refine I.protocol.single k' k j (I.protocol.owes_of_handling ?_) howes
    rcases hk' with hk' | hk' <;> simp [view, hk', Pc.role]

theorem total_body [DecidableEq W] [Fintype W] {entries : F → Multiset E} (c : Config W F S L B)
    (w : W) (l : L) (f : F) (sh : S) (p : Pc W B) :
    total entries (({ c.setMine w l f with shared := sh }).goto w p) + entries (c.myFrontier w) =
      total entries c + entries f := by
  have hmine := sum_update entries c.myFrontier w f
  simp only [total, Config.goto, Config.setMine]
  grind

end Safe

/-- **No work is lost or duplicated.**  For every number of workers, leader, cutoff and body, and in
every interleaving. -/
theorem sharing_safe [DecidableEq W] [Fintype W] (leader : W) (block : ℕ → KV P V) (splitCutoff : ℤ)
    (enter : B)
    (body : W → X → S → ℤ → ValidHeap P V → B → Option (S × ℤ × ValidHeap P V × (B ⊕ Bool)))
    (input : ValidHeap P V) (shared : S) (c : Config W (ValidHeap P V) S ℤ B)
    (hc : (system (heapClient block splitCutoff enter body) leader input 0 shared).Reachable c) :
    Safe (heapClient block splitCutoff enter body) leader ValidHeap.entries c := by
  have hK := heapClient_lawful (W := W) block splitCutoff enter body
  have I := reachable_inv hK hc
  refine ⟨?_, ?_, ?_, ?_, ?_, fun j => mailbox_cases I, fun k j h => ⟨I.fork_empty h, fork_exclusive I h⟩⟩
  · intro w a c' h hwork
    rcases next_cases h with h | ⟨j, -, -, rfl⟩ | ⟨x, b, s, l, f, r, -, hpc, -, -⟩
    · exact advance_total hK (fun j hj => I.fork_empty hj) h
    · rfl
    · exact absurd hpc (hwork b)
  · rintro w a c' h ⟨b, hb⟩
    rcases next_cases h with h | ⟨j, -, hpc, -⟩ | ⟨x, b, s, l, f, r, -, -, -, rfl⟩
    · simp [advance, hb] at h
    · rw [hb] at hpc
      cases hpc
    · rw [total_body]
      simp [Config.goto, Config.setMine]
  · intro k k' j hk hk'
    exact I.protocol.single k k' j ((owes_view c k j).mpr hk) ((owes_view c k' j).mpr hk')
  · intro k k' j hk hk' hne
    by_contra hstale
    rw [not_or] at hstale
    have howes := I.protocol.single k k' j ((owes_view c k j).mpr (Or.inl ⟨hk, hstale.1⟩))
      ((owes_view c k' j).mpr (Or.inl ⟨hk', hstale.2⟩))
    exact hne howes
  · intro j
    have hnone : (∀ k, ¬ Unanswered c k j) → c.posted j = c.answered j := fun h =>
      I.protocol.settled j fun k hk => h k ((owes_view c k j).mp hk)
    refine ⟨?_, hnone, ?_⟩
    · rintro ⟨k, hk⟩
      exact I.protocol.pending k j ((owes_view c k j).mpr hk)
    · intro k hk
      apply hnone
      intro k' hk'
      exact I.protocol.not_owed (w := j) (by simp [view, hk, Pc.role]) (by simp [view, hk, Pc.role]) k'
        ((owes_view c k' j).mpr hk')

/-! ## A name in two words

Three workers share two entries with `split_cutoff` 1 and a body that returns at once.  Worker 2
asks the leader and gets one entry.  Worker 1 asks the leader, which has one entry left, is rejected,
and asks worker 2 before the leader has reopened its word. -/

section TwoWords

/-- A body that returns at once. -/
def idleBody : Fin 3 → Unit → Unit → ℤ → ValidHeap Long ℕ → Unit →
    Option (Unit × ℤ × ValidHeap Long ℕ × (Unit ⊕ Bool)) :=
  fun _ _ s l f _ => some (s, l, f, .inr false)

def twoWordsClient : Client (Fin 3) (ValidHeap Long ℕ) Unit ℤ Unit Unit :=
  heapClient (fun _ => ⟨⊤, 0⟩) 1 () idleBody

def twoWordsInput : ValidHeap Long ℕ :=
  ((ValidHeap.new fun _ => ⟨⊤, 0⟩).insert ⟨1, by decide⟩ 1).insert ⟨2, by decide⟩ 2

def twoWordsStart : Config (Fin 3) (ValidHeap Long ℕ) Unit ℤ Unit :=
  start twoWordsClient 0 twoWordsInput 0 () fun _ => .waiting

def twoWordsSchedule : List (Fin 3 × Act (Fin 3) Unit) :=
  let go (w : Fin 3) (n : ℕ) : List (Fin 3 × Act (Fin 3) Unit) := List.replicate n (w, .step)
  -- worker 2 posts to the leader, which splits, answers, reopens and calls the body
  go 0 3 ++ go 2 6 ++ [(2, .pick 0)] ++ go 2 2 ++ go 0 4 ++ [(0, .choose ())] ++
  -- worker 2 collects and opens its word
  go 2 6 ++
  -- worker 1 posts to the leader and is rejected
  go 0 2 ++ go 1 6 ++ [(1, .pick 0)] ++ go 1 2 ++ go 0 2 ++
  -- worker 1 posts to worker 2
  go 1 4 ++ [(1, .pick 2)] ++ go 1 2

theorem exists_twoWords_run : ∃ c, (system twoWordsClient 0 twoWordsInput 0 ()).Reachable c ∧
    c.requests 0 = .from 1 ∧ c.requests 2 = .from 1 :=
  exists_reachable (system twoWordsClient 0 twoWordsInput 0 ()) (next twoWordsClient 0)
    (fun a _ _ h => ⟨a, h⟩) ⟨fun _ => .waiting, rfl⟩ twoWordsSchedule
    (fun c => c.requests 0 = .from 1 ∧ c.requests 2 = .from 1) (by decide +kernel)

/-- The name of worker 1 stands in the words of worker 0 and of worker 2. -/
theorem name_in_two_words : ∃ c, (system twoWordsClient 0 twoWordsInput 0 ()).Reachable c ∧
    c.requests 0 = .from 1 ∧ c.requests 2 = .from 1 := exists_twoWords_run

/-- In that configuration one of the two is stale. -/
theorem sharing_safe_twoWords : ∃ c, (system twoWordsClient 0 twoWordsInput 0 ()).Reachable c ∧
    c.requests 0 = .from 1 ∧ c.requests 2 = .from 1 ∧
    Safe twoWordsClient 0 ValidHeap.entries c := by
  obtain ⟨c, hc, h0, h2⟩ := exists_twoWords_run
  exact ⟨c, hc, h0, h2, sharing_safe 0 _ _ _ _ _ _ c hc⟩

end TwoWords

end PwsaStar.ParallelWhile
