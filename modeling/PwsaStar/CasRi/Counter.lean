/-
# PwsaStar.CasRi.Counter — what the distributed counter counts, and when its sum can be trusted.

Every worker with work at hand, and every mailbox with work in it, is worth one, and so is a transfer
that was counted and not made yet (`Pc.tokens`, `full`); `count_reachable` says that the cells add up
to the number of these, with the sign changed, as long as `is_done` is not set.  The leader reads the
cells one after the other.  A transfer that falls between two of its reads can be missed, and then the
loop ends with work left; without one it ends with none.
-/
import PwsaStar.CasRi.Protocol
import Mathlib.Algebra.BigOperators.Fin
import Mathlib.Algebra.Order.BigOperators.Group.Finset
import Mathlib.Tactic.Ring

namespace PwsaStar.CasRi

open PwsaStar.Lib PwsaStar.Lib.Handshake

variable {n : ℕ} {F S L B X E : Type*}

/-- 1 if there is anything in `f`. -/
def full (entries : F → Multiset E) (f : F) : ℤ := if (entries f).card = 0 then 0 else 1

/-- What a worker with the frontier `f` is worth. -/
def Pc.tokens (entries : F → Multiset E) (f : F) : Pc n B → ℤ
  | .swapInput | .loopTest | .callSize | .runDry | .work _ | .respondLoad | .respondSize _ | .countTransfer _
  | .answerStore _ | .reopen | .unblock => 1
  | .fork _ => 2
  | .callSizeAgain => full entries f
  | _ => 0

/-- A worker and its mailbox, with its cell of the counter. -/
def share (entries : F → Multiset E) (c : Config n F S L B) (v : Fin n) : ℤ :=
  c.counter v + (c.pc v).tokens entries (c.my_frontier v) + full entries (c.frontier v)

variable {K : Client (Fin n) F S L B X} {leader : Fin n} {entries : F → Multiset E}

theorem full_of_empty {f : F} (h : entries f = 0) : full entries f = 0 := by simp [full, h]

theorem full_of_ne {f : F} (h : entries f ≠ 0) : full entries f = 1 := by simp [full, h]

theorem full_nonneg (f : F) : 0 ≤ full entries f := by
  unfold full
  split <;> decide

theorem tokens_nonneg (f : F) (p : Pc n B) : 0 ≤ p.tokens entries f := by
  cases p <;> simp [Pc.tokens, full_nonneg]

/-- A worker that is worth nothing has nothing, unless it has returned. -/
theorem idle_of_tokens {f : F} {p : Pc n B} (h : p.tokens entries f = 0) :
    p.idle ∨ p = .returned ∨ p = .callSizeAgain ∧ entries f = 0 := by
  cases p <;> simp_all [Pc.tokens, Pc.idle, full]

theorem afterBody_tokens (f : F) (r : Option B) : (afterBody r : Pc n B).tokens entries f = 1 := by
  cases r <;> rfl

/-! ## The cells add up -/

/-- **A control step keeps every share**, apart from a fork and from leaving. -/
theorem share_advance (hK : K.Lawful entries) {w : Fin n} {c c' : Config n F S L B}
    (I : Inv K leader entries c) (hdone : c.is_done = false) (hfork : ∀ j, c.pc w ≠ .fork j)
    (h : advance K leader w c = some c') (v : Fin n) : share entries c' v = share entries c v := by
  have hidle := I.idle w
  have hsize := hK.size (c.loc w) (c.my_frontier w)
  cases hpc : c.pc w <;> rw [hpc] at hidle <;> simp only [advance, hpc] at h
  case fork j => exact absurd hpc (hfork j)
  case swapMailbox =>
    cases h
    have hempty := full_of_empty (hidle trivial)
    rcases eq_or_ne v w with rfl | hne
    · simp [share, Config.goto, Pc.tokens, hpc, hempty]
    · simp [share, Config.goto, hne]
  case callSizeAgain =>
    cases h
    rcases eq_or_ne v w with rfl | hne
    · by_cases hempty : entries (c.my_frontier v) = 0
      · rw [if_neg (Nat.not_lt.mpr (hsize.mpr hempty).le)]
        simp [share, Config.goto, Config.setMine, Pc.tokens, hpc, full_of_empty hempty]
      · rw [if_pos (Nat.pos_of_ne_zero (mt hsize.mp hempty))]
        simp [share, Config.goto, Config.setMine, Pc.tokens, hpc, full_of_ne hempty]
    · simp [share, Config.goto, Config.setMine, hne]
  case loopTest =>
    cases h
    rcases eq_or_ne v w with rfl | hne
    · simp [share, Config.goto, Pc.tokens, hpc, hdone]
    · simp [share, Config.goto, hne]
  case countTransfer j =>
    cases h
    rcases eq_or_ne v w with rfl | hne
    · simp only [share, Config.goto, Config.delta, Function.update_self, Pc.tokens, hpc]
      ring
    · simp [share, Config.goto, Config.delta, hne]
  all_goals
    repeat' split at h
    all_goals cases h
    all_goals
      rcases eq_or_ne v w with rfl | hne
      · simp [share, Config.goto, Config.setMine, Config.storeRequest, Config.storeAnswer, Config.delta,
          Pc.tokens, hpc]
      · simp [share, Config.goto, Config.setMine, Config.storeRequest, Config.storeAnswer, Config.delta, hne]

/-- A fork moves what it is worth from the worker to the mailbox. -/
theorem share_fork (hK : K.Lawful entries) {w j : Fin n} {c c' : Config n F S L B}
    (I : Inv K leader entries c) (hpc : c.pc w = .fork j) (h : advance K leader w c = some c') (v : Fin n) :
    share entries c' v = share entries c v + ((if v = j then 1 else 0) - if v = w then 1 else 0) := by
  have hempty := I.fork_empty hpc
  obtain ⟨l₀, hsize⟩ := I.splits w (by rw [hpc]; trivial)
  obtain ⟨l, src, dst, hrun, -, hdst⟩ := hK.fork l₀ (c.loc w) (c.my_frontier w) (c.frontier j) hsize hempty
  have hne : j ≠ w := by
    rintro rfl
    have hself := I.handled_ne (w := j) (j := j) (by rw [hpc]; rfl)
    rw [hpc] at hself
    simp [Pc.role] at hself
  simp only [advance, hpc, hrun, Option.map_some, Option.some.injEq] at h
  subst h
  rcases eq_or_ne v w with rfl | hvw
  · simp only [share, Config.goto, Config.setMine, Function.update_self, Function.update_of_ne hne.symm,
      Pc.tokens, hpc, if_neg hne.symm, if_true]
    ring
  · rcases eq_or_ne v j with rfl | hvj
    · simp only [share, Config.goto, Config.setMine, Function.update_self, Function.update_of_ne hvw,
        full_of_ne hdst, full_of_empty hempty, if_neg hvw, if_true]
      ring
    · simp [share, Config.goto, Config.setMine, hvw, hvj]

theorem balance_advance (hK : K.Lawful entries) {w : Fin n} {c c' : Config n F S L B}
    (I : Inv K leader entries c) (hdone : c.is_done = false) (h : advance K leader w c = some c') :
    ∑ v, share entries c' v = ∑ v, share entries c v := by
  by_cases hfork : ∃ j, c.pc w = .fork j
  · obtain ⟨j, hpc⟩ := hfork
    simp [share_fork hK I hpc h, Finset.sum_add_distrib, Finset.sum_sub_distrib]
  · push Not at hfork
    exact Finset.sum_congr rfl fun v _ => share_advance hK I hdone hfork h v

/-- The flag is set by `setDone` alone, and nobody returns before it is. -/
theorem advance_done {w : Fin n} {c c' : Config n F S L B} (h : advance K leader w c = some c') :
    (c'.is_done = true ↔ c.is_done = true ∨ c.pc w = .setDone)
      ∧ (c'.pc w = .returned → c.is_done = true) := by
  cases hpc : c.pc w <;> simp only [advance, hpc] at h
  case fork j =>
    obtain ⟨⟨l, src, dst⟩, -, rfl⟩ := Option.map_eq_some_iff.mp h
    simp [Config.goto, Config.setMine]
  all_goals
    repeat' split at h
    all_goals cases h
    all_goals
      simp_all [Config.goto, Config.setMine, Config.storeRequest, Config.storeAnswer, Config.delta]

/-- Steps that a worker chooses keep every share. -/
theorem share_stay {w v : Fin n} {c d : Config n F S L B} {p : Pc n B} (hcounter : d.counter = c.counter)
    (hfrontier : d.frontier = c.frontier) (hpc : d.pc = c.pc)
    (hmine : ∀ v, v ≠ w → d.my_frontier v = c.my_frontier v)
    (htokens : p.tokens entries (d.my_frontier w) = (c.pc w).tokens entries (c.my_frontier w)) :
    share entries (d.goto w p) v = share entries c v := by
  rcases eq_or_ne v w with rfl | hne
  · simp [share, Config.goto, hcounter, hfrontier, htokens]
  · simp [share, Config.goto, hcounter, hfrontier, hpc, hmine v hne, hne]

theorem balance_next (hK : K.Lawful entries) {a : Fin n × Act n X} {c c' : Config n F S L B}
    (I : Inv K leader entries c) (hdone : c.is_done = false) (h : next K leader a c = some c') :
    ∑ v, share entries c' v = ∑ v, share entries c v := by
  obtain ⟨w, a⟩ := a
  rcases next_cases h with h | ⟨id, -, hpc, rfl⟩ | ⟨b, s, l, f, r, hpc, rfl⟩
  · exact balance_advance hK I hdone h
  · refine Finset.sum_congr rfl fun v _ => share_stay rfl rfl rfl (fun _ _ => rfl) ?_
    rw [hpc]
    rfl
  · refine Finset.sum_congr rfl fun v _ =>
      share_stay (d := { c.setMine w l f with shared := s }) rfl rfl rfl ?_ ?_
    · intro v hne
      simp [Config.setMine, hne]
    · rw [hpc, afterBody_tokens]
      rfl

theorem next_done {a : Fin n × Act n X} {c c' : Config n F S L B} (h : next K leader a c = some c') :
    c.is_done = true → c'.is_done = true := by
  obtain ⟨w, a⟩ := a
  intro hd
  rcases next_cases h with h | ⟨j, -, hpc, rfl⟩ | ⟨b, s, l, f, r, hpc, rfl⟩
  · exact (advance_done h).1.mpr (Or.inl hd)
  · exact hd
  · exact hd

/-! ## Reading the cells one after the other -/

/-- The cells below `i`. -/
def below (c : Config n F S L B) (i : ℕ) : ℤ := ∑ k : Fin n, if k.val < i then c.counter k else 0

theorem below_succ (c : Config n F S L B) {i : ℕ} (h : i < n) :
    below c (i + 1) = below c i + c.counter ⟨i, h⟩ := by
  have hsplit : ∀ k : Fin n, (if k.val < i + 1 then c.counter k else 0)
      = (if k.val < i then c.counter k else 0) + if k = ⟨i, h⟩ then c.counter k else 0 := by
    intro k
    rcases lt_trichotomy k.val i with hlt | heq | hgt
    · have hne : k ≠ ⟨i, h⟩ := fun he => absurd (congrArg Fin.val he) hlt.ne
      rw [if_pos (by omega), if_pos hlt, if_neg hne, add_zero]
    · have heq' : k = ⟨i, h⟩ := Fin.ext heq
      rw [if_pos (by omega), if_neg (by omega), if_pos heq', zero_add]
    · have hne : k ≠ ⟨i, h⟩ := fun he => absurd (congrArg Fin.val he) hgt.ne'
      rw [if_neg (by omega), if_neg (by omega), if_neg hne, add_zero]
  rw [below, Finset.sum_congr rfl fun k _ => hsplit k, Finset.sum_add_distrib, Finset.sum_ite_eq' ]
  simp [below]

theorem below_all (c : Config n F S L B) {i : ℕ} (h : n ≤ i) : below c i = ∑ k, c.counter k :=
  Finset.sum_congr rfl fun k _ => if_pos (k.isLt.trans_le h)

theorem below_mono {c c' : Config n F S L B} (h : ∀ k, c.counter k ≤ c'.counter k) (i : ℕ) :
    below c i ≤ below c' i := by
  refine Finset.sum_le_sum fun k _ => ?_
  split
  · exact h k
  · exact le_rfl

/-- Nothing is left anywhere, and nobody is at work. -/
structure Quiet (entries : F → Multiset E) (c : Config n F S L B) : Prop where
  input : entries c.input = 0
  mine : ∀ v, entries (c.my_frontier v) = 0
  mail : ∀ v, entries (c.frontier v) = 0
  tokens : ∀ v, (c.pc v).tokens entries (c.my_frontier v) = 0

/-- What the leader knows while it adds up, as long as nobody hands work over. -/
structure Adding (leader : Fin n) (entries : F → Multiset E) (c : Config n F S L B) : Prop where
  input : entries c.input = 0 ∨ c.pc leader = .start ∨ c.pc leader = .swapInput
  undone : c.is_done = false → ∀ v, c.pc v ≠ .returned
  leaves : c.is_done = true → c.pc leader = .acquireTest ∨ c.pc leader = .returned
  reading : ∀ i res, c.pc leader = .sum i res → c.crossed = false → res ≤ below c i
  zero : c.pc leader = .setDone → c.crossed = false → 0 ≤ ∑ k, c.counter k
  quiet : c.is_done = true → c.crossed = false → Quiet entries c

/-- Without a transfer the cells only grow. -/
theorem advance_crossed {w : Fin n} {c c' : Config n F S L B} (h : advance K leader w c = some c')
    (hcrossed : c'.crossed = false) :
    (c.crossed = false ∨ c.pc w = .resetAnswer ∧ w = leader) ∧ ∀ k, c.counter k ≤ c'.counter k := by
  cases hpc : c.pc w <;> simp only [advance, hpc] at h
  case fork j =>
    obtain ⟨⟨l, src, dst⟩, -, rfl⟩ := Option.map_eq_some_iff.mp h
    simp_all [Config.goto, Config.setMine]
  case runDry =>
    cases h
    refine ⟨Or.inl hcrossed, ?_⟩
    intro k
    rcases eq_or_ne k w with rfl | hne
    · simp [Config.goto, Config.delta]
    · simp [Config.goto, Config.delta, hne]
  all_goals
    repeat' split at h
    all_goals cases h
    all_goals
      simp_all [Config.goto, Config.setMine, Config.storeRequest, Config.storeAnswer, Config.delta]

/-- **What is quiet stays quiet.** -/
theorem Quiet.advance (hK : K.Lawful entries) {w : Fin n} {c c' : Config n F S L B} (hq : Quiet entries c)
    (h : advance K leader w c = some c') (hcrossed : c'.crossed = false) : Quiet entries c' := by
  have htokens := hq.tokens w
  have hothers : ∀ v, v ≠ w → (c'.pc v).tokens entries (c'.my_frontier v) = 0 := by
    intro v hne
    obtain ⟨hpc, hmine, -⟩ := advance_frame h hne
    rw [hpc, hmine]
    exact hq.tokens v
  have hall : ∀ {p : Fin n → Prop}, p w → (∀ v, v ≠ w → p v) → ∀ v, p v := by
    intro p hw hne v
    rcases eq_or_ne v w with rfl | hvw
    · exact hw
    · exact hne v hvw
  cases hpc : c.pc w <;> rw [hpc] at htokens <;> simp only [CasRi.advance, hpc] at h
  case swapMailbox =>
    cases h
    refine ⟨hq.input, hall ?_ ?_, hall ?_ ?_, hall ?_ hothers⟩
    · simpa [Config.goto] using hq.mail w
    · intro v hne
      simpa [Config.goto, hne] using hq.mine v
    · simpa [Config.goto] using hq.mine w
    · intro v hne
      simpa [Config.goto, hne] using hq.mail v
    · simpa [Config.goto, Pc.tokens] using full_of_empty (hq.mail w)
  case callSizeAgain =>
    have hsize := (hK.size (c.loc w) (c.my_frontier w)).mpr (hq.mine w)
    cases h
    refine ⟨hq.input, hall ?_ ?_, hq.mail, hall ?_ hothers⟩
    · simpa [Config.goto, Config.setMine] using hq.mine w
    · intro v hne
      simpa [Config.goto, Config.setMine, hne] using hq.mine v
    · simp [Config.goto, Config.setMine, hsize, Pc.tokens]
  case start =>
    split at h <;> cases h
    · cases hcrossed
    · exact ⟨hq.input, hq.mine, hq.mail, hall (by simp [Config.goto, Pc.tokens]) hothers⟩
  -- nobody is at work
  case swapInput | loopTest | callSize | runDry | respondLoad | respondSize | countTransfer | fork
      | answerStore | reopen | unblock => cases htokens
  all_goals
    repeat' split at h
    all_goals cases h
    all_goals
      refine ⟨hq.input, hq.mine, hq.mail, hall ?_ hothers⟩
      simp [Config.goto, Config.storeRequest, Config.storeAnswer, Pc.tokens]

/-- When the cells add up to nothing, nothing is left. -/
theorem Adding.all_quiet {c : Config n F S L B} (I : Inv K leader entries c)
    (A : Adding leader entries c) (hdone : c.is_done = false) (hcount : ∑ v, share entries c v = 0)
    (hpc : c.pc leader = .setDone) (hcrossed : c.crossed = false) : Quiet entries c := by
  have hworth : ∀ v, 0 ≤ (c.pc v).tokens entries (c.my_frontier v) + full entries (c.frontier v) :=
    fun v => add_nonneg (tokens_nonneg _ _) (full_nonneg _)
  have hsum : ∑ v, ((c.pc v).tokens entries (c.my_frontier v) + full entries (c.frontier v)) ≤ 0 := by
    have hzero := A.zero hpc hcrossed
    simp only [share, add_assoc, Finset.sum_add_distrib (f := c.counter)] at hcount
    omega
  have hnone : ∀ v, (c.pc v).tokens entries (c.my_frontier v) + full entries (c.frontier v) = 0 := fun v =>
    (Finset.sum_eq_zero_iff_of_nonneg fun v _ => hworth v).mp
      (le_antisymm hsum (Finset.sum_nonneg fun v _ => hworth v)) v (Finset.mem_univ v)
  have htokens : ∀ v, (c.pc v).tokens entries (c.my_frontier v) = 0 := by
    intro v
    have h₁ : 0 ≤ (c.pc v).tokens entries (c.my_frontier v) := tokens_nonneg _ _
    have h₂ : 0 ≤ full entries (c.frontier v) := full_nonneg _
    have h₃ := hnone v
    omega
  constructor
  case input =>
    rcases A.input with h | h | h
    · exact h
    · exact absurd (hpc.symm.trans h) (by simp)
    · exact absurd (hpc.symm.trans h) (by simp)
  case mine =>
    intro v
    rcases idle_of_tokens (htokens v) with h | h | ⟨-, h⟩
    · exact I.idle v h
    · exact absurd h (A.undone hdone v)
    · exact h
  case mail =>
    intro v
    have hfull := hnone v
    rw [htokens v, zero_add] at hfull
    by_contra hne
    rw [full_of_ne hne] at hfull
    exact absurd hfull one_ne_zero
  case tokens => exact htokens

/-- The leader begins to add up, or has read one more cell, or the last. -/
theorem advance_sum {c c' : Config n F S L B} (h : advance K leader leader c = some c') :
    (∀ i res, c'.pc leader = .sum i res → i = 0 ∧ res = 0 ∧ c'.crossed = false
        ∨ ∃ k res', ∃ hk : k < n, c.pc leader = .sum k res' ∧ i = k + 1 ∧ res = res' + c.counter ⟨k, hk⟩
          ∧ c'.counter = c.counter ∧ c'.crossed = c.crossed)
      ∧ (c'.pc leader = .setDone → ∃ k, n ≤ k ∧ c.pc leader = .sum k 0
        ∧ c'.counter = c.counter ∧ c'.crossed = c.crossed)
      ∧ (c'.pc leader = .swapInput → c.pc leader = .start) ∧ c'.pc leader ≠ .start
      ∧ (c'.input = c.input ∨ c.pc leader = .swapInput ∧ c'.input = c.my_frontier leader) := by
  cases hpc : c.pc leader <;> simp only [advance, hpc] at h
  case fork j =>
    obtain ⟨⟨l, src, dst⟩, -, rfl⟩ := Option.map_eq_some_iff.mp h
    simp [Config.goto, Config.setMine]
  case sum k res =>
    split at h <;> cases h
    · simp_all [Config.goto]
    · split <;> simp_all [Config.goto]
  all_goals
    repeat' split at h
    all_goals cases h
    all_goals
      simp_all [Config.goto, Config.setMine, Config.storeRequest, Config.storeAnswer, Config.delta]

theorem advance_input {w : Fin n} {c c' : Config n F S L B} (h : advance K leader w c = some c')
    (hpc : c.pc w ≠ .swapInput) : c'.input = c.input := by
  cases hw : c.pc w <;> simp only [advance, hw] at h
  case swapInput => exact absurd hw hpc
  case fork j =>
    obtain ⟨⟨l, src, dst⟩, -, rfl⟩ := Option.map_eq_some_iff.mp h
    rfl
  all_goals
    repeat' split at h
    all_goals cases h
    all_goals rfl

section AddingUp

variable {w : Fin n} {c c' : Config n F S L B}

/-- The input is taken once, and run dry by the leader before it adds up. -/
theorem Adding.input_advance (A : Adding leader entries c) (I : Inv K leader entries c)
    (h : advance K leader w c = some c') :
    entries c'.input = 0 ∨ c'.pc leader = .start ∨ c'.pc leader = .swapInput := by
  rcases eq_or_ne w leader with rfl | hne
  · obtain ⟨-, -, hswap, -, hinput⟩ := advance_sum h
    rcases hinput with hsame | ⟨hpc, htaken⟩
    · rcases A.input with hempty | hpc | hpc
      · exact Or.inl (hsame ▸ hempty)
      · simp only [advance, hpc, if_true, Option.some.injEq] at h
        subst h
        exact Or.inr (Or.inr (by simp [Config.goto]))
      · simp only [advance, hpc, Option.some.injEq] at h
        subst h
        exact Or.inl (I.idle w (by rw [hpc]; trivial))
    · exact Or.inl (htaken ▸ I.idle w (by rw [hpc]; trivial))
  · have hpc : c.pc w ≠ .swapInput := fun hpc => hne (I.leads w (by rw [hpc]; trivial))
    rw [advance_input h hpc, (advance_frame h hne.symm).1]
    exact A.input

/-- Once the flag is set the leader is on its way out. -/
theorem Adding.leaves_advance (A : Adding leader entries c) (I : Inv K leader entries c)
    (h : advance K leader w c = some c') (hd : c'.is_done = true) :
    c'.pc leader = .acquireTest ∨ c'.pc leader = .returned := by
  rcases (advance_done h).1.mp hd with hd' | hpc
  · rcases eq_or_ne w leader with rfl | hne
    · rcases A.leaves hd' with hpc | hpc <;> simp only [advance, hpc] at h
      · rw [if_pos hd'] at h
        cases h
        exact Or.inr (Function.update_self ..)
      · cases h
    · rw [(advance_frame h hne.symm).1]
      exact A.leaves hd'
  · obtain rfl := I.leads w (by rw [hpc]; trivial)
    simp only [advance, hpc, Option.some.injEq] at h
    subst h
    simp [Config.goto]

/-- What the leader has added up is at most what the cells hold now. -/
theorem Adding.reading_advance (A : Adding leader entries c) (h : advance K leader w c = some c')
    (i : ℕ) (res : ℤ) (hpc : c'.pc leader = .sum i res) (hc : c'.crossed = false) :
    res ≤ below c' i := by
  obtain ⟨hc', hmono⟩ := advance_crossed h hc
  rcases eq_or_ne w leader with rfl | hne
  · rcases (advance_sum h).1 i res hpc with ⟨rfl, rfl, -⟩ | ⟨k, res', hk, hpc', rfl, rfl, hcounter, hsame⟩
    · simp [below]
    · have hle := A.reading k res' hpc' (hsame ▸ hc)
      have hbelow : below c' (k + 1) = below c k + c.counter ⟨k, hk⟩ := by
        rw [← below_succ]
        simp [below, hcounter]
      omega
  · rw [(advance_frame h hne.symm).1] at hpc
    rcases hc' with hc' | ⟨-, heq⟩
    · exact (A.reading i res hpc hc').trans (below_mono hmono i)
    · exact absurd heq hne

/-- When the leader is about to set the flag, the cells add up to nothing negative. -/
theorem Adding.zero_advance (A : Adding leader entries c) (h : advance K leader w c = some c')
    (hpc : c'.pc leader = .setDone) (hc : c'.crossed = false) : 0 ≤ ∑ k, c'.counter k := by
  obtain ⟨hc', hmono⟩ := advance_crossed h hc
  rcases eq_or_ne w leader with rfl | hne
  · obtain ⟨k, hk, hpc', hcounter, hsame⟩ := (advance_sum h).2.1 hpc
    rw [hcounter, ← below_all c hk]
    exact A.reading k 0 hpc' (hsame ▸ hc)
  · rw [(advance_frame h hne.symm).1] at hpc
    rcases hc' with hc' | ⟨-, heq⟩
    · exact (A.zero hpc hc').trans (Finset.sum_le_sum fun k _ => hmono k)
    · exact absurd heq hne

/-- Nothing is left once the flag is set. -/
theorem Adding.quiet_advance (A : Adding leader entries c) (hK : K.Lawful entries)
    (I : Inv K leader entries c) (hcount : c.is_done = false → ∑ v, share entries c v = 0)
    (h : advance K leader w c = some c') (hd : c'.is_done = true) (hc : c'.crossed = false) :
    Quiet entries c' := by
  have hdone := (advance_done h).1.mp hd
  have hbefore : c.crossed = false := by
    rcases (advance_crossed h hc).1 with hc' | ⟨hpc, rfl⟩
    · exact hc'
    · -- the leader adds up no more once it has set the flag
      rcases hdone with hd' | hpc'
      · rcases A.leaves hd' with hpc' | hpc' <;> exact absurd (hpc.symm.trans hpc') (by simp)
      · exact absurd (hpc.symm.trans hpc') (by simp)
  refine Quiet.advance hK ?_ h hc
  cases hd' : c.is_done with
  | true => exact A.quiet hd' hbefore
  | false =>
    rcases hdone with hd'' | hpc
    · exact absurd (hd'.symm.trans hd'') (by simp)
    · obtain rfl := I.leads w (by rw [hpc]; trivial)
      exact A.all_quiet I hd' (hcount hd') hpc hbefore

/-- **A control step keeps the adding up right.** -/
theorem adding_advance (hK : K.Lawful entries) (I : Inv K leader entries c)
    (hcount : c.is_done = false → ∑ v, share entries c v = 0) (A : Adding leader entries c)
    (h : advance K leader w c = some c') : Adding leader entries c' where
  input := A.input_advance I h
  undone hd v hv := by
    obtain ⟨hdone, hreturned⟩ := advance_done h
    have hd' : c.is_done ≠ true := fun hc => by simp [hdone.mpr (Or.inl hc)] at hd
    rcases eq_or_ne v w with rfl | hne
    · exact hd' (hreturned hv)
    · exact A.undone (Bool.eq_false_iff.mpr hd') v ((advance_frame h hne).1 ▸ hv)
  leaves := A.leaves_advance I h
  reading := A.reading_advance h
  zero := A.zero_advance h
  quiet := A.quiet_advance hK I hcount h

end AddingUp

theorem adding_init (input : F) (loc : L) (shared : S) :
    Adding leader entries (start K leader input loc shared) where
  input := Or.inr (Or.inl rfl)
  undone _ _ := by simp [start]
  leaves h := Bool.noConfusion h
  reading _ _ h := by simp [start] at h
  zero h := by simp [start] at h
  quiet h := Bool.noConfusion h

/-- Steps that a worker chooses are not the leader's sum. -/
theorem Adding.stay {w : Fin n} {c d : Config n F S L B} {p : Pc n B} (A : Adding leader entries c)
    (hinput : d.input = c.input) (hdone : d.is_done = c.is_done) (hcounter : d.counter = c.counter)
    (hcrossed : d.crossed = c.crossed) (hpcs : d.pc = c.pc)
    (hpc : c.pc w = .pickVictim ∨ ∃ b, c.pc w = .work b) (hreturned : p ≠ .returned)
    (hsum : ∀ i res, p ≠ .sum i res) (hset : p ≠ .setDone)
    (hquiet : Quiet entries c → Quiet entries (d.goto w p)) : Adding leader entries (d.goto w p) := by
  have hleader : ∀ {q : Pc n B}, w = leader → c.pc leader = q →
      (q = .pickVictim ∨ ∃ b, q = .work b) := by
    rintro q rfl rfl
    exact hpc
  have hpc' : ∀ v, (d.goto w p).pc v = Function.update c.pc w p v := by
    intro v
    rw [Config.goto, hpcs]
  constructor
  case input =>
    show entries d.input = 0 ∨ _
    rw [hinput, hpc']
    rcases eq_or_ne leader w with rfl | hne
    · rcases A.input with h | h | h
      · exact Or.inl h
      · exact absurd (hleader rfl h) (by simp)
      · exact absurd (hleader rfl h) (by simp)
    · rw [Function.update_of_ne hne]
      exact A.input
  case undone =>
    intro hd v
    rw [hpc']
    rcases eq_or_ne v w with rfl | hne
    · rwa [Function.update_self]
    · rw [Function.update_of_ne hne]
      exact A.undone (hdone ▸ hd) v
  case leaves =>
    intro hd
    have hleaves := A.leaves (hdone ▸ hd)
    rw [hpc']
    rcases eq_or_ne leader w with rfl | hne
    · rcases hleaves with h | h <;> exact absurd (hleader rfl h) (by simp)
    · rwa [Function.update_of_ne hne]
  case reading =>
    intro i res hi hc
    rw [hpc'] at hi
    rcases eq_or_ne leader w with rfl | hne
    · rw [Function.update_self] at hi
      exact absurd hi (hsum i res)
    · rw [Function.update_of_ne hne] at hi
      show res ≤ below d i
      rw [below, hcounter]
      exact A.reading i res hi (hcrossed ▸ hc)
  case zero =>
    intro hi hc
    rw [hpc'] at hi
    rcases eq_or_ne leader w with rfl | hne
    · rw [Function.update_self] at hi
      exact absurd hi hset
    · rw [Function.update_of_ne hne] at hi
      show 0 ≤ ∑ k, d.counter k
      rw [hcounter]
      exact A.zero hi (hcrossed ▸ hc)
  case quiet =>
    intro hd hc
    exact hquiet (A.quiet (hdone ▸ hd) (hcrossed ▸ hc))

theorem adding_next (hK : K.Lawful entries) {a : Fin n × Act n X} {c c' : Config n F S L B}
    (I : Inv K leader entries c) (hcount : c.is_done = false → ∑ v, share entries c v = 0)
    (A : Adding leader entries c) (h : next K leader a c = some c') : Adding leader entries c' := by
  obtain ⟨w, a⟩ := a
  rcases next_cases h with h | ⟨id, -, hpc, rfl⟩ | ⟨b, s, l, f, r, hpc, rfl⟩
  · exact adding_advance hK I hcount A h
  · apply A.stay rfl rfl rfl rfl rfl (Or.inl hpc) (by simp) (by simp) (by simp)
    intro hq
    refine ⟨hq.input, hq.mine, hq.mail, ?_⟩
    intro v
    rcases eq_or_ne v w with rfl | hne
    · simp [Config.goto, Pc.tokens]
    · simpa [Config.goto, hne] using hq.tokens v
  · apply A.stay (d := { c.setMine w l f with shared := s }) rfl rfl rfl rfl rfl (Or.inr ⟨b, hpc⟩)
    · cases r <;> simp [afterBody]
    · cases r <;> simp [afterBody]
    · cases r <;> simp [afterBody]
    · -- a worker inside the body is at work
      intro hq
      have htokens := hq.tokens w
      rw [hpc] at htokens
      cases htokens

/-! ## Two workers -/

/-- `counter++` is executed at the start and before a transfer. -/
theorem advance_crosses {w : Fin n} {c c' : Config n F S L B} (h : advance K leader w c = some c') :
    c'.crossed = c.crossed ∨ c'.crossed = false ∨ c.pc w = .start ∧ w = leader ∧ c'.pc w = .swapInput
      ∨ ∃ j, c.pc w = .countTransfer j ∧ c'.pc w = .fork j := by
  cases hpc : c.pc w <;> simp only [advance, hpc] at h
  case fork j =>
    obtain ⟨⟨l, src, dst⟩, -, rfl⟩ := Option.map_eq_some_iff.mp h
    exact Or.inl rfl
  all_goals
    repeat' split at h
    all_goals cases h
    all_goals
      simp_all [Config.goto, Config.setMine, Config.storeRequest, Config.storeAnswer, Config.delta]

/-- The leader adds up, or has found zero. -/
def Decides (leader : Fin n) (c : Config n F S L B) : Prop :=
  (∃ i res, c.pc leader = .sum i res) ∨ c.pc leader = .setDone

/-- While the leader adds up, a transfer takes two more workers. -/
theorem Inv.third {c : Config n F S L B} (I : Inv K leader entries c) (hleader : Decides leader c)
    {w j : Fin n} (hpc : c.pc w = .countTransfer j) : w ≠ leader ∧ j ≠ leader ∧ j ≠ w := by
  have hrole : (c.pc leader).role = .asking := by
    rcases hleader with ⟨i, res, h⟩ | h <;> rw [h] <;> rfl
  have hw : (c.pc w).role = .handling j := by rw [hpc]; rfl
  have hj := I.handled_ne hw
  refine ⟨?_, ?_, ?_⟩ <;> rintro rfl <;> simp_all

theorem uncrossed_advance {w : Fin n} {c c' : Config n F S L B} (hn : n ≤ 2) (I : Inv K leader entries c)
    (A : Adding leader entries c) (ih : Decides leader c ∨ c.is_done = true → c.crossed = false)
    (h : advance K leader w c = some c') (hc : Decides leader c' ∨ c'.is_done = true) :
    c'.crossed = false := by
  have hdone := (advance_done h).1
  have hlead : c.pc w = .setDone → w = leader := fun hpc => I.leads w (by rw [hpc]; trivial)
  -- whoever decides now decided before, or has just begun
  have hbefore : c'.crossed = false ∨ Decides leader c ∨ c.is_done = true := by
    rcases hc with hd | hd
    · rcases eq_or_ne w leader with rfl | hne
      · obtain ⟨hsum, hset, -⟩ := advance_sum h
        rcases hd with ⟨i, res, hpc⟩ | hpc
        · rcases hsum i res hpc with ⟨-, -, hfalse⟩ | ⟨k, res', -, hpc', -⟩
          · exact Or.inl hfalse
          · exact Or.inr (Or.inl (Or.inl ⟨k, res', hpc'⟩))
        · obtain ⟨k, -, hpc', -⟩ := hset hpc
          exact Or.inr (Or.inl (Or.inl ⟨k, 0, hpc'⟩))
      · rw [Decides, (advance_frame h hne.symm).1] at hd
        exact Or.inr (Or.inl hd)
    · rcases hdone.mp hd with hd | hpc
      · exact Or.inr (Or.inr hd)
      · exact Or.inr (Or.inl (Or.inr (hlead hpc ▸ hpc)))
  rcases hbefore with hfalse | hbefore
  · exact hfalse
  rcases advance_crosses h with hsame | hfalse | ⟨hpc, rfl, -⟩ | ⟨j, hpc, -⟩
  · exact hsame.trans (ih hbefore)
  · exact hfalse
  · rcases hbefore with hd | hd
    · rcases hd with ⟨i, res, hd⟩ | hd <;> exact absurd (hpc.symm.trans hd) (by simp)
    · rcases A.leaves hd with hd' | hd' <;> exact absurd (hpc.symm.trans hd') (by simp)
  · rcases hbefore with hd | hd
    · obtain ⟨h₁, h₂, h₃⟩ := I.third hd hpc
      have hlt := leader.isLt
      have hlt' := w.isLt
      have hlt'' := j.isLt
      rw [ne_eq, Fin.ext_iff] at h₁ h₂ h₃
      omega
    · have htokens := (A.quiet hd (ih (Or.inr hd))).tokens w
      rw [hpc] at htokens
      cases htokens

theorem uncrossed_next {a : Fin n × Act n X} {c c' : Config n F S L B} (hn : n ≤ 2)
    (I : Inv K leader entries c) (A : Adding leader entries c)
    (ih : Decides leader c ∨ c.is_done = true → c.crossed = false) (h : next K leader a c = some c') :
    Decides leader c' ∨ c'.is_done = true → c'.crossed = false := by
  obtain ⟨w, a⟩ := a
  intro hc
  rcases next_cases h with h | ⟨id, -, hpc, rfl⟩ | ⟨b, s, l, f, r, hpc, rfl⟩
  · exact uncrossed_advance hn I A ih h hc
  all_goals
    apply ih
    rcases hc with hd | hd
    · left
      rcases eq_or_ne leader w with rfl | hne
      · first
          | (simp [Decides, Config.goto] at hd; done)
          | (cases r <;> simp [Decides, Config.goto, afterBody] at hd)
      · simpa [Decides, Config.goto, Config.setMine, hne] using hd
    · exact Or.inr hd

section Reachable

variable {input : F} {loc : L} {shared : S} {c : Config n F S L B}

theorem count_reachable (hK : K.Lawful entries)
    (hc : (system K leader input loc shared).Reachable c) (hdone : c.is_done = false) :
    ∑ v, share entries c v = 0 := by
  refine hc.invariant (I := fun c => c.is_done = false → ∑ v, share entries c v = 0) ?_ ?_ hdone
  · rintro _ rfl -
    simp [share, start, Pc.tokens, full_of_empty hK.fresh]
  · rintro c c' hc ih ⟨a, h⟩ hdone'
    have hdone : c.is_done = false := by
      cases hd : c.is_done
      · rfl
      · exact absurd (next_done h hd) (by simp [hdone'])
    rw [balance_next hK (reachable_inv hK hc) hdone h]
    exact ih hdone

theorem adding_reachable (hK : K.Lawful entries)
    (hc : (system K leader input loc shared).Reachable c) : Adding leader entries c := by
  apply hc.invariant (I := Adding leader entries)
  · rintro _ rfl
    exact adding_init input loc shared
  · rintro c c' hc A ⟨a, h⟩
    exact adding_next hK (reachable_inv hK hc) (count_reachable hK hc) A h

theorem uncrossed_reachable (hK : K.Lawful entries) (hn : n ≤ 2)
    (hc : (system K leader input loc shared).Reachable c) (hd : Decides leader c ∨ c.is_done = true) :
    c.crossed = false := by
  refine hc.invariant (I := fun c => Decides leader c ∨ c.is_done = true → c.crossed = false) ?_ ?_ hd
  · rintro _ rfl -
    rfl
  · rintro c c' hc ih ⟨a, h⟩
    exact uncrossed_next hn (reachable_inv hK hc) (adding_reachable hK hc) ih h

/-- A control step exists wherever a worker stands outside the body, unless it waits for `random_other`. -/
theorem Inv.advances (hK : K.Lawful entries) (I : Inv K leader entries c) {w : Fin n}
    (hreturned : c.pc w ≠ .returned) (hwork : ∀ b, c.pc w ≠ .work b) (hpick : c.pc w ≠ .pickVictim) :
    (advance K leader w c).isSome := by
  have hserves := I.serves w
  cases hpc : c.pc w <;> rw [hpc] at hserves <;> simp only [advance, hpc]
  case returned => exact absurd hpc hreturned
  case work b => exact absurd hpc (hwork b)
  case pickVictim => exact absurd hpc hpick
  case respondLoad =>
    cases hr : c.request w with
    | blocked => exact absurd hr (hserves (Or.inl trivial))
    | waiting => rfl
    | «from» j => rfl
  case fork j =>
    obtain ⟨l₀, hsize⟩ := I.splits w (by rw [hpc]; trivial)
    obtain ⟨l, src, dst, hrun, -⟩ :=
      hK.fork l₀ (c.loc w) (c.my_frontier w) (c.frontier j) hsize (I.fork_empty hpc)
    rw [hrun]
    rfl
  all_goals
    repeat' split
    all_goals rfl

/-- **What the counter counts.**  Until `is_done` is set, the cells add up to the number of workers with
work at hand, of mailboxes with work in them and of transfers that are counted and not made, with the sign
changed.  No assertion fails, every fork is made into an empty frontier, and outside the body no step loses
or adds an entry. -/
theorem counter_exact (hK : K.Lawful entries)
    (hc : (system K leader input loc shared).Reachable c) :
    (c.is_done = false → ∑ v, c.counter v
        = -∑ v, ((c.pc v).tokens entries (c.my_frontier v) + full entries (c.frontier v)))
      ∧ (∀ w, c.pc w ≠ .returned → (∀ b, c.pc w ≠ .work b) → c.pc w ≠ .pickVictim →
        (advance K leader w c).isSome)
      ∧ (∀ w j, c.pc w = .fork j → entries (c.frontier j) = 0)
      ∧ ∀ w a c', (∀ b, c.pc w ≠ .work b) → next K leader (w, a) c = some c' →
        total entries c' = total entries c := by
  have I := reachable_inv hK hc
  refine ⟨?_, fun w => I.advances hK, fun w j => I.fork_empty, ?_⟩
  · intro hdone
    have hcount := count_reachable hK hc hdone
    simp only [share, add_assoc, Finset.sum_add_distrib (f := c.counter)] at hcount
    omega
  · intro w a c' hwork h
    rcases next_cases h with h | ⟨id, -, -, rfl⟩ | ⟨b, -, -, -, -, hpc, -⟩
    · exact I.advance_total hK h
    · rfl
    · exact absurd hpc (hwork b)

/-- **When the end can be trusted.**  If no transfer was counted while the leader added up, nothing is left
when `is_done` is set: every frontier and every mailbox is empty.  With two workers it is always so. -/
theorem done_sound (hK : K.Lawful entries) (hc : (system K leader input loc shared).Reachable c)
    (hdone : c.is_done = true) (h : c.crossed = false ∨ n ≤ 2) : total entries c = 0 := by
  have hcrossed : c.crossed = false := by
    rcases h with h | hn
    · exact h
    · exact uncrossed_reachable hK hn hc (Or.inr hdone)
  have hq := (adding_reachable hK hc).quiet hdone hcrossed
  simp [total, hq.input, hq.mine, hq.mail]

end Reachable

/-! ## With three workers -/

/-- A frontier is a number of entries, half of which go to whoever asks; the body takes one. -/
def halving (n : ℕ) : Client (Fin n) ℕ Unit Unit Unit Unit where
  fresh := 0
  size_input l f := (f, l)
  fork_input l f g := some (l, f - f / 2, g + f / 2)
  enter := ()
  body _ _ s l f _ := some (s, l, f - 1, none)

/-- The entries of such a frontier. -/
def units (f : ℕ) : Multiset Unit := Multiset.replicate f ()

theorem units_eq_zero {f : ℕ} : units f = 0 ↔ f = 0 := by
  rw [← Multiset.card_eq_zero, units, Multiset.card_replicate]

theorem halving_lawful (n : ℕ) : (halving n).Lawful units where
  fresh := rfl
  size l f := units_eq_zero.symm
  fork l₀ l f g hsize hg := by
    obtain rfl := units_eq_zero.mp hg
    have htwo : 1 < f := hsize
    refine ⟨l, f - f / 2, 0 + f / 2, rfl, ?_, ?_⟩
    · rw [units, units, units, ← Multiset.replicate_add]
      congr 1
      omega
    · rw [ne_eq, units_eq_zero]
      omega

/-- `k` steps of worker `w`. -/
def steps {n : ℕ} (k : ℕ) (w : Fin n) : List (Fin n × Act n Unit) := List.replicate k (w, .step)

/-- `w` takes one entry and looks at its request word. -/
def round {n : ℕ} (w : Fin n) : List (Fin n × Act n Unit) := steps 2 w ++ [(w, .choose ())] ++ steps 1 w

theorem exists_run {n : ℕ} (leader : Fin n) (input : ℕ) (as : List (Fin n × Act n Unit))
    (P : Config n ℕ Unit Unit Unit → Prop) [DecidablePred P]
    (h : (runSchedule (next (halving n) leader) as (start (halving n) leader input () ())).any
      (fun c => decide (P c)) = true) : ∃ c, (system (halving n) leader input () ()).Reachable c ∧ P c :=
  exists_reachable (system (halving n) leader input () ()) _ (fun a _ _ h => ⟨a, h⟩) rfl as P h

/-- The leader takes one entry, and gives half of the others to `a`. -/
def handOver {n : ℕ} (leader a : Fin n) : List (Fin n × Act n Unit) :=
  steps 4 leader ++ steps 4 a ++ [(a, .pick leader)] ++ steps 2 a ++ [(leader, .choose ())] ++ steps 5 leader

/-- The work is in a mailbox, and the cells add up to two. -/
theorem counter_exact_three : ∃ c : Config 3 ℕ Unit Unit Unit,
    c.pc 1 = .spinLoad 0 ∧ c.frontier 1 = 3 ∧ ∑ v, c.counter v
      = -∑ v, ((c.pc v).tokens units (c.my_frontier v) + full units (c.frontier v)) := by
  obtain ⟨c, hc, hpc, hmail, hdone⟩ := exists_run (0 : Fin 3) 7 (handOver 0 1)
    (fun c => c.pc 1 = .spinLoad 0 ∧ c.frontier 1 = 3 ∧ c.is_done = false) (by decide +kernel)
  exact ⟨c, hpc, hmail, (counter_exact (halving_lawful 3) hc).1 hdone⟩

/-- The leader gives half of what it has left of three entries to `a`, which is done with it before the
leader goes on, adds the `k` cells up and sets the flag. -/
def handedBack {n : ℕ} (leader a : Fin n) (k : ℕ) : List (Fin n × Act n Unit) :=
  handOver leader a ++ steps 6 a ++ [(a, .choose ())] ++ steps 5 a ++ steps 3 leader ++
    [(leader, .choose ())] ++ steps (11 + k) leader

/-- Two workers, and three workers of which nobody asks while the leader adds up: the transfer from the
leader to worker 1 was counted before. -/
theorem done_sound_two : (∃ c : Config 2 ℕ Unit Unit Unit, c.is_done = true ∧ total units c = 0) ∧
    ∃ c : Config 3 ℕ Unit Unit Unit, c.is_done = true ∧ c.crossed = false ∧ total units c = 0 := by
  constructor
  · obtain ⟨c, hc, hdone⟩ := exists_run (0 : Fin 2) 3 (handedBack 0 1 2) (fun c => c.is_done)
      (by decide +kernel)
    exact ⟨c, hdone, done_sound (halving_lawful 2) hc hdone (Or.inr (le_refl 2))⟩
  · obtain ⟨c, hc, hdone, hcrossed⟩ := exists_run (0 : Fin 3) 3 (handedBack 0 1 3)
      (fun c => c.is_done ∧ c.crossed = false) (by decide +kernel)
    exact ⟨c, hdone, hcrossed, done_sound (halving_lawful 3) hc hdone (Or.inl hcrossed)⟩

/-- `a` hands one of its two entries to `b` after the leader has read the cell of `a`, and `b` is done with
it before the leader reads the cell of `b`. -/
def missedTransfer {n : ℕ} (leader a b : Fin n) : List (Fin n × Act n Unit) :=
  handOver leader a ++ steps 1 leader ++ steps 4 a ++ steps 4 b ++ [(b, .pick a)] ++ steps 2 b
    ++ round leader ++ round leader ++ round leader ++ steps 10 leader
    ++ round a ++ steps 5 a ++ steps 4 b ++ round b ++ steps 3 b
    ++ steps 4 leader ++ steps 1 a ++ steps 4 b

/-- **With three workers the loop can end too early**: all have returned, and worker 1 still has an entry. -/
theorem ends_early : ∃ c : Config 3 ℕ Unit Unit Unit,
    (system (halving 3) 0 7 () ()).Reachable c ∧ (∀ w, c.pc w = .returned) ∧ c.my_frontier 1 = 1 := by
  exact exists_run (0 : Fin 3) 7 (missedTransfer 0 1 2)
    (fun c => (∀ w, c.pc w = .returned) ∧ c.my_frontier 1 = 1) (by decide +kernel)

end PwsaStar.CasRi
