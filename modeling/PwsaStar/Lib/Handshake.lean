/-
# PwsaStar.Lib.Handshake — a receiver-initiated hand-over protocol over request words.

Every party owns three things: a request word into which another party may post its name, an answer
word that the party it asked writes, and a mailbox.  A party that wants work shuts its own word,
resets its answer word, posts its name into the word of a victim whose word is open, and polls its
answer.  The victim reads the request and either declines or puts something into the asker's mailbox
before it writes the answer; only then does it reopen its own word.

This module is the abstract protocol: one `Role` per party and one `Step` per access to a shared word
or a mailbox.  `Owes s k j` says that `k` has taken a request of `j` that it has not answered yet.
`Inv` is the invariant of the protocol; what it gives its users is that debts are unique, that an
asker polls until it is answered, that the mailbox is empty until the answer is being given, and that
posts and answers alternate.
-/
import Mathlib.Logic.Function.Basic
import PwsaStar.Lib.Transition

namespace PwsaStar.Lib.Handshake

universe u

/-- The contents of a request word. -/
inductive Request (W : Type u) where
  | blocked
  | waiting
  | from (j : W)
  deriving DecidableEq

/-- The contents of an answer word. -/
inductive Answer where
  | waiting
  | rejected
  | transferred
  deriving DecidableEq

/-- What a party is in the middle of. -/
inductive Role (W : Type u) where
  /-- Nothing is outstanding. -/
  | free
  /-- Its own word is shut, nothing is outstanding. -/
  | seeking
  /-- Its answer word is reset, nothing is posted yet. -/
  | asking
  /-- It has posted its name into the word of `k` and polls its answer. -/
  | waiting (k : W)
  /-- It has stopped polling and is about to empty its mailbox. -/
  | collecting
  /-- It has read the request of `j` and has not answered. -/
  | handling (j : W)
  /-- It has shut its word over the request of `j` and is about to decline it. -/
  | declining (j : W)
  /-- It has filled the mailbox of `j` and is about to say so. -/
  | delivering (j : W)
  /-- It has answered; its word still holds the request. -/
  | clearing
  /-- It has left. -/
  | gone
  deriving DecidableEq

/-- The shared words, who is in the middle of what, which mailboxes hold something, and how many
requests each party has posted and got answered. -/
structure State (W : Type u) where
  role : W → Role W
  requests : W → Request W
  answers : W → Answer
  mail : W → Prop
  posted : W → ℕ
  answered : W → ℕ

variable {W : Type u} [DecidableEq W]

/-- Party `w` becomes `r`. -/
def State.become (s : State W) (w : W) (r : Role W) : State W :=
  { s with role := Function.update s.role w r }

/-- `j` gets the answer `a`. -/
def State.answer (s : State W) (j : W) (a : Answer) : State W :=
  { s with
    answers := Function.update s.answers j a
    answered := Function.update s.answered j (s.answered j + 1) }

/-- The word of `k` becomes `r`. -/
def State.word (s : State W) (k : W) (r : Request W) : State W :=
  { s with requests := Function.update s.requests k r }

section Fields

variable (s : State W) (w : W)

@[simp] theorem State.become_role (r : Role W) :
    (s.become w r).role = Function.update s.role w r := rfl
@[simp] theorem State.become_requests (r : Role W) : (s.become w r).requests = s.requests := rfl
@[simp] theorem State.become_answers (r : Role W) : (s.become w r).answers = s.answers := rfl
@[simp] theorem State.become_mail (r : Role W) : (s.become w r).mail = s.mail := rfl
@[simp] theorem State.become_posted (r : Role W) : (s.become w r).posted = s.posted := rfl
@[simp] theorem State.become_answered (r : Role W) : (s.become w r).answered = s.answered := rfl

@[simp] theorem State.answer_role (a : Answer) : (s.answer w a).role = s.role := rfl
@[simp] theorem State.answer_requests (a : Answer) : (s.answer w a).requests = s.requests := rfl
@[simp] theorem State.answer_answers (a : Answer) :
    (s.answer w a).answers = Function.update s.answers w a := rfl
@[simp] theorem State.answer_mail (a : Answer) : (s.answer w a).mail = s.mail := rfl
@[simp] theorem State.answer_posted (a : Answer) : (s.answer w a).posted = s.posted := rfl
@[simp] theorem State.answer_answered (a : Answer) :
    (s.answer w a).answered = Function.update s.answered w (s.answered w + 1) := rfl

@[simp] theorem State.word_role (r : Request W) : (s.word w r).role = s.role := rfl
@[simp] theorem State.word_requests (r : Request W) :
    (s.word w r).requests = Function.update s.requests w r := rfl
@[simp] theorem State.word_answers (r : Request W) : (s.word w r).answers = s.answers := rfl
@[simp] theorem State.word_mail (r : Request W) : (s.word w r).mail = s.mail := rfl
@[simp] theorem State.word_posted (r : Request W) : (s.word w r).posted = s.posted := rfl
@[simp] theorem State.word_answered (r : Request W) : (s.word w r).answered = s.answered := rfl

end Fields

/-- One access of party `w`. -/
inductive Step (s : State W) (w : W) : State W → Prop
  | seeShut : s.role w = .free → s.requests w = .blocked → Step s w (s.become w .seeking)
  | shut : s.role w = .free → s.requests w = .waiting →
      Step s w ((s.word w .blocked).become w .seeking)
  | take (j : W) : s.role w = .free → s.requests w = .from j → Step s w (s.become w (.handling j))
  | leaveFree : s.role w = .free → Step s w (s.become w .gone)
  | reopen : s.role w = .seeking → Step s w ((s.word w .waiting).become w .free)
  | peek : s.role w = .seeking → Step s w (s.become w .collecting)
  | reset : s.role w = .seeking →
      Step s w ({ s with answers := Function.update s.answers w .waiting }.become w .asking)
  | giveUp : s.role w = .asking → Step s w (s.become w .seeking)
  | post (k : W) : s.role w = .asking → s.requests k = .waiting →
      Step s w ({ s.word k (.from w) with
        posted := Function.update s.posted w (s.posted w + 1) }.become w (.waiting k))
  | notice (k : W) : s.role w = .waiting k → s.answers w ≠ .waiting →
      Step s w (s.become w .collecting)
  | leaveWaiting (k : W) : s.role w = .waiting k → Step s w (s.become w .gone)
  | retry : s.role w = .collecting → s.answers w ≠ .transferred → Step s w (s.become w .seeking)
  | collect : s.role w = .collecting →
      Step s w ({ s with mail := Function.update s.mail w False }.become w .free)
  | decline (j : W) : s.role w = .handling j →
      Step s w ((s.word w .blocked).become w (.declining j))
  | declined (j : W) : s.role w = .declining j → Step s w ((s.answer j .rejected).become w .seeking)
  | refuse (j : W) : s.role w = .handling j → Step s w ((s.answer j .rejected).become w .clearing)
  | deliver (j : W) (b : Prop) : s.role w = .handling j →
      Step s w ({ s with mail := Function.update s.mail j b }.become w (.delivering j))
  | confirm (j : W) : s.role w = .delivering j →
      Step s w ((s.answer j .transferred).become w .clearing)
  | clear : s.role w = .clearing → Step s w ((s.word w .waiting).become w .free)

/-- `k` has taken a request of `j` and has not answered it. -/
def Owes (s : State W) (k j : W) : Prop :=
  (s.requests k = .from j ∧ s.role k ≠ .clearing) ∨ s.role k = .declining j

/-- The roles in which a party keeps its own word shut. -/
def Role.keepsShut : Role W → Prop
  | .seeking | .asking | .waiting _ | .collecting | .declining _ => True
  | _ => False

/-- The roles between posting a request and emptying the mailbox. -/
def Role.awaitsMail : Role W → Prop
  | .waiting _ | .collecting => True
  | _ => False

/-- **The invariant of the protocol.** -/
structure Inv (s : State W) : Prop where
  owed : ∀ k j, Owes s k j → (s.role j = .waiting k ∧ s.answers j = .waiting) ∨ s.role j = .gone
  single : ∀ k k' j, Owes s k j → Owes s k' j → k = k'
  awaited : ∀ j k, s.role j = .waiting k → s.answers j = .waiting → Owes s k j
  reset : ∀ j, s.role j = .asking → s.answers j = .waiting
  handler : ∀ k j, s.role k = .handling j ∨ s.role k = .delivering j → s.requests k = .from j
  clearing : ∀ k, s.role k = .clearing → ∃ j, s.requests k = .from j
  shut : ∀ k, (s.role k).keepsShut → s.requests k = .blocked
  empty : ∀ k j, Owes s k j → s.role k ≠ .delivering j → ¬ s.mail j
  mail : ∀ j, s.mail j → (∃ k, s.role k = .delivering j) ∨
    (s.answers j = .transferred ∧ (s.role j).awaitsMail) ∨ s.role j = .gone
  pending : ∀ k j, Owes s k j → s.posted j = s.answered j + 1
  settled : ∀ j, (∀ k, ¬ Owes s k j) → s.posted j = s.answered j

omit [DecidableEq W] in
/-- Nothing posted, nothing delivered, words shut or open. -/
theorem inv_start {s : State W} (hrole : ∀ w, s.role w = .free)
    (hreq : ∀ w j, s.requests w ≠ .from j) (hmail : ∀ w, ¬ s.mail w)
    (hcount : ∀ w, s.posted w = s.answered w) : Inv s := by
  have howes : ∀ k j, ¬ Owes s k j := by
    rintro k j (⟨h, -⟩ | h)
    · exact hreq k j h
    · simp [hrole k] at h
  refine
    { owed := fun k j h => absurd h (howes k j)
      single := fun k _ j h => absurd h (howes k j)
      awaited := ?_
      reset := ?_
      handler := ?_
      clearing := ?_
      shut := ?_
      empty := fun k j h => absurd h (howes k j)
      mail := fun j h => absurd h (hmail j)
      pending := fun k j h => absurd h (howes k j)
      settled := fun j _ => hcount j }
  · intro j k h
    simp [hrole j] at h
  · intro j h
    simp [hrole j] at h
  · intro k j h
    simp [hrole k] at h
  · intro k h
    simp [hrole k] at h
  · intro k h
    simp [hrole k, Role.keepsShut] at h

/-! ## What the invariant says about one party -/

section Consequences

omit [DecidableEq W]

variable {s : State W}

theorem Inv.owes_of_handling (I : Inv s) {k j : W}
    (h : s.role k = .handling j ∨ s.role k = .delivering j) : Owes s k j := by
  refine Or.inl ⟨I.handler k j h, ?_⟩
  rcases h with h | h <;> simp [h]

/-- A party that neither polls nor has left is owed nothing. -/
theorem Inv.not_owed (I : Inv s) {w : W} (hw : ∀ k, s.role w ≠ .waiting k) (hg : s.role w ≠ .gone)
    (k : W) : ¬ Owes s k w := by
  intro h
  rcases I.owed k w h with ⟨h, -⟩ | h
  · exact hw k h
  · exact hg h

/-- A mailbox that holds something belongs to a party that has left, or that polls the party filling
it, or that has been told. -/
theorem Inv.mail_cases (I : Inv s) {j : W} (h : s.mail j) :
    s.role j = .gone ∨ (∃ k, s.role k = .delivering j ∧ s.role j = .waiting k) ∨
      (s.answers j = .transferred ∧ (s.role j).awaitsMail) := by
  rcases I.mail j h with ⟨k, hk⟩ | h | h
  · rcases I.owed k j (I.owes_of_handling (Or.inr hk)) with ⟨hj, -⟩ | hj
    · exact Or.inr (Or.inl ⟨k, hk, hj⟩)
    · exact Or.inl hj
  · exact Or.inr (Or.inr h)
  · exact Or.inl h

theorem Inv.no_mail (I : Inv s) {w : W} (hw : ¬ (s.role w).awaitsMail) (hg : s.role w ≠ .gone) :
    ¬ s.mail w := by
  intro h
  rcases I.mail_cases h with h | ⟨k, -, h⟩ | ⟨-, h⟩
  · exact hg h
  · exact hw (by simp [h, Role.awaitsMail])
  · exact hw h

/-- **No chains of polling.**  The party that an unanswered asker polls does not poll itself. -/
theorem Inv.polled_not_polling (I : Inv s) {j k : W} (hj : s.role j = .waiting k)
    (ha : s.answers j = .waiting) (k' : W) : s.role k ≠ .waiting k' := by
  intro hk
  rcases I.awaited j k hj ha with ⟨hreq, -⟩ | h
  · have := I.shut k (by simp [hk, Role.keepsShut])
    simp [this] at hreq
  · simp [hk] at h

end Consequences

/-! ## Steps on the party's own word -/

/-- `w` writes `q` into its own word (perhaps what is there already) and becomes `r`, without taking
or settling a debt. -/
structure Move (s : State W) (w : W) (q : Request W) (r : Role W) : Prop where
  debts : ∀ j, (q = .from j ∧ r ≠ .clearing ∨ r = .declining j) ↔ Owes s w j
  present : s.role w ≠ .gone
  polls : ∀ k, s.role w = .waiting k → s.answers w = .waiting → r = .gone
  fills : ∀ j, s.role w ≠ .delivering j
  target : r ≠ .clearing ∧ r ≠ .asking ∧ ∀ j, r ≠ .delivering j ∧ r ≠ .waiting j
  handles : ∀ j, r = .handling j → q = .from j
  shut : r.keepsShut → q = .blocked
  mail : s.answers w = .transferred → (s.role w).awaitsMail → r = .gone ∨ r.awaitsMail

theorem Move.owes_iff {s : State W} {w : W} {q : Request W} {r : Role W} (h : Move s w q r)
    (k j : W) : Owes ((s.word w q).become w r) k j ↔ Owes s k j := by
  have hd := h.debts j
  rcases eq_or_ne k w with rfl | hne
  · rw [← hd]
    simp [Owes]
  · simp [Owes, hne]

theorem Inv.move {s : State W} {w : W} {q : Request W} {r : Role W} (I : Inv s)
    (h : Move s w q r) : Inv ((s.word w q).become w r) := by
  have howes := h.owes_iff
  obtain ⟨owed, single, awaited, reset, handler, clearing, shut, empty, mail, pending, settled⟩ := I
  obtain ⟨-, present, polls, fills, target, handles, shutw, mailw⟩ := h
  constructor <;>
    simp only [howes, State.become_role, State.become_requests, State.become_answers,
      State.become_mail, State.become_posted, State.become_answered, State.word_role,
      State.word_requests, State.word_answers, State.word_mail, State.word_posted,
      State.word_answered, Function.update_apply]
  case single => exact single
  case pending => exact pending
  case settled => exact settled
  case mail =>
    intro j hj
    rcases mail j hj with ⟨k, hk⟩ | ⟨ha, hr⟩ | hg
    · -- whoever fills a mailbox does not make a move, so `k` is not `w`
      refine Or.inl ⟨k, ?_⟩
      grind
    · grind
    · grind
  -- the debts are the same; what is said about `w` is in the fields of `Move`
  all_goals grind

theorem State.word_self (s : State W) (w : W) : s.word w (s.requests w) = s := by
  simp [State.word]

/-- A move that leaves the word as it is. -/
theorem Inv.become {s : State W} {w : W} {r : Role W} (I : Inv s)
    (h : Move s w (s.requests w) r) : Inv (s.become w r) := by
  simpa only [State.word_self] using I.move h

/-! ## Steps that answer a request -/

/-- `k` answers `j`, to which it owes an answer, and keeps its debt no longer. -/
structure Answers (s : State W) (k j : W) (a : Answer) (r : Role W) : Prop where
  owes : Owes s k j
  debtor : s.role k = .declining j ∨ s.role k = .handling j ∨ s.role k = .delivering j
  target : r = .seeking ∧ s.role k = .declining j ∨ r = .clearing ∧ s.role k ≠ .declining j
  answer : a ≠ .waiting ∧ (s.role k = .delivering j → a = .transferred)

theorem Answers.owes_iff {s : State W} (I : Inv s) {k j : W} {a : Answer} {r : Role W}
    (h : Answers s k j a r) (k' j' : W) :
    Owes ((s.answer j a).become k r) k' j' ↔ Owes s k' j' ∧ j' ≠ j := by
  have hs := I.single k k' j h.owes
  have hh := I.handler k j
  have hsh := I.shut k
  obtain ⟨-, debtor, target, -⟩ := h
  simp only [Owes, State.become_role, State.become_requests, State.answer_role,
    State.answer_requests, Function.update_apply] at *
  grind [Role.keepsShut]

theorem Inv.answer {s : State W} (I : Inv s) {k j : W} {a : Answer} {r : Role W}
    (h : Answers s k j a r) : Inv ((s.answer j a).become k r) := by
  have howes := h.owes_iff I
  have hempty := I.empty k j h.owes
  have howed := I.owed k j h.owes
  have hsingle := I.single k
  obtain ⟨owed, single, awaited, reset, handler, clearing, shut, empty, mail, pending, settled⟩ := I
  obtain ⟨owes, debtor, target, answer⟩ := h
  constructor <;>
    simp only [howes, State.become_role, State.become_requests, State.become_answers,
      State.become_mail, State.become_posted, State.become_answered, State.answer_role,
      State.answer_requests, State.answer_answers, State.answer_mail, State.answer_posted,
      State.answer_answered, Function.update_apply]
  case shut => grind [Role.keepsShut]
  case mail =>
    intro j' hj'
    rcases mail j' hj' with ⟨k', hk'⟩ | ⟨ha, hr⟩ | hg
    · -- the filler of the mailbox is `k` itself, which now tells `j`, or somebody else
      rcases eq_or_ne k' k with rfl | hne
      · grind [Role.awaitsMail]
      · exact Or.inl ⟨k', by grind⟩
    · grind [Role.awaitsMail]
    · grind
  -- `j` was owed exactly one answer, by `k`, and has it now
  all_goals grind

/-! ## The other steps -/

theorem Inv.resetAnswer {s : State W} (I : Inv s) {w : W} (hw : s.role w = .seeking) :
    Inv ({ s with answers := Function.update s.answers w .waiting }.become w .asking) := by
  have hno := I.not_owed (w := w) (by simp [hw]) (by simp [hw])
  have hmail := I.no_mail (w := w) (by simp [hw, Role.awaitsMail]) (by simp [hw])
  obtain ⟨owed, single, awaited, reset, handler, clearing, shut, empty, mail, pending, settled⟩ := I
  constructor <;>
    simp only [Owes, State.become, Function.update_apply] at * <;>
    grind [Role.keepsShut, Role.awaitsMail]

theorem Inv.postRequest {s : State W} (I : Inv s) {w k : W} (hw : s.role w = .asking)
    (hk : s.requests k = .waiting) :
    Inv ({ s.word k (.from w) with
      posted := Function.update s.posted w (s.posted w + 1) }.become w (.waiting k)) := by
  have hno := I.not_owed (w := w) (by simp [hw]) (by simp [hw])
  have hmail := I.no_mail (w := w) (by simp [hw, Role.awaitsMail]) (by simp [hw])
  -- the asker has shut its own word, so the open word is another party's
  have hne : k ≠ w := by
    rintro rfl
    simp [I.shut k (by simp [hw, Role.keepsShut])] at hk
  obtain ⟨owed, single, awaited, reset, handler, clearing, shut, empty, mail, pending, settled⟩ := I
  constructor <;>
    simp only [Owes, State.become, State.word, Function.update_apply] at * <;>
    grind [Role.keepsShut, Role.awaitsMail]

theorem Inv.emptyMailbox {s : State W} (I : Inv s) {w : W} (hw : s.role w = .collecting) :
    Inv ({ s with mail := Function.update s.mail w False }.become w .free) := by
  obtain ⟨owed, single, awaited, reset, handler, clearing, shut, empty, mail, pending, settled⟩ := I
  constructor <;>
    simp only [Owes, State.become, Function.update_apply] at * <;>
    grind [Role.keepsShut, Role.awaitsMail]

theorem Inv.fillMailbox {s : State W} (I : Inv s) {w j : W} (b : Prop)
    (hw : s.role w = .handling j) :
    Inv ({ s with mail := Function.update s.mail j b }.become w (.delivering j)) := by
  obtain ⟨owed, single, awaited, reset, handler, clearing, shut, empty, mail, pending, settled⟩ := I
  constructor <;>
    simp only [Owes, State.become, Function.update_apply] at * <;>
    grind [Role.keepsShut, Role.awaitsMail]

/-- **Every step keeps the invariant.** -/
theorem inv_step {s s' : State W} {w : W} (I : Inv s) (h : Step s w s') : Inv s' := by
  have hshut := I.shut w
  have hclear := I.clearing w
  have hdeliver := fun j => I.owes_of_handling (k := w) (j := j)
  cases h with
  | seeShut hw hr =>
    apply I.become
    constructor <;> grind [Owes, Role.awaitsMail]
  | shut hw hr =>
    apply I.move
    constructor <;> grind [Owes, Role.awaitsMail]
  | take j hw hr =>
    apply I.become
    constructor <;> grind [Owes, Role.awaitsMail, Role.keepsShut]
  | leaveFree hw =>
    apply I.become
    constructor <;> grind [Owes, Role.keepsShut]
  | reopen hw =>
    apply I.move
    constructor <;> grind [Owes, Role.keepsShut, Role.awaitsMail]
  | peek hw =>
    apply I.become
    constructor <;> grind [Owes, Role.keepsShut, Role.awaitsMail]
  | reset hw => exact I.resetAnswer hw
  | giveUp hw =>
    apply I.become
    constructor <;> grind [Owes, Role.keepsShut, Role.awaitsMail]
  | post k hw hk => exact I.postRequest hw hk
  | notice k hw ha =>
    apply I.become
    constructor <;> grind [Owes, Role.keepsShut, Role.awaitsMail]
  | leaveWaiting k hw =>
    apply I.become
    constructor <;> grind [Owes, Role.keepsShut, Role.awaitsMail]
  | retry hw ha =>
    apply I.become
    constructor <;> grind [Owes, Role.keepsShut, Role.awaitsMail]
  | collect hw => exact I.emptyMailbox hw
  | decline j hw =>
    apply I.move
    constructor <;> grind [Owes, Role.keepsShut, Role.awaitsMail]
  | declined j hw => exact I.answer ⟨Or.inr hw, Or.inl hw, by simp [hw], by simp [hw]⟩
  | refuse j hw =>
    exact I.answer ⟨hdeliver j (Or.inl hw), by simp [hw], by simp [hw], by simp [hw]⟩
  | deliver j b hw => exact I.fillMailbox b hw
  | confirm j hw =>
    exact I.answer ⟨hdeliver j (Or.inr hw), by simp [hw], by simp [hw], by simp [hw]⟩
  | clear hw =>
    apply I.move
    constructor <;> grind [Owes, Role.keepsShut, Role.awaitsMail]

end PwsaStar.Lib.Handshake
