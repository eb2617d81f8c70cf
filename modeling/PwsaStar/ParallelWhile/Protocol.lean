/-
# PwsaStar.ParallelWhile.Protocol — the worker loop is a hand-over protocol and conserves its entries.

`view` forgets everything of a configuration but the words, the mailboxes and what every worker is in
the middle of.  `view_advance` shows that every control step is silent or one step of
`Lib.Handshake`, so that the invariant of that protocol holds in every reachable configuration
(`reachable_inv`), whatever the body does.  `advance_total` is conservation: the entries of the
input, of all frontiers and of all mailboxes together never change outside the body.
-/
import PwsaStar.ParallelWhile.Basic
import Mathlib.Algebra.BigOperators.Group.Finset.Basic
import Mathlib.Data.Fintype.Basic
import Mathlib.Tactic.Abel

namespace PwsaStar.ParallelWhile

open PwsaStar.Lib PwsaStar.Lib.Handshake

variable {W F S L B X E : Type*} [DecidableEq W]

/-! ## What a client promises -/

/-- The contract of the callbacks, over the entries a frontier holds: `Input()` is empty, `size_input`
recognises the empty frontier, and `fork_input` into an empty frontier shares the entries out. -/
structure Client.Lawful (K : Client W F S L B X) (entries : F → Multiset E) : Prop where
  fresh : entries K.fresh = 0
  size : ∀ l f, (K.sizeInput l f).1 = .empty ↔ entries f = 0
  fork : ∀ l f g, entries g = 0 →
    ∃ l' f' g', K.forkInput l f g = some (l', f', g') ∧ entries f' + entries g' = entries f

/-! ## The machine as a hand-over protocol -/

/-- What a worker is in the middle of, as far as the protocol is concerned. -/
def Pc.role : Pc W B → Role W
  | .acquireTest | .resetAnswer | .unblock => .seeking
  | .pickVictim | .loadVictim _ | .postRequest _ => .asking
  | .spinLoad other | .spinDone other => .waiting other
  | .recheck | .swapMailbox => .collecting
  | .blockStore other | .fork other | .reject other => .handling other
  | .blockReject other => .declining other
  | .transfer other => .delivering other
  | .reopen => .clearing
  | .returned => .gone
  | _ => .free

section Roles

omit [DecidableEq W]

variable (p : Pc W B) (j : W)

theorem Pc.role_waiting : p.role = .waiting j ↔ p = .spinLoad j ∨ p = .spinDone j := by
  cases p <;> simp [Pc.role]

theorem Pc.role_declining : p.role = .declining j ↔ p = .blockReject j := by
  cases p <;> simp [Pc.role]

theorem Pc.role_delivering : p.role = .delivering j ↔ p = .transfer j := by
  cases p <;> simp [Pc.role]

theorem Pc.role_clearing : p.role = .clearing ↔ p = .reopen := by
  cases p <;> simp [Pc.role]

theorem Pc.role_gone : p.role = .gone ↔ p = .returned := by
  cases p <;> simp [Pc.role]

end Roles

/-- The words, roles and mailboxes of a configuration. -/
def view (entries : F → Multiset E) (c : Config W F S L B) : Handshake.State W where
  role w := (c.pc w).role
  requests := c.requests
  answers := c.answers
  mail w := entries (c.frontiers w) ≠ 0
  posted := c.posted
  answered := c.answered

/-- Between finding its frontier empty and swapping in its mailbox, a worker has no entries. -/
def Pc.idle : Pc W B → Prop
  | .blockLoad | .blockCas | .blockStore _ | .blockReject _ | .acquireTest | .resetAnswer
  | .pickVictim | .loadVictim _ | .postRequest _ | .spinLoad _ | .spinDone _ | .recheck
  | .swapMailbox => True
  | _ => False

variable {K : Client W F S L B X} {leader : W} {entries : F → Multiset E}

theorem view_goto (c : Config W F S L B) (w : W) (p : Pc W B) :
    view entries (c.goto w p) = (view entries c).become w p.role := by
  simp only [view, Config.goto, State.become, State.mk.injEq, and_true]
  funext v
  by_cases h : v = w
  · subst h
    simp
  · simp [h]

theorem view_storeRequest (c : Config W F S L B) (k : W) (r : Request W) :
    view entries (c.storeRequest k r) = (view entries c).word k r := rfl

theorem view_storeAnswer (c : Config W F S L B) (j : W) (a : Answer) :
    view entries (c.storeAnswer j a) = (view entries c).answer j a := rfl

theorem view_mail (c : Config W F S L B) (w : W) (f : F) :
    (fun v => entries (Function.update c.frontiers w f v) ≠ 0) =
      Function.update (view entries c).mail w (entries f ≠ 0) := by
  funext v
  rcases eq_or_ne v w with rfl | h
  · simp
  · simp [h, view]

theorem view_swap (c : Config W F S L B) (w : W) :
    view entries { c with
      frontiers := Function.update c.frontiers w (c.myFrontier w)
      myFrontier := Function.update c.myFrontier w (c.frontiers w) } =
    { view entries c with
      mail := Function.update (view entries c).mail w (entries (c.myFrontier w) ≠ 0) } := by
  simp only [← view_mail]
  rfl

theorem view_fork (c : Config W F S L B) (w j : W) (l : L) (src dst : F) :
    view entries { c.setMine w l src with frontiers := Function.update c.frontiers j dst } =
    { view entries c with mail := Function.update (view entries c).mail j (entries dst ≠ 0) } := by
  simp only [← view_mail]
  rfl

/-- A control step that keeps the role is silent. -/
theorem become_self {s : Handshake.State W} {w : W} {r : Role W} (h : s.role w = r) :
    s.become w r = s := by
  subst h
  simp [State.become]

/-! ### One access after the other -/

section Accesses

variable {w : W} {c c' : Config W F S L B}

/-- From `c` to `c'` the protocol stands still or takes one step. -/
def Advances (entries : F → Multiset E) (w : W) (c c' : Config W F S L B) : Prop :=
  view entries c' = view entries c ∨ Step (view entries c) w (view entries c')

/-- A step that keeps the role and touches neither word nor mailbox is silent. -/
theorem advances_silent {d : Config W F S L B} {p : Pc W B} (hd : view entries d = view entries c)
    (hp : p.role = (c.pc w).role) : Advances entries w c (d.goto w p) := by
  rw [Advances, view_goto, hd]
  exact Or.inl (become_self hp.symm)

theorem advances_loopTest (hpc : c.pc w = .loopTest)
    (h : advance K leader w c = some c') : Advances entries w c c' := by
  have hrole : (view entries c).role w = .free := congrArg Pc.role hpc
  simp only [advance, hpc] at h
  obtain rfl := Option.some.inj h
  split
  · rw [Advances, view_goto]
    exact Or.inr (.leaveFree hrole)
  · exact advances_silent rfl hrole.symm


theorem advances_blockLoad (hpc : c.pc w = .blockLoad)
    (h : advance K leader w c = some c') : Advances entries w c c' := by
  have hrole : (view entries c).role w = .free := congrArg Pc.role hpc
  simp only [advance, hpc] at h
  split at h <;> rename_i hr <;> obtain rfl := Option.some.inj h <;> rw [Advances, view_goto]
  · exact Or.inr (.seeShut hrole hr)
  · exact Or.inl (become_self hrole)
  · exact Or.inr (.take _ hrole hr)


theorem advances_blockCas (hpc : c.pc w = .blockCas)
    (h : advance K leader w c = some c') : Advances entries w c c' := by
  have hrole : (view entries c).role w = .free := congrArg Pc.role hpc
  simp only [advance, hpc] at h
  split at h <;> rename_i hr <;> obtain rfl := Option.some.inj h
  · rw [Advances, view_goto]
    exact Or.inr (.shut hrole hr)
  · exact advances_silent rfl hrole.symm


theorem advances_blockStore {other : W} (hpc : c.pc w = .blockStore other)
    (h : advance K leader w c = some c') : Advances entries w c c' := by
  simp only [advance, hpc] at h
  obtain rfl := Option.some.inj h
  rw [Advances, view_goto, view_storeRequest]
  exact Or.inr (.decline other (congrArg Pc.role hpc))


theorem advances_blockReject {other : W} (hpc : c.pc w = .blockReject other)
    (h : advance K leader w c = some c') : Advances entries w c c' := by
  simp only [advance, hpc] at h
  obtain rfl := Option.some.inj h
  rw [Advances, view_goto, view_storeAnswer]
  exact Or.inr (.declined other (congrArg Pc.role hpc))


theorem advances_acquireTest (hpc : c.pc w = .acquireTest)
    (h : advance K leader w c = some c') : Advances entries w c c' := by
  have hrole : (view entries c).role w = .seeking := congrArg Pc.role hpc
  simp only [advance, hpc] at h
  obtain rfl := Option.some.inj h
  split
  · rw [Advances, view_goto]
    exact Or.inr (.peek hrole)
  · exact advances_silent rfl hrole.symm


theorem advances_resetAnswer (hpc : c.pc w = .resetAnswer)
    (h : advance K leader w c = some c') : Advances entries w c c' := by
  simp only [advance, hpc] at h
  obtain rfl := Option.some.inj h
  rw [Advances, view_goto]
  exact Or.inr (.reset (congrArg Pc.role hpc))


theorem advances_loadVictim {other : W} (hpc : c.pc w = .loadVictim other)
    (h : advance K leader w c = some c') : Advances entries w c c' := by
  have hrole : (view entries c).role w = .asking := congrArg Pc.role hpc
  simp only [advance, hpc] at h
  obtain rfl := Option.some.inj h
  split
  · exact advances_silent rfl hrole.symm
  · rw [Advances, view_goto]
    exact Or.inr (.giveUp hrole)


theorem advances_postRequest {other : W} (hpc : c.pc w = .postRequest other)
    (h : advance K leader w c = some c') : Advances entries w c c' := by
  have hrole : (view entries c).role w = .asking := congrArg Pc.role hpc
  simp only [advance, hpc] at h
  split at h <;> rename_i hr <;> obtain rfl := Option.some.inj h <;> rw [Advances, view_goto]
  · exact Or.inr (.post other hrole hr)
  · exact Or.inr (.giveUp hrole)


theorem advances_spinLoad {other : W} (hpc : c.pc w = .spinLoad other)
    (h : advance K leader w c = some c') : Advances entries w c c' := by
  have hrole : (view entries c).role w = .waiting other := congrArg Pc.role hpc
  simp only [advance, hpc] at h
  obtain rfl := Option.some.inj h
  split
  · exact advances_silent rfl hrole.symm
  · rw [Advances, view_goto]
    exact Or.inr (.notice other hrole ‹_›)


theorem advances_spinDone {other : W} (hpc : c.pc w = .spinDone other)
    (h : advance K leader w c = some c') : Advances entries w c c' := by
  have hrole : (view entries c).role w = .waiting other := congrArg Pc.role hpc
  simp only [advance, hpc] at h
  obtain rfl := Option.some.inj h
  split
  · rw [Advances, view_goto]
    exact Or.inr (.leaveWaiting other hrole)
  · exact advances_silent rfl hrole.symm


theorem advances_recheck (hpc : c.pc w = .recheck)
    (h : advance K leader w c = some c') : Advances entries w c c' := by
  have hrole : (view entries c).role w = .collecting := congrArg Pc.role hpc
  simp only [advance, hpc] at h
  obtain rfl := Option.some.inj h
  split
  · exact advances_silent rfl hrole.symm
  · rw [Advances, view_goto]
    exact Or.inr (.retry hrole ‹_›)


/-- The empty frontier of the worker is what stays in its mailbox. -/
theorem advances_swapMailbox (hpc : c.pc w = .swapMailbox) (hmine : entries (c.myFrontier w) = 0)
    (h : advance K leader w c = some c') : Advances entries w c c' := by
  simp only [advance, hpc] at h
  obtain rfl := Option.some.inj h
  have hfalse : (entries (c.myFrontier w) ≠ 0) = False := by simp [hmine]
  rw [Advances, view_goto, view_swap, hfalse]
  exact Or.inr (.collect (congrArg Pc.role hpc))


theorem advances_respondLoad {sz : SizeType} (hpc : c.pc w = .respondLoad sz)
    (h : advance K leader w c = some c') : Advances entries w c c' := by
  have hrole : (view entries c).role w = .free := congrArg Pc.role hpc
  simp only [advance, hpc] at h
  split at h <;> rename_i hr <;> obtain rfl := Option.some.inj h <;> rw [Advances, view_goto]
  · exact Or.inr (.seeShut hrole hr)
  · exact Or.inl (become_self hrole)
  · split <;> exact Or.inr (.take _ hrole hr)


theorem advances_unblock (hpc : c.pc w = .unblock)
    (h : advance K leader w c = some c') : Advances entries w c c' := by
  simp only [advance, hpc] at h
  obtain rfl := Option.some.inj h
  rw [Advances, view_goto, view_storeRequest]
  exact Or.inr (.reopen (congrArg Pc.role hpc))


/-- A fork into the mailbox of the thief. -/
theorem advances_fork {other : W} (hpc : c.pc w = .fork other)
    (h : advance K leader w c = some c') : Advances entries w c c' := by
  simp only [advance, hpc] at h
  obtain ⟨⟨l, src, dst⟩, -, rfl⟩ := Option.map_eq_some_iff.mp h
  rw [Advances, view_goto, view_fork]
  exact Or.inr (.deliver other _ (congrArg Pc.role hpc))


theorem advances_transfer {other : W} (hpc : c.pc w = .transfer other)
    (h : advance K leader w c = some c') : Advances entries w c c' := by
  simp only [advance, hpc] at h
  obtain rfl := Option.some.inj h
  rw [Advances, view_goto, view_storeAnswer]
  exact Or.inr (.confirm other (congrArg Pc.role hpc))


theorem advances_reject {other : W} (hpc : c.pc w = .reject other)
    (h : advance K leader w c = some c') : Advances entries w c c' := by
  simp only [advance, hpc] at h
  obtain rfl := Option.some.inj h
  rw [Advances, view_goto, view_storeAnswer]
  exact Or.inr (.refuse other (congrArg Pc.role hpc))


theorem advances_reopen (hpc : c.pc w = .reopen)
    (h : advance K leader w c = some c') : Advances entries w c c' := by
  simp only [advance, hpc] at h
  obtain rfl := Option.some.inj h
  rw [Advances, view_goto, view_storeRequest]
  exact Or.inr (.clear (congrArg Pc.role hpc))


theorem advances_setDone (hpc : c.pc w = .setDone)
    (h : advance K leader w c = some c') : Advances entries w c c' := by
  simp only [advance, hpc] at h
  obtain rfl := Option.some.inj h
  rw [Advances, view_goto]
  exact Or.inr (.leaveFree (congrArg Pc.role hpc))


/-- **A control step is silent or a step of the protocol.** -/
theorem view_advance (hidle : (c.pc w).idle → entries (c.myFrontier w) = 0)
    (h : advance K leader w c = some c') : Advances entries w c c' := by
  cases hpc : c.pc w
  case loopTest => exact advances_loopTest hpc h
  case blockLoad => exact advances_blockLoad hpc h
  case blockCas => exact advances_blockCas hpc h
  case blockStore other => exact advances_blockStore hpc h
  case blockReject other => exact advances_blockReject hpc h
  case acquireTest => exact advances_acquireTest hpc h
  case resetAnswer => exact advances_resetAnswer hpc h
  case loadVictim other => exact advances_loadVictim hpc h
  case postRequest other => exact advances_postRequest hpc h
  case spinLoad other => exact advances_spinLoad hpc h
  case spinDone other => exact advances_spinDone hpc h
  case recheck => exact advances_recheck hpc h
  case swapMailbox => exact advances_swapMailbox hpc (hidle (by rw [hpc]; trivial)) h
  case respondLoad sz => exact advances_respondLoad hpc h
  case unblock => exact advances_unblock hpc h
  case fork other => exact advances_fork hpc h
  case transfer other => exact advances_transfer hpc h
  case reject other => exact advances_reject hpc h
  case reopen => exact advances_reopen hpc h
  case setDone => exact advances_setDone hpc h
  case pickVictim => simp [advance, hpc] at h
  case work b => simp [advance, hpc] at h
  case returned => simp [advance, hpc] at h
  -- the rest touches neither words nor mailboxes
  all_goals
    simp only [advance, hpc] at h
    repeat' split at h
    all_goals
      obtain rfl := Option.some.inj h
      exact advances_silent rfl (congrArg Pc.role hpc).symm

end Accesses

/-! ## What a step leaves alone -/

/-- A control step of `w` touches nothing of the other workers but their words and mailboxes, and
nothing of what the body shares. -/
theorem advance_frame {w : W} {c c' : Config W F S L B} (h : advance K leader w c = some c') :
    c'.shared = c.shared ∧ ∀ v, v ≠ w →
      c'.pc v = c.pc v ∧ c'.myFrontier v = c.myFrontier v ∧ c'.loc v = c.loc v := by
  cases hpc : c.pc w <;> simp only [advance, hpc] at h
  case fork other =>
    obtain ⟨⟨l, src, dst⟩, -, rfl⟩ := Option.map_eq_some_iff.mp h
    refine ⟨rfl, fun v hv => ?_⟩
    simp [Config.goto, Config.setMine, hv]
  all_goals
    repeat' split at h
    all_goals cases h
    all_goals
      refine ⟨rfl, fun v hv => ?_⟩
      simp [Config.goto, Config.setMine, Config.storeRequest, Config.storeAnswer, hv]

/-- Control steps into an idle phase start from an empty frontier. -/
theorem advance_idle (hK : K.Lawful entries) {w : W} {c c' : Config W F S L B}
    (hidle : (c.pc w).idle → entries (c.myFrontier w) = 0) (h : advance K leader w c = some c')
    (hidle' : (c'.pc w).idle) : entries (c'.myFrontier w) = 0 := by
  cases hpc : c.pc w <;> rw [hpc] at hidle <;> simp only [advance, hpc] at h
  case fork other =>
    obtain ⟨⟨l, src, dst⟩, -, rfl⟩ := Option.map_eq_some_iff.mp h
    simp [Config.goto, Pc.idle] at hidle'
  case callSize =>
    split at h <;> cases h
    · simpa [Config.goto, Config.setMine] using (hK.size _ _).mp ‹_›
    · simp [Config.goto, Pc.idle] at hidle'
  all_goals
    repeat' split at h
    all_goals cases h
    all_goals first
      | exact hidle trivial
      | simp [Config.goto, Pc.idle] at hidle'

/-- The flag is set by `setDone` alone, control steps do not lead there, and nobody returns before
the flag is set. -/
theorem advance_done {w : W} {c c' : Config W F S L B} (h : advance K leader w c = some c') :
    (c'.isDone = true ↔ c.isDone = true ∨ c.pc w = .setDone) ∧ c'.pc w ≠ .setDone ∧
      (c'.pc w = .returned → c'.isDone = true) := by
  cases hpc : c.pc w <;> simp only [advance, hpc] at h
  case fork other =>
    obtain ⟨⟨l, src, dst⟩, -, rfl⟩ := Option.map_eq_some_iff.mp h
    simp [Config.goto, Config.setMine]
  all_goals
    repeat' split at h
    all_goals cases h
    all_goals
      simp_all [Config.goto, Config.setMine, Config.storeRequest, Config.storeAnswer]

/-! ## Conservation -/

section Total

variable [Fintype W]

/-- Everything there is to do: the input that the leader has not taken yet, the frontiers of all
workers, returned ones included, and the mailboxes. -/
def total (entries : F → Multiset E) (c : Config W F S L B) : Multiset E :=
  entries c.input + ∑ w, entries (c.myFrontier w) + ∑ w, entries (c.frontiers w)

omit [DecidableEq W] in
theorem mem_total {c : Config W F S L B} {e : E} : e ∈ total entries c ↔
    e ∈ entries c.input ∨ (∃ w, e ∈ entries (c.myFrontier w)) ∨ ∃ w, e ∈ entries (c.frontiers w) := by
  simp [total, Multiset.mem_sum, or_assoc]

/-- Replacing one member of a family changes the sum by that member. -/
theorem sum_update {A M : Type*} [AddCommMonoid M] (e : A → M) (f : W → A) (w : W) (x : A) :
    ∑ v, e (Function.update f w x v) + e (f w) = ∑ v, e (f v) + e x := by
  have h : ∀ g : W → A, ∑ v, e (g v) = e (g w) + ∑ v ∈ Finset.univ.erase w, e (g v) :=
    fun g => (Finset.add_sum_erase _ _ (Finset.mem_univ w)).symm
  have hrest : ∑ v ∈ Finset.univ.erase w, e (Function.update f w x v) =
      ∑ v ∈ Finset.univ.erase w, e (f v) :=
    Finset.sum_congr rfl fun v hv => by rw [Function.update_of_ne (Finset.ne_of_mem_erase hv)]
  rw [h, h f, hrest, Function.update_self]
  abel

/-- **Control steps conserve the entries**, provided a fork is made into an empty mailbox. -/
theorem advance_total (hK : K.Lawful entries) {w : W} {c c' : Config W F S L B}
    (hmail : ∀ j, c.pc w = .fork j → entries (c.frontiers j) = 0)
    (h : advance K leader w c = some c') : total entries c' = total entries c := by
  cases hpc : c.pc w <;> simp only [advance, hpc] at h
  case start =>
    split at h <;> cases h
    · have hsum := sum_update entries c.myFrontier w c.input
      simp only [total, Config.goto]
      rw [add_comm (entries (c.myFrontier w)), hsum, add_comm (∑ v, entries (c.myFrontier v))]
    · rfl
  case swapMailbox =>
    cases h
    have hmine := sum_update entries c.myFrontier w (c.frontiers w)
    have hbox := sum_update entries c.frontiers w (c.myFrontier w)
    simp only [total, Config.goto]
    apply add_right_cancel (b := entries (c.myFrontier w) + entries (c.frontiers w))
    grind
  case fork other =>
    obtain ⟨l, src, dst, hrun, hent⟩ :=
      hK.fork (c.loc w) (c.myFrontier w) (c.frontiers other) (hmail other hpc)
    rw [hrun] at h
    cases h
    have hmine := sum_update entries c.myFrontier w src
    have hbox := sum_update entries c.frontiers other dst
    rw [hmail other hpc, add_zero] at hbox
    simp only [total, Config.goto, Config.setMine]
    rw [hbox]
    apply add_right_cancel (b := entries (c.myFrontier w))
    grind
  all_goals
    repeat' split at h
    all_goals cases h
    all_goals
      simp [total, Config.goto, Config.setMine, Config.storeRequest, Config.storeAnswer]

end Total

/-! ## The invariant of the machine -/

/-- The three ways to take a step: a control step, the pick of a victim, a step of the body. -/
theorem next_cases {w : W} {a : Act W X} {c c' : Config W F S L B}
    (h : next K leader (w, a) c = some c') :
    advance K leader w c = some c' ∨
    (∃ j, j ≠ w ∧ c.pc w = .pickVictim ∧ c' = c.goto w (.loadVictim j)) ∨
    ∃ x b s l f r, a = .choose x ∧ c.pc w = .work b ∧
      K.body w x c.shared (c.loc w) (c.myFrontier w) b = some (s, l, f, r) ∧
      c' = ({ c.setMine w l f with shared := s }).goto w (afterBody r) := by
  cases a with
  | step => exact Or.inl h
  | pick j =>
    refine Or.inr (Or.inl ⟨j, ?_⟩)
    simp only [next] at h
    split at h
    · split at h <;> cases h
      exact ⟨‹_›, ‹_›, rfl⟩
    · cases h
  | choose x =>
    refine Or.inr (Or.inr ?_)
    simp only [next] at h
    split at h
    · obtain ⟨⟨s, l, f, r⟩, hbody, rfl⟩ := Option.map_eq_some_iff.mp h
      exact ⟨x, _, s, l, f, r, rfl, ‹_›, hbody, rfl⟩
    · cases h

omit [DecidableEq W] in
/-- A worker that comes out of its body, or stays in it, is free for the protocol. -/
@[simp] theorem afterBody_role (r : B ⊕ Bool) : (afterBody r : Pc W B).role = .free := by
  rcases r with b | (_ | _) <;> rfl

omit [DecidableEq W] in
theorem afterBody_not_idle (r : B ⊕ Bool) : ¬ (afterBody r : Pc W B).idle := by
  rcases r with b | (_ | _) <;> exact id

/-- **The invariant of `parallel_while_pwsa`**, whatever the body does. -/
structure Inv (entries : F → Multiset E) (c : Config W F S L B) : Prop where
  protocol : Handshake.Inv (view entries c)
  idle : ∀ w, (c.pc w).idle → entries (c.myFrontier w) = 0
  returned : ∀ w, c.pc w = .returned → c.isDone = true

theorem inv_init (hK : K.Lawful entries) (input : F) (loc : L) (shared : S) (answers : W → Answer) :
    Inv entries (start K leader input loc shared answers) where
  protocol := by
    apply inv_start
    · exact fun _ => rfl
    · intro w j
      show (if w = leader then Request.waiting else .blocked) ≠ .from j
      split <;> simp
    · intro w
      simp [view, start, hK.fresh]
    · exact fun _ => rfl
  idle w h := h.elim
  returned w h := by cases h

omit [DecidableEq W] in
/-- A mailbox is empty when a victim is about to split into it. -/
theorem Inv.fork_empty {c : Config W F S L B} (I : Inv entries c) {w j : W}
    (h : c.pc w = .fork j) : entries (c.frontiers j) = 0 := by
  have hrole : (view entries c).role w = .handling j := by simp [view, h, Pc.role]
  have howes := I.protocol.owes_of_handling (Or.inl hrole)
  have hempty := I.protocol.empty w j howes (by simp [hrole])
  simpa [view] using hempty

theorem inv_advance (hK : K.Lawful entries) {w : W} {c c' : Config W F S L B} (I : Inv entries c)
    (h : advance K leader w c = some c') : Inv entries c' := by
  obtain ⟨-, hframe⟩ := advance_frame h
  obtain ⟨hdone, -, hret⟩ := advance_done h
  refine ⟨?_, ?_, ?_⟩
  · rcases view_advance (I.idle w) h with hv | hv
    · rw [hv]
      exact I.protocol
    · exact inv_step I.protocol hv
  · intro v hv
    rcases eq_or_ne v w with rfl | hne
    · exact advance_idle hK (I.idle v) h hv
    · rw [(hframe v hne).1] at hv
      rw [(hframe v hne).2.1]
      exact I.idle v hv
  · intro v hv
    rcases eq_or_ne v w with rfl | hne
    · exact hret hv
    · rw [(hframe v hne).1] at hv
      exact hdone.mpr (Or.inl (I.returned v hv))

/-- **Every step keeps the invariant.** -/
theorem inv_next (hK : K.Lawful entries) {a : W × Act W X} {c c' : Config W F S L B}
    (I : Inv entries c) (h : next K leader a c = some c') : Inv entries c' := by
  obtain ⟨w, a⟩ := a
  rcases next_cases h with h | ⟨j, -, hpc, rfl⟩ | ⟨x, b, s, l, f, r, -, hpc, -, rfl⟩
  · exact inv_advance hK I h
  · refine ⟨?_, ?_, ?_⟩
    · rw [view_goto, become_self (by simp [view, hpc, Pc.role])]
      exact I.protocol
    · intro v hv
      rcases eq_or_ne v w with rfl | hne
      · exact I.idle v (by simp [hpc, Pc.idle])
      · exact I.idle v (by simpa [Config.goto, hne] using hv)
    · intro v hv
      rcases eq_or_ne v w with rfl | hne
      · simp [Config.goto] at hv
      · exact I.returned v (by simpa [Config.goto, hne] using hv)
  · refine ⟨?_, ?_, ?_⟩
    · rw [view_goto, afterBody_role, become_self]
      · exact I.protocol
      · simp [view, Config.setMine, hpc, Pc.role]
    · intro v hv
      rcases eq_or_ne v w with rfl | hne
      · exact absurd (by simpa [Config.goto] using hv) (afterBody_not_idle r)
      · simpa [Config.goto, Config.setMine, hne] using
          I.idle v (by simpa [Config.goto, Config.setMine, hne] using hv)
    · intro v hv
      rcases eq_or_ne v w with rfl | hne
      · rcases r with b | (_ | _) <;> simp [Config.goto, afterBody] at hv
      · exact I.returned v (by simpa [Config.goto, Config.setMine, hne] using hv)

theorem reachable_inv (hK : K.Lawful entries) {input : F} {loc : L} {shared : S}
    {c : Config W F S L B} (hc : (system K leader input loc shared).Reachable c) : Inv entries c := by
  apply hc.invariant (I := Inv entries)
  · rintro _ ⟨answers, rfl⟩
    exact inv_init hK input loc shared answers
  · rintro c c' - I ⟨a, h⟩
    exact inv_next hK I h

end PwsaStar.ParallelWhile
