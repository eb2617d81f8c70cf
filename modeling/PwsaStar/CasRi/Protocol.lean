/-
# PwsaStar.CasRi.Protocol — the hand-over of `parallel_while_cas_ri`.

`view` forgets everything of a configuration but the words, the mailboxes and what every worker is in
the middle of.  Every step keeps the invariant of `Lib.Handshake` (`Inv.step`), whatever the body
does: a request that is turned down is answered like one that is granted, and hands over nothing.
-/
import PwsaStar.CasRi.Basic
import PwsaStar.ParallelWhile.Protocol

namespace PwsaStar.CasRi

open PwsaStar.Lib PwsaStar.Lib.Handshake

variable {n : ℕ} {F S L B X E : Type*}

/-! ## What a client promises -/

/-- The contract of the callbacks, over the entries a frontier holds: `Input()` is empty, `size_input`
recognises the empty frontier, and a frontier that `size_input` allows to split shares its entries
with an empty one, which gets some of them. -/
structure Client.Lawful (K : Client (Fin n) F S L B X) (entries : F → Multiset E) : Prop where
  fresh : entries K.fresh = 0
  size : ∀ l f, (K.size_input l f).1 = 0 ↔ entries f = 0
  fork : ∀ l₀ l f g, 1 < (K.size_input l₀ f).1 → entries g = 0 →
    ∃ l' f' g', K.fork_input l f g = some (l', f', g') ∧ entries f' + entries g' = entries f
      ∧ entries g' ≠ 0

/-! ## The machine as a hand-over protocol -/

/-- What a worker is in the middle of, as far as the protocol is concerned. -/
def Pc.role : Pc n B → Role (Fin n)
  | .acquireTest | .resetAnswer | .callSizeAgain | .unblock => .seeking
  | .sum _ _ | .setDone | .pickVictim | .loadVictim _ | .postRequest _ => .asking
  | .spinLoad id | .spinDone id => .waiting id
  | .swapMailbox => .collecting
  | .respondSize j | .countTransfer j | .fork j | .blockFrom j => .handling j
  | .blockAnswer j => .declining j
  | .answerStore j => .delivering j
  | .reopen => .clearing
  | .returned => .gone
  | _ => .free

/-- The words, roles and mailboxes of a configuration. -/
def view (entries : F → Multiset E) (c : Config n F S L B) : Handshake.State (Fin n) where
  role w := (c.pc w).role
  requests := c.request
  answers := c.answer
  mail w := entries (c.frontier w) ≠ 0
  posted := c.posted
  answered := c.answered

/-- Between finding its frontier empty and swapping in its mailbox, a worker has no entries. -/
def Pc.idle : Pc n B → Prop
  | .start | .swapInput | .runDry | .blockLoad | .blockCas | .blockFrom _ | .blockAnswer _ | .acquireTest
  | .resetAnswer | .sum _ _ | .setDone | .pickVictim | .loadVictim _ | .postRequest _ | .spinLoad _
  | .spinDone _ | .swapMailbox => True
  | _ => False

/-- A worker that will read its request word and does not expect it to be blocked. -/
def Pc.serves : Pc n B → Prop
  | .swapInput | .loopTest | .callSize | .work _ | .respondLoad => True
  | _ => False

/-- A worker that was allowed to split its frontier and has not done so. -/
def Pc.splits : Pc n B → Prop
  | .countTransfer _ | .fork _ => True
  | _ => False

/-- Where only the leader gets. -/
def Pc.leads : Pc n B → Prop
  | .swapInput | .sum _ _ | .setDone => True
  | _ => False

variable {K : Client (Fin n) F S L B X} {leader : Fin n} {entries : F → Multiset E}

theorem view_goto (c : Config n F S L B) (w : Fin n) (p : Pc n B) :
    view entries (c.goto w p) = (view entries c).become w p.role := by
  simp only [view, Config.goto, State.become, State.mk.injEq, and_true]
  funext v
  rcases eq_or_ne v w with rfl | h
  · simp
  · simp [h]

theorem view_storeRequest (c : Config n F S L B) (k : Fin n) (r : Request (Fin n)) :
    view entries (c.storeRequest k r) = (view entries c).word k r := rfl

theorem view_storeAnswer (c : Config n F S L B) (j : Fin n) :
    view entries (c.storeAnswer j) = (view entries c).answer j .transferred := rfl

theorem view_mail (c : Config n F S L B) (w : Fin n) (f : F) :
    (fun v => entries (Function.update c.frontier w f v) ≠ 0) =
      Function.update (view entries c).mail w (entries f ≠ 0) := by
  funext v
  rcases eq_or_ne v w with rfl | h
  · simp
  · simp [h, view]

/-- A step that keeps the role is silent. -/
theorem become_self {s : Handshake.State (Fin n)} {w : Fin n} {r : Role (Fin n)} (h : s.role w = r) :
    s.become w r = s := by
  subst h
  simp [State.become]

theorem become_become (s : Handshake.State (Fin n)) (w : Fin n) (q r : Role (Fin n)) :
    (s.become w q).become w r = s.become w r := by
  simp [State.become]

/-! ### Moves that the protocol does not list -/

section Moves

variable {s : Handshake.State (Fin n)} {w j : Fin n}

/-- The word is shut, and looked at once more. -/
theorem shut_again (I : Handshake.Inv s) (hw : s.role w = .free) (hr : s.requests w = .waiting) :
    Handshake.Inv ((s.word w .blocked).become w .free) := by
  apply I.move
  constructor <;> grind [Owes, Role.awaitsMail, Role.keepsShut]

/-- A request is turned down with the word shut. -/
theorem turn_down (I : Handshake.Inv s) (hw : s.role w = .declining j) :
    Handshake.Inv ((s.answer j .transferred).become w .free) := by
  have hshut := I.shut w (by simp [hw, Role.keepsShut])
  have hself : j ≠ w := by
    rintro rfl
    have howed := I.owed j j (Or.inr hw)
    simp [hw] at howed
  have hanswered : Handshake.Inv ((s.answer j .transferred).become w .seeking) :=
    I.answer ⟨Or.inr hw, Or.inl hw, by simp [hw], by simp [hw]⟩
  rw [← become_become _ w .seeking]
  apply hanswered.become
  constructor <;> simp [Owes, hshut, Role.keepsShut, Role.awaitsMail]

theorem leave_shut (I : Handshake.Inv s) (hw : s.role w = .seeking) : Handshake.Inv (s.become w .gone) := by
  have hshut := I.shut w (by simp [hw, Role.keepsShut])
  apply I.become
  constructor <;> simp [Owes, hw, hshut, Role.keepsShut, Role.awaitsMail]

/-- A mailbox is emptied with the word shut. -/
theorem empty_mailbox (I : Handshake.Inv s) (hw : s.role w = .collecting) :
    Handshake.Inv ({ s with mail := Function.update s.mail w False }.become w .seeking) := by
  have hshut := I.shut w (by simp [hw, Role.keepsShut])
  have hfree := I.emptyMailbox hw
  rw [← become_become _ w .free]
  exact inv_step hfree (.seeShut (by simp) hshut)

/-- A request is turned down by handing over nothing. -/
theorem hand_nothing (I : Handshake.Inv s) (hw : s.role w = .handling j) :
    Handshake.Inv (s.become w (.delivering j)) := by
  have h := I.fillMailbox (s.mail j) hw
  rwa [Function.update_eq_self] at h

end Moves

/-! ### One access after the other -/

section Accesses

variable {w : Fin n} {c c' : Config n F S L B}

/-- A step that keeps the role and touches neither word nor mailbox is silent. -/
theorem protocol_silent (I : Handshake.Inv (view entries c)) {d : Config n F S L B} {p : Pc n B}
    (hd : view entries d = view entries c) (hp : p.role = (c.pc w).role) :
    Handshake.Inv (view entries (d.goto w p)) := by
  rw [view_goto, hd, become_self hp.symm]
  exact I

theorem protocol_loopTest (I : Handshake.Inv (view entries c)) (hpc : c.pc w = .loopTest)
    (h : advance K leader w c = some c') : Handshake.Inv (view entries c') := by
  simp only [advance, hpc] at h
  obtain rfl := Option.some.inj h
  split
  · rw [view_goto]
    exact inv_step I (.leaveFree (congrArg Pc.role hpc))
  · exact protocol_silent I rfl (congrArg Pc.role hpc).symm

theorem protocol_respondLoad (I : Handshake.Inv (view entries c)) (hpc : c.pc w = .respondLoad)
    (h : advance K leader w c = some c') : Handshake.Inv (view entries c') := by
  simp only [advance, hpc] at h
  split at h <;> rename_i hr
  · cases h
  · obtain rfl := Option.some.inj h
    exact protocol_silent I rfl (congrArg Pc.role hpc).symm
  · obtain rfl := Option.some.inj h
    rw [view_goto]
    exact inv_step I (.take _ (congrArg Pc.role hpc) hr)

theorem protocol_respondSize {j : Fin n} (I : Handshake.Inv (view entries c))
    (hpc : c.pc w = .respondSize j) (h : advance K leader w c = some c') :
    Handshake.Inv (view entries c') := by
  simp only [advance, hpc] at h
  obtain rfl := Option.some.inj h
  split
  · exact protocol_silent I rfl (congrArg Pc.role hpc).symm
  · rw [view_goto]
    exact hand_nothing I (congrArg Pc.role hpc)

/-- A fork into the mailbox of the thief. -/
theorem protocol_fork {j : Fin n} (I : Handshake.Inv (view entries c)) (hpc : c.pc w = .fork j)
    (h : advance K leader w c = some c') : Handshake.Inv (view entries c') := by
  simp only [advance, hpc] at h
  obtain ⟨⟨l, src, dst⟩, -, rfl⟩ := Option.map_eq_some_iff.mp h
  have hfill := I.fillMailbox (entries dst ≠ 0) (congrArg Pc.role hpc)
  rw [← view_mail] at hfill
  rw [view_goto]
  exact hfill

theorem protocol_answerStore {j : Fin n} (I : Handshake.Inv (view entries c))
    (hpc : c.pc w = .answerStore j) (h : advance K leader w c = some c') :
    Handshake.Inv (view entries c') := by
  simp only [advance, hpc] at h
  obtain rfl := Option.some.inj h
  rw [view_goto, view_storeAnswer]
  exact inv_step I (.confirm j (congrArg Pc.role hpc))

theorem protocol_reopen (I : Handshake.Inv (view entries c)) (hpc : c.pc w = .reopen)
    (h : advance K leader w c = some c') : Handshake.Inv (view entries c') := by
  simp only [advance, hpc] at h
  obtain rfl := Option.some.inj h
  rw [view_goto, view_storeRequest]
  exact inv_step I (.clear (congrArg Pc.role hpc))

theorem protocol_blockLoad (I : Handshake.Inv (view entries c)) (hpc : c.pc w = .blockLoad)
    (h : advance K leader w c = some c') : Handshake.Inv (view entries c') := by
  have hrole : (view entries c).role w = .free := congrArg Pc.role hpc
  simp only [advance, hpc] at h
  split at h <;> rename_i hr <;> obtain rfl := Option.some.inj h
  · rw [view_goto]
    exact inv_step I (.seeShut hrole hr)
  · exact protocol_silent I rfl hrole.symm
  · rw [view_goto]
    exact inv_step I (.take _ hrole hr)

theorem protocol_blockCas (I : Handshake.Inv (view entries c)) (hpc : c.pc w = .blockCas)
    (h : advance K leader w c = some c') : Handshake.Inv (view entries c') := by
  have hrole : (view entries c).role w = .free := congrArg Pc.role hpc
  simp only [advance, hpc] at h
  split at h <;> rename_i hr <;> obtain rfl := Option.some.inj h
  · rw [view_goto, view_storeRequest]
    exact shut_again I hrole hr
  · exact protocol_silent I rfl hrole.symm

/-- The word of a worker that turns a request down still holds that request. -/
theorem protocol_blockFrom {j : Fin n} (I : Handshake.Inv (view entries c))
    (hpc : c.pc w = .blockFrom j) (h : advance K leader w c = some c') :
    Handshake.Inv (view entries c') := by
  have hrole : (view entries c).role w = .handling j := congrArg Pc.role hpc
  have hfrom : c.request w = .from j := I.handler w j (Or.inl hrole)
  simp only [advance, hpc] at h
  rw [if_pos hfrom] at h
  obtain rfl := Option.some.inj h
  rw [view_goto, view_storeRequest]
  exact inv_step I (.decline j hrole)

theorem protocol_blockAnswer {j : Fin n} (I : Handshake.Inv (view entries c))
    (hpc : c.pc w = .blockAnswer j) (h : advance K leader w c = some c') :
    Handshake.Inv (view entries c') := by
  simp only [advance, hpc] at h
  obtain rfl := Option.some.inj h
  rw [view_goto, view_storeAnswer]
  exact turn_down I (congrArg Pc.role hpc)

theorem protocol_acquireTest (I : Handshake.Inv (view entries c)) (hpc : c.pc w = .acquireTest)
    (h : advance K leader w c = some c') : Handshake.Inv (view entries c') := by
  simp only [advance, hpc] at h
  obtain rfl := Option.some.inj h
  split
  · rw [view_goto]
    exact leave_shut I (congrArg Pc.role hpc)
  · exact protocol_silent I rfl (congrArg Pc.role hpc).symm

theorem protocol_resetAnswer (I : Handshake.Inv (view entries c)) (hpc : c.pc w = .resetAnswer)
    (h : advance K leader w c = some c') : Handshake.Inv (view entries c') := by
  have hreset := I.resetAnswer (congrArg Pc.role hpc)
  simp only [advance, hpc] at h
  split at h <;> obtain rfl := Option.some.inj h <;> rw [view_goto] <;> exact hreset

theorem protocol_sum {i : ℕ} {res : ℤ} (I : Handshake.Inv (view entries c)) (hpc : c.pc w = .sum i res)
    (h : advance K leader w c = some c') : Handshake.Inv (view entries c') := by
  simp only [advance, hpc] at h
  split at h <;> obtain rfl := Option.some.inj h
  · exact protocol_silent I rfl (congrArg Pc.role hpc).symm
  · split <;> exact protocol_silent I rfl (congrArg Pc.role hpc).symm

theorem protocol_setDone (I : Handshake.Inv (view entries c)) (hpc : c.pc w = .setDone)
    (h : advance K leader w c = some c') : Handshake.Inv (view entries c') := by
  simp only [advance, hpc] at h
  obtain rfl := Option.some.inj h
  rw [view_goto]
  exact inv_step I (.giveUp (congrArg Pc.role hpc))

/-- There is nobody else to ask. -/
theorem protocol_pickVictim (I : Handshake.Inv (view entries c)) (hpc : c.pc w = .pickVictim)
    (h : advance K leader w c = some c') : Handshake.Inv (view entries c') := by
  simp only [advance, hpc] at h
  split at h
  · cases h
  · obtain rfl := Option.some.inj h
    rw [view_goto]
    exact inv_step I (.giveUp (congrArg Pc.role hpc))

theorem protocol_loadVictim {id : Fin n} (I : Handshake.Inv (view entries c))
    (hpc : c.pc w = .loadVictim id) (h : advance K leader w c = some c') :
    Handshake.Inv (view entries c') := by
  simp only [advance, hpc] at h
  obtain rfl := Option.some.inj h
  split
  · rw [view_goto]
    exact inv_step I (.giveUp (congrArg Pc.role hpc))
  · exact protocol_silent I rfl (congrArg Pc.role hpc).symm

theorem protocol_postRequest {id : Fin n} (I : Handshake.Inv (view entries c))
    (hpc : c.pc w = .postRequest id) (h : advance K leader w c = some c') :
    Handshake.Inv (view entries c') := by
  have hrole : (view entries c).role w = .asking := congrArg Pc.role hpc
  simp only [advance, hpc] at h
  split at h <;> rename_i hr <;> obtain rfl := Option.some.inj h <;> rw [view_goto]
  · exact inv_step I (.post id hrole hr)
  · exact inv_step I (.giveUp hrole)

theorem protocol_spinLoad {id : Fin n} (I : Handshake.Inv (view entries c))
    (hpc : c.pc w = .spinLoad id) (h : advance K leader w c = some c') :
    Handshake.Inv (view entries c') := by
  simp only [advance, hpc] at h
  obtain rfl := Option.some.inj h
  split
  · exact protocol_silent I rfl (congrArg Pc.role hpc).symm
  · rw [view_goto]
    exact inv_step I (.notice id (congrArg Pc.role hpc) ‹_›)

theorem protocol_spinDone {id : Fin n} (I : Handshake.Inv (view entries c))
    (hpc : c.pc w = .spinDone id) (h : advance K leader w c = some c') :
    Handshake.Inv (view entries c') := by
  simp only [advance, hpc] at h
  obtain rfl := Option.some.inj h
  split
  · rw [view_goto]
    exact inv_step I (.leaveWaiting id (congrArg Pc.role hpc))
  · exact protocol_silent I rfl (congrArg Pc.role hpc).symm

/-- The empty frontier of the worker is what stays in its mailbox. -/
theorem protocol_swapMailbox (I : Handshake.Inv (view entries c)) (hpc : c.pc w = .swapMailbox)
    (hmine : entries (c.my_frontier w) = 0) (h : advance K leader w c = some c') :
    Handshake.Inv (view entries c') := by
  have hempty := empty_mailbox I (congrArg Pc.role hpc)
  have hfalse : (entries (c.my_frontier w) ≠ 0) = False := by simp [hmine]
  rw [← hfalse, ← view_mail] at hempty
  simp only [advance, hpc] at h
  obtain rfl := Option.some.inj h
  rw [view_goto]
  exact hempty

theorem protocol_unblock (I : Handshake.Inv (view entries c)) (hpc : c.pc w = .unblock)
    (h : advance K leader w c = some c') : Handshake.Inv (view entries c') := by
  simp only [advance, hpc] at h
  obtain rfl := Option.some.inj h
  rw [view_goto, view_storeRequest]
  exact inv_step I (.reopen (congrArg Pc.role hpc))

/-- **A control step keeps the protocol.** -/
theorem protocol_advance (I : Handshake.Inv (view entries c))
    (hidle : (c.pc w).idle → entries (c.my_frontier w) = 0) (h : advance K leader w c = some c') :
    Handshake.Inv (view entries c') := by
  cases hpc : c.pc w
  case loopTest => exact protocol_loopTest I hpc h
  case respondLoad => exact protocol_respondLoad I hpc h
  case respondSize j => exact protocol_respondSize I hpc h
  case fork j => exact protocol_fork I hpc h
  case answerStore j => exact protocol_answerStore I hpc h
  case reopen => exact protocol_reopen I hpc h
  case blockLoad => exact protocol_blockLoad I hpc h
  case blockCas => exact protocol_blockCas I hpc h
  case blockFrom j => exact protocol_blockFrom I hpc h
  case blockAnswer j => exact protocol_blockAnswer I hpc h
  case acquireTest => exact protocol_acquireTest I hpc h
  case resetAnswer => exact protocol_resetAnswer I hpc h
  case sum i res => exact protocol_sum I hpc h
  case setDone => exact protocol_setDone I hpc h
  case pickVictim => exact protocol_pickVictim I hpc h
  case loadVictim id => exact protocol_loadVictim I hpc h
  case postRequest id => exact protocol_postRequest I hpc h
  case spinLoad id => exact protocol_spinLoad I hpc h
  case spinDone id => exact protocol_spinDone I hpc h
  case swapMailbox => exact protocol_swapMailbox I hpc (hidle (by rw [hpc]; trivial)) h
  case unblock => exact protocol_unblock I hpc h
  case work b => simp [advance, hpc] at h
  case returned => simp [advance, hpc] at h
  -- the rest touches neither words nor mailboxes
  all_goals
    simp only [advance, hpc] at h
    repeat' split at h
    all_goals
      obtain rfl := Option.some.inj h
      exact protocol_silent I rfl (congrArg Pc.role hpc).symm

end Accesses

/-! ## What a step leaves alone -/

/-- A control step of `w` touches nothing of the other workers but their words and mailboxes, and it
blocks no word but its own. -/
theorem advance_frame {w v : Fin n} {c c' : Config n F S L B} (h : advance K leader w c = some c')
    (hv : v ≠ w) :
    c'.pc v = c.pc v ∧ c'.my_frontier v = c.my_frontier v ∧ c'.counter v = c.counter v
      ∧ (c'.request v = .blocked → c.request v = .blocked) := by
  cases hpc : c.pc w <;> simp only [advance, hpc] at h
  case fork j =>
    obtain ⟨⟨l, src, dst⟩, -, rfl⟩ := Option.map_eq_some_iff.mp h
    simp [Config.goto, Config.setMine, hv]
  case postRequest id =>
    split at h <;> cases h
    · refine ⟨by simp [Config.goto, Config.storeRequest, hv], rfl, rfl, ?_⟩
      intro hblocked
      rcases eq_or_ne v id with rfl | hne
      · simp [Config.goto, Config.storeRequest] at hblocked
      · simpa [Config.goto, Config.storeRequest, hne] using hblocked
    · simp [Config.goto, hv]
  all_goals
    repeat' split at h
    all_goals cases h
    all_goals
      simp [Config.goto, Config.setMine, Config.storeRequest, Config.storeAnswer, Config.delta, hv]

/-- A control step ends idle only with an empty frontier, is about to read a blocked word never, splits
only what may be split, and leads the leader alone. -/
theorem advance_own (hK : K.Lawful entries) {w : Fin n} {c c' : Config n F S L B}
    (hidle : (c.pc w).idle → entries (c.my_frontier w) = 0)
    (hserves : (c.pc w).serves ∨ c.pc w = .start ∧ w = leader → c.request w ≠ .blocked)
    (hsplits : (c.pc w).splits → ∃ l, 1 < (K.size_input l (c.my_frontier w)).1)
    (hleads : (c.pc w).leads → w = leader) (h : advance K leader w c = some c') :
    ((c'.pc w).idle → entries (c'.my_frontier w) = 0)
      ∧ ((c'.pc w).serves ∨ c'.pc w = .start ∧ w = leader → c'.request w ≠ .blocked)
      ∧ ((c'.pc w).splits → ∃ l, 1 < (K.size_input l (c'.my_frontier w)).1)
      ∧ ((c'.pc w).leads → w = leader) := by
  cases hpc : c.pc w <;> rw [hpc] at hidle hserves hsplits hleads <;> simp only [advance, hpc] at h
  case callSize =>
    obtain rfl := Option.some.inj h
    have hempty := hK.size (c.loc w) (c.my_frontier w)
    have hopen := hserves (Or.inl trivial)
    split <;> simp_all [Config.goto, Config.setMine, Pc.idle, Pc.serves, Pc.splits, Pc.leads]
  case respondSize j =>
    obtain rfl := Option.some.inj h
    split
    · rename_i hlt
      simp only [Config.goto, Config.setMine, Function.update_self, Pc.idle, Pc.serves, Pc.splits, Pc.leads]
      exact ⟨nofun, by simp, fun _ => ⟨_, hlt⟩, nofun⟩
    · simp [Config.goto, Config.setMine, Pc.idle, Pc.serves, Pc.splits, Pc.leads]
  case callSizeAgain =>
    obtain rfl := Option.some.inj h
    have hempty := hK.size (c.loc w) (c.my_frontier w)
    split <;> simp_all [Config.goto, Config.setMine, Pc.idle, Pc.serves, Pc.splits, Pc.leads]
  case fork j =>
    obtain ⟨⟨l, src, dst⟩, -, rfl⟩ := Option.map_eq_some_iff.mp h
    simp [Config.goto, Config.setMine, Pc.idle, Pc.serves, Pc.splits, Pc.leads]
  case postRequest id =>
    split at h <;> cases h <;>
      simp_all [Config.goto, Config.storeRequest, Pc.idle, Pc.serves, Pc.splits, Pc.leads]
  all_goals
    repeat' split at h
    all_goals cases h
    all_goals
      simp_all [Config.goto, Config.storeRequest, Config.storeAnswer, Config.delta, Pc.idle, Pc.serves,
        Pc.splits, Pc.leads]

/-! ## The invariant of the machine -/

/-- The three ways to take a step: a control step, the pick of a victim, a step of the body. -/
theorem next_cases {w : Fin n} {a : Act n X} {c c' : Config n F S L B}
    (h : next K leader (w, a) c = some c') :
    advance K leader w c = some c' ∨
    (∃ id, id ≠ w ∧ c.pc w = .pickVictim ∧ c' = c.goto w (.loadVictim id)) ∨
    ∃ b s l f r, c.pc w = .work b
      ∧ c' = ({ c.setMine w l f with shared := s }).goto w (afterBody r) := by
  cases a with
  | step => exact Or.inl h
  | pick id =>
    refine Or.inr (Or.inl ⟨id, ?_⟩)
    simp only [next] at h
    split at h
    · split at h <;> cases h
      exact ⟨‹_›, ‹_›, rfl⟩
    · cases h
  | choose x =>
    refine Or.inr (Or.inr ?_)
    simp only [next] at h
    split at h
    · obtain ⟨⟨s, l, f, r⟩, -, rfl⟩ := Option.map_eq_some_iff.mp h
      exact ⟨_, s, l, f, r, ‹_›, rfl⟩
    · cases h

/-- **The invariant of `parallel_while_cas_ri`**, whatever the body does. -/
structure Inv (K : Client (Fin n) F S L B X) (leader : Fin n) (entries : F → Multiset E)
    (c : Config n F S L B) : Prop where
  protocol : Handshake.Inv (view entries c)
  idle : ∀ w, (c.pc w).idle → entries (c.my_frontier w) = 0
  serves : ∀ w, (c.pc w).serves ∨ c.pc w = .start ∧ w = leader → c.request w ≠ .blocked
  splits : ∀ w, (c.pc w).splits → ∃ l, 1 < (K.size_input l (c.my_frontier w)).1
  leads : ∀ w, (c.pc w).leads → w = leader

theorem inv_init (hK : K.Lawful entries) (input : F) (loc : L) (shared : S) :
    Inv K leader entries (start K leader input loc shared) where
  protocol := by
    apply inv_start
    · exact fun _ => rfl
    · intro w j
      show (if w = leader then Request.waiting else .blocked) ≠ .from j
      split <;> simp
    · intro w
      simp [view, start, hK.fresh]
    · exact fun _ => rfl
  idle w _ := hK.fresh
  serves w h := by
    rcases h with h | ⟨-, rfl⟩
    · exact h.elim
    · simp [start]
  splits w h := h.elim
  leads w h := h.elim

theorem inv_advance (hK : K.Lawful entries) {w : Fin n} {c c' : Config n F S L B}
    (I : Inv K leader entries c) (h : advance K leader w c = some c') : Inv K leader entries c' := by
  have hprotocol := protocol_advance I.protocol (I.idle w) h
  obtain ⟨hidle, hserves, hsplits, hleads⟩ :=
    advance_own hK (I.idle w) (I.serves w) (I.splits w) (I.leads w) h
  constructor
  case protocol => exact hprotocol
  all_goals intro v hv
  all_goals rcases eq_or_ne v w with rfl | hne
  case idle.inl => exact hidle hv
  case serves.inl => exact hserves hv
  case splits.inl => exact hsplits hv
  case leads.inl => exact hleads hv
  all_goals
    obtain ⟨hpc, hmine, -, hrequest⟩ := advance_frame h hne
    rw [hpc] at hv
  case idle.inr => exact hmine ▸ I.idle v hv
  case serves.inr => exact fun hblocked => I.serves v hv (hrequest hblocked)
  case splits.inr => exact hmine ▸ I.splits v hv
  case leads.inr => exact I.leads v hv

/-- A step that keeps words and mailboxes, and goes on where nothing new is asked for. -/
theorem Inv.stay {w : Fin n} {c d : Config n F S L B} {p : Pc n B} (I : Inv K leader entries c)
    (hview : view entries d = view entries c) (hpc : d.pc = c.pc)
    (hmine : ∀ v, v ≠ w → d.my_frontier v = c.my_frontier v) (hrole : p.role = (c.pc w).role)
    (hidle : p.idle → entries (d.my_frontier w) = 0) (hserves : p.serves → (c.pc w).serves)
    (hstart : p ≠ .start) (hsplits : ¬ p.splits) (hleads : ¬ p.leads) :
    Inv K leader entries (d.goto w p) := by
  have hrequest : d.request = c.request := congrArg Handshake.State.requests hview
  constructor
  case protocol =>
    rw [view_goto, hview, become_self hrole.symm]
    exact I.protocol
  all_goals
    intro v hv
    rcases eq_or_ne v w with rfl | hne
  all_goals simp only [Config.goto, Function.update_self, hpc] at hv
  case idle.inl => exact hidle hv
  case serves.inl =>
    rcases hv with hv | ⟨hv, -⟩
    · exact hrequest ▸ I.serves v (Or.inl (hserves hv))
    · exact absurd hv hstart
  case splits.inl => exact absurd hv hsplits
  case leads.inl => exact absurd hv hleads
  all_goals rw [Function.update_of_ne hne] at hv
  case idle.inr => exact (hmine v hne).symm ▸ I.idle v hv
  case serves.inr => exact hrequest ▸ I.serves v hv
  case splits.inr => exact (hmine v hne).symm ▸ I.splits v hv
  case leads.inr => exact I.leads v hv

/-- **Every step keeps the invariant.** -/
theorem inv_next (hK : K.Lawful entries) {a : Fin n × Act n X} {c c' : Config n F S L B}
    (I : Inv K leader entries c) (h : next K leader a c = some c') : Inv K leader entries c' := by
  obtain ⟨w, a⟩ := a
  rcases next_cases h with h | ⟨id, -, hpc, rfl⟩ | ⟨b, s, l, f, r, hpc, rfl⟩
  · exact inv_advance hK I h
  · apply I.stay rfl rfl (fun _ _ => rfl)
    · rw [hpc]
      rfl
    · exact fun _ => I.idle w (by rw [hpc]; trivial)
    all_goals simp [Pc.serves, Pc.splits, Pc.leads]
  · apply I.stay (d := { c.setMine w l f with shared := s }) rfl rfl
    · intro v hne
      simp [Config.setMine, hne]
    all_goals cases r <;> simp [hpc, afterBody, Pc.role, Pc.idle, Pc.serves, Pc.splits, Pc.leads]

theorem reachable_inv (hK : K.Lawful entries) {input : F} {loc : L} {shared : S}
    {c : Config n F S L B} (hc : (system K leader input loc shared).Reachable c) :
    Inv K leader entries c := by
  apply hc.invariant (I := Inv K leader entries)
  · rintro _ rfl
    exact inv_init hK input loc shared
  · rintro c c' - I ⟨a, h⟩
    exact inv_next hK I h

/-- A mailbox is empty when a worker is about to split into it. -/
theorem Inv.fork_empty {c : Config n F S L B} (I : Inv K leader entries c) {w j : Fin n}
    (h : c.pc w = .fork j) : entries (c.frontier j) = 0 := by
  have hrole : (view entries c).role w = .handling j := by simp [view, h, Pc.role]
  have howes := I.protocol.owes_of_handling (Or.inl hrole)
  have hempty := I.protocol.empty w j howes (by simp [hrole])
  simpa [view] using hempty

/-- Whoever handles a request handles another worker's. -/
theorem Inv.handled_ne {c : Config n F S L B} (I : Inv K leader entries c) {w j : Fin n}
    (h : (c.pc w).role = .handling j) : (c.pc j).role = .waiting w ∨ (c.pc j).role = .gone := by
  rcases I.protocol.owed w j (I.protocol.owes_of_handling (Or.inl h)) with ⟨hwait, -⟩ | hgone
  · exact Or.inl hwait
  · exact Or.inr hgone

/-! ## Conservation -/

/-- Everything there is to do: the input that the leader has not taken yet, the frontiers of all
workers, returned ones included, and the mailboxes. -/
def total (entries : F → Multiset E) (c : Config n F S L B) : Multiset E :=
  entries c.input + ∑ w, entries (c.my_frontier w) + ∑ w, entries (c.frontier w)

/-- **Control steps conserve the entries.** -/
theorem Inv.advance_total (hK : K.Lawful entries) {w : Fin n} {c c' : Config n F S L B}
    (I : Inv K leader entries c) (h : advance K leader w c = some c') :
    total entries c' = total entries c := by
  have hsum := ParallelWhile.sum_update (W := Fin n) entries
  cases hpc : c.pc w
  case fork j =>
    have hmail := I.fork_empty hpc
    obtain ⟨l₀, hsize⟩ := I.splits w (by rw [hpc]; trivial)
    obtain ⟨l, src, dst, hrun, hent, -⟩ := hK.fork l₀ (c.loc w) (c.my_frontier w) (c.frontier j) hsize hmail
    simp only [advance, hpc, hrun, Option.map_some, Option.some.injEq] at h
    subst h
    have hmine := hsum c.my_frontier w src
    have hbox := hsum c.frontier j dst
    rw [hmail, add_zero] at hbox
    simp only [total, Config.goto, Config.setMine]
    rw [hbox]
    apply add_right_cancel (b := entries (c.my_frontier w))
    grind
  case swapInput =>
    simp only [advance, hpc, Option.some.injEq] at h
    subst h
    have hmine := hsum c.my_frontier w c.input
    simp only [total, Config.goto]
    rw [add_comm (entries (c.my_frontier w)), hmine, add_comm (∑ v, entries (c.my_frontier v))]
  case swapMailbox =>
    simp only [advance, hpc, Option.some.injEq] at h
    subst h
    have hmine := hsum c.my_frontier w (c.frontier w)
    have hbox := hsum c.frontier w (c.my_frontier w)
    simp only [total, Config.goto]
    apply add_right_cancel (b := entries (c.my_frontier w) + entries (c.frontier w))
    grind
  all_goals
    simp only [advance, hpc] at h
    repeat' split at h
    all_goals cases h
    all_goals
      simp [total, Config.goto, Config.setMine, Config.storeRequest, Config.storeAnswer, Config.delta]

end PwsaStar.CasRi
