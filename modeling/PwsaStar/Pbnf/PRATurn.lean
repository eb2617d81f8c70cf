/-
# PwsaStar.Pbnf.PRATurn — what one turn of a thread of PRA* can do.

As for PBNF, everything that is proved of the search is proved from `Turn`.
-/
import PwsaStar.Pbnf.PRAStar

namespace PwsaStar.Pbnf.PRAStar

open PwsaStar.Lib

variable {V : Type} {n : ℕ}

/-- What becomes of a state when it gets into the closed list. -/
def Child.node (m : Child V) (is_open : Bool) : Node V :=
  { g := m.g, c := m.c, parent := some m.parent, is_open := is_open }

/-- The turns in which a thread only moves on. -/
inductive Move (D : SearchDomain V) (home : V → Fin n) (opts : Options) (t : Fin n) (sh : Shared V n) :
    Phase V → Phase V → Prop
  | stop : sh.done = true → Move D home opts t sh .run .finished
  | start : sh.done = false → Move D home opts t sh .run .take
  | flush : opts.async_send = true → Move D home opts t sh .take (.flush true 0 false)
  | sync : opts.async_send = false → Move D home opts t sh .take (.look false)
  | keep_sends : Move D home opts t sh .take (.look true)
  | skip {first i has_sends} (h : i < n) : sh.out_qs t ⟨i, h⟩ = [] →
      Move D home opts t sh (.flush first i has_sends) (.flush first (i + 1) has_sends)
  | busy {first i has_sends} : Move D home opts t sh (.flush first i has_sends) (.flush first (i + 1) true)
  | flushed {first i has_sends} : n ≤ i →
      Move D home opts t sh (.flush first i has_sends) (after_flush first has_sends)
  | look_empty {has_sends} : Move D home opts t sh (.look has_sends) (.test_open has_sends)
  | look {has_sends} : sh.q_empty t = false →
      Move D home opts t sh (.look has_sends) (.receive true has_sends)
  | skip_receive {first has_sends} :
      Move D home opts t sh (.receive first has_sends) (after_receive first has_sends)
  | lock {first has_sends} :
      Move D home opts t sh (.receive first has_sends) (.receiving first has_sends (sh.q t))
  | awake {first has_sends} : sh.q_empty t = false ∨ (n : ℤ) ≤ sh.counter ∨ sh.done = true →
      Move D home opts t sh (.wait first has_sends) (.relock first has_sends)
  | complete {first has_sends} : (n : ℤ) ≤ sh.counter → sh.q_empty t = true →
      Move D home opts t sh (.relock first has_sends) (after_receive first has_sends)
  | relock {first has_sends} : sh.counter < n →
      Move D home opts t sh (.relock first has_sends) (.receiving first has_sends (sh.q t))
  | late {first has_sends m todo} : sh.bound ≤ D.get_f m.g m.state →
      Move D home opts t sh (.receiving first has_sends (m :: todo)) (.receiving first has_sends todo)
  | flush_again : opts.async_send = true → Move D home opts t sh (.test_open true) (.flush false 0 false)
  | sync_again : opts.async_send = false → Move D home opts t sh (.test_open true) (.receive false false)
  | empty : Move D home opts t sh (.test_open false) (.receive false false)
  | some_open {has_sends} : (sh.opens t).pq.empty = false →
      Move D home opts t sh (.test_open has_sends) .take_open
  | again {has_sends} : sh.counter < n →
      Move D home opts t sh (.received has_sends) (.test_open has_sends)
  | null : Move D home opts t sh .take_open .run
  | pruned {s node} : sh.closed s = some node → sh.bound ≤ D.get_f node.g s →
      Move D home opts t sh (.test s) .run
  | goal {s node} : sh.closed s = some node → D.get_f node.g s < sh.bound → D.is_goal s = true →
      Move D home opts t sh (.test s) (.path s node.g [s] node.parent)
  | expand {s} : D.is_goal s = false → Move D home opts t sh (.test s) (expand D sh s)
  | copy {s cost path p node} : sh.closed p = some node →
      Move D home opts t sh (.path s cost path (some p)) (.path s cost (path ++ [p]) node.parent)
  | copied {s cost path} : Move D home opts t sh (.path s cost path none) (.solution s cost path)
  | best {s best} : sh.solution = some best → Move D home opts t sh (.best s) (.swap s best.1 none)
  | keep {s v} : sh.bound ≤ v → Move D home opts t sh (.swap s v none) (PRAStar.expand D sh s)
  | read {s v} : v < sh.bound → Move D home opts t sh (.swap s v none) (.swap s v (some sh.bound))
  | retry {s v old} : Move D home opts t sh (.swap s v (some old)) (.swap s v none)
  | expanded {s g} : Move D home opts t sh (.children s g []) .run
  | late_child {s g x c todo} : sh.bound ≤ D.get_f (g + c) x →
      Move D home opts t sh (.children s g ((x, c) :: todo)) (.children s g todo)
  | send {s g x c todo} : home x ≠ t →
      Move D home opts t sh (.children s g ((x, c) :: todo)) (.send s g todo ⟨x, s, c, g + c⟩)

/-- A thread looks for the state `m` in its closed list: one that it was sent, or one that it generated. -/
inductive Sees (home : V → Fin n) (t : Fin n) : Phase V → Child V → Phase V → Prop
  | received {first has_sends m todo} :
      Sees home t (.receiving first has_sends (m :: todo)) m (.receiving first has_sends todo)
  | own {s g x c todo} : home x = t →
      Sees home t (.children s g ((x, c) :: todo)) ⟨x, s, c, g + c⟩ (.children s g todo)

variable [DecidableEq V]

/-- **What one turn can do.** -/
inductive Turn (D : SearchDomain V) (home : V → Fin n) (opts : Options) (locked : Fin n → Bool) (t : Fin n)
    (sh : Shared V n) : Phase V → Shared V n → Phase V → Prop
  | own {ph ph'} (expansions) : Move D home opts t sh ph ph' →
      Turn D home opts locked t sh ph { sh with expansions := expansions } ph'
  | known {ph m ph' dup} : Sees home t ph m ph' → sh.closed m.state = some dup → dup.g ≤ m.g →
      Turn D home opts locked t sh ph sh ph'
  | update {ph m ph' dup o} : Sees home t ph m ph' → sh.closed m.state = some dup → m.g < dup.g →
      dup.is_open = true →
      (sh.opens t).see_update D (get_g (set_closed sh m.state (m.node true)).closed) m.state = some o →
      Turn D home opts locked t sh ph (set_open (set_closed sh m.state (m.node true)) t o) ph'
  | reopen {ph m ph' dup} : Sees home t ph m ph' → sh.closed m.state = some dup → m.g < dup.g →
      dup.is_open = false → Turn D home opts locked t sh ph (add_open D t sh m.state (m.node false)) ph'
  | create {ph m ph'} : Sees home t ph m ph' → sh.closed m.state = none →
      Turn D home opts locked t sh ph (add_open D t sh m.state (m.node false)) ph'
  | flush {first i has_sends} (h : i < n) : sh.out_qs t ⟨i, h⟩ ≠ [] → locked ⟨i, h⟩ = false →
      Turn D home opts locked t sh (.flush first i has_sends)
        (set_buffer (push sh ⟨i, h⟩ (sh.out_qs t ⟨i, h⟩)) t ⟨i, h⟩ []) (.flush first (i + 1) has_sends)
  | buffer {s g todo m} : opts.async_send = true → Turn D home opts locked t sh (.send s g todo m)
      (set_buffer sh t (home m.state) (sh.out_qs t (home m.state) ++ [m])) (.children s g todo)
  | send_all {s g todo m} : opts.async_send = true → locked (home m.state) = false →
      Turn D home opts locked t sh (.send s g todo m)
        (set_buffer (push sh (home m.state) (sh.out_qs t (home m.state) ++ [m])) t (home m.state) [])
        (.children s g todo)
  | send {s g todo m} : opts.async_send = false → locked (home m.state) = false →
      Turn D home opts locked t sh (.send s g todo m) (push sh (home m.state) [m]) (.children s g todo)
  | complete {first} : sh.q_empty t = true → (sh.opens t).pq.empty = true →
      Turn D home opts locked t sh (.receive first false)
        { sh with completed := Function.update sh.completed t true, counter := sh.counter + 1 }
        (.wait first false)
  | clear {first has_sends} : Turn D home opts locked t sh (.receiving first has_sends [])
      { sh with q := Function.update sh.q t [], q_empty := Function.update sh.q_empty t true }
      (after_receive first has_sends)
  | finish {has_sends} : (n : ℤ) ≤ sh.counter →
      Turn D home opts locked t sh (.received has_sends) { sh with done := true } .run
  | take {s node o} : sh.done = false → (sh.opens t).take D (get_g sh.closed) = some (s, o) →
      sh.closed s = some node →
      Turn D home opts locked t sh .take_open
        (set_open (set_closed sh s { node with is_open := false }) t o) (.test s)
  | report {s cost path} :
      Turn D home opts locked t sh (.solution s cost path) (see_solution sh cost path) (.best s)
  | swap {s v old} : sh.bound = old →
      Turn D home opts locked t sh (.swap s v (some old)) { sh with bound := v } (expand D sh s)

variable {D : SearchDomain V} {home : V → Fin n} {opts : Options} {locked : Fin n → Bool} {t : Fin n}
  {sh sh' : Shared V n} {ph ph' : Phase V}

/-- A turn after which all is as before, but for where the thread is. -/
theorem Turn.move (h : Move D home opts t sh ph ph') : Turn D home opts locked t sh ph sh ph' :=
  .own sh.expansions h

theorem see_state_cases {m : Child V} (hsees : Sees home t ph m ph') (h : see_state D t sh m = some sh') :
    Turn D home opts locked t sh ph sh' ph' := by
  rw [see_state] at h
  cases hdup : sh.closed m.state with
  | none =>
    rw [hdup] at h
    cases h
    exact .create hsees hdup
  | some dup =>
    rw [hdup] at h
    simp only at h
    split_ifs at h with hlt hopen
    · obtain ⟨o, ho, rfl⟩ := Option.map_eq_some_iff.mp h
      have hnode : ({ dup with parent := some m.parent, c := m.c, g := m.g } : Node V) = m.node true := by
        rw [Child.node, hopen]
      rw [hnode] at ho ⊢
      exact .update hsees hdup hlt hopen ho
    · cases h
      exact .reopen hsees hdup hlt (by simpa using hopen)
    · cases h
      exact .known hsees hdup (Nat.le_of_not_lt hlt)

theorem take_state_cases (hdone : sh.done = false) (h : take_state D sh t = some (sh', ph')) :
    Turn D home opts locked t sh .take_open sh' ph' := by
  simp only [take_state, Option.bind_eq_some_iff, Option.map_eq_some_iff] at h
  obtain ⟨⟨s, o⟩, ho, node, hnode, heq⟩ := h
  cases heq
  exact .take hdone ho hnode

/-- Every turn of the loop over the buffers. -/
theorem flush_cases {first has_sends : Bool} {i : ℕ} {a : Action}
    (h : turn D home opts locked t a sh (.flush first i has_sends) = some (sh', ph')) :
    Turn D home opts locked t sh (.flush first i has_sends) sh' ph' := by
  by_cases hi : i < n
  · by_cases hnil : sh.out_qs t ⟨i, hi⟩ = []
    · simp only [turn, dif_pos hi, if_pos hnil] at h
      cases h
      exact .move (.skip hi hnil)
    · simp only [turn, dif_pos hi, if_neg hnil] at h
      cases a with
      | busy =>
        cases h
        exact .move .busy
      | go =>
        dsimp only at h
        split_ifs at h with hlocked
        cases h
        exact .flush hi hnil (by simpa using hlocked)
  · simp only [turn, dif_neg hi] at h
    cases h
    exact .move (.flushed (Nat.le_of_not_lt hi))

theorem send_cases {s : V} {g : ℕ} {todo : List (V × ℕ)} {m : Child V} {a : Action}
    (h : turn D home opts locked t a sh (.send s g todo m) = some (sh', ph')) :
    Turn D home opts locked t sh (.send s g todo m) sh' ph' := by
  cases hasync : opts.async_send with
  | true =>
    simp only [turn, hasync, if_true] at h
    cases a with
    | busy =>
      cases h
      exact .buffer hasync
    | go =>
      dsimp only at h
      split_ifs at h with hlocked
      cases h
      exact .send_all hasync (by simpa using hlocked)
  | false =>
    simp only [turn, hasync, Bool.false_eq_true, if_false] at h
    cases a with
    | busy => exact nomatch h
    | go =>
      dsimp only at h
      split_ifs at h with hlocked
      cases h
      exact .send hasync (by simpa using hlocked)

/-- Every turn of `take` and of what it calls, but for the two loops. -/
theorem take_cases {a : Action} (h : turn D home opts locked t a sh ph = some (sh', ph'))
    (hph : ph = .take ∨ (∃ has_sends, ph = .look has_sends) ∨ (∃ first has_sends, ph = .receive first has_sends)
      ∨ (∃ has_sends, ph = .test_open has_sends) ∨ ph = .take_open) :
    Turn D home opts locked t sh ph sh' ph' := by
  rcases hph with rfl | ⟨has_sends, rfl⟩ | ⟨first, has_sends, rfl⟩ | ⟨has_sends, rfl⟩ | rfl
  · simp only [turn, flush_sends, after_flush, if_true] at h
    split_ifs at h with hflush hasync
    · cases h
      exact .own _ (.flush hasync)
    · cases h
      exact .own _ (.sync (by simpa using hasync))
    · cases h
      exact .own _ .keep_sends
  · simp only [turn] at h
    split_ifs at h with hempty
    · cases h
      exact .move .look_empty
    · cases h
      exact .move (.look (by simpa using hempty))
  · cases a with
    | busy =>
      simp only [turn] at h
      split_ifs at h
      cases h
      exact .move .skip_receive
    | go =>
      simp only [turn] at h
      split_ifs at h with hidle
      · cases h
        obtain ⟨hq, hsends, hopen⟩ := hidle
        obtain rfl : has_sends = false := by simpa using hsends
        exact .complete hq hopen
      · cases h
        exact .move .lock
  · simp only [turn, flush_sends, after_flush, Bool.false_eq_true, if_false] at h
    split_ifs at h with hempty hsends hasync
    · cases h
      subst hsends
      exact .own _ (.flush_again hasync)
    · cases h
      subst hsends
      exact .move (.sync_again (by simpa using hasync))
    · cases h
      obtain rfl : has_sends = false := by simpa using hsends
      exact .move .empty
    · cases h
      exact .move (.some_open (by simpa using hempty))
  · simp only [turn] at h
    split_ifs at h with hdone
    · cases h
      exact .move .null
    · exact take_state_cases (by simpa using hdone) h

/-- Every turn in `set_path`. -/
theorem set_path_cases {a : Action} (h : turn D home opts locked t a sh ph = some (sh', ph'))
    (hph : (∃ s cost path p, ph = .path s cost path p) ∨ (∃ s cost path, ph = .solution s cost path)
      ∨ (∃ s, ph = .best s) ∨ ∃ s v old, ph = .swap s v old) :
    Turn D home opts locked t sh ph sh' ph' := by
  rcases hph with ⟨s, cost, path, p, rfl⟩ | ⟨s, cost, path, rfl⟩ | ⟨s, rfl⟩ | ⟨s, v, old, rfl⟩
  · cases p with
    | none =>
      cases h
      exact .move .copied
    | some p =>
      obtain ⟨node, hnode, heq⟩ := Option.map_eq_some_iff.mp h
      cases heq
      exact .move (.copy hnode)
  · cases h
    exact .report
  · obtain ⟨best, hbest, heq⟩ := Option.map_eq_some_iff.mp h
    cases heq
    exact .move (.best hbest)
  · cases old with
    | none =>
      simp only [turn] at h
      split_ifs at h with hle
      · cases h
        exact .move (.keep hle)
      · cases h
        exact .move (.read (Nat.lt_of_not_le hle))
    | some old =>
      simp only [turn] at h
      split_ifs at h with heq
      · cases h
        exact .swap heq
      · cases h
        exact .move .retry

theorem turn_cases {a : Action} (h : turn D home opts locked t a sh ph = some (sh', ph')) :
    Turn D home opts locked t sh ph sh' ph' := by
  cases ph with
  | run =>
    simp only [turn] at h
    cases h
    split_ifs with hdone
    · exact .move (.stop hdone)
    · exact .move (.start (by simpa using hdone))
  | take => exact take_cases h (Or.inl rfl)
  | flush first i has_sends => exact flush_cases h
  | look has_sends => exact take_cases h (Or.inr (Or.inl ⟨_, rfl⟩))
  | receive first has_sends => exact take_cases h (Or.inr (Or.inr (Or.inl ⟨_, _, rfl⟩)))
  | wait first has_sends =>
    simp only [turn] at h
    split_ifs at h with hwait
    cases h
    refine .move (.awake ?_)
    rw [not_and_or, not_and_or, not_not, not_not] at hwait
    simpa using hwait
  | relock first has_sends =>
    simp only [turn] at h
    split_ifs at h with hcomplete hempty
    · cases h
      exact .move (.complete hcomplete hempty)
    · cases h
      exact .move (.relock (not_le.mp hcomplete))
  | receiving first has_sends todo =>
    cases todo with
    | nil =>
      cases h
      exact .clear
    | cons m todo =>
      simp only [turn] at h
      split_ifs at h with hlate
      · cases h
        exact .move (.late hlate)
      · obtain ⟨sh'', hsee, heq⟩ := Option.map_eq_some_iff.mp h
        cases heq
        exact see_state_cases .received hsee
  | test_open has_sends => exact take_cases h (Or.inr (Or.inr (Or.inr (Or.inl ⟨_, rfl⟩))))
  | received has_sends =>
    simp only [turn] at h
    split_ifs at h with hcomplete
    · cases h
      exact .finish hcomplete
    · cases h
      exact .move (.again (not_le.mp hcomplete))
  | take_open => exact take_cases h (Or.inr (Or.inr (Or.inr (Or.inr rfl))))
  | test s =>
    obtain ⟨node, hnode, heq⟩ := Option.map_eq_some_iff.mp h
    split_ifs at heq with hlate hgoal
    · cases heq
      exact .move (.pruned hnode hlate)
    · cases heq
      exact .move (.goal hnode (Nat.lt_of_not_le hlate) hgoal)
    · cases heq
      exact .move (.expand (by simpa using hgoal))
  | path s cost path p => exact set_path_cases h (Or.inl ⟨_, _, _, _, rfl⟩)
  | solution s cost path => exact set_path_cases h (Or.inr (Or.inl ⟨_, _, _, rfl⟩))
  | best s => exact set_path_cases h (Or.inr (Or.inr (Or.inl ⟨_, rfl⟩)))
  | swap s v old => exact set_path_cases h (Or.inr (Or.inr (Or.inr ⟨_, _, _, rfl⟩)))
  | children s g todo =>
    cases todo with
    | nil =>
      cases h
      exact .move .expanded
    | cons xc todo =>
      obtain ⟨x, c⟩ := xc
      simp only [turn] at h
      split_ifs at h with hlate hhome
      · cases h
        exact .move (.late_child hlate)
      · obtain ⟨sh'', hsee, heq⟩ := Option.map_eq_some_iff.mp h
        cases heq
        exact see_state_cases (.own hhome) hsee
      · cases h
        exact .move (.send hhome)
  | send s g todo m => exact send_cases h
  | finished => exact nomatch h

/-- A step is a turn of one thread. -/
theorem step_cases [Inhabited V] {s s' : State V n} (h : (searches D home opts).step s s') :
    ∃ t ph', Turn D home opts (fun d => (s.threads d).locks) t s.shared (s.threads t) s'.shared ph' ∧
      s'.threads = Function.update s.threads t ph' := by
  obtain ⟨t, a, hnext⟩ := h
  obtain ⟨⟨sh', ph'⟩, hturn, rfl⟩ := Option.map_eq_some_iff.mp hnext
  exact ⟨t, ph', turn_cases hturn, rfl⟩

/-- A run by hand: the threads that take their turns, and what holds at the end. -/
theorem exists_run [Inhabited V] (D : SearchDomain V) (home : V → Fin n) (opts : Options) (l : List (Fin n))
    (Q : State V n → Prop) [DecidablePred Q]
    (h : (runSchedule (fun t s => State.next D home opts s t .go) l
      ⟨Shared.initial D home, fun _ => .run⟩).any (fun s => decide (Q s)) = true) :
    ∃ s, (searches D home opts).Reachable s ∧ Q s :=
  exists_reachable (searches D home opts) _ (fun t _ _ h => ⟨t, .go, h⟩) rfl l Q h

end PwsaStar.Pbnf.PRAStar
