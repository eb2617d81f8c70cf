/-
# PwsaStar.Pbnf.Turn — what one turn of a thread can do, and the system of all threads.

`Turn` says it once, with the tests that were passed on the way; every invariant of the search is proved
from it.
-/
import PwsaStar.Pbnf.Search
import PwsaStar.Lib.Transition

namespace PwsaStar.Pbnf

open PwsaStar.Lib

variable {V : Type} {n : ℕ} [DecidableEq V] [NeZero n]

/-- The lists after the best state of `b` was taken. -/
def Shared.taken (sh : Shared V n) (b : Fin n) (s : V) (node : Node V) (o : OpenList V) : Shared V n :=
  (sh.set_closed s { node with is_open := false }).set_open b o

/-- The node of a child of `s`. -/
def child (s : V) (g c : ℕ) (is_open : Bool) : Node V :=
  { parent := some s, c := c, g := g + c, is_open := is_open }

/-- The turns that only change what the thread itself knows. -/
inductive Private (D : SearchDomain V) (sh : Shared V n) : Phase V n → Phase V n → Prop
  | busy {b} : Private D sh (.next (some b)) (.search b)
  | wake : Private D sh .asleep .woken
  | empty {b} : Private D sh (.search b) (.next (some b))
  | late {b s g t c todo} : sh.bound ≤ D.get_f (g + c) t →
      Private D sh (.children b s g ((t, c) :: todo)) (.children b s g todo)
  | known {b s g t c todo node} : sh.closed t = some node → node.g ≤ g + c →
      Private D sh (.children b s g ((t, c) :: todo)) (.children b s g todo)
  | expanded {b s g} : Private D sh (.children b s g []) (.search b)
  | copy {b cost path p node} : sh.closed p = some node →
      Private D sh (.path b cost path (some p)) (.path b cost (path ++ [p]) node.parent)
  | copied {b cost path} : Private D sh (.path b cost path none) (.solution b cost path)
  | best {b best} : sh.solution = some best → Private D sh (.best b) (.swap b best.1 none)
  | keep {b v} : sh.bound ≤ v → Private D sh (.swap b v none) (.next (some b))
  | read {b v} : v < sh.bound → Private D sh (.swap b v none) (.swap b v (some sh.bound))
  | retry {b v old} : Private D sh (.swap b v (some old)) (.swap b v none)

/-- The turns that a thread makes while it has the mutex, with what it calls on the condition variable. -/
inductive Locked (D : SearchDomain V) (P : Projection V n) (detect_livelocks : Bool) (sh : Shared V n) :
    Phase V n → NBlockGraph n → Phase V n → Notice → Prop
  | lock {f g r c} : sh.graph.next_nblock P sh.view (sh.limit D) f = some (g, r, c) →
      Locked D P detect_livelocks sh (.next f) g (after r) c
  | again {g r bc} : sh.graph.choose P sh.view (sh.limit D) false = some (g, r, bc) →
      Locked D P detect_livelocks sh .woken g (after r) ⟨false, bc⟩
  | look {b l g bc ret} : (sh.opens b).pq.empty = false →
      should_switch P detect_livelocks sh b l = some ((g, bc), ret) →
      Locked D P detect_livelocks sh (.search b) g (if ret then .next (some b) else .take b) ⟨false, bc⟩
  | leave : Locked D P detect_livelocks sh .leave sh.graph.set_done .finished ⟨false, true⟩

/-- What becomes of the best state of an open list. -/
inductive Taken (D : SearchDomain V) (sh : Shared V n) (b : Fin n) (s : V) (g : ℕ) : Phase V n → Prop
  | late : sh.bound ≤ D.get_f g s → Taken D sh b s g (.search b)
  | goal {p} : D.get_f g s < sh.bound → D.is_goal s = true → Taken D sh b s g (.path b g [s] p)
  | expand : D.is_goal s = false → Taken D sh b s g (.children b s g (D.expand s))

/-- **What one turn can do.** -/
inductive Turn (D : SearchDomain V) (P : Projection V n) (detect_livelocks : Bool) (sh : Shared V n) :
    Phase V n → Shared V n → Phase V n → Notice → Prop
  | own {ph ph'} : Private D sh ph ph' → Turn D P detect_livelocks sh ph sh ph' .nothing
  | locked {ph g ph' c} : Locked D P detect_livelocks sh ph g ph' c →
      Turn D P detect_livelocks sh ph { sh with graph := g } ph' c
  | take {b s node o ph'} : (sh.opens b).take D (get_g sh.closed) = some (s, o) → sh.closed s = some node →
      Taken D sh b s node.g ph' → (∀ cost path p, ph' = .path b cost path p → p = node.parent) →
      Turn D P detect_livelocks sh (.take b) (sh.taken b s node o) ph' .nothing
  | update {b s g t c todo dup o} : sh.closed t = some dup → g + c < dup.g → dup.is_open = true →
      (sh.opens (P.project t)).see_update D (get_g (sh.set_closed t (child s g c true)).closed) t = some o →
      Turn D P detect_livelocks sh (.children b s g ((t, c) :: todo))
        ((sh.set_closed t (child s g c true)).set_open (P.project t) o) (.children b s g todo) .nothing
  | reopen {b s g t c todo dup} : sh.closed t = some dup → g + c < dup.g → dup.is_open = false →
      Turn D P detect_livelocks sh (.children b s g ((t, c) :: todo))
        (sh.add_open D P t (child s g c false)) (.children b s g todo) .nothing
  | create {b s g t c todo} : sh.closed t = none → D.is_goal t = false →
      Turn D P detect_livelocks sh (.children b s g ((t, c) :: todo))
        (sh.add_open D P t (child s g c false)) (.children b s g todo) .nothing
  | reach {b s g t c todo} : D.get_f (g + c) t < sh.bound → sh.closed t = none → D.is_goal t = true →
      Turn D P detect_livelocks sh (.children b s g ((t, c) :: todo))
        (sh.set_closed t (child s g c false)) (.path b (g + c) [t] (some s)) .nothing
  | report {b cost path} : Turn D P detect_livelocks sh (.solution b cost path) (see_solution sh cost path)
      (.best b) .nothing
  | swap {b v old} : sh.bound = old → Turn D P detect_livelocks sh (.swap b v (some old))
      { sh with bound := v } (.next (some b)) .nothing

variable {D : SearchDomain V} {P : Projection V n} {detect_livelocks : Bool} {sh sh' : Shared V n}
  {ph ph' : Phase V n}

theorem take_open_cases {b : Fin n} (h : take_open D sh b = some (sh', ph')) :
    Turn D P detect_livelocks sh (.take b) sh' ph' .nothing := by
  simp only [take_open, Option.bind_eq_some_iff, Option.map_eq_some_iff] at h
  obtain ⟨⟨s, o⟩, ho, node, hnode, heq⟩ := h
  have hclosed : (sh.taken b s node o).closed s = some { node with is_open := false } :=
    Function.update_self ..
  have hbound : ((sh.set_closed s { node with is_open := false }).set_open b o).bound = sh.bound := rfl
  rw [hbound] at heq
  split_ifs at heq with hlate hgoal
  · obtain ⟨rfl, rfl⟩ := Prod.mk.inj heq
    exact .take ho hnode (.late hlate) nofun
  · obtain ⟨rfl, rfl⟩ := Prod.mk.inj heq
    have hpath : get_path (sh.taken b s node o) b s = .path b node.g [s] node.parent := by
      rw [get_path, get_g, hclosed]
      rfl
    refine .take ho hnode ?_ ?_
    · show Taken D sh b s node.g (get_path (sh.taken b s node o) b s)
      rw [hpath]
      exact .goal (Nat.lt_of_not_le hlate) hgoal
    · intro cost path p h
      exact (Phase.path.inj (hpath.symm.trans h)).2.2.2.symm
  · obtain ⟨rfl, rfl⟩ := Prod.mk.inj heq
    exact .take ho hnode (.expand (by simpa using hgoal)) nofun

theorem see_child_cases {b : Fin n} {s t : V} {g c : ℕ} {todo : List (V × ℕ)}
    (h : see_child D P sh b s g t c todo = some (sh', ph')) :
    Turn D P detect_livelocks sh (.children b s g ((t, c) :: todo)) sh' ph' .nothing := by
  rw [see_child] at h
  by_cases hlate : sh.bound ≤ D.get_f (g + c) t
  · rw [if_pos hlate] at h
    obtain ⟨rfl, rfl⟩ := Prod.mk.inj (Option.some.inj h)
    exact .own (.late hlate)
  · rw [if_neg hlate] at h
    cases hdup : sh.closed t with
    | some dup =>
      rw [hdup] at h
      simp only at h
      split_ifs at h with hlt hopen
      · obtain ⟨o, ho, heq⟩ := Option.map_eq_some_iff.mp h
        obtain ⟨rfl, rfl⟩ := Prod.mk.inj heq
        have hnode : ({ dup with parent := some s, c := c, g := g + c } : Node V) = child s g c true := by
          rw [child, hopen]
        rw [hnode] at ho ⊢
        exact .update hdup hlt hopen ho
      · obtain ⟨rfl, rfl⟩ := Prod.mk.inj (Option.some.inj h)
        exact .reopen hdup hlt (by simpa using hopen)
      · obtain ⟨rfl, rfl⟩ := Prod.mk.inj (Option.some.inj h)
        exact .own (.known hdup (Nat.le_of_not_lt hlt))
    | none =>
      rw [hdup] at h
      simp only at h
      split_ifs at h with hgoal
      · obtain ⟨rfl, rfl⟩ := Prod.mk.inj (Option.some.inj h)
        have hpath : get_path (sh.set_closed t (child s g c false)) b t = .path b (g + c) [t] (some s) := by
          rw [get_path, get_g, show (sh.set_closed t (child s g c false)).closed t
            = some (child s g c false) from Function.update_self ..]
          rfl
        show Turn D P detect_livelocks sh (.children b s g ((t, c) :: todo))
          (sh.set_closed t (child s g c false)) (get_path (sh.set_closed t (child s g c false)) b t) .nothing
        rw [hpath]
        exact .reach (Nat.lt_of_not_le hlate) hdup hgoal
      · obtain ⟨rfl, rfl⟩ := Prod.mk.inj (Option.some.inj h)
        exact .create hdup (by simpa using hgoal)

omit [DecidableEq V] [NeZero n] in
theorem quiet_inj {r : Shared V n × Phase V n} {c : Notice} (h : quiet r = (sh', ph', c)) :
    r = (sh', ph') ∧ c = .nothing := by
  obtain ⟨hsh, hrest⟩ := Prod.mk.inj h
  obtain ⟨hph, hc⟩ := Prod.mk.inj hrest
  exact ⟨Prod.ext hsh hph, hc.symm⟩

theorem turn_cases {a : Action n} {c : Notice} (h : turn D P detect_livelocks a sh ph = some (sh', ph', c)) :
    Turn D P detect_livelocks sh ph sh' ph' c := by
  -- a turn on its own
  have own : ∀ {q q' : Phase V n}, Private D sh q q' → some (quiet (sh, q')) = some (sh', ph', c) →
      Turn D P detect_livelocks sh q sh' ph' c := by
    intro q q' hown heq
    obtain ⟨hpair, rfl⟩ := quiet_inj (Option.some.inj heq)
    obtain ⟨rfl, rfl⟩ := Prod.mk.inj hpair
    exact .own hown
  cases ph with
  | next finished =>
    cases a with
    | go =>
      obtain ⟨⟨g, r, c'⟩, hr, heq⟩ := Option.map_eq_some_iff.mp h
      simp only [Prod.mk.injEq] at heq
      obtain ⟨rfl, rfl, rfl⟩ := heq
      exact .locked (.lock hr)
    | busy =>
      cases finished with
      | none => exact nomatch h
      | some b =>
        simp only [turn] at h
        split_ifs at h
        exact own .busy h
    | look l => cases finished <;> exact nomatch h
  | asleep => exact own .wake h
  | woken =>
    obtain ⟨⟨g, r, bc⟩, hr, heq⟩ := Option.map_eq_some_iff.mp h
    simp only [Prod.mk.injEq] at heq
    obtain ⟨rfl, rfl, rfl⟩ := heq
    exact .locked (.again hr)
  | search b =>
    simp only [turn] at h
    split_ifs at h with hempty
    · exact own .empty h
    · cases a with
      | look l =>
        obtain ⟨⟨⟨g, bc⟩, ret⟩, hr, heq⟩ := Option.map_eq_some_iff.mp h
        simp only [Prod.mk.injEq] at heq
        obtain ⟨rfl, rfl, rfl⟩ := heq
        exact .locked (.look (by simpa using hempty) hr)
      | go => exact nomatch h
      | busy => exact nomatch h
  | take b =>
    obtain ⟨r, hr, heq⟩ := Option.map_eq_some_iff.mp h
    obtain ⟨rfl, rfl⟩ := quiet_inj heq
    exact take_open_cases hr
  | children b s g todo =>
    cases todo with
    | nil => exact own .expanded h
    | cons tc todo =>
      obtain ⟨r, hr, heq⟩ := Option.map_eq_some_iff.mp h
      obtain ⟨rfl, rfl⟩ := quiet_inj heq
      exact see_child_cases hr
  | path b cost path p =>
    cases p with
    | none => exact own .copied h
    | some p =>
      obtain ⟨node, hnode, heq⟩ := Option.map_eq_some_iff.mp h
      exact own (.copy hnode) (congrArg some heq)
  | solution b cost path =>
    obtain ⟨heq, rfl⟩ := quiet_inj (Option.some.inj h)
    obtain ⟨rfl, rfl⟩ := Prod.mk.inj heq
    exact .report
  | best b =>
    obtain ⟨best, hbest, heq⟩ := Option.map_eq_some_iff.mp h
    exact own (.best hbest) (congrArg some heq)
  | swap b v old =>
    cases old with
    | none =>
      simp only [turn] at h
      split_ifs at h with hle
      · exact own (.keep hle) h
      · exact own (.read (Nat.lt_of_not_le hle)) h
    | some old =>
      simp only [turn] at h
      split_ifs at h with heq
      · obtain ⟨heq', rfl⟩ := quiet_inj (Option.some.inj h)
        obtain ⟨rfl, rfl⟩ := Prod.mk.inj heq'
        exact .swap heq
      · exact own .retry h
  | leave =>
    simp only [turn, Option.some.injEq, Prod.mk.injEq] at h
    obtain ⟨rfl, rfl, rfl⟩ := h
    exact .locked .leave
  | finished => exact nomatch h

/-! ## The system -/

variable {ι : Type} [DecidableEq ι]

/-- The threads of `PBNFSearch::search`, in any interleaving. -/
def searches (ι : Type) [DecidableEq ι] [Inhabited V] (D : SearchDomain V) (P : Projection V n)
    (detect_livelocks : Bool) : System (State ι V n) where
  init s := s = { shared := Shared.initial D P, threads := fun _ => .next none }
  step s s' := ∃ t a woken,
    (∀ r ∈ turn D P detect_livelocks a s.shared (s.threads t), r.2.2.Wakes t s.threads woken) ∧
      s.next D P detect_livelocks t a woken = some s'

/-- Thread `t` has gone to `ph'`, calling `c`, and some of the others have come out of `cond_wait`. -/
structure Moved (t : ι) (ph' : Phase V n) (c : Notice) (threads threads' : ι → Phase V n) : Prop where
  self : threads' t = ph'
  others : ∀ u, u ≠ t → threads' u = threads u ∨ threads u = .asleep ∧ threads' u = .woken
  broadcast : c.broadcast = true → ∀ u, u ≠ t → threads' u ≠ .asleep
  signal : c.signal = true → (∃ u, u ≠ t ∧ threads u = .asleep) →
    ∃ u, u ≠ t ∧ threads u = .asleep ∧ threads' u = .woken

omit [DecidableEq V] [NeZero n] [DecidableEq ι] in
theorem Phase.wake_cases (ph : Phase V n) : ph.wake = ph ∧ ph ≠ .asleep ∨ ph = .asleep ∧ ph.wake = .woken := by
  cases ph with
  | asleep => exact Or.inr ⟨rfl, rfl⟩
  | _ => exact Or.inl ⟨rfl, nofun⟩

omit [DecidableEq V] [NeZero n] in
theorem Notice.Wakes.moved {c : Notice} {t : ι} {threads : ι → Phase V n} {woken : ι → Bool}
    (h : c.Wakes t threads woken) (ph' : Phase V n) : Moved t ph' c threads
      (Function.update (fun u => if woken u then (threads u).wake else threads u) t ph') where
  self := Function.update_self ..
  others u hu := by
    rw [Function.update_of_ne hu]
    split_ifs
    · exact (threads u).wake_cases.imp And.left id
    · exact Or.inl rfl
  broadcast hc u hu := by
    rw [Function.update_of_ne hu, if_pos (h.broadcast hc u hu)]
    rcases (threads u).wake_cases with hwake | hwake
    · exact fun h' => hwake.2 (hwake.1.symm.trans h')
    · rw [hwake.2]
      exact nofun
  signal hc hex := by
    obtain ⟨u, hu, hasleep, hwoken⟩ := h.signal hc hex
    refine ⟨u, hu, hasleep, ?_⟩
    rw [Function.update_of_ne hu, if_pos hwoken, hasleep]
    rfl

omit [DecidableEq V] [NeZero n] [DecidableEq ι] in
/-- Whoever is not asleep stays where it is while another thread moves. -/
theorem Moved.kept {t u : ι} {c : Notice} {threads threads' : ι → Phase V n}
    (h : Moved t ph' c threads threads') (hu : u ≠ t) (hawake : threads u ≠ .asleep) :
    threads' u = threads u :=
  (h.others u hu).resolve_right fun hwake => hawake hwake.1

/-- A step is a turn of one thread, and others may wake up. -/
theorem step_cases [Inhabited V] {s s' : State ι V n} (h : (searches ι D P detect_livelocks).step s s') :
    ∃ t ph' c, Turn D P detect_livelocks s.shared (s.threads t) s'.shared ph' c ∧
      Moved t ph' c s.threads s'.threads := by
  obtain ⟨t, a, woken, hwakes, hnext⟩ := h
  obtain ⟨⟨sh', ph', c⟩, hturn, rfl⟩ := Option.map_eq_some_iff.mp hnext
  exact ⟨t, ph', c, turn_cases hturn, (hwakes _ hturn).moved ph'⟩

theorem go_on_step [Inhabited V] {t : ι} {s s' : State ι V n} (h : s.go_on D P detect_livelocks t = some s') :
    (searches ι D P detect_livelocks).step s s' := by
  obtain ⟨r, hr, hnext⟩ := Option.bind_eq_some_iff.mp h
  refine ⟨t, s.usual t, _, ?_, hnext⟩
  intro r' hr'
  obtain rfl := Option.some.inj (hr.symm.trans hr')
  constructor
  · exact fun hc _ _ => Bool.or_eq_true_iff.mpr (Or.inr hc)
  · rintro hc ⟨u, hu, hasleep⟩
    exact ⟨u, hu, hasleep, Bool.or_eq_true_iff.mpr (Or.inl hc)⟩

/-- A run by hand: the threads that take their turns, and what holds at the end. -/
theorem exists_run [Inhabited V] (D : SearchDomain V) (P : Projection V n) (l : List ι) (Q : State ι V n → Prop)
    [DecidablePred Q] (h : (runSchedule (State.go_on D P true) l ⟨Shared.initial D P, fun _ => .next none⟩).any
      (fun s => decide (Q s)) = true) : ∃ s, (searches ι D P true).Reachable s ∧ Q s :=
  exists_reachable (searches ι D P true) _ (fun _ _ _ h => go_on_step h) rfl l Q h

/-! ## A small search -/

inductive Corner
  | start
  | middle
  | goal
  deriving DecidableEq, Inhabited

/-- From the start to the goal, at once or over the middle. -/
def triangle (direct : ℕ) : SearchDomain Corner where
  expand s := match s with
    | .start => [(.middle, 5), (.goal, direct)]
    | .middle => [(.goal, 7)]
    | .goal => []
  is_goal s := s = .goal
  get_h _ := 0
  weight := fp_one
  initial_state := .start

/-- The goal has an nblock of its own. -/
def halves : Projection Corner 2 where
  project s := match s with
    | .goal => Fin.last 1
    | _ => (Fin.last 1).rev
  get_successors b := [b.rev]
  get_predecessors b := [b.rev]

end PwsaStar.Pbnf
