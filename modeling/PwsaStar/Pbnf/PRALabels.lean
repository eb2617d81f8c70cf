/-
# PwsaStar.Pbnf.PRALabels — the lists, costs and paths of PRA* are those of PBNF.

Where a turn of PRA* changes the lists, the bound or the solution, it is a turn that PBNF could make as well,
with the threads for nblocks; so what PBNF keeps of them, PRA* keeps.  A state that was sent is a child of its
parent that is still to be looked at.
-/
import PwsaStar.Pbnf.PRACompletion
import PwsaStar.Pbnf.Optimal

namespace PwsaStar.Pbnf.PRAStar

open PwsaStar.Lib

variable {V : Type} {n : ℕ}

/-- The threads, as nblocks. -/
def sending (home : V → Fin n) : Projection V n where
  project := home
  get_successors _ := []
  get_predecessors _ := []

/-- What PBNF has of it, too; the graph stays as it is. -/
def Shared.base [NeZero n] (sh : Shared V n) : Pbnf.Shared V n where
  closed := sh.closed
  opens := sh.opens
  graph := ⟨fun _ => 0, fun _ => 0, fun _ => false, fun _ => false, n, PriorityQueue.new, true⟩
  bound := sh.bound
  solution := sh.solution

/-- Where a thread of PBNF would be; `leave` stands for all that only PRA* has.  A thread that sends a child
is not done with it. -/
def Phase.base (home : V → Fin n) : Phase V → Pbnf.Phase V n
  | .path s cost copies p => .path (home s) cost copies p
  | .solution s cost copies => .solution (home s) cost copies
  | .best s => .best (home s)
  | .swap s v old => .swap (home s) v old
  | .children s g todo => .children (home s) s g todo
  | .send s g todo m => .children (home s) s g ((m.state, m.c) :: todo)
  | _ => .leave

/-- The state that a thread has taken and is to expand. -/
def Phase.hand : Phase V → Option V
  | .test s => some s
  | .path s _ _ _ => some s
  | .solution s _ _ => some s
  | .best s => some s
  | .swap s _ _ => some s
  | _ => none

/-- A child of its parent, at the cost of a walk. -/
def Real [NeZero n] (D : SearchDomain V) (sh : Shared V n) (m : Child V) : Prop :=
  (m.state, m.c) ∈ D.expand m.parent ∧
    ∃ g, m.g = g + m.c ∧ D.graph.Walk D.initial_state m.parent g
      ∧ ∃ node, sh.base.closed m.parent = some node ∧ node.g ≤ g

/-- What holds of a thread. -/
structure Aware [NeZero n] (D : SearchDomain V) (home : V → Fin n) (sh : Shared V n) (ph : Phase V) : Prop where
  shape : Shape D (sending home) (ph.base home)
  knows : Knows D sh.base (ph.base home)
  hand : ∀ s, ph.hand = some s → ∃ node, sh.closed s = some node
  sends : ∀ s g todo m, ph = .send s g todo m → m.parent = s ∧ m.g = g + m.c
  todo : ∀ first has_sends todo, ph = .receiving first has_sends todo → ∀ m ∈ todo, Real D sh m

/-- **Costs and paths are real**, on the way as well. -/
structure Sound [NeZero n] (D : SearchDomain V) (home : V → Fin n) (s : State V n) : Prop where
  lists : Lists D (sending home) s.shared.base
  labels : Labels D s.shared.base
  threads : ∀ u, Aware D home s.shared (s.threads u)
  buffered : ∀ u d, ∀ m ∈ s.shared.out_qs u d, Real D s.shared m
  queued : ∀ u, ∀ m ∈ s.shared.q u, Real D s.shared m

section Turns

variable [NeZero n] {D : SearchDomain V} {home : V → Fin n} {opts : Options} {locked : Fin n → Bool}
  {sh sh' : Shared V n} {t u : Fin n} {ph ph' : Phase V} {m : Child V}

theorem Real.mono (hi : Improves sh.base sh'.base) (h : Real D sh m) : Real D sh' m := by
  rcases h with ⟨harc, g, hg, hwalk, node, hnode, hle⟩
  rcases hi.closed _ node hnode with ⟨node', hnode', hle'⟩
  exact ⟨harc, g, hg, hwalk, node', hnode', hle'.trans hle⟩

theorem Aware.mono (hi : Improves sh.base sh'.base) (h : Aware D home sh ph) : Aware D home sh' ph where
  shape := h.shape
  knows := h.knows.mono hi
  hand s hs := by
    rcases h.hand s hs with ⟨node, hnode⟩
    rcases hi.closed s node hnode with ⟨node', hnode', -⟩
    exact ⟨node', hnode'⟩
  sends := h.sends
  todo first has_sends todo hph m hm := (h.todo first has_sends todo hph m hm).mono hi

/-- The next child of a state that is expanded is real. -/
theorem Aware.real {s x : V} {g c : ℕ} {todo : List (V × ℕ)} {b : Fin n}
    (hshape : Shape D (sending home) (.children b s g ((x, c) :: todo)))
    (hknows : Knows D sh.base (.children b s g ((x, c) :: todo))) : Real D sh ⟨x, s, c, g + c⟩ :=
  ⟨hshape.child, g, rfl, hknows.1, hknows.2⟩

/-- What a thread looks at is real, and its own. -/
theorem Sees.real (h : Sees home t ph m ph') (ha : Aware D home sh ph) (hd : Duty home sh t ph) :
    Real D sh m ∧ home m.state = t := by
  cases h with
  | received => exact ⟨ha.todo _ _ _ rfl _ List.mem_cons_self, hd.2 _ List.mem_cons_self⟩
  | own hhome => exact ⟨Aware.real ha.shape ha.knows, hhome⟩

/-- A message as the turn of PBNF that looks at it. -/
theorem Real.shape (h : Real D sh m) : ∃ g todo, m.g = g + m.c
    ∧ Shape D (sending home) (.children (home m.parent) m.parent g ((m.state, m.c) :: todo))
    ∧ Knows D sh.base (.children (home m.parent) m.parent g ((m.state, m.c) :: todo)) := by
  rcases h with ⟨harc, g, hg, hwalk, hnode⟩
  rcases List.append_of_mem harc with ⟨pre, todo, hexpand⟩
  exact ⟨g, todo, hg, ⟨rfl, pre, hexpand⟩, hwalk, hnode⟩

variable [DecidableEq V]

omit [NeZero n] [DecidableEq V] in
/-- What a state that was taken would become in PBNF. -/
theorem exists_taken (D : SearchDomain V) (sh : Pbnf.Shared V n) (b : Fin n) (s : V) (node : Node V) :
    ∃ ph', Taken D sh b s node.g ph' ∧ ∀ cost path p, ph' = .path b cost path p → p = node.parent := by
  cases hgoal : D.is_goal s with
  | false => exact ⟨_, .expand hgoal, nofun⟩
  | true =>
    rcases Nat.lt_or_ge (D.get_f node.g s) sh.bound with hlt | hle
    · exact ⟨_, .goal hlt hgoal, fun cost path p h => (Pbnf.Phase.path.inj h).2.2.2.symm⟩
    · exact ⟨_, .late hle, nofun⟩

/-- **What a turn changes of the lists, PBNF could change**, but for a goal, which PRA* opens. -/
theorem Turn.search (h : Turn D home opts locked t sh ph sh' ph') (hlists : Lists D (sending home) sh.base)
    (hlabels : Labels D sh.base) (ha : Aware D home sh ph) (hd : Duty home sh t ph) :
    Improves sh.base sh'.base ∧ Lists D (sending home) sh'.base ∧ Labels D sh'.base := by
  have hpbnf : ∀ {pb pb' : Pbnf.Phase V n}, Shape D (sending home) pb → Knows D sh.base pb →
      Pbnf.Turn D (sending home) true sh.base pb sh'.base pb' .nothing →
        Improves sh.base sh'.base ∧ Lists D (sending home) sh'.base ∧ Labels D sh'.base :=
    fun hshape hknows h => ⟨h.improves hshape, hlists.turn h, hlabels.turn hknows hshape h⟩
  -- a state that a thread looks at, as a child of its parent
  have hchild : ∀ m, Sees home t ph m ph' → ∃ g todo, (∀ is_open, m.node is_open = child m.parent g m.c is_open)
      ∧ m.g = g + m.c ∧ (sending home).project m.state = t
      ∧ Shape D (sending home) (.children (home m.parent) m.parent g ((m.state, m.c) :: todo))
      ∧ Knows D sh.base (.children (home m.parent) m.parent g ((m.state, m.c) :: todo)) := by
    intro m hm
    rcases hm.real ha hd with ⟨hreal, hhome⟩
    rcases hreal.shape with ⟨g, todo, hg, hshape, hknows⟩
    exact ⟨g, todo, fun is_open => by rw [Child.node, child, hg], hg, hhome, hshape, hknows⟩
  cases h with
  | @update ph m ph' dup o hm hdup hlt hopen ho =>
    rcases hchild m hm with ⟨g, todo, hnode, hg, rfl, hshape, hknows⟩
    rw [hnode] at ho hpbnf ⊢
    exact hpbnf hshape hknows (.update hdup (hg ▸ hlt) hopen ho)
  | @reopen ph m ph' dup hm hdup hlt hopen =>
    rcases hchild m hm with ⟨g, todo, hnode, hg, rfl, hshape, hknows⟩
    rw [hnode] at hpbnf ⊢
    exact hpbnf hshape hknows (.reopen hdup (hg ▸ hlt) hopen)
  | @create ph m ph' hm hnone =>
    rcases hchild m hm with ⟨g, todo, hnode, hg, rfl, hshape, hknows⟩
    have hnew : ∀ {P : Node V → Prop}, ∀ dup, sh.base.closed m.state = some dup → P dup :=
      fun dup hdup => absurd (hnone.symm.trans hdup) (Option.some_ne_none dup).symm
    rw [hnode]
    exact ⟨Improves.set_closed (t := m.state) hnew rfl rfl rfl, hlists.add_open hnew,
      hlabels.set_closed hknows hshape.child hnew rfl rfl rfl⟩
  | @take s node o hdone ho hnode =>
    rcases exists_taken D sh.base t s node with ⟨pb', htaken, hparent⟩
    have hshape : Shape D (sending home) (.take t) := trivial
    have hknows : Knows D sh.base (.take t) := trivial
    exact hpbnf hshape hknows (.take ho hnode htaken hparent)
  | report => exact hpbnf ha.shape ha.knows .report
  | swap heq => exact hpbnf ha.shape ha.knows (.swap heq)
  | _ => exact ⟨.refl _, hlists, hlabels⟩

omit [DecidableEq V] in
/-- A thread that has no state. -/
theorem Aware.outside (hbase : ph.base home = .leave) (hhand : ph.hand = none)
    (htodo : ∀ first has_sends todo, ph ≠ .receiving first has_sends todo) : Aware D home sh ph where
  shape := by
    rw [hbase]
    trivial
  knows := by
    rw [hbase]
    trivial
  hand s hs := nomatch hhand.symm.trans hs
  sends s g todo m hm := by
    rw [hm] at hbase
    exact nomatch hbase
  todo first has_sends todo hph := absurd hph (htodo first has_sends todo)

omit [DecidableEq V] in
/-- A thread in the loop over its queue. -/
theorem Aware.receiving {first has_sends : Bool} {todo : List (Child V)} (h : ∀ m ∈ todo, Real D sh m) :
    Aware D home sh (.receiving first has_sends todo) where
  shape := trivial
  knows := trivial
  hand := nofun
  sends := nofun
  todo _ _ _ hph := by
    cases hph
    exact h

omit [DecidableEq V] in
/-- A thread begins with the children of `s`. -/
theorem Aware.expand (hlabels : Labels D sh.base) {s : V} {node : Node V} (hnode : sh.closed s = some node) :
    Aware D home sh (expand D sh s) where
  shape := ⟨rfl, [], rfl⟩
  knows := by
    have hg : get_g sh.closed s = node.g := by
      rw [get_g, hnode]
      rfl
    show D.graph.Walk D.initial_state s (get_g sh.closed s) ∧ ∃ x, sh.closed s = some x ∧ x.g ≤ get_g sh.closed s
    rw [hg]
    exact ⟨hlabels.walk s node hnode, node, hnode, le_refl _⟩
  hand := nofun
  sends := nofun
  todo := nofun

omit [DecidableEq V] in
/-- The same children of `s`, or all but the first one. -/
theorem Aware.children (hi : Improves sh.base sh'.base) {s : V} {g : ℕ} {todo todo' : List (V × ℕ)}
    (hshape : Shape D (sending home) (.children (home s) s g todo'))
    (hknows : Knows D sh.base (.children (home s) s g todo)) : Aware D home sh' (.children s g todo') where
  shape := hshape
  knows := by
    have hknows' : Knows D sh.base (.children (home s) s g todo') := hknows
    exact hknows'.mono hi
  hand := nofun
  sends := nofun
  todo := nofun

/-- A turn of `set_path`. -/
theorem Aware.set_path (ha : Aware D home sh ph) (hlists : Lists D (sending home) sh.base)
    (hlabels : Labels D sh.base) (hi : Improves sh.base sh'.base)
    (h : Pbnf.Turn D (sending home) true sh.base (ph.base home) sh'.base (ph'.base home) .nothing)
    (hhand : ph'.hand = ph.hand) (hsends : ∀ s g todo m, ph' ≠ .send s g todo m)
    (htodo : ∀ first has_sends todo, ph' ≠ .receiving first has_sends todo) : Aware D home sh' ph' where
  shape := ha.shape.turn hlists h
  knows := Knows.turn hlabels ha.knows ha.shape h
  hand s hs := by
    rcases ha.hand s (hhand ▸ hs) with ⟨node, hnode⟩
    rcases hi.closed s node hnode with ⟨node', hnode', -⟩
    exact ⟨node', hnode'⟩
  sends s g todo m hm := absurd hm (hsends s g todo m)
  todo first has_sends todo hph := absurd hph (htodo first has_sends todo)

omit [DecidableEq V] in
theorem Aware.after_flush (first has_sends : Bool) : Aware D home sh (after_flush first has_sends) := by
  cases first <;> exact .outside rfl rfl nofun

omit [DecidableEq V] in
theorem Aware.after_receive (first has_sends : Bool) : Aware D home sh (after_receive first has_sends) := by
  cases first <;> exact .outside rfl rfl nofun

theorem Move.aware (h : Move D home opts t sh ph ph') (ha : Aware D home sh ph)
    (hq : ∀ m ∈ sh.q t, Real D sh m) (hlists : Lists D (sending home) sh.base) (hlabels : Labels D sh.base) :
    Aware D home sh ph' := by
  have hpath : ∀ {ph'}, Private D sh.base (ph.base home) (ph'.base home) → ph'.hand = ph.hand →
      (∀ s g todo m, ph' ≠ .send s g todo m) →
      (∀ first has_sends todo, ph' ≠ .receiving first has_sends todo) → Aware D home sh ph' :=
    fun h => ha.set_path hlists hlabels (.refl _) (.own h)
  cases h with
  | flushed hn => exact .after_flush _ _
  | skip_receive => exact .after_receive _ _
  | complete hcomplete hempty => exact .after_receive _ _
  | @goal s node hnode hlt hgoal =>
    refine ⟨trivial, ?_, ?_, nofun, nofun⟩
    · show Knows D sh.base (.path (home s) node.g ([] ++ [s]) node.parent)
      exact hlabels.follow (hlabels.finite hlt) hgoal .nil hnode (le_refl _)
    · intro s' hs'
      cases hs'
      exact ⟨node, hnode⟩
  | @expand s hgoal =>
    rcases ha.hand s rfl with ⟨node, hnode⟩
    exact .expand hlabels hnode
  | copy hnode => exact hpath (.copy hnode) rfl nofun nofun
  | copied => exact hpath .copied rfl nofun nofun
  | best hbest => exact hpath (.best hbest) rfl nofun nofun
  | @keep s v hle =>
    rcases ha.hand s rfl with ⟨node, hnode⟩
    exact .expand hlabels hnode
  | read hlt => exact hpath (.read hlt) rfl nofun nofun
  | retry => exact hpath .retry rfl nofun nofun
  | lock => exact .receiving hq
  | relock hlt => exact .receiving hq
  | late hlate => exact .receiving fun m hm => ha.todo _ _ _ rfl m (List.mem_cons_of_mem _ hm)
  | late_child hlate => exact .children (.refl _) ha.shape.tail ha.knows
  | @send s g x c todo hhome =>
    refine ⟨ha.shape, ha.knows, nofun, ?_, nofun⟩
    intro s' g' todo' m hm
    cases hm
    exact ⟨rfl, rfl⟩
  | _ => exact .outside rfl rfl nofun

theorem Aware.turn (ha : Aware D home sh ph) (hq : ∀ m ∈ sh.q t, Real D sh m)
    (hlists : Lists D (sending home) sh.base) (hlabels : Labels D sh.base) (hlabels' : Labels D sh'.base)
    (hi : Improves sh.base sh'.base) (h : Turn D home opts locked t sh ph sh' ph') : Aware D home sh' ph' := by
  have hsees : ∀ {m}, Sees home t ph m ph' → Aware D home sh' ph' := by
    intro m hm
    cases hm with
    | received =>
      have hreal := ha.todo _ _ _ rfl
      exact .receiving fun m hm => (hreal m (List.mem_cons_of_mem _ hm)).mono hi
    | own hhome => exact .children hi ha.shape.tail ha.knows
  have hpath : Pbnf.Turn D (sending home) true sh.base (ph.base home) sh'.base (ph'.base home) .nothing →
      ph'.hand = ph.hand → (∀ s g todo m, ph' ≠ .send s g todo m) →
      (∀ first has_sends todo, ph' ≠ .receiving first has_sends todo) → Aware D home sh' ph' :=
    ha.set_path hlists hlabels hi
  cases h with
  | own expansions hmove => exact (hmove.aware ha hq hlists hlabels).mono hi
  | known hm hdup hle => exact hsees hm
  | update hm hdup hlt hopen ho => exact hsees hm
  | reopen hm hdup hlt hopen => exact hsees hm
  | create hm hnone => exact hsees hm
  | flush hi' hne hlocked => exact .outside rfl rfl nofun
  | buffer hasync => exact .children hi ha.shape.tail ha.knows
  | send_all hasync hlocked => exact .children hi ha.shape.tail ha.knows
  | send hsync hlocked => exact .children hi ha.shape.tail ha.knows
  | complete hempty hpq => exact .outside rfl rfl nofun
  | clear => exact .after_receive _ _
  | finish hcomplete => exact .outside rfl rfl nofun
  | @take s node o hdone ho hnode =>
    refine ⟨trivial, trivial, ?_, nofun, nofun⟩
    intro s' hs'
    cases hs'
    exact ⟨_, Function.update_self ..⟩
  | report => exact hpath .report rfl nofun nofun
  | @swap s v old heq =>
    rcases ha.hand s rfl with ⟨node, hnode⟩
    have hclosed : ({ sh with bound := v } : Shared V n).closed s = some node := hnode
    exact .expand hlabels' hclosed

/-! ## What is sent -/

omit [NeZero n] [DecidableEq V] in
theorem mem_set_buffer {d e : Fin n} {msgs : List (Child V)} (h : m ∈ (set_buffer sh t d msgs).out_qs u e) :
    m ∈ msgs ∨ m ∈ sh.out_qs u e := by
  rw [show (set_buffer sh t d msgs).out_qs = Function.update sh.out_qs t (Function.update (sh.out_qs t) d msgs)
    from rfl] at h
  by_cases hu : u = t
  · subst hu
    rw [Function.update_self] at h
    by_cases he : e = d
    · subst he
      rw [Function.update_self] at h
      exact Or.inl h
    · rw [Function.update_of_ne he] at h
      exact Or.inr h
  · rw [Function.update_of_ne hu] at h
    exact Or.inr h

omit [NeZero n] [DecidableEq V] in
theorem mem_push {d : Fin n} {msgs : List (Child V)} (h : m ∈ (push sh d msgs).q u) :
    m ∈ msgs ∨ m ∈ sh.q u := by
  rw [show (push sh d msgs).q = Function.update sh.q d (sh.q d ++ msgs) from rfl] at h
  by_cases hu : u = d
  · subst hu
    rw [Function.update_self] at h
    exact (List.mem_append.mp h).symm
  · rw [Function.update_of_ne hu] at h
    exact Or.inr h

omit [NeZero n] in
/-- What is in a buffer was in one before, or is being sent. -/
theorem Turn.buffers (h : Turn D home opts locked t sh ph sh' ph') {d : Fin n} (hm : m ∈ sh'.out_qs u d) :
    (∃ v e, m ∈ sh.out_qs v e) ∨ ∃ s g todo, ph = .send s g todo m := by
  cases h with
  | flush hi hne hlocked =>
    rcases mem_set_buffer hm with hnil | hold
    · exact absurd hnil List.not_mem_nil
    · exact Or.inl ⟨u, d, hold⟩
  | @buffer s g todo x hasync =>
    rcases mem_set_buffer hm with hnew | hold
    · rcases List.mem_append.mp hnew with hold | hlast
      · exact Or.inl ⟨t, _, hold⟩
      · rw [List.mem_singleton.mp hlast]
        exact Or.inr ⟨s, g, todo, rfl⟩
    · exact Or.inl ⟨u, d, hold⟩
  | send_all hasync hlocked =>
    rcases mem_set_buffer hm with hnil | hold
    · exact absurd hnil List.not_mem_nil
    · exact Or.inl ⟨u, d, hold⟩
  | _ => exact Or.inl ⟨u, d, hm⟩

omit [NeZero n] in
/-- What is in a queue was there, was in a buffer, or is being sent. -/
theorem Turn.queues (h : Turn D home opts locked t sh ph sh' ph') (hm : m ∈ sh'.q u) :
    m ∈ sh.q u ∨ (∃ v e, m ∈ sh.out_qs v e) ∨ ∃ s g todo, ph = .send s g todo m := by
  cases h with
  | @flush first i has_sends hi hne hlocked =>
    rcases mem_push hm with hnew | hold
    · exact Or.inr (Or.inl ⟨t, _, hnew⟩)
    · exact Or.inl hold
  | @send_all s g todo x hasync hlocked =>
    rcases mem_push hm with hnew | hold
    · rcases List.mem_append.mp hnew with hold | hlast
      · exact Or.inr (Or.inl ⟨t, _, hold⟩)
      · rw [List.mem_singleton.mp hlast]
        exact Or.inr (Or.inr ⟨s, g, todo, rfl⟩)
    · exact Or.inl hold
  | @send s g todo x hsync hlocked =>
    rcases mem_push hm with hnew | hold
    · rw [List.mem_singleton.mp hnew]
      exact Or.inr (Or.inr ⟨s, g, todo, rfl⟩)
    · exact Or.inl hold
  | clear =>
    have hm' : m ∈ Function.update sh.q t [] u := hm
    by_cases hu : u = t
    · subst hu
      rw [Function.update_self] at hm'
      exact absurd hm' List.not_mem_nil
    · rw [Function.update_of_ne hu] at hm'
      exact Or.inl hm'
  | _ => exact Or.inl hm

omit [DecidableEq V] in
/-- What is being sent is real. -/
theorem Aware.sending {s : V} {g : ℕ} {todo : List (V × ℕ)} (ha : Aware D home sh (.send s g todo m)) :
    Real D sh m := by
  rcases ha.sends s g todo m rfl with ⟨rfl, hg⟩
  exact ⟨ha.shape.child, g, hg, ha.knows.1, ha.knows.2⟩

end Turns

/-! ## Runs -/

section Runs

variable [DecidableEq V] [NeZero n] [Inhabited V] {D : SearchDomain V} {home : V → Fin n} {opts : Options}
  {s s' : State V n}

omit [Inhabited V] in
theorem Sound.turn {locked : Fin n → Bool} {t : Fin n} {ph' : Phase V} (h : Sound D home s)
    (hprotocol : Protocol home opts s)
    (hturn : Turn D home opts locked t s.shared (s.threads t) s'.shared ph') :
    Improves s.shared.base s'.shared.base ∧ Lists D (sending home) s'.shared.base ∧ Labels D s'.shared.base :=
  hturn.search h.lists h.labels (h.threads t) (hprotocol.threads t).duty

theorem Sound.step (h : Sound D home s) (hprotocol : Protocol home opts s)
    (hstep : (searches D home opts).step s s') : Sound D home s' := by
  rcases step_cases hstep with ⟨t, ph', hturn, hthreads⟩
  rcases h.turn hprotocol hturn with ⟨hi, hlists, hlabels⟩
  have hsending : ∀ {m}, (∃ v g todo, s.threads t = .send v g todo m) → Real D s'.shared m := by
    rintro m ⟨v, g, todo, hph⟩
    have ha := h.threads t
    rw [hph] at ha
    exact ha.sending.mono hi
  refine { lists := hlists, labels := hlabels, threads := ?_, buffered := ?_, queued := ?_ }
  · intro u
    rw [hthreads]
    by_cases hu : u = t
    · subst hu
      rw [Function.update_self]
      exact (h.threads u).turn (h.queued u) h.lists h.labels hlabels hi hturn
    · rw [Function.update_of_ne hu]
      exact (h.threads u).mono hi
  · intro u d m hm
    rcases hturn.buffers hm with ⟨v, e, hold⟩ | hsend
    · exact (h.buffered v e m hold).mono hi
    · exact hsending hsend
  · intro u m hm
    rcases hturn.queues hm with hold | ⟨v, e, hold⟩ | hsend
    · exact (h.queued u m hold).mono hi
    · exact (h.buffered v e m hold).mono hi
    · exact hsending hsend

theorem sound_reachable (hs : (searches D home opts).Reachable s) : Sound D home s := by
  apply hs.invariant (I := Sound D home)
  · rintro s rfl
    -- the lists of PBNF are the same
    have hlists : Lists D (sending home) (Pbnf.Shared.initial D (sending home)) := lists_initial
    have hlabels : Labels D (Pbnf.Shared.initial D (sending home)) := labels_initial
    refine { lists := hlists, labels := ?_, threads := ?_, buffered := nofun, queued := nofun }
    · exact ⟨hlabels.start, hlabels.walk, hlabels.root, hlabels.parent, nofun, Or.inl rfl, le_refl _⟩
    · exact fun _ => .outside rfl rfl nofun
  · exact fun s s' hreach h hstep => h.step (protocol_reachable hreach) hstep

/-! ## The assertions -/

/-- Why a thread may be unable to take its turn: it has returned, it waits for something to do, or it wants a
lock that another thread has. -/
def Held (s : State V n) (t : Fin n) : Prop :=
  s.threads t = .finished
    ∨ ((∃ first has_sends, s.threads t = .wait first has_sends) ∧ s.shared.q_empty t = true
      ∧ s.shared.counter < n ∧ s.shared.done = false)
    ∨ ∃ d, d ≠ t ∧ (s.threads d).locks = true

end Runs

end PwsaStar.Pbnf.PRAStar
