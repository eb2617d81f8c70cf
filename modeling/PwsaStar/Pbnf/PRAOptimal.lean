/-
# PwsaStar.Pbnf.PRAOptimal — PRA* never stops for good by mistake, and returns a cheapest path.

As in PBNF, every state of a closed list is open, beyond the bound, a goal or expanded; but a child may also be
on its way to its thread.  When the search is done, nothing is on its way and nothing is open.

PRA* expands the goals, too, and no child is dropped; so it needs of the domain only that the heuristic is
admissible.
-/
import PwsaStar.Pbnf.PRALabels

namespace PwsaStar.Pbnf.PRAStar

open PwsaStar.Lib

variable {V : Type} {n : ℕ}

/-- What a thread with the queue `q` still has to look at. -/
def Phase.inbox (q : List (Child V)) : Phase V → List (Child V)
  | .receiving _ _ todo => todo
  | _ => q

/-- The state `m` was sent to a thread that has not looked at it. -/
inductive Pending (s : State V n) (m : Child V) : Prop
  | buffered {u d} : m ∈ s.shared.out_qs u d → Pending s m
  | received {u} : m ∈ (s.threads u).inbox (s.shared.q u) → Pending s m

/-- There is nothing to be gained any more from the state `m`. -/
def Seen (D : SearchDomain V) (sh : Shared V n) (m : Child V) : Prop :=
  (∃ node, sh.closed m.state = some node ∧ node.g ≤ m.g) ∨ sh.bound ≤ D.get_f m.g m.state

/-! ## What was sent arrives -/

section Mail

variable {D : SearchDomain V} {home : V → Fin n} {opts : Options} {locked : Fin n → Bool}
  {sh sh' : Shared V n} {t u : Fin n} {ph ph' : Phase V} {m x : Child V}

theorem inbox_mono {q q' : List (Child V)} (h : ∀ m ∈ q, m ∈ q') (hm : m ∈ ph.inbox q) : m ∈ ph.inbox q' := by
  cases ph with
  | receiving first has_sends todo => exact hm
  | _ => exact h m hm

theorem inbox_of_unlocked (h : ph.locks = false) (q : List (Child V)) : ph.inbox q = q := by
  cases ph with
  | receiving first has_sends todo => exact nomatch h
  | _ => rfl

theorem subset_push (d : Fin n) (msgs : List (Child V)) (u : Fin n) : ∀ m ∈ sh.q u, m ∈ (push sh d msgs).q u := by
  intro m hm
  show m ∈ Function.update sh.q d (sh.q d ++ msgs) u
  by_cases hu : u = d
  · subst hu
    rw [Function.update_self]
    exact List.mem_append_left _ hm
  · rw [Function.update_of_ne hu]
    exact hm

theorem mem_pushed (d : Fin n) {msgs : List (Child V)} (hm : m ∈ msgs) : m ∈ (push sh d msgs).q d := by
  show m ∈ Function.update sh.q d (sh.q d ++ msgs) d
  rw [Function.update_self]
  exact List.mem_append_right _ hm

/-- A move drops no message that has not been seen. -/
theorem Move.inbox (h : Move D home opts t sh ph ph') (hm : m ∈ ph.inbox (sh.q t)) :
    m ∈ ph'.inbox (sh.q t) ∨ Seen D sh m := by
  cases h with
  | @flushed first i has_sends hn => cases first <;> exact Or.inl hm
  | @skip_receive first has_sends => cases first <;> exact Or.inl hm
  | @complete first has_sends hcomplete hempty => cases first <;> exact Or.inl hm
  | late hlate =>
    rcases List.mem_cons.mp hm with rfl | hm
    · exact Or.inr (Or.inr hlate)
    · exact Or.inl hm
  | _ => exact Or.inl hm

/-- The message that is looked at leaves the inbox, the others stay. -/
theorem Sees.inbox (h : Sees home t ph x ph') {q : List (Child V)} (hx : Seen D sh' x) (hm : m ∈ ph.inbox q) :
    m ∈ ph'.inbox q ∨ Seen D sh' m := by
  cases h with
  | received =>
    rcases List.mem_cons.mp hm with rfl | hm
    · exact Or.inr hx
    · exact Or.inl hm
  | own hhome => exact Or.inl hm

variable [DecidableEq V]

theorem exists_node_le (closed : V → Option (Node V)) (m : Child V) (is_open : Bool) :
    ∃ node, Function.update closed m.state (some (m.node is_open)) m.state = some node ∧ node.g ≤ m.g :=
  ⟨m.node is_open, Function.update_self .., le_refl _⟩

/-- What a thread has looked at is in the closed list at its cost, or cheaper. -/
theorem Turn.inbox (h : Turn D home opts locked t sh ph sh' ph') (hm : m ∈ ph.inbox (sh.q t)) :
    m ∈ ph'.inbox (sh'.q t) ∨ Seen D sh' m := by
  cases h with
  | own expansions hmove => exact hmove.inbox hm
  | known hsees hdup hle => exact hsees.inbox (Or.inl ⟨_, hdup, hle⟩) hm
  | update hsees hdup hlt hopen ho => exact hsees.inbox (Or.inl (exists_node_le ..)) hm
  | reopen hsees hdup hlt hopen => exact hsees.inbox (Or.inl (exists_node_le ..)) hm
  | create hsees hnone => exact hsees.inbox (Or.inl (exists_node_le ..)) hm
  | flush hi hne hlocked => exact Or.inl (subset_push _ _ t m hm)
  | send_all hasync hlocked => exact Or.inl (subset_push _ _ t m hm)
  | send hsync hlocked => exact Or.inl (subset_push _ _ t m hm)
  | clear => exact absurd hm List.not_mem_nil
  | _ => exact Or.inl hm

omit [DecidableEq V] in
theorem set_buffer_of_ne {d e v : Fin n} {msgs : List (Child V)} (h : ¬ (v = t ∧ e = d)) :
    (set_buffer sh t d msgs).out_qs v e = sh.out_qs v e := by
  show Function.update sh.out_qs t (Function.update (sh.out_qs t) d msgs) v e = sh.out_qs v e
  by_cases hv : v = t
  · subst hv
    rw [Function.update_self, Function.update_of_ne (fun he => h ⟨rfl, he⟩)]
  · rw [Function.update_of_ne hv]

/-- What is in a buffer stays there, or gets into the queue of a thread that is not in the loop over it. -/
theorem Turn.out_qs (h : Turn D home opts locked t sh ph sh' ph') (hl : Local home opts sh t ph) {d : Fin n}
    (hm : m ∈ sh.out_qs u d) : m ∈ sh'.out_qs u d ∨ d ≠ t ∧ locked d = false ∧ m ∈ sh'.q d := by
  cases h with
  | @flush first i has_sends hi hne hlocked =>
    by_cases hbuffer : u = t ∧ d = ⟨i, hi⟩
    · rcases hbuffer with ⟨rfl, rfl⟩
      exact Or.inr ⟨(hl.addressed _ m hm).2, hlocked, mem_pushed _ hm⟩
    · exact Or.inl (by rwa [set_buffer_of_ne hbuffer])
  | @buffer s g todo y hasync =>
    by_cases hbuffer : u = t ∧ d = home y.state
    · rcases hbuffer with ⟨rfl, rfl⟩
      refine Or.inl ?_
      show m ∈ Function.update sh.out_qs u (Function.update (sh.out_qs u) (home y.state) _) u (home y.state)
      rw [Function.update_self, Function.update_self]
      exact List.mem_append_left _ hm
    · exact Or.inl (by rwa [set_buffer_of_ne hbuffer])
  | @send_all s g todo y hasync hlocked =>
    by_cases hbuffer : u = t ∧ d = home y.state
    · rcases hbuffer with ⟨rfl, rfl⟩
      exact Or.inr ⟨hl.duty, hlocked, mem_pushed _ (List.mem_append_left _ hm)⟩
    · exact Or.inl (by rwa [set_buffer_of_ne hbuffer])
  | _ => exact Or.inl hm

end Mail

/-! ## What a turn does to the search -/

section Turns

variable [DecidableEq V] [NeZero n] {D : SearchDomain V} {home : V → Fin n} {opts : Options}
  {locked : Fin n → Bool} {sh sh' : Shared V n} {t : Fin n} {ph ph' : Phase V}

omit [NeZero n] in
/-- The nodes that a turn writes: the state is open, or it was taken. -/
theorem Turn.news (h : Turn D home opts locked t sh ph sh' ph') {v : V} {node : Node V}
    (hnode : sh'.closed v = some node) :
    sh.closed v = some node ∨ node.is_open = true ∨ ph' = .test v := by
  have hwrite : ∀ {x : V} {new : Node V}, Function.update sh.closed x (some new) v = some node →
      (v = x → node = new → node.is_open = true ∨ ph' = .test v) →
        sh.closed v = some node ∨ node.is_open = true ∨ ph' = .test v := by
    intro x new hclosed hnews
    by_cases hv : v = x
    · subst hv
      rw [Function.update_self] at hclosed
      exact Or.inr (hnews rfl (Option.some.inj hclosed).symm)
    · rw [Function.update_of_ne hv] at hclosed
      exact Or.inl hclosed
  cases h with
  | update hsees hdup hlt hopen ho => exact hwrite hnode fun _ heq => Or.inl (heq ▸ rfl)
  | reopen hsees hdup hlt hopen => exact hwrite hnode fun _ heq => Or.inl (heq ▸ rfl)
  | create hsees hnone => exact hwrite hnode fun _ heq => Or.inl (heq ▸ rfl)
  | take hdone ho hold => exact hwrite hnode fun heq _ => Or.inr (heq ▸ rfl)
  | _ => exact Or.inl hnode

omit [NeZero n] in
/-- The best path changes only on the way to `best`. -/
theorem Turn.solution (h : Turn D home opts locked t sh ph sh' ph') :
    sh'.solution = sh.solution ∨ ∃ s, ph' = .best s := by
  cases h with
  | report => exact Or.inr ⟨_, rfl⟩
  | _ => exact Or.inl rfl

/-- A thread in `set_path` gets there, or goes on. -/
theorem Turn.owes (h : Turn D home opts locked t sh ph sh' ph') {x : ℕ} (howes : Owes sh.base x (ph.base home)) :
    sh'.bound ≤ x ∨ Owes sh'.base x (ph'.base home) := by
  have hpbnf : ∀ {pb'}, Pbnf.Turn D (sending home) true sh.base (ph.base home) sh'.base pb' .nothing →
      sh'.bound ≤ x ∨ Owes sh'.base x pb' := fun h => h.owes howes
  cases h with
  | own expansions hmove =>
    cases hmove with
    | copy hnode => exact hpbnf (.own (.copy hnode))
    | copied => exact hpbnf (.own .copied)
    | best hbest => exact hpbnf (.own (.best hbest))
    | keep hle => exact Or.inl (hle.trans howes)
    | read hlt => exact hpbnf (.own (.read hlt))
    | retry => exact hpbnf (.own .retry)
    | _ => exact howes.elim
  | known hsees hdup hle => cases hsees <;> exact howes.elim
  | update hsees hdup hlt hopen ho => cases hsees <;> exact howes.elim
  | reopen hsees hdup hlt hopen => cases hsees <;> exact howes.elim
  | create hsees hnone => cases hsees <;> exact howes.elim
  | report => exact hpbnf .report
  | swap heq => exact Or.inl howes
  | _ => exact howes.elim

omit [DecidableEq V] in
theorem Seen.arcDone {m : Child V} {g c : ℕ} (h : Seen D sh m) (hg : m.g = g + c) :
    ArcDone D sh.base g m.state c := by
  rcases h with ⟨node, hnode, hle⟩ | hlate
  · exact Or.inl ⟨node, hnode, hg ▸ hle⟩
  · exact Or.inr (Or.inl (hg ▸ hlate))

omit [DecidableEq V] [NeZero n] in
/-- A child that a thread keeps for itself. -/
theorem Sees.loop {m : Child V} {v : V} {g : ℕ} {todo : List (V × ℕ)}
    (h : Sees home t (.children v g todo) m ph') :
    m.g = g + m.c ∧ ∃ rest, todo = (m.state, m.c) :: rest ∧ ph'.base home = .children (home v) v g rest := by
  cases h with
  | own hhome => exact ⟨rfl, _, rfl, rfl⟩

/-- What becomes of the next child of a state that is expanded: it is looked at, it is sent, or its sending
begins. -/
theorem Turn.loop (h : Turn D home opts locked t sh ph sh' ph') (hl : Local home opts sh t ph)
    (ha : Aware D home sh ph) {b : Fin n} {v : V} {g : ℕ} {todo : List (V × ℕ)}
    (hph : ph.base home = .children b v g todo) :
    todo = [] ∨ ph'.base home = .children b v g todo ∨ ∃ x c rest, todo = (x, c) :: rest
      ∧ ph'.base home = .children b v g rest
      ∧ (ArcDone D sh'.base g x c ∨ ∃ m, m.state = x ∧ m.g = g + c
        ∧ (m ∈ sh'.out_qs t (home x) ∨ home x ≠ t ∧ locked (home x) = false ∧ m ∈ sh'.q (home x))) := by
  cases ph with
  | children s g' todo' =>
    cases hph
    cases h with
    | own expansions hmove =>
      cases hmove with
      | expanded => exact Or.inl rfl
      | late_child hlate => exact Or.inr (Or.inr ⟨_, _, _, rfl, rfl, Or.inl (Or.inr (Or.inl hlate))⟩)
      | send hhome => exact Or.inr (Or.inl rfl)
    | known hsees hdup hle =>
      rcases hsees.loop with ⟨hg, rest, rfl, hnext⟩
      exact Or.inr (Or.inr ⟨_, _, rest, rfl, hnext, Or.inl (Seen.arcDone (Or.inl ⟨_, hdup, hle⟩) hg)⟩)
    | update hsees hdup hlt hopen ho =>
      rcases hsees.loop with ⟨hg, rest, rfl, hnext⟩
      exact Or.inr (Or.inr ⟨_, _, rest, rfl, hnext, Or.inl (Seen.arcDone (Or.inl (exists_node_le ..)) hg)⟩)
    | reopen hsees hdup hlt hopen =>
      rcases hsees.loop with ⟨hg, rest, rfl, hnext⟩
      exact Or.inr (Or.inr ⟨_, _, rest, rfl, hnext, Or.inl (Seen.arcDone (Or.inl (exists_node_le ..)) hg)⟩)
    | create hsees hnone =>
      rcases hsees.loop with ⟨hg, rest, rfl, hnext⟩
      exact Or.inr (Or.inr ⟨_, _, rest, rfl, hnext, Or.inl (Seen.arcDone (Or.inl (exists_node_le ..)) hg)⟩)
  | send s g' todo' m =>
    rcases ha.sends s g' todo' m rfl with ⟨-, hg⟩
    cases hph
    have hmem : m ∈ sh.out_qs t (home m.state) ++ [m] := List.mem_append_right _ (List.mem_singleton_self m)
    have hthere : ∀ {msgs : List (Child V)}, locked (home m.state) = false → m ∈ msgs →
        home m.state ≠ t ∧ locked (home m.state) = false ∧ m ∈ (push sh (home m.state) msgs).q (home m.state) :=
      fun hlocked hm => ⟨hl.duty, hlocked, mem_pushed _ hm⟩
    refine Or.inr (Or.inr ⟨m.state, m.c, todo', rfl, ?_⟩)
    cases h with
    | own expansions hmove => cases hmove
    | known hsees hdup hle => cases hsees
    | update hsees hdup hlt hopen ho => cases hsees
    | reopen hsees hdup hlt hopen => cases hsees
    | create hsees hnone => cases hsees
    | buffer hasync =>
      refine ⟨rfl, Or.inr ⟨m, rfl, hg, Or.inl ?_⟩⟩
      show m ∈ Function.update sh.out_qs t (Function.update (sh.out_qs t) (home m.state) _) t (home m.state)
      rw [Function.update_self, Function.update_self]
      exact hmem
    | send_all hasync hlocked => exact ⟨rfl, Or.inr ⟨m, rfl, hg, Or.inr (hthere hlocked hmem)⟩⟩
    | send hsync hlocked =>
      exact ⟨rfl, Or.inr ⟨m, rfl, hg, Or.inr (hthere hlocked (List.mem_singleton_self m))⟩⟩
  | _ => exact nomatch hph

omit [NeZero n] in
/-- What becomes of a state that was taken. -/
theorem Turn.tested {v : V} {node : Node V} (h : Turn D home opts locked t sh (.test v) sh' ph')
    (hnode : sh.closed v = some node) :
    sh'.bound ≤ D.get_f node.g v
      ∨ (D.is_goal v = true ∧ ph'.base home = .path (home v) node.g [v] node.parent)
      ∨ D.is_goal v = false ∧ ph'.base home = .children (home v) v node.g (D.expand v) := by
  cases h with
  | own expansions hmove =>
    cases hmove with
    | pruned hsame hlate =>
      cases hnode.symm.trans hsame
      exact Or.inl hlate
    | goal hsame hlt hgoal =>
      cases hnode.symm.trans hsame
      exact Or.inr (Or.inl ⟨hgoal, rfl⟩)
    | expand hgoal =>
      have hg : get_g sh.closed v = node.g := by
        rw [get_g, hnode]
        rfl
      refine Or.inr (Or.inr ⟨hgoal, ?_⟩)
      show Pbnf.Phase.children (home v) v (get_g sh.closed v) (D.expand v) = _
      rw [hg]
  | known hsees hdup hle => cases hsees
  | update hsees hdup hlt hopen ho => cases hsees
  | reopen hsees hdup hlt hopen => cases hsees
  | create hsees hnone => cases hsees

end Turns

/-! ## The invariant -/

section Runs

variable [NeZero n] {D : SearchDomain V} {home : V → Fin n} {opts : Options} {s s' : State V n}
  {t : Fin n} {ph' : Phase V} {m : Child V}

/-- Some thread will bring the bound down to `x` or less, if it is not there. -/
def Due (home : V → Fin n) (s : State V n) (x : ℕ) : Prop :=
  s.shared.bound ≤ x ∨ ∃ u, Owes s.shared.base x ((s.threads u).base home)

/-- There is nothing to be gained any more from the step to `x` at the cost `c`, from a state of cost `g`, or
the child is on its way. -/
def Gone (D : SearchDomain V) (s : State V n) (g : ℕ) (x : V) (c : ℕ) : Prop :=
  ArcDone D s.shared.base g x c ∨ ∃ m, Pending s m ∧ m.state = x ∧ m.g = g + c

/-- Why nothing is lost when the state `v` is left as it is. -/
inductive Settled (D : SearchDomain V) (home : V → Fin n) (s : State V n) (v : V) (node : Node V) : Prop
  | opened : node.is_open = true → Settled D home s v node
  | late : s.shared.bound ≤ D.get_f node.g v → Settled D home s v node
  | goal : D.is_goal v = true → Settled D home s v node
  | testing {u} : s.threads u = .test v → Settled D home s v node
  | expanded : (∀ x c, (x, c) ∈ D.expand v → Gone D s node.g x c) → Settled D home s v node
  | expanding {u b pre todo} : (s.threads u).base home = .children b v node.g todo →
      D.expand v = pre ++ todo → (∀ x c, (x, c) ∈ pre → Gone D s node.g x c) → Settled D home s v node

/-- **Nothing is lost.** -/
structure Progress (D : SearchDomain V) (home : V → Fin n) (s : State V n) : Prop where
  settled : ∀ v node, s.shared.closed v = some node → Settled D home s v node
  goals : ∀ v node, s.shared.closed v = some node → D.is_goal v = true →
    node.is_open = true ∨ (∃ u, s.threads u = .test v) ∨ Due home s node.g
  reported : ∀ best, s.shared.solution = some best → Due home s best.1

variable [DecidableEq V]

omit [NeZero n] in
/-- What was sent is still on its way, or its thread has looked at it. -/
theorem Pending.step (hl : Local home opts s.shared t (s.threads t))
    (hturn : Turn D home opts (fun d => (s.threads d).locks) t s.shared (s.threads t) s'.shared ph')
    (hthreads : s'.threads = Function.update s.threads t ph') (h : Pending s m) :
    Pending s' m ∨ Seen D s'.shared m := by
  have hother : ∀ {u : Fin n}, u ≠ t → s'.threads u = s.threads u := by
    intro u hu
    rw [hthreads, Function.update_of_ne hu]
  cases h with
  | @buffered u d hm =>
    refine Or.inl ?_
    rcases hturn.out_qs hl hm with hsame | ⟨hd, hlocked, hq⟩
    · exact .buffered hsame
    · refine .received (u := d) ?_
      rw [hother hd, inbox_of_unlocked hlocked]
      exact hq
  | @received u hm =>
    by_cases hu : u = t
    · subst hu
      have hph : s'.threads u = ph' := by
        rw [hthreads, Function.update_self]
      refine (hturn.inbox hm).imp_left fun hm' => .received (u := u) ?_
      rw [hph]
      exact hm'
    · refine Or.inl (.received (u := u) ?_)
      rw [hother hu]
      refine inbox_mono ?_ hm
      intro x hx
      rcases (hturn.kept hl hu).sent with ⟨hq, -, -⟩ | ⟨msgs, hq, -, -, -⟩
      · rw [hq]
        exact hx
      · rw [hq]
        exact List.mem_append_left _ hx

/-- What became of an arc is kept by every turn. -/
theorem Gone.step (hl : Local home opts s.shared t (s.threads t))
    (hturn : Turn D home opts (fun d => (s.threads d).locks) t s.shared (s.threads t) s'.shared ph')
    (hthreads : s'.threads = Function.update s.threads t ph') (himp : Improves s.shared.base s'.shared.base)
    {g c : ℕ} {x : V} (h : Gone D s g x c) : Gone D s' g x c := by
  rcases h with harc | ⟨m, hm, rfl, hg⟩
  · exact Or.inl (harc.mono himp)
  · rcases hm.step hl hturn hthreads with hm' | hseen
    · exact Or.inr ⟨m, hm', rfl, hg⟩
    · exact Or.inl (hseen.arcDone hg)

/-- A cost that is due stays due until the bound has reached it. -/
theorem Due.step {x : ℕ} (himp : Improves s.shared.base s'.shared.base)
    (hturn : Turn D home opts (fun d => (s.threads d).locks) t s.shared (s.threads t) s'.shared ph')
    (hthreads : s'.threads = Function.update s.threads t ph') (h : Due home s x) : Due home s' x := by
  rcases h with hle | ⟨u, hu⟩
  · exact Or.inl (himp.bound.trans hle)
  · by_cases hut : u = t
    · subst hut
      refine (hturn.owes hu).imp_right fun hu' => ⟨u, ?_⟩
      rw [hthreads, Function.update_self]
      exact hu'
    · refine Or.inr ⟨u, ?_⟩
      rw [hthreads, Function.update_of_ne hut]
      exact hu.mono himp

/-- What was settled stays so, as long as the node is the same. -/
theorem Settled.step {v : V} {node : Node V} (hl : Local home opts s.shared t (s.threads t))
    (ha : Aware D home s.shared (s.threads t))
    (hturn : Turn D home opts (fun d => (s.threads d).locks) t s.shared (s.threads t) s'.shared ph')
    (hthreads : s'.threads = Function.update s.threads t ph') (himp : Improves s.shared.base s'.shared.base)
    (hnode : s.shared.closed v = some node) (h : Settled D home s v node) : Settled D home s' v node := by
  have hmoved : s'.threads t = ph' := by
    rw [hthreads, Function.update_self]
  have hother : ∀ {u : Fin n}, u ≠ t → s'.threads u = s.threads u := by
    intro u hu
    rw [hthreads, Function.update_of_ne hu]
  have hgone : ∀ {x c}, Gone D s node.g x c → Gone D s' node.g x c :=
    fun hgone => hgone.step hl hturn hthreads himp
  cases h with
  | opened hopen => exact .opened hopen
  | late hlate => exact .late (himp.bound.trans hlate)
  | goal hgoal => exact .goal hgoal
  | @testing u hu =>
    by_cases hut : u = t
    · subst hut
      rw [hu] at hturn
      rcases hturn.tested hnode with hlate | ⟨hgoal, -⟩ | ⟨-, hph⟩
      · exact .late hlate
      · exact .goal hgoal
      · rw [← hmoved] at hph
        exact .expanding hph (List.nil_append (D.expand v)).symm nofun
    · exact .testing ((hother hut).trans hu)
  | expanded hdone => exact .expanded fun x c hmem => hgone (hdone x c hmem)
  | @expanding u b pre todo hu hexpand hdone =>
    have hdone' : ∀ x c, (x, c) ∈ pre → Gone D s' node.g x c := fun x c hmem => hgone (hdone x c hmem)
    by_cases hut : u = t
    · subst hut
      rcases hturn.loop hl ha hu with rfl | hsame | ⟨x, c, rest, rfl, hnext, hchild⟩
      · rw [List.append_nil] at hexpand
        exact .expanded fun x c hmem => hdone' x c (hexpand ▸ hmem)
      · rw [← hmoved] at hsame
        exact .expanding hsame hexpand hdone'
      · have hlast : Gone D s' node.g x c := by
          rcases hchild with harc | ⟨m, rfl, hg, hbuffer | ⟨hd, hlocked, hq⟩⟩
          · exact Or.inl harc
          · exact Or.inr ⟨m, .buffered hbuffer, rfl, hg⟩
          · refine Or.inr ⟨m, .received (u := home m.state) ?_, rfl, hg⟩
            rw [hother hd, inbox_of_unlocked hlocked]
            exact hq
        rw [← hmoved] at hnext
        have hexpand' : D.expand v = (pre ++ [(x, c)]) ++ rest := by
          rw [hexpand, List.append_assoc]
          rfl
        refine .expanding hnext hexpand' ?_
        intro y d hmem
        rcases List.mem_append.mp hmem with hmem | hmem
        · exact hdone' y d hmem
        · cases List.mem_singleton.mp hmem
          exact hlast
    · refine .expanding (u := u) (b := b) ?_ hexpand hdone'
      rw [hother hut]
      exact hu

/-- **A turn keeps the progress**, with an admissible heuristic. -/
theorem Progress.step
    (hadmissible : ∀ v goal d, D.is_goal goal = true → D.graph.Walk v goal d → (D.get_h v : ℤ) ≤ d)
    (h : Progress D home s) (hl : Local home opts s.shared t (s.threads t))
    (ha : Aware D home s.shared (s.threads t))
    (hturn : Turn D home opts (fun d => (s.threads d).locks) t s.shared (s.threads t) s'.shared ph')
    (hthreads : s'.threads = Function.update s.threads t ph') (himp : Improves s.shared.base s'.shared.base) :
    Progress D home s' := by
  have hmoved : s'.threads t = ph' := by
    rw [hthreads, Function.update_self]
  refine { settled := ?_, goals := ?_, reported := ?_ }
  · intro v node hnode
    rcases hturn.news hnode with hold | hopen | hph
    · exact (h.settled v node hold).step hl ha hturn hthreads himp hold
    · exact .opened hopen
    · exact .testing (hmoved.trans hph)
  · intro v node hnode hgoal
    rcases hturn.news hnode with hold | hopen | hph
    · rcases h.goals v node hold hgoal with hopen | ⟨u, hu⟩ | hdue
      · exact Or.inl hopen
      · by_cases hut : u = t
        · subst hut
          rw [hu] at hturn
          rcases hturn.tested hold with hlate | ⟨-, hph⟩ | ⟨hnot, -⟩
          · have hzero := hadmissible v v 0 hgoal .nil
            rw [SearchDomain.get_f] at hlate
            exact Or.inr (Or.inr (Or.inl (by omega)))
          · refine Or.inr (Or.inr (Or.inr ⟨u, ?_⟩))
            rw [hmoved, hph]
            exact le_refl node.g
          · exact absurd (hgoal.symm.trans hnot) Bool.noConfusion
        · refine Or.inr (Or.inl ⟨u, ?_⟩)
          rw [hthreads, Function.update_of_ne hut]
          exact hu
      · exact Or.inr (Or.inr (hdue.step himp hturn hthreads))
    · exact Or.inl hopen
    · exact Or.inr (Or.inl ⟨t, hmoved.trans hph⟩)
  · intro best hbest
    rcases hturn.solution with hsame | ⟨v, hph⟩
    · exact (h.reported best (hsame ▸ hbest)).step himp hturn hthreads
    · refine Or.inr ⟨t, ?_⟩
      rw [hmoved, hph]
      exact ⟨best, hbest, le_refl _⟩

variable [Inhabited V]

/-- It holds in every reachable state. -/
theorem progress_reachable
    (hadmissible : ∀ v goal d, D.is_goal goal = true → D.graph.Walk v goal d → (D.get_h v : ℤ) ≤ d)
    (hs : (searches D home opts).Reachable s) : Progress D home s := by
  apply hs.invariant (I := Progress D home)
  · rintro s rfl
    have hinit : ∀ v node, (Shared.initial D home : Shared V n).closed v = some node → node.is_open = true := by
      intro v node hnode
      have hclosed : Function.update (fun _ => none) D.initial_state (some (⟨0, 0, none, true⟩ : Node V)) v
          = some node := hnode
      by_cases hv : v = D.initial_state
      · subst hv
        rw [Function.update_self] at hclosed
        rw [← Option.some.inj hclosed]
      · rw [Function.update_of_ne hv] at hclosed
        exact nomatch hclosed
    refine { settled := ?_, goals := ?_, reported := nofun }
    · exact fun v node hnode => .opened (hinit v node hnode)
    · exact fun v node hnode _ => Or.inl (hinit v node hnode)
  · intro s s' hreach h hstep
    have hprotocol := protocol_reachable hreach
    have hsound := sound_reachable hreach
    rcases step_cases hstep with ⟨t, ph', hturn, hthreads⟩
    exact h.step hadmissible (hprotocol.threads t) (hsound.threads t) hturn hthreads
      (hsound.turn hprotocol hturn).1

/-! ## The end -/

omit [NeZero n] [DecidableEq V] [Inhabited V] in
theorem Resting.base (home : V → Fin n) (h : Resting s.shared (s.threads t)) : (s.threads t).base home = .leave
    ∧ (s.threads t).locks = false ∧ ∀ v, s.threads t ≠ .test v := by
  generalize s.threads t = ph at h
  cases ph with
  | wait first has_sends => exact ⟨rfl, rfl, nofun⟩
  | relock first has_sends => exact ⟨rfl, rfl, nofun⟩
  | received has_sends => exact ⟨rfl, rfl, nofun⟩
  | run => exact ⟨rfl, rfl, nofun⟩
  | finished => exact ⟨rfl, rfl, nofun⟩
  | _ => exact h.elim

omit [NeZero n] [DecidableEq V] [Inhabited V] in
/-- When all completions are posted, nothing is on its way. -/
theorem Protocol.not_pending (h : Protocol home opts s) (hcomplete : (n : ℤ) ≤ s.shared.counter) :
    ¬ Pending s m := by
  intro hm
  cases hm with
  | @buffered u d hm =>
    rcases h.idle hcomplete u with ⟨hidle, -, -⟩
    rw [hidle.clear d] at hm
    exact absurd hm List.not_mem_nil
  | @received u hm =>
    rcases h.idle hcomplete u with ⟨-, hq, hresting⟩
    rw [inbox_of_unlocked (hresting.base home).2.1, hq] at hm
    exact absurd hm List.not_mem_nil

omit [DecidableEq V] [Inhabited V] in
/-- When all threads have posted no state is open. -/
theorem Protocol.not_open (h : Protocol home opts s) (hsound : Sound D home s)
    (hcomplete : (n : ℤ) ≤ s.shared.counter) {v : V} {node : Node V} (hnode : s.shared.closed v = some node) :
    node.is_open = false := by
  rcases h.idle hcomplete (home v) with ⟨hidle, -, -⟩
  by_contra hopen
  have hmem : v ∈ openStates (sending home) s.shared.closed (home v) := ⟨rfl, node, hnode, by simpa using hopen⟩
  have hfalse := (hsound.lists (home v)).empty_iff.mpr ⟨v, hmem⟩
  exact absurd (hidle.pq_empty.symm.trans hfalse) Bool.noConfusion

omit [DecidableEq V] [Inhabited V] in
/-- When all threads have posted the bound has reached every cost that was due. -/
theorem Protocol.bound_le (h : Protocol home opts s) (hcomplete : (n : ℤ) ≤ s.shared.counter) {x : ℕ}
    (hdue : Due home s x) : s.shared.bound ≤ x := by
  rcases hdue with hle | ⟨u, hu⟩
  · exact hle
  · rcases h.idle hcomplete u with ⟨-, -, hresting⟩
    rw [(hresting.base home).1] at hu
    exact hu.elim

/-- The search on a domain whose initial state is an object of its own. -/
theorem optimal_of_finished
    (hadmissible : ∀ v goal d, D.is_goal goal = true → D.graph.Walk v goal d → (D.get_h v : ℤ) ≤ d)
    (hs : (searches D home opts).Reachable s) (ht : s.threads t = .finished) :
    (∀ goal d, D.is_goal goal = true → D.graph.Walk D.initial_state goal d → (s.shared.bound : ℤ) ≤ d)
      ∧ ((∃ path, s.shared.solution = some (s.shared.bound, path) ∧ IsPath D path s.shared.bound)
        ∨ s.shared.solution = none ∧ s.shared.bound = fp_infinity) := by
  have hprotocol := protocol_reachable hs
  have hsound := sound_reachable hs
  have hprogress := progress_reachable hadmissible hs
  have hcomplete : (n : ℤ) ≤ s.shared.counter := by
    have hduty := (hprotocol.threads t).duty
    rw [ht] at hduty
    exact hprotocol.done hduty
  have hresting : ∀ u, Resting s.shared (s.threads u) := fun u => (hprotocol.idle hcomplete u).2.2
  have hgoals : ∀ v node, s.shared.base.closed v = some node → D.is_goal v = true →
      s.shared.base.bound ≤ node.g := by
    intro v node hnode hgoal
    rcases hprogress.goals v node hnode hgoal with hopen | ⟨u, hu⟩ | hdue
    · exact absurd (hopen.symm.trans (hprotocol.not_open hsound hcomplete hnode)) Bool.noConfusion
    · exact absurd hu (((hresting u).base home).2.2 v)
    · exact hprotocol.bound_le hcomplete hdue
  have hgone : ∀ {g x c}, Gone D s g x c → ArcDone D s.shared.base g x c :=
    fun h => h.resolve_right fun ⟨_, hm, _⟩ => hprotocol.not_pending hcomplete hm
  have hsettled : ∀ v node, s.shared.base.closed v = some node → s.shared.base.bound ≤ D.get_f node.g v
      ∨ D.is_goal v = true ∨ ∀ x c, (x, c) ∈ D.expand v → ArcDone D s.shared.base node.g x c := by
    intro v node hnode
    cases hprogress.settled v node hnode with
    | opened hopen => exact absurd (hopen.symm.trans (hprotocol.not_open hsound hcomplete hnode)) Bool.noConfusion
    | late hlate => exact Or.inl hlate
    | goal hgoal => exact Or.inr (Or.inl hgoal)
    | @testing u hu => exact absurd hu (((hresting u).base home).2.2 v)
    | expanded hdone => exact Or.inr (Or.inr fun x c hmem => hgone (hdone x c hmem))
    | @expanding u b pre todo hu hexpand hdone =>
      rw [((hresting u).base home).1] at hu
      exact nomatch hu
  have hcheapest := hsound.labels.cheapest hadmissible hgoals hsettled
  refine ⟨hcheapest, hsound.labels.at_bound hcheapest ?_⟩
  exact fun best hbest => hprotocol.bound_le hcomplete (hprogress.reported best hbest)

end Runs

/-! ## States for objects -/

section Objects

variable {D : SearchDomain V}

/-- A walk over the states lifts to one over the objects. -/
theorem walk_objects {v w : V} {d : ℤ} (h : D.graph.Walk v w d) (r : Ref V) (hr : D.state r = v) :
    ∃ q, D.state q = w ∧ D.objects.graph.Walk r q d := by
  induction h with
  | nil => exact ⟨r, hr, .nil⟩
  | @snoc u x d c _ harc ih =>
    rcases ih with ⟨q, hq, hwalk⟩
    rcases List.mem_map.mp harc with ⟨a, ha, heq⟩
    cases heq
    refine ⟨.state a.1, rfl, hwalk.snoc (SearchDomain.arc ?_)⟩
    show (Ref.state a.1, a.2) ∈ (D.expand (D.state q)).map fun a => (Ref.state a.1, a.2)
    rw [hq]
    exact List.mem_map.mpr ⟨a, ha, rfl⟩

/-- A walk over the objects is one over the states. -/
theorem walk_states {r q : Ref V} {d : ℤ} (h : D.objects.graph.Walk r q d) :
    D.graph.Walk (D.state r) (D.state q) d := by
  induction h with
  | nil => exact .nil
  | @snoc u x d c _ harc ih =>
    rcases List.mem_map.mp harc with ⟨a, ha, heq⟩
    cases heq
    rcases List.mem_map.mp ha with ⟨b, hb, heq⟩
    cases heq
    exact ih.snoc (SearchDomain.arc hb)

theorem trail_states {goal v : Ref V} {path : List (Ref V)} {w : ℕ} (h : Trail D.objects goal path v w) :
    Trail D (D.state goal) (path.map D.state) (D.state v) w := by
  induction h with
  | nil => exact .nil
  | @snoc path v q w c _ harc ih =>
    rcases List.mem_map.mp harc with ⟨a, ha, heq⟩
    cases heq
    rw [List.map_append]
    exact ih.snoc ha

/-- A path of objects is a path of the states they hold. -/
theorem path_states {path : List (Ref V)} {w : ℕ} (h : IsPath D.objects path w) :
    IsPath D (path.map D.state) w := by
  rcases h with ⟨goal, rest, hgoal, htrail, rfl⟩
  exact ⟨D.state goal, rest.map D.state, hgoal, trail_states htrail, List.map_append⟩

variable [DecidableEq V] {home : V → Fin n} {opts : Options} {s : State (Ref V) n} {t : Fin n}

/-- **PRA* is optimal.**  Whatever the threads, the options and the interleaving: when a thread has returned, no
path to a goal is cheaper than the bound, and the solution of the stream is a path to a goal at this cost.  There
is none only if every goal is infinitely far. -/
theorem pra_optimal
    (hadmissible : ∀ v goal d, D.is_goal goal = true → D.graph.Walk v goal d → (D.get_h v : ℤ) ≤ d)
    (hs : (prastar D home opts).Reachable s) (ht : s.threads t = .finished) :
    (∀ goal d, D.is_goal goal = true → D.graph.Walk D.initial_state goal d → (s.shared.bound : ℤ) ≤ d)
      ∧ ((∃ path, s.shared.solution = some (s.shared.bound, path)
          ∧ IsPath D (path.map D.state) s.shared.bound)
        ∨ s.shared.solution = none ∧ s.shared.bound = fp_infinity) := by
  have : NeZero n := ⟨fun hn => (hn ▸ t).elim0⟩
  have hobjects : ∀ v goal d, D.objects.is_goal goal = true → D.objects.graph.Walk v goal d →
      (D.objects.get_h v : ℤ) ≤ d :=
    fun v goal d hgoal hwalk => hadmissible (D.state v) (D.state goal) d hgoal (walk_states hwalk)
  rcases optimal_of_finished hobjects hs ht with ⟨hcheapest, hsolution⟩
  refine ⟨?_, hsolution.imp_left ?_⟩
  · intro goal d hgoal hwalk
    rcases walk_objects hwalk .init rfl with ⟨q, rfl, hwalk'⟩
    exact hcheapest q d hgoal hwalk'
  · rintro ⟨path, hpath, hreal⟩
    exact ⟨path, hpath, path_states hreal⟩

/-- Both threads return, with the path over the middle. -/
theorem pra_optimal_triangle : ∃ s : State (Ref Corner) 2,
    ((∀ t, s.threads t = .finished)
        ∧ s.shared.solution = some (12, [.state .goal, .state .middle, .init]))
      ∧ ∀ d, (triangle 20).graph.Walk .start .goal d → 12 ≤ d := by
  let first : Fin 2 := (Fin.last 1).rev
  let second : Fin 2 := Fin.last 1
  rcases exists_run (triangle 20).objects (fun r => halves.project ((triangle 20).state r)) ⟨true, true, 0⟩
    (List.replicate 8 second ++ List.replicate 33 first ++ List.replicate 29 second ++ List.replicate 4 first)
    (fun s => ((∀ t, s.threads t = .finished)
      ∧ s.shared.solution = some (12, [.state .goal, .state .middle, .init])) ∧ s.shared.bound = 12)
    (by decide +kernel) with ⟨s, hs, ht⟩
  have hcheapest := (pra_optimal (fun _ _ _ _ hwalk => hwalk.nonneg) hs (ht.1.1 first)).1
  refine ⟨s, ht.1, ?_⟩
  intro d hwalk
  have hle := hcheapest .goal d rfl hwalk
  rwa [ht.2] at hle

end Objects

end PwsaStar.Pbnf.PRAStar
