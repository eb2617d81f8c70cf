/-
# PwsaStar.Pbnf.Labels — costs and paths are real.

The `g` of a state is the cost of some walk from the initial state, along its parents the `g` never grows,
and what `get_path` collects, one copy at a time while others may still lower the `g` of the states it
passes, is a walk to a goal that costs no more than the `g` it started from.
-/
import PwsaStar.Pbnf.Owners

namespace PwsaStar.Pbnf

open PwsaStar.Lib NBlockGraph

variable {V : Type} {n : ℕ} {D : SearchDomain V} {P : Projection V n} {detect_livelocks : Bool}

/-- The graph that the search explores. -/
def SearchDomain.graph (D : SearchDomain V) : WGraph V where
  nbrs s := (D.expand s).map fun a => (a.1, (a.2 : ℤ))
  nonneg s a ha := by
    obtain ⟨x, -, rfl⟩ := List.mem_map.mp ha
    exact Int.natCast_nonneg x.2

theorem SearchDomain.arc {s t : V} {c : ℕ} (h : (t, c) ∈ D.expand s) : D.graph.Arc s t c :=
  List.mem_map.mpr ⟨(t, c), h, rfl⟩

/-- The states that `get_path` has copied on its way from `goal`, the state `v` it comes to next, and what
the steps in between cost. -/
inductive Trail (D : SearchDomain V) (goal : V) : List V → V → ℕ → Prop
  | nil : Trail D goal [] goal 0
  | snoc {path v q w c} : Trail D goal path v w → (v, c) ∈ D.expand q → Trail D goal (path ++ [v]) q (w + c)

/-- A path as `get_path` returns it: from a goal back to the initial state, at the cost `w`. -/
def IsPath (D : SearchDomain V) (path : List V) (w : ℕ) : Prop :=
  ∃ goal rest, D.is_goal goal = true ∧ Trail D goal rest D.initial_state w ∧ path = rest ++ [D.initial_state]

/-- A path to a goal that costs at most `cost`, the `g` of its first copy. -/
def Found (D : SearchDomain V) (path : List V) (cost : ℕ) : Prop :=
  cost < fp_infinity ∧ ∃ w, IsPath D path w ∧ w ≤ cost

theorem Trail.walk {goal v : V} {path : List V} {w : ℕ} (h : Trail D goal path v w) :
    D.graph.Walk v goal w := by
  induction h with
  | nil => exact .nil
  | @snoc path v q w c _ harc ih =>
    have hwalk := (WGraph.Walk.single (SearchDomain.arc harc)).append ih
    rwa [show (c : ℤ) + w = ((w + c : ℕ) : ℤ) by push_cast; omega] at hwalk

/-! ## What only gets better -/

/-- No `g`, no bound and no solution gets worse, and no state is forgotten. -/
structure Improves (sh sh' : Shared V n) : Prop where
  closed : ∀ v node, sh.closed v = some node → ∃ node', sh'.closed v = some node' ∧ node'.g ≤ node.g
  bound : sh'.bound ≤ sh.bound
  solution : ∀ best, sh.solution = some best → ∃ best', sh'.solution = some best' ∧ best'.1 ≤ best.1

theorem Improves.refl (sh : Shared V n) : Improves sh sh :=
  ⟨fun _ node h => ⟨node, h, le_refl _⟩, le_refl _, fun best h => ⟨best, h, le_refl _⟩⟩

variable {sh sh' : Shared V n} {ph ph' : Phase V n} {c : Notice}

/-- Every node with a parent hangs below it, and the `g` are costs of walks. -/
structure Labels (D : SearchDomain V) (sh : Shared V n) : Prop where
  start : ∃ node, sh.closed D.initial_state = some node ∧ node.g = 0
  walk : ∀ v node, sh.closed v = some node → D.graph.Walk D.initial_state v node.g
  root : ∀ v node, sh.closed v = some node → node.parent = none → v = D.initial_state
  parent : ∀ v node p, sh.closed v = some node → node.parent = some p →
    (v, node.c) ∈ D.expand p ∧ ∃ above, sh.closed p = some above ∧ above.g + node.c ≤ node.g
  solution : ∀ cost path, sh.solution = some (cost, path) → Found D path cost
  bound : sh.bound = fp_infinity ∨ ∃ best, sh.solution = some best ∧ best.1 ≤ sh.bound
  bound_le : sh.bound ≤ fp_infinity

/-- What a thread knows: the `g` it has read is the cost of a walk, and what it has copied of a path
leads from a goal to the state it copies next. -/
def Knows (D : SearchDomain V) (sh : Shared V n) : Phase V n → Prop
  | .children _ s g _ => D.graph.Walk D.initial_state s g ∧ ∃ node, sh.closed s = some node ∧ node.g ≤ g
  | .path _ cost path none => Found D path cost
  | .path _ cost path (some p) => cost < fp_infinity ∧ ∃ goal w, D.is_goal goal = true ∧
    Trail D goal path p w ∧ ∃ node, sh.closed p = some node ∧ node.g + w ≤ cost
  | .solution _ cost path => Found D path cost
  | .best _ => ∃ best, sh.solution = some best
  | .swap _ v _ => v < fp_infinity ∧ ∃ best, sh.solution = some best ∧ best.1 ≤ v
  | _ => True

theorem Knows.mono (hi : Improves sh sh') (h : Knows D sh ph) : Knows D sh' ph := by
  cases ph with
  | children b s g todo =>
    obtain ⟨hwalk, node, hnode, hle⟩ := h
    obtain ⟨node', hnode', hle'⟩ := hi.closed s node hnode
    exact ⟨hwalk, node', hnode', hle'.trans hle⟩
  | path b cost path p =>
    cases p with
    | none => exact h
    | some p =>
      obtain ⟨hfin, goal, w, hgoal, htrail, node, hnode, hle⟩ := h
      obtain ⟨node', hnode', hle'⟩ := hi.closed p node hnode
      exact ⟨hfin, goal, w, hgoal, htrail, node', hnode', (Nat.add_le_add_right hle' w).trans hle⟩
  | best b =>
    obtain ⟨best, hbest⟩ := h
    obtain ⟨best', hbest', -⟩ := hi.solution best hbest
    exact ⟨best', hbest'⟩
  | swap b v old =>
    obtain ⟨hfin, best, hbest, hle⟩ := h
    obtain ⟨best', hbest', hle'⟩ := hi.solution best hbest
    exact ⟨hfin, best', hbest', hle'.trans hle⟩
  | _ => exact h

/-- A path goes on with the parent that was read. -/
theorem Labels.follow (h : Labels D sh) {goal v : V} {path : List V} {w cost : ℕ} {node : Node V}
    {b : Fin n} (hfin : cost < fp_infinity) (hgoal : D.is_goal goal = true) (htrail : Trail D goal path v w)
    (hnode : sh.closed v = some node) (hle : node.g + w ≤ cost) :
    Knows D sh (.path b cost (path ++ [v]) node.parent) := by
  cases hp : node.parent with
  | none =>
    obtain rfl := h.root v node hnode hp
    exact ⟨hfin, w, ⟨goal, path, hgoal, htrail, rfl⟩, by omega⟩
  | some p =>
    obtain ⟨harc, above, habove, hg⟩ := h.parent v node p hnode hp
    exact ⟨hfin, goal, w + node.c, hgoal, htrail.snoc harc, above, habove, by omega⟩

/-- What is not pruned costs less than infinity. -/
theorem Labels.finite (h : Labels D sh) {g : ℕ} {s : V} (hlt : D.get_f g s < sh.bound) : g < fp_infinity := by
  have hle := h.bound_le
  rw [SearchDomain.get_f] at hlt
  omega

section Turns

variable [DecidableEq V]

/-- A node is replaced by one that is no worse. -/
theorem Improves.set_closed {t : V} {node : Node V}
    (h : ∀ dup, sh.closed t = some dup → node.g ≤ dup.g)
    (hc : sh'.closed = Function.update sh.closed t (some node)) (hb : sh'.bound = sh.bound)
    (hs : sh'.solution = sh.solution) : Improves sh sh' := by
  refine { closed := ?_, bound := hb.le, solution := ?_ }
  · intro v dup hdup
    rw [hc]
    by_cases hv : v = t
    · subst hv
      exact ⟨node, Function.update_self .., h dup hdup⟩
    · exact ⟨dup, (Function.update_of_ne hv ..).trans hdup, le_refl _⟩
  · intro best hbest
    exact ⟨best, hs.trans hbest, le_refl _⟩

/-- **A better node keeps the labels in order.**  `p` and `c` are the parent and the cost of the step; the
parent's `g` may have been read a while ago. -/
theorem Labels.set_closed (h : Labels D sh) {s t : V} {g c : ℕ} {is_open : Bool}
    (hs : D.graph.Walk D.initial_state s g ∧ ∃ node, sh.closed s = some node ∧ node.g ≤ g)
    (harc : (t, c) ∈ D.expand s) (hbetter : ∀ dup, sh.closed t = some dup → g + c < dup.g)
    (hc : sh'.closed = Function.update sh.closed t (some (child s g c is_open)))
    (hb : sh'.bound = sh.bound) (hsol : sh'.solution = sh.solution) : Labels D sh' := by
  obtain ⟨hwalk, above, habove, hle⟩ := hs
  -- a state is not its own child at a smaller `g`
  have hst : s ≠ t := by
    rintro rfl
    have := hbetter above habove
    omega
  have himp : Improves sh sh' := Improves.set_closed (fun dup hdup => (hbetter dup hdup).le) hc hb hsol
  refine { start := ?_, walk := ?_, root := ?_, parent := ?_, solution := ?_, bound := ?_, bound_le := ?_ }
  · obtain ⟨node, hnode, hzero⟩ := h.start
    obtain ⟨node', hnode', hle'⟩ := himp.closed _ node hnode
    exact ⟨node', hnode', by omega⟩
  · intro v node hnode
    rw [hc] at hnode
    by_cases hv : v = t
    · subst hv
      rw [Function.update_self] at hnode
      obtain rfl := Option.some.inj hnode
      show D.graph.Walk D.initial_state v ((g + c : ℕ) : ℤ)
      push_cast
      exact hwalk.snoc (SearchDomain.arc harc)
    · rw [Function.update_of_ne hv] at hnode
      exact h.walk v node hnode
  · intro v node hnode hp
    rw [hc] at hnode
    by_cases hv : v = t
    · subst hv
      rw [Function.update_self] at hnode
      obtain rfl := Option.some.inj hnode
      exact nomatch hp
    · rw [Function.update_of_ne hv] at hnode
      exact h.root v node hnode hp
  · intro v node p hnode hp
    rw [hc] at hnode
    by_cases hv : v = t
    · subst hv
      rw [Function.update_self] at hnode
      obtain rfl := Option.some.inj hnode
      obtain rfl := Option.some.inj hp
      refine ⟨harc, above, ?_, Nat.add_le_add_right hle c⟩
      rw [hc, Function.update_of_ne hst]
      exact habove
    · rw [Function.update_of_ne hv] at hnode
      obtain ⟨harc', above', habove', hle'⟩ := h.parent v node p hnode hp
      obtain ⟨above'', habove'', hle''⟩ := himp.closed p above' habove'
      exact ⟨harc', above'', habove'', (Nat.add_le_add_right hle'' _).trans hle'⟩
  · rw [hsol]
    exact h.solution
  · rw [hsol, hb]
    exact h.bound
  · rw [hb]
    exact h.bound_le

/-- Only the flag of a node changes. -/
theorem Labels.set_flag (h : Labels D sh) {t : V} {node : Node V} (hnode : sh.closed t = some node)
    (hc : sh'.closed = Function.update sh.closed t (some { node with is_open := false }))
    (hb : sh'.bound = sh.bound) (hsol : sh'.solution = sh.solution) : Labels D sh' := by
  -- every node was there before, up to the flag
  have hback : ∀ v x, sh'.closed v = some x → ∃ y, sh.closed v = some y ∧ x.g = y.g ∧ x.c = y.c
      ∧ x.parent = y.parent := by
    intro v x hx
    rw [hc] at hx
    by_cases hv : v = t
    · subst hv
      rw [Function.update_self] at hx
      obtain rfl := Option.some.inj hx
      exact ⟨node, hnode, rfl, rfl, rfl⟩
    · rw [Function.update_of_ne hv] at hx
      exact ⟨x, hx, rfl, rfl, rfl⟩
  have himp : Improves sh sh' := by
    refine Improves.set_closed ?_ hc hb hsol
    intro dup hdup
    obtain rfl := Option.some.inj (hnode.symm.trans hdup)
    exact le_refl _
  refine { start := ?_, walk := ?_, root := ?_, parent := ?_, solution := ?_, bound := ?_, bound_le := ?_ }
  · obtain ⟨x, hx, hzero⟩ := h.start
    obtain ⟨x', hx', hle'⟩ := himp.closed _ x hx
    exact ⟨x', hx', by omega⟩
  · intro v x hx
    obtain ⟨y, hy, hg, -, -⟩ := hback v x hx
    rw [hg]
    exact h.walk v y hy
  · intro v x hx hp
    obtain ⟨y, hy, -, -, hparent⟩ := hback v x hx
    exact h.root v y hy (hparent ▸ hp)
  · intro v x p hx hp
    obtain ⟨y, hy, hg, hcost, hparent⟩ := hback v x hx
    obtain ⟨harc, above, habove, hle⟩ := h.parent v y p hy (hparent ▸ hp)
    obtain ⟨above', habove', hle'⟩ := himp.closed p above habove
    rw [hg, hcost]
    exact ⟨harc, above', habove', (Nat.add_le_add_right hle' _).trans hle⟩
  · rw [hsol]
    exact h.solution
  · rw [hsol, hb]
    exact h.bound
  · rw [hb]
    exact h.bound_le

omit [DecidableEq V] in
theorem see_solution_cases (sh : Shared V n) (cost : ℕ) (path : List V) :
    (see_solution sh cost path = { sh with solution := some (cost, path) } ∧
        ∀ best, sh.solution = some best → cost < best.1)
      ∨ see_solution sh cost path = sh ∧ ∃ best, sh.solution = some best ∧ best.1 ≤ cost := by
  rw [see_solution, SolutionStream.see_solution]
  split_ifs with hbetter
  · refine Or.inl ⟨rfl, ?_⟩
    intro best hbest
    simpa [hbest] using hbetter
  · rcases hs : sh.solution with _ | best
    · simp [hs] at hbetter
    · exact Or.inr ⟨by rw [← hs], best, rfl, by simpa [hs] using hbetter⟩

variable [NeZero n]

theorem Turn.improves (hshape : Shape D P ph) (h : Turn D P detect_livelocks sh ph sh' ph' c) :
    Improves sh sh' := by
  cases h with
  | own hown => exact Improves.refl sh
  | locked hlocked => exact ⟨(Improves.refl sh).closed, le_refl _, (Improves.refl sh).solution⟩
  | @take b s node o _ ho hnode htaken hp =>
    refine Improves.set_closed ?_ (show (sh.taken b s node o).closed = _ from rfl) rfl rfl
    intro dup hdup
    obtain rfl := Option.some.inj (hnode.symm.trans hdup)
    exact le_refl _
  | @update b s g t c todo dup o hdup hlt hopen ho =>
    refine Improves.set_closed (t := t) ?_ rfl rfl rfl
    intro dup' hdup'
    obtain rfl := Option.some.inj (hdup.symm.trans hdup')
    exact hlt.le
  | @reopen b s g t c todo dup hdup hlt hopen =>
    refine Improves.set_closed (t := t) ?_ rfl rfl rfl
    intro dup' hdup'
    obtain rfl := Option.some.inj (hdup.symm.trans hdup')
    exact hlt.le
  | @create b s g t c todo hnone hgoal =>
    refine Improves.set_closed (t := t) ?_ rfl rfl rfl
    exact fun dup hdup => absurd (hnone.symm.trans hdup) (Option.some_ne_none dup).symm
  | @reach b s g t c todo hlt hnone hgoal =>
    refine Improves.set_closed (t := t) ?_ rfl rfl rfl
    exact fun dup hdup => absurd (hnone.symm.trans hdup) (Option.some_ne_none dup).symm
  | @report b cost path =>
    rcases see_solution_cases sh cost path with ⟨heq, hlt⟩ | ⟨heq, -⟩
    · rw [heq]
      refine ⟨(Improves.refl sh).closed, le_refl _, ?_⟩
      exact fun best hbest => ⟨_, rfl, (hlt best hbest).le⟩
    · rw [heq]
      exact Improves.refl sh
  | @swap b v old heq =>
    have hlt : v < old := hshape
    exact ⟨(Improves.refl sh).closed, show v ≤ sh.bound by omega, (Improves.refl sh).solution⟩

omit [DecidableEq V] [NeZero n] in
/-- The next child is one of the children. -/
theorem Shape.child {b : Fin n} {s t : V} {g c : ℕ} {todo : List (V × ℕ)}
    (h : Shape D P (.children b s g ((t, c) :: todo))) : (t, c) ∈ D.expand s := by
  obtain ⟨-, pre, hpre⟩ := h
  rw [hpre]
  exact List.mem_append_right _ List.mem_cons_self

theorem Labels.turn (h : Labels D sh) (hk : Knows D sh ph) (hshape : Shape D P ph)
    (hturn : Turn D P detect_livelocks sh ph sh' ph' c) : Labels D sh' := by
  cases hturn with
  | own hown => exact h
  | locked hlocked => exact ⟨h.start, h.walk, h.root, h.parent, h.solution, h.bound, h.bound_le⟩
  | @take b s node o _ ho hnode htaken hp => exact h.set_flag hnode rfl rfl rfl
  | @update b s g t c todo dup o hdup hlt hopen ho =>
    refine h.set_closed hk hshape.child ?_ rfl rfl rfl
    intro dup' hdup'
    obtain rfl := Option.some.inj (hdup.symm.trans hdup')
    exact hlt
  | @reopen b s g t c todo dup hdup hlt hopen =>
    refine h.set_closed hk hshape.child ?_ rfl rfl rfl
    intro dup' hdup'
    obtain rfl := Option.some.inj (hdup.symm.trans hdup')
    exact hlt
  | @create b s g t c todo hnone hgoal =>
    refine h.set_closed hk hshape.child ?_ rfl rfl rfl
    exact fun dup hdup => absurd (hnone.symm.trans hdup) (Option.some_ne_none dup).symm
  | @reach b s g t c todo hlt hnone hgoal =>
    refine h.set_closed hk hshape.child ?_ rfl rfl rfl
    exact fun dup hdup => absurd (hnone.symm.trans hdup) (Option.some_ne_none dup).symm
  | @report b cost path =>
    rcases see_solution_cases sh cost path with ⟨heq, hlt⟩ | ⟨heq, -⟩
    · rw [heq]
      refine ⟨h.start, h.walk, h.root, h.parent, ?_, ?_, h.bound_le⟩
      · intro cost' path' hsol
        obtain ⟨rfl, rfl⟩ := Prod.mk.inj (Option.some.inj hsol)
        exact hk
      · rcases h.bound with hinf | ⟨best, hbest, hle⟩
        · exact Or.inl hinf
        · exact Or.inr ⟨_, rfl, (hlt best hbest).le.trans hle⟩
    · rw [heq]
      exact h
  | @swap b v old heq =>
    exact ⟨h.start, h.walk, h.root, h.parent, h.solution, Or.inr hk.2, hk.1.le⟩

theorem Knows.turn (h : Labels D sh) (hk : Knows D sh ph) (hshape : Shape D P ph)
    (hturn : Turn D P detect_livelocks sh ph sh' ph' c) : Knows D sh' ph' := by
  have himp := hturn.improves hshape
  have hlabels := h.turn hk hshape hturn
  have hafter : ∀ r : Result n, Knows D sh' (after r) := fun r => by cases r <;> trivial
  -- the same thread, further down the list of children
  have htail : ∀ {b : Fin n} {s : V} {g : ℕ} {tc : V × ℕ} {todo : List (V × ℕ)},
      Knows D sh (.children b s g (tc :: todo)) → Knows D sh' (.children b s g todo) := by
    intro b s g tc todo hk
    have hk' : Knows D sh (.children b s g todo) := hk
    exact hk'.mono himp
  cases hturn with
  | own hown =>
    cases hown with
    | late hlate => exact htail hk
    | known hdup hle => exact htail hk
    | @copy b cost path p node hnode =>
      obtain ⟨hfin, goal, w, hgoal, htrail, node', hnode', hle⟩ := hk
      obtain rfl := Option.some.inj (hnode.symm.trans hnode')
      exact h.follow hfin hgoal htrail hnode hle
    | copied => exact hk
    | @best b best hbest => exact ⟨(h.solution best.1 best.2 hbest).1, best, hbest, le_refl _⟩
    | read hlt => exact hk
    | retry => exact hk
    | _ => trivial
  | locked hlocked =>
    cases hlocked with
    | lock hr => exact hafter _
    | again hr => exact hafter _
    | @look b l g bc ret hempty hr => cases ret <;> trivial
    | leave => trivial
  | @take b s node o _ ho hnode htaken hp =>
    have hclosed : (sh.taken b s node o).closed s = some { node with is_open := false } :=
      Function.update_self ..
    cases htaken with
    | late hlate => trivial
    | @goal p hlt hgoal =>
      have hfollow : Knows D sh (.path b node.g ([] ++ [s]) node.parent) :=
        h.follow (h.finite hlt) hgoal .nil hnode (le_refl _)
      rw [hp _ _ p rfl]
      exact hfollow.mono himp
    | expand hgoal => exact ⟨h.walk s node hnode, _, hclosed, le_refl _⟩
  | update hdup hlt hopen ho => exact htail hk
  | reopen hdup hlt hopen => exact htail hk
  | create hnone hgoal => exact htail hk
  | @reach b s g t c todo hlt hnone hgoal =>
    have hclosed : (sh.set_closed t (PwsaStar.Pbnf.child s g c false)).closed t
        = some (PwsaStar.Pbnf.child s g c false) := Function.update_self ..
    have hfollow : Knows D (sh.set_closed t (PwsaStar.Pbnf.child s g c false))
        (.path b (g + c) ([] ++ [t]) (some s)) :=
      hlabels.follow (h.finite hlt) hgoal .nil hclosed (le_refl _)
    exact hfollow
  | @report b cost path =>
    rcases see_solution_cases sh cost path with ⟨heq, -⟩ | ⟨heq, best, hbest, -⟩
    · rw [heq]
      exact ⟨_, rfl⟩
    · rw [heq]
      exact ⟨best, hbest⟩
  | swap heq => trivial

variable {ι : Type} [DecidableEq ι] [Inhabited V] {s : State ι V n}

omit [DecidableEq ι] in
theorem labels_initial : Labels D (Shared.initial D P : Shared V n) := by
  have hinit : ∀ v node, (Shared.initial D P : Shared V n).closed v = some node →
      v = D.initial_state ∧ node = ⟨0, 0, none, true⟩ := by
    intro v node hnode
    rw [initial_closed] at hnode
    by_cases hv : v = D.initial_state
    · subst hv
      rw [Function.update_self] at hnode
      exact ⟨rfl, (Option.some.inj hnode).symm⟩
    · rw [Function.update_of_ne hv] at hnode
      exact nomatch hnode
  refine ⟨?_, ?_, ?_, ?_, nofun, Or.inl rfl, le_refl _⟩
  · refine ⟨⟨0, 0, none, true⟩, ?_, rfl⟩
    rw [initial_closed, Function.update_self]
  · intro v node hnode
    obtain ⟨rfl, rfl⟩ := hinit v node hnode
    exact .nil
  · exact fun v node hnode _ => (hinit v node hnode).1
  · intro v node p hnode hp
    obtain ⟨rfl, rfl⟩ := hinit v node hnode
    exact nomatch hp

theorem labels_reachable (hs : (searches ι D P detect_livelocks).Reachable s) :
    Labels D s.shared ∧ ∀ u, Knows D s.shared (s.threads u) := by
  apply hs.invariant (I := fun s => Labels D s.shared ∧ ∀ u, Knows D s.shared (s.threads u))
  · rintro s rfl
    exact ⟨labels_initial, fun _ => trivial⟩
  · rintro s s' hreach ⟨h, hk⟩ hstep
    obtain ⟨-, hshape⟩ := lists_reachable hreach
    obtain ⟨t, ph', c, hturn, hmoved⟩ := step_cases hstep
    refine ⟨h.turn (hk t) (hshape t) hturn, ?_⟩
    apply hmoved.all (Q := Knows D s'.shared) trivial (Knows.turn h (hk t) (hshape t) hturn)
    exact fun u _ => (hk u).mono (hturn.improves (hshape t))

/-! ## The assertions -/

omit [Inhabited V] [DecidableEq ι] [NeZero n] in
theorem Lists.take_open_isSome (hl : Lists D P sh) {b : Fin n} (hb : (sh.opens b).pq.empty = false) :
    (take_open D sh b).isSome := by
  obtain ⟨⟨v, o⟩, ho⟩ := Option.isSome_iff_exists.mp ((hl b).take_isSome ((hl b).empty_iff.mp hb))
  obtain ⟨⟨-, node, hnode, -⟩, -⟩ := (hl b).take ho
  rw [take_open, ho, Option.bind_some, hnode]
  rfl

omit [Inhabited V] [DecidableEq ι] [NeZero n] in
theorem Lists.see_child_isSome (hl : Lists D P sh) (b : Fin n) (v : V) (g : ℕ) (t : V) (c : ℕ)
    (todo : List (V × ℕ)) : (see_child D P sh b v g t c todo).isSome := by
  rw [see_child]
  by_cases hlate : sh.bound ≤ D.get_f (g + c) t
  · rw [if_pos hlate]
    rfl
  · rw [if_neg hlate]
    cases hdup : sh.closed t with
    | none =>
      dsimp only
      split_ifs <;> rfl
    | some dup =>
      dsimp only
      split_ifs with hlt hopen
      · have hnode : ({ dup with parent := some v, c := c, g := g + c } : Node V).is_open = true := hopen
        obtain ⟨o, ho, -⟩ := hl.see_update hdup hopen hnode
        rw [Option.isSome_map]
        exact Option.isSome_iff_exists.mpr ⟨o, ho⟩
      · rfl
      · rfl

/-- **No assertion fails and no null pointer is followed.**  Whoever has not returned can take its turn,
whatever it reads without a lock. -/
theorem never_fails (hP : P.Mutual) (hcov : P.Covers D)
    (hs : (searches ι D P detect_livelocks).Reachable s) (t : ι) (woken : ι → Bool) :
    s.threads t = .finished ∨ (s.next D P detect_livelocks t .go woken).isSome
      ∨ ∃ b, s.threads t = .search b ∧ ∀ l, (s.next D P detect_livelocks t (.look l) woken).isSome := by
  have h := owned_reachable hP hcov hs
  obtain ⟨hl, -⟩ := lists_reachable hs
  obtain ⟨-, hk⟩ := labels_reachable hs
  obtain ⟨S, hexact, -⟩ := h.monitor
  have hturn : ∀ a, (s.next D P detect_livelocks t a woken).isSome
      = (turn D P detect_livelocks a s.shared (s.threads t)).isSome := by
    intro a
    rw [State.next, Option.isSome_map]
  have hkt := hk t
  simp only [hturn]
  cases hph : s.threads t with
  | next f =>
    refine Or.inr (Or.inl ?_)
    have hf : ∀ b ∈ f, s.shared.graph.inuse b = true := by
      rintro b rfl
      exact (h.owners.iff b).mpr ⟨t, congrArg Phase.held hph⟩
    obtain ⟨g, r, c, S', hr, -⟩ := next_nblock_spec hP hexact f hf
    show ((s.shared.graph.next_nblock P s.shared.view (s.shared.limit D) f).map _).isSome = true
    rw [hr]
    rfl
  | asleep => exact Or.inr (Or.inl rfl)
  | woken =>
    refine Or.inr (Or.inl ?_)
    obtain ⟨g, r, bc, S', hr, -⟩ := choose_spec hP false hexact
    show ((s.shared.graph.choose P s.shared.view (s.shared.limit D) false).map _).isSome = true
    rw [hr]
    rfl
  | search b =>
    refine Or.inr (Or.inr ⟨b, rfl, fun l => ?_⟩)
    obtain ⟨g, ret, S', hr, -⟩ := should_switch_spec (b := b) hexact l
    simp only [turn]
    split_ifs
    · rfl
    · rw [Option.isSome_map, hr]
      rfl
  | take b =>
    refine Or.inr (Or.inl ?_)
    rw [turn, Option.isSome_map]
    exact hl.take_open_isSome (h.take t b hph)
  | children b v g todo =>
    refine Or.inr (Or.inl ?_)
    cases todo with
    | nil => rfl
    | cons tc todo =>
      rw [turn, Option.isSome_map]
      exact hl.see_child_isSome b v g tc.1 tc.2 todo
  | path b cost path p =>
    refine Or.inr (Or.inl ?_)
    cases p with
    | none => rfl
    | some p =>
      rw [hph] at hkt
      obtain ⟨-, goal, w, -, -, node, hnode, -⟩ := hkt
      simp only [turn]
      rw [hnode]
      rfl
  | solution b cost path => exact Or.inr (Or.inl rfl)
  | best b =>
    rw [hph] at hkt
    obtain ⟨best, hbest⟩ := hkt
    refine Or.inr (Or.inl ?_)
    simp only [turn]
    rw [hbest]
    rfl
  | swap b v old =>
    refine Or.inr (Or.inl ?_)
    cases old with
    | none =>
      simp only [turn]
      split_ifs <;> rfl
    | some old =>
      simp only [turn]
      split_ifs <;> rfl
  | leave => exact Or.inr (Or.inl rfl)
  | finished => exact Or.inl rfl

/-- A sleeping thread and one that looks for the best nblock can go on. -/
theorem never_fails_triangle : ∃ s : State Bool Corner 2, s.threads true = .asleep ∧ s.threads false = .search 0
    ∧ ∀ t woken, s.threads t = .finished ∨ (s.next (triangle 20) halves true t .go woken).isSome
      ∨ ∃ b, s.threads t = .search b ∧ ∀ l, (s.next (triangle 20) halves true t (.look l) woken).isSome := by
  obtain ⟨s, hs, hasleep, hsearch⟩ := exists_run (triangle 20) halves [false, true]
    (fun s : State Bool Corner 2 => s.threads true = .asleep ∧ s.threads false = .search 0) (by decide +kernel)
  exact ⟨s, hasleep, hsearch, never_fails halves_mutual (halves_covers 20) hs⟩

end Turns

end PwsaStar.Pbnf
