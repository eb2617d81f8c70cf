/-
# PwsaStar.Pbnf.Optimal — what the search returns is a cheapest path.

Every generated state is open, beyond the bound, a goal, or expanded; and every goal that was found with a
smaller `g` than the bound is on its way into the bound.  When the search is done no thread is on its way
anywhere, and every open state is beyond the bound.

`search_nblock` leaves the loop over the children of a state at the first one that is a new goal, and
drops the others.  So this one must not be dearer than what the others could still lead to.
-/
import PwsaStar.Pbnf.Labels

namespace PwsaStar.Pbnf

open PwsaStar.Lib NBlockGraph

variable {V : Type} {n : ℕ} {D : SearchDomain V} {P : Projection V n} {detect_livelocks : Bool}

/-- What the search relies on: the projection shows every step, no nblock is alone, the heuristic is
admissible, and among the children of a state the ones after a goal lead to no cheaper goal. -/
structure Setting (D : SearchDomain V) (P : Projection V n) : Prop where
  preds : P.Mutual
  covers : P.Covers D
  neighbours : ∀ b, P.interferes b ≠ []
  admissible : ∀ v goal d, D.is_goal goal = true → D.graph.Walk v goal d → (D.get_h v : ℤ) ≤ d
  goal_last : ∀ (s : V) (pre : List (V × ℕ)) (t : V) (c : ℕ) (todo : List (V × ℕ)),
    D.expand s = pre ++ (t, c) :: todo → D.is_goal t = true → ∀ (t' : V) (c' : ℕ), (t', c') ∈ todo →
      ∀ goal d, D.is_goal goal = true → D.graph.Walk t' goal d → (c : ℤ) ≤ c' + d
  weight : 1 ≤ D.weight

theorem Setting.goal_h (hset : Setting D P) {v : V} (hgoal : D.is_goal v = true) (g : ℕ) :
    D.get_f g v = g := by
  have hle := hset.admissible v v 0 hgoal .nil
  rw [SearchDomain.get_f]
  omega

/-! ## Arcs -/

/-- A goal of cost at most `x` was found. -/
def Reached (D : SearchDomain V) (sh : Shared V n) (x : ℤ) : Prop :=
  ∃ goal node, D.is_goal goal = true ∧ sh.closed goal = some node ∧ (node.g : ℤ) ≤ x

/-- There is nothing to be gained any more from the step to `t` at the cost `c`, from a state of cost `g`. -/
def ArcDone (D : SearchDomain V) (sh : Shared V n) (g : ℕ) (t : V) (c : ℕ) : Prop :=
  (∃ node, sh.closed t = some node ∧ node.g ≤ g + c) ∨ sh.bound ≤ D.get_f (g + c) t ∨
    ∀ goal d, D.is_goal goal = true → D.graph.Walk t goal d → Reached D sh (g + c + d)

variable {sh sh' : Shared V n} {ph ph' : Phase V n} {c : Notice}

theorem Reached.mono {x : ℤ} (hi : Improves sh sh') (h : Reached D sh x) : Reached D sh' x := by
  obtain ⟨goal, node, hgoal, hnode, hle⟩ := h
  obtain ⟨node', hnode', hle'⟩ := hi.closed goal node hnode
  exact ⟨goal, node', hgoal, hnode', by omega⟩

theorem ArcDone.mono {g c : ℕ} {t : V} (hi : Improves sh sh') (h : ArcDone D sh g t c) :
    ArcDone D sh' g t c := by
  rcases h with ⟨node, hnode, hle⟩ | hlate | hcover
  · obtain ⟨node', hnode', hle'⟩ := hi.closed t node hnode
    exact Or.inl ⟨node', hnode', hle'.trans hle⟩
  · exact Or.inr (Or.inl (hi.bound.trans hlate))
  · exact Or.inr (Or.inr fun goal d hgoal hwalk => (hcover goal d hgoal hwalk).mono hi)

/-- The arcs after the one to a goal that was found. -/
theorem Setting.dropped (hset : Setting D P) {s t : V} {g c : ℕ} {pre todo : List (V × ℕ)} {node : Node V}
    (hexpand : D.expand s = pre ++ (t, c) :: todo) (hgoal : D.is_goal t = true)
    (hnode : sh.closed t = some node) (hle : node.g ≤ g + c) :
    ∀ t' c', (t', c') ∈ todo → ArcDone D sh g t' c' := by
  intro t' c' hmem
  refine Or.inr (Or.inr ?_)
  intro goal d hgoal' hwalk
  have hlast := hset.goal_last s pre t c todo hexpand hgoal t' c' hmem goal d hgoal' hwalk
  exact ⟨t, node, hgoal, hnode, by omega⟩

/-! ## The bound at the end -/

/-- When every state is beyond the bound, a goal or expanded, no goal is cheaper than the bound: along a walk to
a cheaper one, every state would have at most the cost of the walk. -/
theorem Labels.cheapest (h : Labels D sh)
    (hadmissible : ∀ v goal d, D.is_goal goal = true → D.graph.Walk v goal d → (D.get_h v : ℤ) ≤ d)
    (hgoals : ∀ v node, sh.closed v = some node → D.is_goal v = true → sh.bound ≤ node.g)
    (hsettled : ∀ v node, sh.closed v = some node → sh.bound ≤ D.get_f node.g v ∨ D.is_goal v = true
      ∨ ∀ t c, (t, c) ∈ D.expand v → ArcDone D sh node.g t c)
    (goal : V) (d : ℤ) (hgoal : D.is_goal goal = true) (hwalk : D.graph.Walk D.initial_state goal d) :
    (sh.bound : ℤ) ≤ d := by
  have hlabel : ∀ v d, D.graph.Walk D.initial_state v d → ∀ goal e, D.is_goal goal = true →
      D.graph.Walk v goal e →
        (sh.bound : ℤ) ≤ d + e ∨ ∃ node, sh.closed v = some node ∧ (node.g : ℤ) ≤ d := by
    intro v d hwalk
    induction hwalk with
    | nil =>
      obtain ⟨node, hnode, hzero⟩ := h.start
      exact fun goal e _ _ => Or.inr ⟨node, hnode, by omega⟩
    | @snoc u v d w _ harc ih =>
      intro goal e hgoal hrest
      have hwhole := (WGraph.Walk.single harc).append hrest
      rcases ih goal (w + e) hgoal hwhole with hle | ⟨node, hnode, hle⟩
      · exact Or.inl (by omega)
      · obtain ⟨⟨x, c⟩, hmem, heq⟩ := List.mem_map.mp harc
        obtain ⟨rfl, rfl⟩ := Prod.mk.inj heq
        have hu := hadmissible u goal _ hgoal hwhole
        have hv := hadmissible x goal e hgoal hrest
        rcases hsettled u node hnode with hlate | hgoal' | harcs
        · have hlate' : sh.bound ≤ node.g + D.get_h u := hlate
          exact Or.inl (by omega)
        · have hbound := hgoals u node hnode hgoal'
          have hnonneg := hwhole.nonneg
          exact Or.inl (by omega)
        · rcases harcs x c hmem with ⟨node', hnode', hle'⟩ | hlate | hcover
          · exact Or.inr ⟨node', hnode', by omega⟩
          · have hlate' : sh.bound ≤ node.g + c + D.get_h x := hlate
            exact Or.inl (by omega)
          · obtain ⟨goal', node', hgoal', hnode', hle'⟩ := hcover goal e hgoal hrest
            have hbound := hgoals goal' node' hnode' hgoal'
            exact Or.inl (by omega)
  rcases hlabel goal d hwalk goal 0 hgoal .nil with hle | ⟨node, hnode, hle⟩
  · omega
  · have hbound := hgoals goal node hnode hgoal
    omega

/-- When no goal is cheaper than the bound and the bound is at most the cost of the solution, the solution is a
path of this cost. -/
theorem Labels.at_bound (h : Labels D sh)
    (hcheapest : ∀ goal d, D.is_goal goal = true → D.graph.Walk D.initial_state goal d → (sh.bound : ℤ) ≤ d)
    (hreported : ∀ best, sh.solution = some best → sh.bound ≤ best.1) :
    (∃ path, sh.solution = some (sh.bound, path) ∧ IsPath D path sh.bound)
      ∨ sh.solution = none ∧ sh.bound = fp_infinity := by
  cases hsol : sh.solution with
  | none =>
    refine Or.inr ⟨rfl, ?_⟩
    rcases h.bound with hinf | ⟨best, hbest, -⟩
    · exact hinf
    · exact nomatch hsol.symm.trans hbest
  | some best =>
    obtain ⟨cost, path⟩ := best
    obtain ⟨hfin, w, hpath, hw⟩ := h.solution cost path hsol
    have hbound : sh.bound ≤ cost := hreported _ hsol
    have hcost : cost ≤ sh.bound := by
      rcases h.bound with hinf | ⟨best, hbest, hle⟩
      · omega
      · obtain rfl := Option.some.inj (hsol.symm.trans hbest)
        exact hle
    have hcheap : sh.bound ≤ w := by
      obtain ⟨goal, rest, hgoal, htrail, -⟩ := hpath
      exact_mod_cast hcheapest goal w hgoal htrail.walk
    obtain rfl : cost = sh.bound := le_antisymm hcost hbound
    obtain rfl : w = sh.bound := le_antisymm hw hcheap
    exact Or.inl ⟨path, rfl, hpath⟩

/-! ## What is on its way -/

/-- The thread will bring the bound down to `x` or less. -/
def Owes (sh : Shared V n) (x : ℕ) : Phase V n → Prop
  | .path _ cost _ _ => cost ≤ x
  | .solution _ cost _ => cost ≤ x
  | .best _ => ∃ best, sh.solution = some best ∧ best.1 ≤ x
  | .swap _ v _ => v ≤ x
  | _ => False

theorem Owes.mono {x : ℕ} (hi : Improves sh sh') (h : Owes sh x ph) : Owes sh' x ph := by
  cases ph with
  | best b =>
    obtain ⟨best, hbest, hle⟩ := h
    obtain ⟨best', hbest', hle'⟩ := hi.solution best hbest
    exact ⟨best', hbest', hle'.trans hle⟩
  | _ => exact h

/-- Only a thread that has an nblock is on its way. -/
theorem Owes.held {x : ℕ} (h : Owes sh x ph) : ph.held ≠ none := by
  cases ph with
  | path b cost path p => exact nofun
  | solution b cost path => exact nofun
  | best b => exact nofun
  | swap b v old => exact nofun
  | _ => exact h.elim

theorem Owes.not_asleep {x : ℕ} (h : Owes sh x ph) : ph ≠ .asleep := by
  rintro rfl
  exact h.elim

section Turns

variable [DecidableEq V] [NeZero n]

/-- **The thread that moves gets there, or goes on.** -/
theorem Turn.owes {x : ℕ} (hturn : Turn D P detect_livelocks sh ph sh' ph' c) (h : Owes sh x ph) :
    sh'.bound ≤ x ∨ Owes sh' x ph' := by
  cases hturn with
  | own hown =>
    cases hown with
    | copy hnode => exact Or.inr h
    | copied => exact Or.inr h
    | best hbest =>
      obtain ⟨best', hbest', hle⟩ := h
      obtain rfl := Option.some.inj (hbest.symm.trans hbest')
      exact Or.inr hle
    | keep hle => exact Or.inl (hle.trans h)
    | read hlt => exact Or.inr h
    | retry => exact Or.inr h
    | _ => exact h.elim
  | locked hlocked => cases hlocked <;> exact h.elim
  | take ho hnode htaken hp => exact h.elim
  | update hdup hlt hopen ho => exact h.elim
  | reopen hdup hlt hopen => exact h.elim
  | create hnone hgoal => exact h.elim
  | reach hlt hnone hgoal => exact h.elim
  | @report b cost path =>
    refine Or.inr ?_
    rcases see_solution_cases sh cost path with ⟨heq, -⟩ | ⟨heq, best, hbest, hle⟩
    · rw [heq]
      exact ⟨_, rfl, h⟩
    · rw [heq]
      exact ⟨best, hbest, hle.trans h⟩
  | swap heq => exact Or.inl h

/-- A turn in the loop over the children ends it, does with the next child what there is to do, or finds
that it is a new goal and leaves the others. -/
theorem Turn.children {b : Fin n} {s : V} {g : ℕ} {todo : List (V × ℕ)}
    (hturn : Turn D P detect_livelocks sh (.children b s g todo) sh' ph' c) :
    todo = [] ∨ ∃ t c rest, todo = (t, c) :: rest ∧ ArcDone D sh' g t c ∧
      (ph' = .children b s g rest ∨
        D.is_goal t = true ∧ ∃ node, sh'.closed t = some node ∧ node.g ≤ g + c) := by
  -- the node that was made for the child
  have hchild : ∀ {closed : V → Option (Node V)} {t : V} {c : ℕ} (is_open : Bool),
      ∃ node, Function.update closed t (some (child s g c is_open)) t = some node ∧ node.g ≤ g + c :=
    fun is_open => ⟨_, Function.update_self .., le_refl _⟩
  cases hturn with
  | own hown =>
    cases hown with
    | @late _ _ _ t c rest hlate =>
      exact Or.inr ⟨t, c, rest, rfl, Or.inr (Or.inl hlate), Or.inl rfl⟩
    | @known _ _ _ t c rest node hdup hle =>
      exact Or.inr ⟨t, c, rest, rfl, Or.inl ⟨node, hdup, hle⟩, Or.inl rfl⟩
    | expanded => exact Or.inl rfl
  | locked hlocked => cases hlocked
  | @update _ _ _ t c rest dup o hdup hlt hopen ho =>
    exact Or.inr ⟨t, c, rest, rfl, Or.inl (hchild true), Or.inl rfl⟩
  | @reopen _ _ _ t c rest dup hdup hlt hopen =>
    exact Or.inr ⟨t, c, rest, rfl, Or.inl (hchild true), Or.inl rfl⟩
  | @create _ _ _ t c rest hnone hgoal =>
    exact Or.inr ⟨t, c, rest, rfl, Or.inl (hchild true), Or.inl rfl⟩
  | @reach _ _ _ t c rest hlt hnone hgoal =>
    exact Or.inr ⟨t, c, rest, rfl, Or.inl (hchild false), Or.inr ⟨hgoal, hchild false⟩⟩

/-- The nodes that a turn writes: `ph'` is where the thread has come to. -/
inductive News (D : SearchDomain V) (sh' : Shared V n) (ph' : Phase V n) (v : V) (node : Node V) : Prop
  | opened : node.is_open = true → News D sh' ph' v node
  | goal {b path p} : D.is_goal v = true → ph' = .path b node.g path p → News D sh' ph' v node
  | late : sh'.bound ≤ D.get_f node.g v → News D sh' ph' v node
  | expand {b} : D.is_goal v = false → ph' = .children b v node.g (D.expand v) → News D sh' ph' v node

theorem Turn.news (hturn : Turn D P detect_livelocks sh ph sh' ph' c) {v : V} {node : Node V}
    (hnode : sh'.closed v = some node) : sh.closed v = some node ∨ News D sh' ph' v node := by
  have hwrite : ∀ {t : V} {x : Node V}, sh'.closed = Function.update sh.closed t (some x) →
      (v = t → node = x → News D sh' ph' v node) → sh.closed v = some node ∨ News D sh' ph' v node := by
    intro t x hclosed hnews
    rw [hclosed] at hnode
    by_cases hv : v = t
    · subst hv
      rw [Function.update_self] at hnode
      exact Or.inr (hnews rfl (Option.some.inj hnode).symm)
    · exact Or.inl ((Function.update_of_ne hv ..).symm.trans hnode)
  cases hturn with
  | own hown => exact Or.inl hnode
  | locked hlocked => exact Or.inl hnode
  | @take b s dup o _ ho hdup htaken hp =>
    apply hwrite (t := s) rfl
    rintro rfl rfl
    cases htaken with
    | late hlate => exact .late hlate
    | goal hlt hgoal => exact .goal hgoal rfl
    | expand hgoal => exact .expand hgoal rfl
  | @update b s g t c todo dup o hdup hlt hopen ho =>
    apply hwrite (t := t) rfl
    rintro rfl rfl
    exact .opened rfl
  | @reopen b s g t c todo dup hdup hlt hopen =>
    apply hwrite (t := t) rfl
    rintro rfl rfl
    exact .opened rfl
  | @create b s g t c todo hnone hgoal =>
    apply hwrite (t := t) rfl
    rintro rfl rfl
    exact .opened rfl
  | @reach b s g t c todo hlt hnone hgoal =>
    apply hwrite (t := t) rfl
    rintro rfl rfl
    exact .goal hgoal rfl
  | @report b cost path =>
    rcases see_solution_cases sh cost path with ⟨heq, -⟩ | ⟨heq, -⟩
    · rw [heq] at hnode
      exact Or.inl hnode
    · rw [heq] at hnode
      exact Or.inl hnode
  | swap heq => exact Or.inl hnode

theorem Turn.solution (hturn : Turn D P detect_livelocks sh ph sh' ph' c) :
    sh'.solution = sh.solution ∨ ∃ b, ph' = .best b := by
  cases hturn with
  | report => exact Or.inr ⟨_, rfl⟩
  | _ => exact Or.inl rfl

end Turns

/-! ## The invariant -/

section Runs

variable {ι : Type} {s s' : State ι V n}

/-- Some thread will bring the bound down to `x` or less, if it is not there. -/
def Due (s : State ι V n) (x : ℕ) : Prop := s.shared.bound ≤ x ∨ ∃ u, Owes s.shared x (s.threads u)

/-- Why nothing is lost when the state `v` is left as it is. -/
inductive Settled (D : SearchDomain V) (s : State ι V n) (v : V) (node : Node V) : Prop
  | opened : node.is_open = true → Settled D s v node
  | late : s.shared.bound ≤ D.get_f node.g v → Settled D s v node
  | goal : D.is_goal v = true → Settled D s v node
  | expanded : (∀ t c, (t, c) ∈ D.expand v → ArcDone D s.shared node.g t c) → Settled D s v node
  | expanding {u b pre todo} : s.threads u = .children b v node.g todo → D.expand v = pre ++ todo →
      (∀ t c, (t, c) ∈ pre → ArcDone D s.shared node.g t c) → Settled D s v node

/-- **Nothing is lost.** -/
structure Progress (D : SearchDomain V) (s : State ι V n) : Prop where
  settled : ∀ v node, s.shared.closed v = some node → Settled D s v node
  goals : ∀ v node, s.shared.closed v = some node → D.is_goal v = true →
    node.is_open = true ∨ Due s node.g
  reported : ∀ best, s.shared.solution = some best → Due s best.1

variable [DecidableEq V] [NeZero n] [DecidableEq ι] {t : ι}

theorem Due.step {x : ℕ} (himp : Improves s.shared s'.shared)
    (hturn : Turn D P detect_livelocks s.shared (s.threads t) s'.shared ph' c)
    (hmoved : Moved t ph' c s.threads s'.threads)
    (h : Due s x) : Due s' x := by
  rcases h with hle | ⟨u, hu⟩
  · exact Or.inl (himp.bound.trans hle)
  · by_cases hut : u = t
    · subst hut
      refine (hturn.owes hu).imp_right fun hu' => ⟨u, ?_⟩
      rw [hmoved.self]
      exact hu'
    · refine Or.inr ⟨u, ?_⟩
      rw [hmoved.kept hut hu.not_asleep]
      exact hu.mono himp

/-- What was settled stays so, as long as the node is the same. -/
theorem Settled.step (hset : Setting D P) {v : V} {node : Node V} (himp : Improves s.shared s'.shared)
    (hturn : Turn D P detect_livelocks s.shared (s.threads t) s'.shared ph' c)
    (hmoved : Moved t ph' c s.threads s'.threads)
    (h : Settled D s v node) : Settled D s' v node := by
  cases h with
  | opened hopen => exact .opened hopen
  | late hlate => exact .late (himp.bound.trans hlate)
  | goal hgoal => exact .goal hgoal
  | expanded hdone => exact .expanded fun x c hmem => (hdone x c hmem).mono himp
  | @expanding u b pre todo hu hexpand hdone =>
    have hdone' : ∀ x c, (x, c) ∈ pre → ArcDone D s'.shared node.g x c :=
      fun x c hmem => (hdone x c hmem).mono himp
    by_cases hut : u = t
    · subst hut
      rw [hu] at hturn
      rcases hturn.children with rfl | ⟨x, c, rest, rfl, harc, hnext⟩
      · rw [List.append_nil] at hexpand
        exact .expanded fun x c hmem => hdone' x c (hexpand ▸ hmem)
      · rcases hnext with rfl | ⟨hgoal, child, hchild, hle⟩
        · have hu' : s'.threads u = .children b v node.g rest := hmoved.self
          have hexpand' : D.expand v = (pre ++ [(x, c)]) ++ rest := by
            rw [hexpand, List.append_assoc]
            rfl
          refine .expanding hu' hexpand' ?_
          intro y d hmem
          rcases List.mem_append.mp hmem with hmem | hmem
          · exact hdone' y d hmem
          · obtain ⟨rfl, rfl⟩ := Prod.mk.inj (List.mem_singleton.mp hmem)
            exact harc
        · refine .expanded ?_
          intro y d hmem
          rw [hexpand] at hmem
          rcases List.mem_append.mp hmem with hmem | hmem
          · exact hdone' y d hmem
          · rcases List.mem_cons.mp hmem with heq | hmem
            · obtain ⟨rfl, rfl⟩ := Prod.mk.inj heq
              exact harc
            · exact hset.dropped hexpand hgoal hchild hle y d hmem
    · have hu' : s'.threads u = .children b v node.g todo :=
        (hmoved.kept hut (by rw [hu]; exact nofun)).trans hu
      exact .expanding hu' hexpand hdone'

theorem Progress.step (hset : Setting D P) (h : Progress D s) (himp : Improves s.shared s'.shared)
    (hturn : Turn D P detect_livelocks s.shared (s.threads t) s'.shared ph' c)
    (hmoved : Moved t ph' c s.threads s'.threads) :
    Progress D s' := by
  refine { settled := ?_, goals := ?_, reported := ?_ }
  · intro v node hnode
    rcases hturn.news hnode with hold | hnews
    · exact (h.settled v node hold).step hset himp hturn hmoved
    · cases hnews with
      | opened hopen => exact .opened hopen
      | goal hgoal hph => exact .goal hgoal
      | late hlate => exact .late hlate
      | @expand b hgoal hph =>
        have ht : s'.threads t = .children b v node.g (D.expand v) := by
          rw [hmoved.self, hph]
        exact .expanding ht (List.nil_append (D.expand v)).symm nofun
  · intro v node hnode hgoal
    rcases hturn.news hnode with hold | hnews
    · exact (h.goals v node hold hgoal).imp_right fun hdue => hdue.step himp hturn hmoved
    · cases hnews with
      | opened hopen => exact Or.inl hopen
      | goal hgoal hph =>
        refine Or.inr (Or.inr ⟨t, ?_⟩)
        rw [hmoved.self, hph]
        exact le_refl node.g
      | late hlate =>
        rw [hset.goal_h hgoal] at hlate
        exact Or.inr (Or.inl hlate)
      | expand hnot hph => exact absurd (hgoal.symm.trans hnot) Bool.noConfusion
  · intro best hbest
    rcases hturn.solution with hsame | ⟨b, hph⟩
    · exact (h.reported best (hsame ▸ hbest)).step himp hturn hmoved
    · refine Or.inr ⟨t, ?_⟩
      rw [hmoved.self, hph]
      exact ⟨best, hbest, le_refl _⟩

variable [Inhabited V]

theorem progress_reachable (hset : Setting D P) (hs : (searches ι D P detect_livelocks).Reachable s) :
    Progress D s := by
  apply hs.invariant (I := Progress D)
  · rintro s rfl
    have hinit : ∀ v node, (Shared.initial D P : Shared V n).closed v = some node → node.is_open = true := by
      intro v node hnode
      rw [initial_closed] at hnode
      by_cases hv : v = D.initial_state
      · subst hv
        rw [Function.update_self] at hnode
        rw [← Option.some.inj hnode]
      · rw [Function.update_of_ne hv] at hnode
        exact nomatch hnode
    refine { settled := ?_, goals := ?_, reported := nofun }
    · exact fun v node hnode => .opened (hinit v node hnode)
    · exact fun v node hnode _ => Or.inl (hinit v node hnode)
  · intro s s' hreach h hstep
    obtain ⟨-, hshape⟩ := lists_reachable hreach
    obtain ⟨t, ph', c, hturn, hmoved⟩ := step_cases hstep
    exact h.step hset (hturn.improves (hshape t)) hturn hmoved

/-! ## The end -/

omit [DecidableEq V] [NeZero n] [DecidableEq ι] [Inhabited V] in
/-- When the search is done, every open state is beyond the bound. -/
theorem Owned.open_late (hset : Setting D P) (h : Owned D P s) (hl : Lists D P s.shared)
    (hdone : s.shared.graph.done = true) {v : V} {node : Node V} (hnode : s.shared.closed v = some node)
    (hopen : node.is_open = true) : s.shared.bound ≤ D.get_f node.g v := by
  obtain ⟨S, hexact, hend⟩ := h.monitor
  obtain ⟨rfl, hinuse⟩ := hend hdone hset.neighbours
  let b := P.project v
  have hmem : v ∈ openStates P s.shared.closed b := ⟨rfl, node, hnode, hopen⟩
  have hsigma : ∀ k, s.shared.graph.sigma k = 0 := by
    intro k
    rw [hexact.sigma_eq k, count_none hinuse]
    rfl
  -- nobody is hot without a neighbour in use
  have hcold : ∀ k, s.shared.graph.hot k = false := by
    intro k
    by_contra hhot
    have hpos := hexact.hot k (by simpa using hhot)
    rw [hsigma k] at hpos
    exact absurd hpos (lt_irrefl 0)
  have hfree : s.shared.graph.is_free s.shared.view b = true := by
    rw [is_free_iff]
    refine ⟨hinuse b, hsigma b, ?_, (hl b).empty_iff.mpr ⟨v, hmem⟩⟩
    rw [hexact.sigma_hot_eq b, count_none hcold]
    rfl
  have hlimit : s.shared.bound * D.weight ≤ (s.shared.opens b).best :=
    (hexact.free b hfree).resolve_left (Set.notMem_empty b)
  have hbest : (s.shared.opens b).best ≤ node.g + D.weight * D.get_h v / fp_one := by
    have hle := (hl b).best_le hmem
    rwa [show get_g s.shared.closed v = node.g by rw [get_g, hnode]; rfl] at hle
  have hdiv : D.weight * D.get_h v / fp_one ≤ D.weight * D.get_h v := Nat.div_le_self _ _
  have hg : node.g ≤ D.weight * node.g := Nat.le_mul_of_pos_left _ hset.weight
  show s.shared.bound ≤ node.g + D.get_h v
  have hmul : s.shared.bound * D.weight ≤ (node.g + D.get_h v) * D.weight :=
    calc s.shared.bound * D.weight
        ≤ node.g + D.weight * D.get_h v / fp_one := hlimit.trans hbest
      _ ≤ D.weight * node.g + D.weight * D.get_h v := Nat.add_le_add hg hdiv
      _ = (node.g + D.get_h v) * D.weight := by rw [← Nat.mul_add, Nat.mul_comm]
  exact Nat.le_of_mul_le_mul_right hmul hset.weight

omit [Inhabited V] [DecidableEq V] [NeZero n] [DecidableEq ι] in
/-- When the search is done, nothing is on its way. -/
theorem Owned.quiet (hset : Setting D P) (h : Owned D P s) (hdone : s.shared.graph.done = true) (u : ι) :
    (s.threads u).held = none := by
  obtain ⟨S, -, hend⟩ := h.monitor
  by_contra hheld
  obtain ⟨b, hb⟩ := Option.ne_none_iff_exists'.mp hheld
  have hinuse := (h.owners.iff b).mpr ⟨u, hb⟩
  exact absurd (hinuse.symm.trans ((hend hdone hset.neighbours).2 b)) Bool.noConfusion

omit [Inhabited V] [DecidableEq V] [NeZero n] [DecidableEq ι] in
theorem Owned.bound_le (hset : Setting D P) (h : Owned D P s) (hdone : s.shared.graph.done = true) {x : ℕ}
    (hdue : Due s x) : s.shared.bound ≤ x :=
  hdue.resolve_right fun ⟨u, hu⟩ => hu.held (h.quiet hset hdone u)

omit [Inhabited V] [DecidableEq V] [NeZero n] [DecidableEq ι] in
theorem Owned.goal_le (hset : Setting D P) (h : Owned D P s) (hl : Lists D P s.shared)
    (hp : Progress D s) (hdone : s.shared.graph.done = true) {v : V} {node : Node V}
    (hnode : s.shared.closed v = some node) (hgoal : D.is_goal v = true) : s.shared.bound ≤ node.g := by
  rcases hp.goals v node hnode hgoal with hopen | hdue
  · have hlate := h.open_late hset hl hdone hnode hopen
    rwa [hset.goal_h hgoal] at hlate
  · exact h.bound_le hset hdone hdue

/-- The goal comes before the detour. -/
def hasty : SearchDomain Corner :=
  { triangle 20 with
    expand := fun s => match s with
      | .start => [(.goal, 20), (.middle, 5)]
      | .middle => [(.goal, 7)]
      | .goal => [] }

/-- With a dear goal before a cheaper detour, the detour is dropped and the search returns the dear path. -/
theorem hasty_not_optimal : ∃ s : State Bool Corner 2, (searches Bool hasty halves true).Reachable s
    ∧ (s.threads false = .finished ∧ s.threads true = .finished ∧ s.shared.solution = some (20, [.goal, .start]))
    ∧ hasty.graph.Walk .start .goal 12 := by
  obtain ⟨s, hs, hend⟩ := exists_run hasty halves ([false, true] ++ List.replicate 11 false ++ [true, true])
    (fun s : State Bool Corner 2 => s.threads false = .finished ∧ s.threads true = .finished
      ∧ s.shared.solution = some (20, [.goal, .start])) (by decide +kernel)
  have hfirst : hasty.graph.Arc .start .middle 5 := SearchDomain.arc (show (.middle, 5) ∈ hasty.expand .start by decide)
  have hsecond : hasty.graph.Arc .middle .goal 7 := SearchDomain.arc (show (.goal, 7) ∈ hasty.expand .middle by decide)
  exact ⟨s, hs, hend, (WGraph.Walk.single hfirst).snoc hsecond⟩

end Runs

end PwsaStar.Pbnf
