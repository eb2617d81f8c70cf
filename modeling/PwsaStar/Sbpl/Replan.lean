/-
# PwsaStar.Sbpl.Replan — sequences of `replan` calls, and heuristics that are out of date.

`replan` makes a fresh table of states, fetches the goal and the start, has the environment bring its
heuristics up to date, and searches.  An environment may compute its heuristics only when
`EnsureHeuristicsUpdated` is called.  Then what `GetState` stored for the goal and the start is the
old heuristic, and it stays: a state is asked for only once.

`wAStar` is traced here, with a log of the heuristics its priorities are computed from.  Its search is
the search over an environment that gives the goal and the start their old heuristics for good
(`frozen`), so that `Inv` applies to it.
-/
import PwsaStar.Sbpl.PwsaPc

namespace PwsaStar.Sbpl

open PwsaStar.Lib PwsaStar.Heap PwsaStar.ParallelWhile

variable {E V C : Type*}

/-! ## Sessions -/

/-- What a planner asks of an environment whose state is `E`.  The update is the one of
`EnsureHeuristicsUpdated(true)`. -/
structure DiscreteSpace (E V : Type*) where
  getSuccs : E → WGraph V
  getGoalHeuristic : E → V → ℤ
  ensureHeuristicsUpdated : E → E

/-- The environment in a state. -/
def DiscreteSpace.view (D : DiscreteSpace E V) (e : E) : Environment V where
  getSuccs := D.getSuccs e
  getGoalHeuristic := D.getGoalHeuristic e

/-- The arguments of `replan`, and what the allocators leave in fresh memory. -/
structure Call (V : Type*) where
  start : V
  goal : V
  eps : ℚ
  block : ℕ → KV Dist V
  memory : V → ℤ

/-- A planner: its search, from `initializeSearch` on, between the environments before and after the
update, and the log of the heuristics that priorities were computed from. -/
structure Planner (V C : Type*) where
  search : Environment V → Environment V → Call V → System C
  uses : C → List (V × ℤ)

/-- Between two calls, or in the middle of one that was made when the environment was `before`. -/
inductive Session (E V C : Type*) where
  | idle (e : E)
  | searching (before : E) (call : Call V) (c : C)

/-- A step of a session; only calls that are `admitted` are made. -/
inductive SessionStep (D : DiscreteSpace E V) (P : Planner V C) (admitted : E → Call V → Prop) :
    Session E V C → Session E V C → Prop
  /-- Whatever happens to the environment between calls. -/
  | environment (e e' : E) : SessionStep D P admitted (.idle e) (.idle e')
  | replan (e : E) (call : Call V) (c : C) : admitted e call →
      (P.search (D.view e) (D.view (D.ensureHeuristicsUpdated e)) call).init c →
      SessionStep D P admitted (.idle e) (.searching e call c)
  | search (e : E) (call : Call V) (c c' : C) :
      (P.search (D.view e) (D.view (D.ensureHeuristicsUpdated e)) call).step c c' →
      SessionStep D P admitted (.searching e call c) (.searching e call c')
  | done (e : E) (call : Call V) (c : C) :
      SessionStep D P admitted (.searching e call c) (.idle (D.ensureHeuristicsUpdated e))

/-- All sequences of admitted calls. -/
def sessions (D : DiscreteSpace E V) (P : Planner V C) (admitted : E → Call V → Prop) :
    System (Session E V C) where
  init s := ∃ e, s = .idle e
  step := SessionStep D P admitted

/-- Every priority that was computed in the present search was computed from the heuristic the
environment gives after its update. -/
def Fresh (D : DiscreteSpace E V) (P : Planner V C) : Session E V C → Prop
  | .idle _ => True
  | .searching before _ c =>
    ∀ u ∈ P.uses c, u.2 = D.getGoalHeuristic (D.ensureHeuristicsUpdated before) u.1

/-- A session is fresh throughout if every single admitted search is. -/
theorem fresh_of_search {D : DiscreteSpace E V} {P : Planner V C} {admitted : E → Call V → Prop}
    (h : ∀ e call c, admitted e call →
      (P.search (D.view e) (D.view (D.ensureHeuristicsUpdated e)) call).Reachable c →
      Fresh D P (.searching e call c)) {s : Session E V C}
    (hs : (sessions D P admitted).Reachable s) : Fresh D P s := by
  have hinv : ∀ e call c, s = .searching e call c → admitted e call ∧
      (P.search (D.view e) (D.view (D.ensureHeuristicsUpdated e)) call).Reachable c := by
    refine hs.invariant (I := fun s => ∀ e call c, s = .searching e call c → admitted e call ∧
      (P.search (D.view e) (D.view (D.ensureHeuristicsUpdated e)) call).Reachable c) ?_ ?_
    · rintro s ⟨e₀, rfl⟩ e call c h
      cases h
    · intro s t _ ih hstep
      cases hstep with
      | environment e e' =>
        intro e call c h
        cases h
      | replan e call c hadm hinit =>
        rintro e call c ⟨⟩
        exact ⟨hadm, System.Reachable.of_init hinit⟩
      | search e call c c' hsearch =>
        rintro e call c ⟨⟩
        obtain ⟨hadm, hreach⟩ := ih _ _ _ rfl
        exact ⟨hadm, hreach.step hsearch⟩
      | done e call c =>
        intro e call c h
        cases h
  cases s with
  | idle e => trivial
  | searching e call c =>
    obtain ⟨hadm, hreach⟩ := hinv e call c rfl
    exact h e call c hadm hreach

/-- A run of a search is a run of the session that makes the call. -/
theorem session_of_search {D : DiscreteSpace E V} {P : Planner V C} {admitted : E → Call V → Prop}
    {e : E} {call : Call V} {c : C} (hadm : admitted e call)
    (hc : (P.search (D.view e) (D.view (D.ensureHeuristicsUpdated e)) call).Reachable c) :
    (sessions D P admitted).Reachable (.searching e call c) := by
  refine hc.invariant (I := fun c => (sessions D P admitted).Reachable (.searching e call c)) ?_ ?_
  · intro c hinit
    have hidle : (sessions D P admitted).Reachable (.idle e) := System.Reachable.of_init ⟨e, rfl⟩
    exact hidle.step (.replan e call c hadm hinit)
  · intro c c' _ hs hstep
    exact hs.step (.search e call c c' hstep)

variable [DecidableEq V]

/-! ## `wAStar` with a log -/

namespace wAStarPlanner

/-- A search state and the log of the heuristics used. -/
structure Traced (V : Type*) where
  search : Search V
  uses : List (V × ℤ)

/-- `relax`; the heuristic is logged where a priority is computed. -/
def relax (env : Environment V) (eps : ℚ) (v : V) (t : Traced V) (arc : V × ℤ) : Traced V where
  search := Sbpl.relax env eps v t.search arc
  uses :=
    if (t.search.states v).g + (arc.2 : Dist) < (getState env arc.1 t.search.states arc.1).g then
      (arc.1, (getState env arc.1 (getState env arc.1 t.search.states) arc.1).h) :: t.uses
    else t.uses

/-- `iteration`, traced. -/
def iteration (env : Environment V) (eps : ℚ) (t : Traced V) : Option (Traced V) :=
  match t.search.frontier.deleteMin with
  | none => none
  | some (v, frontier) =>
    let states := getState env v t.search.states
    if (states v).expanded then some ⟨{ states := states, frontier := frontier }, t.uses⟩
    else some ((env.getSuccs.nbrs v).foldl (relax env eps v)
      ⟨{ states := mark env v states, frontier := frontier }, t.uses⟩)

/-- The heuristic of the priority that `wAStar` computes before its loop. -/
def startUse (env : Environment V) (source : V) (states : V → AstarState V) : V × ℤ :=
  let states := getState env source states
  let states := Function.update states source { states source with g := 0, pred := some source }
  (source, (getState env source states source).h)

/-- `wAStarPlanner::Search` up to its failure test. -/
def search (before after : Environment V) (call : Call V) : System (Traced V) where
  init t := t =
    let states := initializeSearch call.memory before call.start call.goal
    ⟨wAStarStart call.block after call.eps call.start call.goal states,
      [startUse after call.start states]⟩
  step t t' := (t.search.states call.goal).g = ⊤ ∧ iteration after call.eps t = some t'

theorem foldl_search (env : Environment V) (eps : ℚ) (v : V) :
    ∀ (arcs : List (V × ℤ)) (t : Traced V),
      (arcs.foldl (relax env eps v) t).search = arcs.foldl (Sbpl.relax env eps v) t.search := by
  intro arcs
  induction arcs with
  | nil => exact fun _ => rfl
  | cons arc arcs ih => exact fun t => ih (relax env eps v t arc)

/-- Tracing does not change the search. -/
theorem iteration_search (env : Environment V) (eps : ℚ) (t : Traced V) :
    (iteration env eps t).map Traced.search = Sbpl.iteration env eps t.search := by
  unfold iteration Sbpl.iteration
  cases t.search.frontier.deleteMin with
  | none => rfl
  | some popped =>
    obtain ⟨v, frontier⟩ := popped
    dsimp only
    split
    · rfl
    · rw [Option.map_some, foldl_search]

end wAStarPlanner

/-! ## Two environments that a search cannot tell apart -/

/-- The states whose heuristic is still to be asked for have the same one in both. -/
def Same (env env' : Environment V) (states : V → AstarState V) : Prop :=
  ∀ v, (states v).initialized = true ∨ env.getGoalHeuristic v = env'.getGoalHeuristic v

section Same

variable {env env' : Environment V}

theorem getState_congr {id : V} {states : V → AstarState V}
    (h : (states id).initialized = true ∨ env.getGoalHeuristic id = env'.getGoalHeuristic id) :
    getState env id states = getState env' id states := by
  unfold getState
  split_ifs with hinit
  · rfl
  · rw [h.resolve_left hinit]

theorem initialized_getState (env : Environment V) (id : V) {states : V → AstarState V} {v : V}
    (h : (states v).initialized = true) : (getState env id states v).initialized = true := by
  unfold getState
  split_ifs
  · exact h
  · by_cases hv : v = id
    · subst hv
      simp
    · rwa [Function.update_of_ne hv]

theorem initialized_getState_self (env : Environment V) (id : V) (states : V → AstarState V) :
    (getState env id states id).initialized = true := by
  unfold getState
  split_ifs with hinit
  · exact hinit
  · simp

theorem Same.getState {states : V → AstarState V} (h : Same env env' states) (id : V) :
    Same env env' (getState env id states) := fun v =>
  (h v).imp_left (initialized_getState env id)

omit [DecidableEq V] in
theorem Same.update [DecidableEq V] {states : V → AstarState V} (h : Same env env' states) {v : V}
    {x : AstarState V} (hx : x.initialized = (states v).initialized) :
    Same env env' (Function.update states v x) := by
  intro u
  by_cases hu : u = v
  · subst hu
    rw [Function.update_self, hx]
    exact h u
  · rw [Function.update_of_ne hu]
    exact h u

theorem Same.mark {states : V → AstarState V} (h : Same env env' states) (v : V) :
    Sbpl.mark env v states = Sbpl.mark env' v states ∧ Same env env' (Sbpl.mark env v states) := by
  have hup : Same env env' (Function.update states v { states v with expanded := true }) :=
    h.update rfl
  exact ⟨getState_congr (hup v), hup.getState v⟩

theorem Same.relax {t : wAStarPlanner.Traced V} (h : Same env env' t.search.states) (eps : ℚ)
    (v : V) (arc : V × ℤ) :
    wAStarPlanner.relax env eps v t arc = wAStarPlanner.relax env' eps v t arc ∧
      Same env env' (wAStarPlanner.relax env eps v t arc).search.states := by
  have h₁ := getState_congr (h arc.1)
  have h₂ := getState_congr ((h.getState arc.1) arc.1)
  constructor
  · simp only [wAStarPlanner.relax, Sbpl.relax, ← h₁, ← h₂]
  · simp only [wAStarPlanner.relax, Sbpl.relax]
    split_ifs
    · exact ((h.getState arc.1).getState arc.1).update rfl
    · exact h.getState arc.1

theorem Same.foldl (eps : ℚ) (v : V) : ∀ (arcs : List (V × ℤ)) (t : wAStarPlanner.Traced V),
    Same env env' t.search.states →
    arcs.foldl (wAStarPlanner.relax env eps v) t = arcs.foldl (wAStarPlanner.relax env' eps v) t ∧
      Same env env' (arcs.foldl (wAStarPlanner.relax env eps v) t).search.states := by
  intro arcs
  induction arcs with
  | nil => exact fun t h => ⟨rfl, h⟩
  | cons arc arcs ih =>
    intro t h
    obtain ⟨heq, hsame⟩ := h.relax eps v arc
    rw [List.foldl_cons, List.foldl_cons, ← heq]
    exact ih _ hsame

/-- One iteration does the same over either. -/
theorem Same.iteration (hsuccs : env.getSuccs = env'.getSuccs) (eps : ℚ)
    {t : wAStarPlanner.Traced V} (h : Same env env' t.search.states) :
    wAStarPlanner.iteration env eps t = wAStarPlanner.iteration env' eps t ∧
      ∀ t', wAStarPlanner.iteration env eps t = some t' → Same env env' t'.search.states := by
  unfold wAStarPlanner.iteration
  cases t.search.frontier.deleteMin with
  | none => exact ⟨rfl, fun t' h => by cases h⟩
  | some popped =>
    obtain ⟨v, frontier⟩ := popped
    dsimp only
    obtain ⟨hmark, hsame⟩ := (h.getState v).mark v
    obtain ⟨hfold, hafter⟩ := Same.foldl eps v (env.getSuccs.nbrs v)
      ⟨⟨Sbpl.mark env v (Sbpl.getState env v t.search.states), frontier⟩, t.uses⟩ hsame
    rw [← getState_congr (h v), ← hmark, ← hsuccs, ← hfold]
    refine ⟨rfl, fun t' => ?_⟩
    split
    · intro heq
      obtain rfl := Option.some.inj heq
      exact h.getState v
    · intro heq
      obtain rfl := Option.some.inj heq
      exact hafter

end Same

/-! ## What the log of `wAStar` holds -/

namespace wAStarPlanner

/-- The environment after the update, but with the old heuristics of the start and the goal. -/
def frozen (before after : Environment V) (start goal : V) : Environment V where
  getSuccs := after.getSuccs
  getGoalHeuristic v :=
    if v = start ∨ v = goal then before.getGoalHeuristic v else after.getGoalHeuristic v

/-- The log: right heuristics, of states the start reaches, and of every state that has a label. -/
structure LogOk (work : Environment V) (s : V) (t : Traced V) : Prop where
  right : ∀ u ∈ t.uses, u.2 = work.getGoalHeuristic u.1 ∧ work.getSuccs.Reaches s u.1
  complete : ∀ v, t.search.g v ≠ ⊤ → ∃ h, (v, h) ∈ t.uses

section Log

variable {work : Environment V} {eps : ℚ} {s : V}

theorem LogOk.relax {t : Traced V} {v x : V} {a w : ℤ} (L : LogOk work s t)
    (I : Inv work eps s (some v) t.search) (ha : t.search.g v = (a : Dist))
    (harc : work.getSuccs.Arc v x w) : LogOk work s (relax work eps v t (x, w)) := by
  have hreach : work.getSuccs.Reaches s x :=
    (I.forest.reaches (by rw [ha]; exact WithTop.coe_ne_top)).snoc harc
  by_cases hlt : t.search.g v + (w : Dist) < t.search.g x
  · have huses : (wAStarPlanner.relax work eps v t (x, w)).uses =
        (x, work.getGoalHeuristic x) :: t.uses := by
      have hh := (I.memo.getState x).getState_h x
      show (if _ then _ else _) = _
      rw [if_pos (by rw [getState_g]; exact hlt), hh]
    have hg : (wAStarPlanner.relax work eps v t (x, w)).search.g =
        Function.update t.search.g x (t.search.g v + (w : Dist)) := (relax_of_lt eps I.memo hlt).1
    refine ⟨fun u hu => ?_, fun u hu => ?_⟩
    · rw [huses] at hu
      rcases List.mem_cons.mp hu with rfl | hu
      · exact ⟨rfl, hreach⟩
      · exact L.right u hu
    · rw [huses]
      by_cases hux : u = x
      · subst hux
        exact ⟨_, List.mem_cons_self⟩
      · rw [hg, Function.update_of_ne hux] at hu
        obtain ⟨h, hmem⟩ := L.complete u hu
        exact ⟨h, List.mem_cons_of_mem _ hmem⟩
  · have huses : (wAStarPlanner.relax work eps v t (x, w)).uses = t.uses := by
      show (if _ then _ else _) = _
      rw [if_neg (by rw [getState_g]; exact hlt)]
    have hg : (wAStarPlanner.relax work eps v t (x, w)).search.g = t.search.g :=
      (relax_of_not_lt eps I.memo hlt).1
    refine ⟨?_, ?_⟩
    · rw [huses]
      exact L.right
    · rw [huses, hg]
      exact L.complete

/-- Relaxing all arcs of a state. -/
theorem LogOk.foldl {v : V} {a : ℤ} : ∀ (arcs : List (V × ℤ)) {t : Traced V}, LogOk work s t →
    Inv work eps s (some v) t.search → t.search.expanded v = true → t.search.g v = (a : Dist) →
    (∀ arc ∈ arcs, work.getSuccs.Arc v arc.1 arc.2) →
    LogOk work s (arcs.foldl (wAStarPlanner.relax work eps v) t) := by
  intro arcs
  induction arcs with
  | nil => exact fun L _ _ _ _ => L
  | cons arc arcs ih =>
    intro t L I hv ha harcs
    have harc := harcs arc List.mem_cons_self
    have R := relaxed_one I hv ha harc
    apply ih (L.relax I ha harc) R.inv
    · exact (congrFun R.expanded v).trans hv
    · exact R.own
    · exact fun arc' h => harcs arc' (List.mem_cons_of_mem arc h)

theorem LogOk.iteration {t t' : Traced V} (L : LogOk work s t) (I : Inv work eps s none t.search)
    (h : iteration work eps t = some t') : LogOk work s t' := by
  unfold wAStarPlanner.iteration at h
  cases hpop : t.search.frontier.deleteMin with
  | none => simp [hpop] at h
  | some popped =>
    obtain ⟨v, frontier⟩ := popped
    simp only [hpop] at h
    split at h
    · obtain rfl := Option.some.inj h
      refine ⟨L.right, fun u hu => L.complete u ?_⟩
      simpa [Search.g] using hu
    · obtain rfl := Option.some.inj h
      obtain ⟨a, ha⟩ := I.popped hpop
      obtain ⟨hg, hexp, hmark⟩ := I.mark hpop
      have hlog : LogOk work s
          ⟨⟨Sbpl.mark work v (getState work v t.search.states), frontier⟩, t.uses⟩ := by
        refine ⟨L.right, fun u hu => L.complete u ?_⟩
        rwa [hg] at hu
      apply LogOk.foldl (a := a) _ hlog hmark
      · rw [hexp, Function.update_self]
      · rw [hg]
        exact ha
      · exact fun arc harc => harc

end Log

section Runs

variable {before after : Environment V} {call : Call V}

/-- Asking the old environment is asking the frozen one, as long as only the start and the goal are
asked for. -/
theorem initializeSearch_frozen (before after : Environment V) (call : Call V) :
    initializeSearch call.memory before call.start call.goal =
      initializeSearch call.memory (frozen before after call.start call.goal) call.start call.goal := by
  have hsame : ∀ v, v = call.start ∨ v = call.goal → ∀ states : V → AstarState V,
      getState before v states = getState (frozen before after call.start call.goal) v states :=
    fun v hv states => getState_congr (Or.inr (if_pos hv).symm)
  simp only [initializeSearch, hsame call.start (Or.inl rfl), hsame call.goal (Or.inr rfl)]

theorem same_initializeSearch (before after : Environment V) (call : Call V) :
    Same after (frozen before after call.start call.goal)
      (initializeSearch call.memory before call.start call.goal) := by
  intro v
  by_cases hv : v = call.start ∨ v = call.goal
  · left
    simp only [initializeSearch]
    by_cases hs : v = call.start
    · subst hs
      rw [Function.update_self]
      exact initialized_getState_self ..
    · rw [Function.update_of_ne hs]
      apply initialized_getState
      rw [hv.resolve_left hs]
      exact initialized_getState_self ..
  · right
    exact (if_neg hv).symm

theorem same_labelled (before after : Environment V) (call : Call V) :
    Same after (frozen before after call.start call.goal)
      (Function.update
        (getState after call.start (initializeSearch call.memory before call.start call.goal)) call.start
        { getState after call.start (initializeSearch call.memory before call.start call.goal)
            call.start with
          g := 0, pred := some call.start }) :=
  ((same_initializeSearch before after call).getState call.start).update rfl

/-- The lines before the loop do the same over the frozen environment. -/
theorem searchStart_frozen (before after : Environment V) (call : Call V) :
    wAStarStart call.block after call.eps call.start call.goal
        (initializeSearch call.memory before call.start call.goal) =
      searchStart call.block call.memory (frozen before after call.start call.goal) call.eps
        call.start call.goal := by
  have hsame := same_initializeSearch before after call
  have h₂ := same_labelled before after call
  have h₃ := h₂.getState call.start
  simp only [searchStart, wAStarStart]
  rw [← initializeSearch_frozen, ← getState_congr (hsame call.start),
    ← getState_congr (h₂ call.start), ← getState_congr (h₃ call.goal)]

/-- The priority before the loop is computed from the old heuristic of the start. -/
theorem startUse_eq (before after : Environment V) (call : Call V) :
    startUse after call.start (initializeSearch call.memory before call.start call.goal) =
      (call.start, (frozen before after call.start call.goal).getGoalHeuristic call.start) := by
  have hsame := same_initializeSearch before after call
  have h₂ := same_labelled before after call
  have hmemo := memo_initializeSearch call.memory (frozen before after call.start call.goal)
    call.start call.goal
  rw [← initializeSearch_frozen] at hmemo
  have hh := ((hmemo.getState call.start).update (v := call.start)
    (x := { getState (frozen before after call.start call.goal) call.start
      (initializeSearch call.memory before call.start call.goal) call.start with
        g := 0, pred := some call.start }) rfl rfl).getState_h call.start
  simp only [startUse]
  rw [getState_congr (h₂ call.start), getState_congr (hsame call.start), hh]

/-- **The search with old heuristics is the search over the frozen environment**, and its log is in
order. -/
theorem reachable_traced {t : Traced V} (ht : (search before after call).Reachable t) :
    (searchSystem call.block call.memory (frozen before after call.start call.goal) call.eps
      call.start call.goal).Reachable t.search ∧
    Same after (frozen before after call.start call.goal) t.search.states ∧
    LogOk (frozen before after call.start call.goal) call.start t := by
  refine ht.invariant (I := fun t => (searchSystem call.block call.memory
    (frozen before after call.start call.goal) call.eps call.start call.goal).Reachable t.search ∧
    Same after (frozen before after call.start call.goal) t.search.states ∧
    LogOk (frozen before after call.start call.goal) call.start t) ?_ ?_
  · rintro t rfl
    have hsearch := searchStart_frozen before after call
    have huse := startUse_eq before after call
    refine ⟨System.Reachable.of_init hsearch, ?_, ?_, ?_⟩
    · exact ((same_labelled before after call).getState call.start).getState call.goal
    · intro u hu
      obtain rfl := List.mem_singleton.mp hu
      rw [huse]
      exact ⟨rfl, WGraph.Reaches.refl _⟩
    · intro v hv
      by_cases hvs : v = call.start
      · subst hvs
        exact ⟨_, List.mem_singleton.mpr huse.symm⟩
      · -- only the start has a label
        exfalso
        apply hv
        simp [wAStarStart, initializeSearch, Search.g, Function.update_of_ne hvs, AstarState.new]
  · rintro t t' - ⟨hst, hsame, hlog⟩ ⟨hgoal, hit⟩
    have hsuccs : after.getSuccs = (frozen before after call.start call.goal).getSuccs := rfl
    obtain ⟨heq, hafter⟩ := Same.iteration hsuccs call.eps hsame
    have hwork := heq ▸ hit
    have hstep : Sbpl.iteration (frozen before after call.start call.goal) call.eps t.search =
        some t'.search := by
      rw [← iteration_search, hwork, Option.map_some]
    exact ⟨hst.step ⟨hgoal, hstep⟩, hafter t' hit, hlog.iteration (reachable_inv hst) hwork⟩

/-- A heuristic of the log that differs from the environment's after the update is the old one, of the
start or the goal. -/
theorem uses_eq {t : Traced V} (ht : (search before after call).Reachable t)
    (htimely : ∀ v, v = call.start ∨ v = call.goal → after.getSuccs.Reaches call.start v →
      before.getGoalHeuristic v = after.getGoalHeuristic v) :
    ∀ u ∈ t.uses, u.2 = after.getGoalHeuristic u.1 := by
  intro u hu
  obtain ⟨hright, hreach⟩ := (reachable_traced ht).2.2.right u hu
  rw [hright]
  show (if _ then _ else _) = _
  split_ifs with hends
  · exact htimely u.1 hends hreach
  · rfl

/-- Every run over the frozen environment is traced by one of the search. -/
theorem exists_traced {st : Search V} (hst : (searchSystem call.block call.memory
      (frozen before after call.start call.goal) call.eps call.start call.goal).Reachable st) :
    ∃ t, (search before after call).Reachable t ∧ t.search = st := by
  refine hst.invariant
    (I := fun st => ∃ t, (search before after call).Reachable t ∧ t.search = st) ?_ ?_
  · rintro st rfl
    exact ⟨_, System.Reachable.of_init rfl, searchStart_frozen before after call⟩
  · rintro _ st' - ⟨t, ht, rfl⟩ ⟨hgoal, hit⟩
    have hsame := (reachable_traced ht).2.1
    have hsuccs : after.getSuccs = (frozen before after call.start call.goal).getSuccs := rfl
    rw [← iteration_search, ← (Same.iteration hsuccs call.eps hsame).1] at hit
    obtain ⟨t', ht', rfl⟩ := Option.map_eq_some_iff.mp hit
    exact ⟨t', ht.step ⟨hgoal, ht'⟩, rfl⟩

/-- **Exactly when a search of `wAStarPlanner` is fresh.**  On a finite graph every goal that can be
reached is given a label, so a stale heuristic of the goal is used. -/
theorem fresh_iff [Fintype V] (before after : Environment V) (call : Call V) :
    (∀ t, (search before after call).Reachable t →
      ∀ u ∈ t.uses, u.2 = after.getGoalHeuristic u.1) ↔
    ∀ v, v = call.start ∨ v = call.goal → after.getSuccs.Reaches call.start v →
      before.getGoalHeuristic v = after.getGoalHeuristic v := by
  constructor
  · intro hfresh v hv hreach
    obtain ⟨st, hgoal, hst⟩ : ∃ st : Search V, st.g v ≠ ⊤ ∧ (searchSystem call.block call.memory
        (frozen before after call.start call.goal) call.eps call.start call.goal).Reachable st := by
      rcases hv with rfl | rfl
      · refine ⟨_, ?_, System.Reachable.of_init rfl⟩
        rw [(inv_searchStart ..).forest.root]
        exact WithTop.coe_ne_top
      · obtain ⟨st, -, hgoal, hst⟩ := (search_ends call.block call.memory
          (frozen before after call.start call.goal) call.eps call.start call.goal
          (Nat.le_refl _)).1 hreach
        exact ⟨st, hgoal, hst⟩
    obtain ⟨t, ht, rfl⟩ := exists_traced hst
    have hlog := (reachable_traced ht).2.2
    obtain ⟨h, hmem⟩ := hlog.complete v hgoal
    calc before.getGoalHeuristic v
        = (frozen before after call.start call.goal).getGoalHeuristic v := (if_pos hv).symm
      _ = h := (hlog.right _ hmem).1.symm
      _ = after.getGoalHeuristic v := hfresh t ht _ hmem
  · exact fun htimely t ht => uses_eq ht htimely

end Runs

/-- The planner. -/
def planner : Planner V (Traced V) where
  search := search
  uses := Traced.uses

/-- A call for which the update comes in time: it does not change the heuristics of the start and of
a goal that can be reached. -/
def Timely (D : DiscreteSpace E V) (e : E) (call : Call V) : Prop :=
  ∀ v, v = call.start ∨ v = call.goal →
    (D.getSuccs (D.ensureHeuristicsUpdated e)).Reaches call.start v →
    D.getGoalHeuristic e v = D.getGoalHeuristic (D.ensureHeuristicsUpdated e) v

end wAStarPlanner

namespace pwsaPlanner

/-- The planner, on the workers `W`. -/
def planner {W : Type*} [DecidableEq W] (leader : W) :
    Planner V (Config W (ValidHeap Dist V) (Shared V) ℤ (Frame V)) where
  search before after call :=
    search leader call.block before after call.eps call.start call.goal
  uses c := c.shared.uses

/-- A call for which the update comes in time.  Here -1 is taken for no heuristic and asked for
again. -/
def Timely (D : DiscreteSpace E V) (e : E) (call : Call V) : Prop :=
  ∀ v, v = call.start ∨ v = call.goal →
    (D.getSuccs (D.ensureHeuristicsUpdated e)).Reaches call.start v →
    D.getGoalHeuristic e v = -1 ∨
      D.getGoalHeuristic e v = D.getGoalHeuristic (D.ensureHeuristicsUpdated e) v

theorem uses_eq {W : Type*} [DecidableEq W] [Fintype W] {leader : W} {block : ℕ → KV Dist V}
    {before after : Environment V} {eps : ℚ} {start goal : V}
    {c : Config W (ValidHeap Dist V) (Shared V) ℤ (Frame V)}
    (hc : (search leader block before after eps start goal).Reachable c)
    (htimely : ∀ v, v = start ∨ v = goal → after.getSuccs.Reaches start v →
      before.getGoalHeuristic v = -1 ∨ before.getGoalHeuristic v = after.getGoalHeuristic v) :
    ∀ u ∈ c.shared.uses, u.2 = after.getGoalHeuristic u.1 := by
  intro u hu
  obtain ⟨hright, hreach⟩ := reachable_uses hc u hu
  rw [hright, firstAsked]
  split_ifs with hends
  · exact (htimely u.1 hends.1 hreach).resolve_left hends.2
  · rfl

end pwsaPlanner

/-- **Memoised heuristics are fresh in every session whose calls are timely**, with either planner. -/
theorem heuristics_fresh {W : Type*} [DecidableEq W] [Fintype W] (leader : W)
    (D : DiscreteSpace E V) :
    (∀ s, (sessions D (pwsaPlanner.planner leader) (pwsaPlanner.Timely D)).Reachable s →
      Fresh D (pwsaPlanner.planner leader) s) ∧
    ∀ s, (sessions D wAStarPlanner.planner (wAStarPlanner.Timely D)).Reachable s →
      Fresh D wAStarPlanner.planner s := by
  constructor
  · intro s hs
    refine fresh_of_search ?_ hs
    intro e call c htimely hc
    exact pwsaPlanner.uses_eq hc htimely
  · intro s hs
    refine fresh_of_search ?_ hs
    intro e call c htimely hc
    exact wAStarPlanner.uses_eq hc htimely

/-! ## A lazy environment

Two states in a corridor.  The heuristic of the first one is 0 until it is computed. -/

/-- The state is whether the heuristics have been computed. -/
def lazyCorridor : DiscreteSpace Bool (Fin 2) where
  getSuccs _ := WGraph.corridor 2 10000
  getGoalHeuristic computed v := if computed = true ∧ v.val = 0 then 10000 else 0
  ensureHeuristicsUpdated _ := true

def corridorCall (start goal : Fin 2) : Call (Fin 2) where
  start := start
  goal := goal
  eps := 1
  block _ := ⟨⊤, start⟩
  memory _ := 0

/-- **The first search over it uses the heuristic of the start from before it was computed.** -/
theorem start_stale :
    (∃ s, (sessions lazyCorridor (pwsaPlanner.planner (0 : Fin 1)) fun _ _ => True).Reachable s ∧
      ¬ Fresh lazyCorridor (pwsaPlanner.planner (0 : Fin 1)) s) ∧
    ∃ s, (sessions lazyCorridor wAStarPlanner.planner fun _ _ => True).Reachable s ∧
      ¬ Fresh lazyCorridor wAStarPlanner.planner s := by
  constructor
  · refine ⟨.searching false (corridorCall 0 1) _,
      session_of_search trivial (System.Reachable.of_init ⟨fun _ => .waiting, rfl⟩), ?_⟩
    intro h
    have hstart := h (0, 0) (by decide)
    exact absurd hstart (by decide)
  · refine ⟨.searching false (corridorCall 0 1) _,
      session_of_search trivial (System.Reachable.of_init rfl), ?_⟩
    intro h
    have hstart := h (0, 0) (by decide)
    exact absurd hstart (by decide)

/-- The same corridor, where the first state has no heuristic before it is computed. -/
def unknownCorridor : DiscreteSpace Bool (Fin 2) where
  getSuccs _ := WGraph.corridor 2 10000
  getGoalHeuristic computed v := if v.val = 0 then (if computed = true then 10000 else -1) else 0
  ensureHeuristicsUpdated _ := true

/-- The leader of two workers relaxes the arc to the goal. -/
theorem exists_unknown_run : ∃ c, ((pwsaPlanner.planner (0 : Fin 2)).search (unknownCorridor.view false)
      (unknownCorridor.view true) (corridorCall 0 1)).Reachable c ∧
    c.shared.uses = [(1, 0), (0, 10000)] :=
  exists_reachable ((pwsaPlanner.planner (0 : Fin 2)).search (unknownCorridor.view false)
      (unknownCorridor.view true) (corridorCall 0 1))
    (next (pwsaPlanner.client (corridorCall 0 1).block (unknownCorridor.view true) 1 1) 0)
    (fun a _ _ h => ⟨a, h⟩) ⟨fun _ => .waiting, rfl⟩
    (List.replicate 4 (0, .step) ++ List.replicate 10 (0, .choose true))
    (fun c => c.shared.uses = [(1, 0), (0, 10000)]) (by decide +kernel)

/-- The only iteration over the computed corridor relaxes the same arc. -/
theorem exists_computed_run : ∃ t, (wAStarPlanner.planner.search (lazyCorridor.view true)
      (lazyCorridor.view true) (corridorCall 0 1)).Reachable t ∧ t.uses = [(1, 0), (0, 10000)] := by
  refine exists_reachable (wAStarPlanner.planner.search (lazyCorridor.view true)
      (lazyCorridor.view true) (corridorCall 0 1))
    (fun (_ : Unit) t => if (t.search.states 1).g = ⊤ then
      wAStarPlanner.iteration (lazyCorridor.view true) 1 t else none)
    ?_ rfl [()] (fun t => t.uses = [(1, 0), (0, 10000)]) (by decide +kernel)
  intro _ t t' h
  by_cases hgoal : (t.search.states 1).g = ⊤
  · rw [if_pos hgoal] at h
    exact ⟨hgoal, h⟩
  · rw [if_neg hgoal] at h
    cases h

/-- `pwsaPlanner` asks again for the heuristic that was missing, and `wAStarPlanner` is as good where
all of them have been computed.  Both have relaxed an arc. -/
theorem heuristics_fresh_computed :
    (∃ call c, (sessions unknownCorridor (pwsaPlanner.planner (0 : Fin 2))
        (pwsaPlanner.Timely unknownCorridor)).Reachable (.searching false call c) ∧
      c.shared.uses = [(1, 0), (0, 10000)] ∧
      Fresh unknownCorridor (pwsaPlanner.planner (0 : Fin 2)) (.searching false call c)) ∧
    ∃ call t, (sessions lazyCorridor wAStarPlanner.planner
        (wAStarPlanner.Timely lazyCorridor)).Reachable (.searching true call t) ∧
      t.uses = [(1, 0), (0, 10000)] ∧
      Fresh lazyCorridor wAStarPlanner.planner (.searching true call t) := by
  constructor
  · obtain ⟨c, hc, huses⟩ := exists_unknown_run
    have htimely : pwsaPlanner.Timely unknownCorridor false (corridorCall 0 1) := by
      rintro v (rfl | rfl) -
      · exact Or.inl rfl
      · exact Or.inr rfl
    have hs := session_of_search htimely hc
    exact ⟨_, c, hs, huses, (heuristics_fresh (0 : Fin 2) unknownCorridor).1 _ hs⟩
  · obtain ⟨t, ht, huses⟩ := exists_computed_run
    have htimely : wAStarPlanner.Timely lazyCorridor true (corridorCall 0 1) := fun _ _ _ => rfl
    have hs := session_of_search htimely ht
    exact ⟨_, t, hs, huses, (heuristics_fresh (0 : Fin 1) lazyCorridor).2 _ hs⟩

end PwsaStar.Sbpl
