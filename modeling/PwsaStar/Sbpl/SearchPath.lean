/-
# PwsaStar.Sbpl.SearchPath — `GetSearchPath` of the two SBPL planners.

After a search the planner walks from the goal along the predecessors it has stored, looks up at every
step what the cheapest action into the present state costs, and reverses the list of ids in place.
The walk keeps two names of the present state in step, the pointer `state`, from which the predecessor
is read, and the id `cur_id`, with which the actions are compared.  It can be left by either of two
breaks, and an action that is not found costs `INFINITECOST` and a warning.

`pwsaPlanner` and `wAStarPlanner` have the same loop over different tables of states; `PathTable` is
what the loop needs to know of a table.  A state has one entry in the table, so a pointer is the id of
the state it points to.
-/
import PwsaStar.Lib.CheapestPath
import PwsaStar.Lib.CheckedArray
import PwsaStar.Pwsa.Basic
import PwsaStar.Sbpl.WAStar
import Mathlib.Data.List.Induction

namespace PwsaStar.Sbpl

open PwsaStar.Lib PwsaStar.Heap

/-- `INFINITECOST` of `key.h`. -/
def INFINITECOST : ℤ := 1000000000

variable {S V : Type*} [DecidableEq V]

/-! ## The walk -/

/-- The loop over the actions of the predecessor: the cheapest one into `curId`. -/
def actionCost (succs : List (V × ℤ)) (curId : V) : ℤ :=
  succs.foldl (fun actioncost succ =>
    if succ.1 = curId ∧ succ.2 < actioncost then succ.2 else actioncost) INFINITECOST

/-- What `GetSearchPath` uses of a planner: `GetSuccs`, the predecessor and the label a state holds,
and `GetState`, which may fill in a heuristic and leaves these two alone. -/
structure PathTable (S V : Type*) where
  getSuccs : WGraph V
  pred : S → V → Option V
  g : S → V → Dist
  getState : V → S → S
  getState_pred : ∀ id states, pred (getState id states) = pred states
  getState_g : ∀ id states, g (getState id states) = g states

/-- The locals of the walk; `warnings` counts the warnings it prints. -/
structure PathWalk (S V : Type*) where
  states : S
  state : V
  curId : V
  wholePathIds : List V
  solcost : ℤ
  warnings : ℕ

/-- How the walk ends: at the start or by a `break`. -/
inductive Ending where
  | atStart
  | noParent
  | infiniteG
  deriving DecidableEq

/-- The body of the loop. -/
def PathTable.walkStep (T : PathTable S V) (w : PathWalk S V) : PathWalk S V ⊕ Ending :=
  match T.pred w.states w.state with
  | none => .inr .noParent
  | some pred =>
    if T.g w.states w.state = ⊤ then .inr .infiniteG
    else
      let actioncost := actionCost (T.getSuccs.nbrs pred) w.curId
      .inl
        { states := T.getState pred w.states
          state := pred
          curId := pred
          wholePathIds := w.wholePathIds ++ [pred]
          solcost := w.solcost + actioncost
          warnings := if actioncost = INFINITECOST then w.warnings + 1 else w.warnings }

/-- `while(cur_id != start_state_id)`; the number bounds the iterations. -/
def PathTable.walk (T : PathTable S V) (start : V) : ℕ → PathWalk S V → Option (PathWalk S V × Ending)
  | fuel, w =>
    if w.curId = start then some (w, .atStart)
    else
      match fuel with
      | 0 => none
      | fuel + 1 =>
        match T.walkStep w with
        | .inr ending => some (w, ending)
        | .inl w' => T.walk start fuel w'

/-! ## The reversal -/

/-- `wholePathIds[i]` and `wholePathIds[other_idx]` change places. -/
def swapEnds (ids : List V) (i : ℕ) : Option (List V) :=
  let otherIdx := ids.length - i - 1
  (ids[i]?).bind fun temp =>
    (ids[otherIdx]?).bind fun other =>
      (store ids i other).bind fun ids => store ids otherIdx temp

/-- The iterations that are left of the loop that reverses the list, from index `i` on. -/
def reverseFrom : ℕ → ℕ → List V → Option (List V)
  | 0, _, ids => some ids
  | k + 1, i, ids => (swapEnds ids i).bind (reverseFrom k (i + 1))

/-- What `GetSearchPath` returns and how it came to that. -/
structure SearchPath (V : Type*) where
  wholePathIds : List V
  solcost : ℤ
  ending : Ending
  warnings : ℕ

/-- `GetSearchPath`, with `goal_state` and `goal_state_id` for the goal. -/
def PathTable.getSearchPath (T : PathTable S V) (start goal : V) (states : S) (fuel : ℕ) :
    Option (SearchPath V) :=
  (T.walk start fuel
    { states := states, state := goal, curId := goal, wholePathIds := [goal], solcost := 0,
      warnings := 0 }).bind fun (w, ending) =>
    (reverseFrom (w.wholePathIds.length / 2) 0 w.wholePathIds).map fun ids =>
      { wholePathIds := ids, solcost := w.solcost, ending := ending, warnings := w.warnings }

/-! ## The two planners -/

/-- `pwsa_state` -/
structure PwsaState (V : Type*) where
  isExpanded : Bool
  gpred : Pwsa.Vertpack V
  h : ℤ

/-- The constructor `pwsa_state()`. -/
def PwsaState.new : PwsaState V where
  isExpanded := false
  gpred := ⟨⊤, none⟩
  h := -1

/-- `pwsaPlanner::GetState`: the effect on the table of states. -/
def pwsaPlanner.getState (env : Environment V) (id : V) (states : V → PwsaState V) :
    V → PwsaState V :=
  if (states id).h = -1 then
    Function.update states id { states id with h := env.getGoalHeuristic id }
  else states

theorem pwsaPlanner.getState_gpred (env : Environment V) (id v : V) (states : V → PwsaState V) :
    (pwsaPlanner.getState env id states v).gpred = (states v).gpred := by
  unfold pwsaPlanner.getState
  split_ifs
  · by_cases hv : v = id
    · subst hv
      rw [Function.update_self]
    · rw [Function.update_of_ne hv]
  · rfl

/-- The table of `pwsaPlanner`. -/
def pwsaPlanner.pathTable (env : Environment V) : PathTable (V → PwsaState V) V where
  getSuccs := env.getSuccs
  pred states v := (states v).gpred.pred
  g states v := (states v).gpred.distance
  getState := pwsaPlanner.getState env
  getState_pred id states := by
    funext v
    rw [pwsaPlanner.getState_gpred]
  getState_g id states := by
    funext v
    rw [pwsaPlanner.getState_gpred]

/-- `pwsaPlanner::GetSearchPath` -/
def pwsaPlanner.getSearchPath (env : Environment V) (start goal : V) (states : V → PwsaState V)
    (fuel : ℕ) : Option (SearchPath V) :=
  (pwsaPlanner.pathTable env).getSearchPath start goal states fuel

/-- The table of `wAStarPlanner`. -/
def wAStarPlanner.pathTable (env : Environment V) : PathTable (V → AstarState V) V where
  getSuccs := env.getSuccs
  pred states v := (states v).pred
  g states v := (states v).g
  getState := getState env
  getState_pred id states := by
    funext v
    exact getState_pred env id v states
  getState_g id states := by
    funext v
    exact getState_g env id v states

/-- `wAStarPlanner::GetSearchPath` -/
def wAStarPlanner.getSearchPath (env : Environment V) (start goal : V) (states : V → AstarState V)
    (fuel : ℕ) : Option (SearchPath V) :=
  (wAStarPlanner.pathTable env).getSearchPath start goal states fuel

/-! ## What the loops compute -/

/-- Looking the actions up finds a lightest arc, if that is cheaper than what is known already. -/
theorem foldl_actionCost (curId : V) : ∀ (succs : List (V × ℤ)) (known : ℤ),
    (∀ c, (curId, c) ∈ succs → succs.foldl (fun actioncost succ =>
      if succ.1 = curId ∧ succ.2 < actioncost then succ.2 else actioncost) known ≤ c) ∧
    succs.foldl (fun actioncost succ =>
      if succ.1 = curId ∧ succ.2 < actioncost then succ.2 else actioncost) known ≤ known ∧
    (succs.foldl (fun actioncost succ =>
        if succ.1 = curId ∧ succ.2 < actioncost then succ.2 else actioncost) known = known ∨
      (curId, succs.foldl (fun actioncost succ =>
        if succ.1 = curId ∧ succ.2 < actioncost then succ.2 else actioncost) known) ∈ succs) := by
  intro succs
  induction succs with
  | nil =>
    intro known
    exact ⟨fun c hc => absurd hc List.not_mem_nil, le_rfl, Or.inl rfl⟩
  | cons succ succs ih =>
    intro known
    rw [List.foldl_cons]
    by_cases hbetter : succ.1 = curId ∧ succ.2 < known
    · rw [if_pos hbetter]
      obtain ⟨hle, hknown, hfound⟩ := ih succ.2
      refine ⟨?_, hknown.trans hbetter.2.le, Or.inr ?_⟩
      · intro c hc
        rcases List.mem_cons.mp hc with rfl | hc
        · exact hknown
        · exact hle c hc
      · rcases hfound with heq | hmem
        · rw [heq, ← hbetter.1]
          exact List.mem_cons_self
        · exact List.mem_cons_of_mem succ hmem
    · rw [if_neg hbetter]
      obtain ⟨hle, hknown, hfound⟩ := ih known
      refine ⟨?_, hknown, hfound.imp_right (List.mem_cons_of_mem succ)⟩
      intro c hc
      rcases List.mem_cons.mp hc with rfl | hc
      · exact hknown.trans (not_lt.mp fun hlt => hbetter ⟨rfl, hlt⟩)
      · exact hle c hc

/-- The cost the walk adds is that of the lightest arc. -/
theorem actionCost_eq {G : WGraph V} {p v : V} {w : ℤ} (harc : G.cheapest.Arc p v w)
    (hlt : w < INFINITECOST) : actionCost (G.nbrs p) v = w := by
  obtain ⟨hmem, hleast⟩ := WGraph.arc_cheapest.mp harc
  obtain ⟨hle, -, hfound⟩ := foldl_actionCost v (G.nbrs p) INFINITECOST
  have hupper : actionCost (G.nbrs p) v ≤ w := hle w hmem
  apply le_antisymm hupper
  rcases hfound with heq | hin
  · exact hlt.le.trans (le_of_eq heq.symm)
  · exact hleast hin

omit [DecidableEq V] in
/-- One swap of the reversal, when `i` entries on either side are in place already. -/
theorem swapEnds_eq (as ms bs : List V) (x y : V) (hlen : as.length = bs.length) :
    swapEnds (as ++ (x :: (ms ++ [y])) ++ bs) as.length =
      some (as ++ [y] ++ ms ++ (x :: bs)) := by
  have hother : (as ++ (x :: (ms ++ [y])) ++ bs).length - as.length - 1 =
      as.length + (ms.length + 1) := by
    simp only [List.length_append, List.length_cons, List.length_nil]
    omega
  have hids : as ++ (x :: (ms ++ [y])) ++ bs = as ++ x :: (ms ++ y :: bs) := by simp
  have hset : (as ++ x :: (ms ++ y :: bs)).set as.length y = as ++ y :: (ms ++ y :: bs) := by
    rw [List.set_append_right _ _ (Nat.le_refl _)]
    simp
  have hset' : (as ++ y :: (ms ++ y :: bs)).set (as.length + (ms.length + 1)) x =
      as ++ [y] ++ ms ++ (x :: bs) := by
    rw [List.set_append_right _ _ (Nat.le_add_right _ _)]
    simp
  rw [swapEnds, hother, hids]
  have hx : (as ++ x :: (ms ++ y :: bs))[as.length]? = some x := by simp
  have hy : (as ++ x :: (ms ++ y :: bs))[as.length + (ms.length + 1)]? = some y := by
    rw [List.getElem?_append_right (Nat.le_add_right _ _)]
    simp
  rw [hx, hy]
  show (store _ as.length y).bind _ = _
  rw [store_eq (by simp), hset]
  show store _ _ x = _
  rw [store_eq (by simp), hset']

omit [DecidableEq V] in
/-- The loop reverses what it has not put in place yet. -/
theorem reverseFrom_eq (ms : List V) : ∀ as bs : List V, as.length = bs.length →
    reverseFrom (ms.length / 2) as.length (as ++ ms ++ bs) = some (as ++ ms.reverse ++ bs) := by
  induction ms using List.bidirectionalRec with
  | nil =>
    intro as bs _
    simp [reverseFrom]
  | singleton x =>
    intro as bs _
    simp [reverseFrom]
  | cons_append x ms y ih =>
    intro as bs hlen
    have hhalf : (x :: (ms ++ [y])).length / 2 = ms.length / 2 + 1 := by
      simp only [List.length_cons, List.length_append, List.length_nil]
      omega
    rw [hhalf, reverseFrom, swapEnds_eq as ms bs x y hlen]
    have hrest := ih (as ++ [y]) (x :: bs) (by simp [hlen])
    rw [List.length_append, List.length_singleton] at hrest
    show reverseFrom _ _ _ = _
    rw [hrest]
    simp

omit [DecidableEq V] in
theorem reverse_eq (ids : List V) : reverseFrom (ids.length / 2) 0 ids = some ids.reverse := by
  simpa using reverseFrom_eq ids [] [] rfl

/-! ## Soundness -/

/-- What is promised of the list and the cost that `GetSearchPath` returns: `bound` is the label of the
goal. -/
structure SearchPath.Sound (G : WGraph V) (start goal : V) (bound : Dist) (r : SearchPath V) :
    Prop where
  ending : r.ending = .atStart
  warnings : r.warnings = 0
  begins : r.wholePathIds.head? = some start
  ends : r.wholePathIds.getLast? = some goal
  nodup : r.wholePathIds.Nodup
  actions : r.wholePathIds.IsChain fun a b => ∃ c, G.Arc a b c
  /-- Every step is charged with the cheapest of its actions. -/
  solcost : PathCost G.cheapest r.wholePathIds r.solcost
  bounded : (r.solcost : Dist) ≤ bound

section Walk

variable {T : PathTable S V} {start : V} {closed : V → Prop}

/-- The body of the loop at a state whose pointer leads over a lightest arc to `p`. -/
theorem PathTable.walkStep_eq {w : PathWalk S V} {p : V} {c : ℤ} (hsync : w.state = w.curId)
    (hp : T.pred w.states w.curId = some p) (hg : T.g w.states w.curId ≠ ⊤)
    (harc : T.getSuccs.cheapest.Arc p w.curId c) (hlt : c < INFINITECOST) :
    T.walkStep w = .inl
      { states := T.getState p w.states, state := p, curId := p,
        wholePathIds := w.wholePathIds ++ [p], solcost := w.solcost + c, warnings := w.warnings } := by
  rw [walkStep, hsync, hp]
  show (if _ then _ else _) = _
  rw [if_neg hg, actionCost_eq harc hlt]
  show Sum.inl (PathWalk.mk _ _ _ _ _ (if _ then _ else _)) = _
  rw [if_neg hlt.ne]

theorem PathTable.walk_atStart {w : PathWalk S V} (h : w.curId = start) (fuel : ℕ) :
    T.walk start fuel w = some (w, .atStart) := by
  unfold walk
  exact if_pos h

theorem PathTable.walk_succ {w w' : PathWalk S V} (h : w.curId ≠ start)
    (hstep : T.walkStep w = .inl w') (fuel : ℕ) :
    T.walk start (fuel + 1) w = T.walk start fuel w' := by
  rw [walk, if_neg h]
  simp only [hstep]

/-- **The walk follows a pointer path to its end.**  Induction on the path; the pointer and the id
agree before every iteration. -/
theorem PathTable.walk_eq (hcost : ∀ u v c, T.getSuccs.Arc u v c → c < INFINITECOST)
    {pred : V → Option V} {g : V → Dist} (F : Forest T.getSuccs.cheapest start closed g pred) {v : V}
    {l : List V} {d : ℤ} (h : PredPath T.getSuccs.cheapest start pred v l d) :
    ∀ w : PathWalk S V, w.state = w.curId → w.curId = v → T.pred w.states = pred →
      T.g w.states = g → g v ≠ ⊤ → ∀ fuel, l.length ≤ fuel → ∃ w',
        T.walk start fuel w = some (w', .atStart) ∧
        w'.wholePathIds = w.wholePathIds ++ l.tail ∧ w'.solcost = w.solcost + d ∧
        w'.warnings = w.warnings := by
  induction h with
  | root =>
    intro w _ hid _ _ _ fuel _
    exact ⟨w, walk_atStart hid fuel, by simp, by simp, rfl⟩
  | @step v p c d l hne hp harc hrest ih =>
    intro w hsync hid hpred hg hfin fuel hfuel
    obtain ⟨n, rfl⟩ : ∃ n, fuel = n + 1 := ⟨fuel - 1, by simp at hfuel; omega⟩
    subst hid
    subst hpred
    subst hg
    have hc : c < INFINITECOST := hcost p w.curId c (WGraph.arc_cheapest.mp harc).1
    have hpfin : T.g w.states p ≠ ⊤ := ne_top_of_le_ne_top hfin (F.pred_le hne hfin hp)
    obtain ⟨w', hwalk, hids, hsol, hwarn⟩ := ih
      { states := T.getState p w.states, state := p, curId := p,
        wholePathIds := w.wholePathIds ++ [p], solcost := w.solcost + c, warnings := w.warnings }
      rfl rfl (T.getState_pred p w.states) (T.getState_g p w.states) hpfin n
      (by simp at hfuel; omega)
    refine ⟨w', ?_, ?_, ?_, hwarn⟩
    · rw [walk_succ hne (walkStep_eq hsync hp hfin harc hc)]
      exact hwalk
    · have htail : l = p :: l.tail := by
        cases hrest with
        | root => rfl
        | step => rfl
      rw [hids, List.append_assoc]
      exact congrArg (w.wholePathIds ++ ·) htail.symm
    · rw [hsol, Int.add_assoc, Int.add_comm c d]

/-- **Path extraction is sound** over every table whose pointers form a forest with non-overcharging
arcs. -/
theorem PathTable.getSearchPath_sound
    (hcost : ∀ u v c, T.getSuccs.Arc u v c → c < INFINITECOST) {states : S}
    (F : Forest T.getSuccs start closed (T.g states) (T.pred states)) {goal : V}
    (hgoal : T.g states goal ≠ ⊤) :
    ∃ r, (∃ n, ∀ fuel, n ≤ fuel → T.getSearchPath start goal states fuel = some r) ∧
      r.Sound T.getSuccs start goal (T.g states goal) := by
  obtain ⟨a, ha⟩ := WithTop.ne_top_iff_exists.mp hgoal
  obtain ⟨l, d, hpath, hle⟩ := F.cheapest.exists_path ha.symm
  have hrev := hpath.reverse
  have hhead : goal :: l.tail = l := by
    cases hpath with
    | root => rfl
    | step => rfl
  refine ⟨⟨l.reverse, d, .atStart, 0⟩, ⟨l.length, fun fuel hfuel => ?_⟩,
    ⟨rfl, rfl, hrev.begins, hrev.ends, hrev.nodup, ?_, hrev.cost, ?_⟩⟩
  · obtain ⟨w', hwalk, hids, hsol, hwarn⟩ := walk_eq hcost F.cheapest hpath
      { states := states, state := goal, curId := goal, wholePathIds := [goal], solcost := 0,
        warnings := 0 } rfl rfl rfl rfl hgoal fuel hfuel
    have hids' : w'.wholePathIds = l := hids.trans hhead
    rw [getSearchPath, hwalk]
    show (reverseFrom _ _ _).map _ = _
    rw [hids', reverse_eq]
    show some (SearchPath.mk _ _ _ _) = _
    rw [hsol, hwarn, Int.zero_add]
  · apply hrev.cost.isChain.imp
    rintro u v ⟨c, hc⟩
    exact ⟨c, (WGraph.arc_cheapest.mp hc).1⟩
  · rw [← ha]
    exact_mod_cast hle

end Walk

/-- The path invariant of a final search state. -/
structure PathInvariant (G : WGraph V) (start : V) (gpred : V → Pwsa.Vertpack V) : Prop where
  source : gpred start = ⟨0, some start⟩
  parent : ∀ v, v ≠ start → (gpred v).distance ≠ ⊤ → ∃ p c, (gpred v).pred = some p ∧
    G.Arc p v c ∧ (gpred p).distance + (c : Dist) ≤ (gpred v).distance
  chains : ∀ v, (gpred v).distance ≠ ⊤ → ∃ k, Rooted start (fun v => (gpred v).pred) k v

omit [DecidableEq V] in
/-- Labels that satisfy it are not negative, since the chains end at the label 0. -/
theorem PathInvariant.forest {G : WGraph V} {start : V} {gpred : V → Pwsa.Vertpack V}
    (h : PathInvariant G start gpred) :
    Forest G start (fun _ => True) (fun v => (gpred v).distance) (fun v => (gpred v).pred) where
  root := by rw [h.source]
  nonneg v := by
    by_cases hfin : (gpred v).distance = ⊤
    · rw [hfin]
      exact le_top
    · obtain ⟨k, hk⟩ := h.chains v hfin
      induction hk with
      | root => rw [h.source]
      | @step k v p hne hp _ ih =>
        obtain ⟨p', c, hp', harc, hle⟩ := h.parent v hne hfin
        obtain rfl : p = p' := Option.some.inj (hp.symm.trans hp')
        have hc : (0 : Dist) ≤ (c : Dist) := by exact_mod_cast harc.nonneg
        have hpfin : (gpred p).distance ≠ ⊤ := by
          intro htop
          rw [htop, top_add] at hle
          exact hfin (top_le_iff.mp hle)
        exact (add_nonneg (ih hpfin) hc).trans hle
  parent v hne hfin := by
    obtain ⟨p, c, hp, harc, hle⟩ := h.parent v hne hfin
    exact ⟨p, c, hp, trivial, harc, hle⟩
  rooted := h.chains

/-- **Path extraction of the SBPL planners is sound.** -/
theorem searchPath_sound (env : Environment V)
    (hcost : ∀ u v c, env.getSuccs.Arc u v c → c < INFINITECOST) (start goal : V) :
    (∀ states : V → PwsaState V, PathInvariant env.getSuccs start (fun v => (states v).gpred) →
      (states goal).gpred.distance ≠ ⊤ →
      ∃ r, (∃ n, ∀ fuel, n ≤ fuel →
          pwsaPlanner.getSearchPath env start goal states fuel = some r) ∧
        r.Sound env.getSuccs start goal (states goal).gpred.distance) ∧
    ∀ (block : ℕ → KV Dist V) (memory : V → ℤ) (eps : ℚ) (st : Search V),
      (searchSystem block memory env eps start goal).Reachable st → st.g goal ≠ ⊤ →
      ∃ r, (∃ n, ∀ fuel, n ≤ fuel →
          wAStarPlanner.getSearchPath env start goal st.states fuel = some r) ∧
        r.Sound env.getSuccs start goal (st.g goal) := by
  constructor
  · intro states hinv hgoal
    exact PathTable.getSearchPath_sound (T := pwsaPlanner.pathTable env) hcost hinv.forest hgoal
  · intro block memory eps st hst hgoal
    exact PathTable.getSearchPath_sound (T := wAStarPlanner.pathTable env) hcost
      (reachable_inv hst).forest hgoal

/-! ## Parallel actions -/

/-- Three states in a row. -/
inductive Junction
  | first
  | second
  | third
  deriving DecidableEq

instance : Fintype Junction where
  elems := {.first, .second, .third}
  complete v := by cases v <;> decide

/-- Two actions lead from the first to the second. -/
def parallelEnv : Environment Junction where
  getSuccs :=
    { nbrs := fun
        | .first => [(.second, 5), (.second, 3)]
        | .second => [(.third, 4)]
        | .third => []
      nonneg := by decide }
  getGoalHeuristic _ := 0

theorem parallelEnv_cost : ∀ u v c, parallelEnv.getSuccs.Arc u v c → c < INFINITECOST := by
  have h : ∀ u, ∀ a ∈ parallelEnv.getSuccs.nbrs u, a.2 < INFINITECOST := by decide
  exact fun u v c hc => h u (v, c) hc

/-- Labels a search may leave that has found the dearer action first. -/
def parallelStates : Junction → PwsaState Junction
  | .first => ⟨true, ⟨0, some .first⟩, 0⟩
  | .second => ⟨true, ⟨5, some .first⟩, 0⟩
  | .third => ⟨true, ⟨9, some .second⟩, 0⟩

theorem parallelStates_inv :
    PathInvariant parallelEnv.getSuccs .first fun v => (parallelStates v).gpred where
  source := rfl
  parent v hv _ := by
    cases v with
    | first => exact absurd rfl hv
    | second => exact ⟨.first, 5, rfl, by decide, by decide⟩
    | third => exact ⟨.second, 4, rfl, by decide, by decide⟩
  chains v _ := by
    have h₁ : Rooted Junction.first (fun v => (parallelStates v).gpred.pred) 1 .second :=
      Rooted.step (by decide) rfl Rooted.root
    cases v with
    | first => exact ⟨0, Rooted.root⟩
    | second => exact ⟨1, h₁⟩
    | third => exact ⟨2, Rooted.step (by decide) rfl h₁⟩

theorem searchPath_sound_parallel :
    (∃ r, (∃ n, ∀ fuel, n ≤ fuel →
        pwsaPlanner.getSearchPath parallelEnv .first .third parallelStates fuel = some r) ∧
      r.Sound parallelEnv.getSuccs .first .third 9) ∧
    ∃ st, (searchSystem (fun _ => ⟨⊤, .first⟩) (fun _ => 0) parallelEnv 1 .first .third).Reachable st ∧
      ∃ r, (∃ n, ∀ fuel, n ≤ fuel →
          wAStarPlanner.getSearchPath parallelEnv .first .third st.states fuel = some r) ∧
        r.Sound parallelEnv.getSuccs .first .third (st.g .third) := by
  have hsound := searchPath_sound parallelEnv parallelEnv_cost .first .third
  have hreach : parallelEnv.getSuccs.Reaches .first .third :=
    ((WGraph.Reaches.refl _).snoc (show parallelEnv.getSuccs.Arc .first .second 5 by decide)).snoc
      (show parallelEnv.getSuccs.Arc .second .third 4 by decide)
  obtain ⟨st, -, hgoal, hst⟩ := (search_ends (fun _ => ⟨⊤, .first⟩) (fun _ => 0) parallelEnv 1 .first
    .third (Nat.le_refl _)).1 hreach
  exact ⟨hsound.1 parallelStates parallelStates_inv (by decide),
    st, hst, hsound.2 _ _ _ st hst hgoal⟩

-- the label of the goal is 9, but the cheaper of the two actions is found again
example : (pwsaPlanner.getSearchPath parallelEnv .first .third parallelStates 3).map
    (fun r => (r.wholePathIds, r.solcost)) = some ([.first, .second, .third], 7) := by decide

end PwsaStar.Sbpl
