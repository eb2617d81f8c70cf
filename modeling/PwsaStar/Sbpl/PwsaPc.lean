/-
# PwsaStar.Sbpl.PwsaPc — `pwsa_pc` as `pwsaPlanner` runs it, and where its heuristics come from.

The planner's `pwsa_pc` differs from the one of `pwsa.hpp` in how heuristics are memoised: every state
is fetched with `GetState`, which asks the environment when `h` is still -1, and the priority is
computed from `h` later.  `GetState` runs on all workers at once, without a lock, so its load and its
store of `h` are steps of their own here.

`initializeSearch` fetches the goal and the start before it makes the environment bring its heuristics
up to date.  `firstAsked` is what their `h` is then, and what it stays: `MemoOk` holds of every run.
-/
import PwsaStar.Pwsa.Body
import PwsaStar.Sbpl.SearchPath

namespace PwsaStar.Sbpl.pwsaPlanner

open PwsaStar.Lib PwsaStar.Heap PwsaStar.ParallelWhile

variable {W V : Type*}

/-! ## The program -/

/-- The table of states.  `uses` logs, for every priority, the state it was computed for and the
heuristic it was computed from; the program does not read it. -/
structure Shared (V : Type*) where
  states : V → PwsaState V
  uses : List (V × ℤ)

/-- Where a worker stands inside `do_work`. -/
inductive Frame (V : Type*) where
  /-- the loop test, and `v = frontier.delete_min()` -/
  | loop (steps : ℤ)
  /-- `vState = GetState(v)`: the test of `h` -/
  | getState (steps : ℤ) (v : V)
  /-- `GetState(v)`: the assignment to `h` -/
  | askState (steps : ℤ) (v : V)
  /-- `orig = vState->is_expanded.load()` -/
  | loadExpanded (steps : ℤ) (v : V)
  /-- `vState->is_expanded.compare_exchange_strong(orig, true)` -/
  | casExpanded (steps : ℤ) (v : V)
  /-- `vdistance = vState->gpred.load().distance` -/
  | loadG (steps : ℤ) (v : V)
  /-- `nbrState = GetState(nbr)` for the first of the remaining arcs: the test of `h` -/
  | getNbr (steps : ℤ) (v : V) (vdistance : Dist) (arcs : List (V × ℤ))
  /-- `GetState(nbr)`: the assignment to `h` -/
  | askNbr (steps : ℤ) (v : V) (vdistance : Dist) (arc : V × ℤ) (arcs : List (V × ℤ))
  /-- `gpred_nbr = nbrState->gpred.load()` -/
  | loadNbr (steps : ℤ) (v : V) (vdistance : Dist) (arc : V × ℤ) (arcs : List (V × ℤ))
  /-- `nbrState->gpred.compare_exchange_weak(gpred_nbr, mine)` -/
  | casNbr (steps : ℤ) (v : V) (vdistance : Dist) (arc : V × ℤ) (arcs : List (V × ℤ))
      (expected : Pwsa.Vertpack V)
  /-- `!nbrState->is_expanded.load()` -/
  | checkInsert (steps : ℤ) (v : V) (vdistance : Dist) (arc : V × ℤ) (arcs : List (V × ℤ))
  /-- `frontier.insert(mine.distance + heuristic(nbrState), nbr)` -/
  | insert (steps : ℤ) (v : V) (vdistance : Dist) (arc : V × ℤ) (arcs : List (V × ℤ))
  deriving DecidableEq

/-- `heuristic(state)` of `run_pwsa`. -/
def heuristic (eps : ℚ) (state : PwsaState V) : ℤ := toLong (eps * state.h)

variable [DecidableEq V]

/-- An assignment to `h`. -/
def Shared.setH (m : Shared V) (v : V) (h : ℤ) : Shared V :=
  { m with states := Function.update m.states v { m.states v with h := h } }

/-- `is_expanded` of `v` is set. -/
def Shared.mark (m : Shared V) (v : V) : Shared V :=
  { m with states := Function.update m.states v { m.states v with isExpanded := true } }

/-- `gpred` of `v` is exchanged. -/
def Shared.exchange (m : Shared V) (v : V) (mine : Pwsa.Vertpack V) : Shared V :=
  { m with states := Function.update m.states v { m.states v with gpred := mine } }

/-- A priority is computed for `v`. -/
def Shared.use (m : Shared V) (v : V) : Shared V :=
  { m with uses := (v, (m.states v).h) :: m.uses }

/-- One access to the shared memory, and where the worker goes on; `none` when it returns that the
destination is found.  The loop test and the insertion are not among them.  `x = false` makes
`compare_exchange_weak` fail spuriously. -/
def access (env : Environment V) (destination : V) (x : Bool) (m : Shared V) :
    Frame V → Shared V × Option (Frame V)
  | .getState steps v =>
    (m, some (if (m.states v).h = -1 then .askState steps v else .loadExpanded steps v))
  | .askState steps v => (m.setH v (env.getGoalHeuristic v), some (.loadExpanded steps v))
  | .loadExpanded steps v =>
    (m, some (if (m.states v).isExpanded then .loop steps else .casExpanded steps v))
  | .casExpanded steps v =>
    if (m.states v).isExpanded then (m, some (.loop steps))
    else (m.mark v, if v = destination then none else some (.loadG steps v))
  | .loadG steps v =>
    (m, some (.getNbr steps v (m.states v).gpred.distance (env.getSuccs.nbrs v)))
  | .getNbr steps _ _ [] => (m, some (.loop steps))
  | .getNbr steps v vdistance (arc :: arcs) =>
    (m, some (if (m.states arc.1).h = -1 then .askNbr steps v vdistance arc arcs
      else .loadNbr steps v vdistance arc arcs))
  | .askNbr steps v vdistance arc arcs =>
    (m.setH arc.1 (env.getGoalHeuristic arc.1), some (.loadNbr steps v vdistance arc arcs))
  | .loadNbr steps v vdistance arc arcs =>
    (m, some (if vdistance + (arc.2 : Dist) < (m.states arc.1).gpred.distance then
        .casNbr steps v vdistance arc arcs (m.states arc.1).gpred
      else .getNbr steps v vdistance arcs))
  | .casNbr steps v vdistance arc arcs expected =>
    if x ∧ (m.states arc.1).gpred = expected then
      (m.exchange arc.1 ⟨vdistance + (arc.2 : Dist), some v⟩,
        some (.checkInsert steps v vdistance arc arcs))
    else (m, some (.loadNbr steps v vdistance arc arcs))
  | .checkInsert steps v vdistance arc arcs =>
    (m, some (if (m.states arc.1).isExpanded then .getNbr steps v vdistance arcs
      else .insert steps v vdistance arc arcs))
  | b => (m, some b)

/-- One step of `do_work`.  `balance` is `steps_since_load_balancing.mine()`. -/
def doWork (env : Environment V) (eps : ℚ) (destination : V) (pollCutoff : ℤ) (x : Bool)
    (m : Shared V) (balance : ℤ) (frontier : ValidHeap Dist V) :
    Frame V → Shared V × ℤ × ValidHeap Dist V × (Frame V ⊕ Bool)
  | .loop steps =>
    if steps < pollCutoff then
      match frontier.deleteMin with
      | some (v, frontier') => (m, balance, frontier', .inl (.getState (steps + 1) v))
      | none => (m, balance + steps, frontier, .inr false)
    else (m, balance + steps, frontier, .inr false)
  | .insert steps v vdistance arc arcs =>
    (m.use arc.1, balance,
      frontier.insert (vdistance + (arc.2 : Dist) + (heuristic eps (m.states arc.1) : Dist)) arc.1,
      .inl (.getNbr steps v vdistance arcs))
  | b =>
    let (m', next) := access env destination x m b
    (m', balance, frontier, next.elim (.inr true) .inl)

/-- `split_cutoff` and `poll_cutoff` of `run_pwsa`. -/
def splitCutoff : ℤ := 5

def pollCutoff : ℤ := 5

/-- The fresh table `replan` makes, after the two calls of `GetState` in `initializeSearch`. -/
def initializeSearch (env : Environment V) (start goal : V) : V → PwsaState V :=
  getState env start (getState env goal fun _ => PwsaState.new)

/-- The lines of `pwsa_pc` before `parallel_while_pwsa`: the table and the initial frontier. -/
def initF (block : ℕ → KV Dist V) (env : Environment V) (eps : ℚ) (source : V)
    (states : V → PwsaState V) : Shared V × ValidHeap Dist V :=
  let states := getState env source states
  let m : Shared V := ⟨states, []⟩
  let m := m.exchange source ⟨0, some source⟩
  (m.use source,
    (ValidHeap.new block).insert (heuristic eps (m.states source) : Dist) source)

/-- What is passed to `parallel_while_pwsa`. -/
def client (block : ℕ → KV Dist V) (env : Environment V) (eps : ℚ) (goal : V) :
    Client W (ValidHeap Dist V) (Shared V) ℤ (Frame V) Bool :=
  heapClient block splitCutoff (.loop 0) fun _ x m balance frontier b =>
    some (doWork env eps goal pollCutoff x m balance frontier b)

/-- `Search` up to its failure test.  The environment is as `before` when `initializeSearch` fetches
the goal and the start, and as `after` from `EnsureHeuristicsUpdated` on. -/
def search [DecidableEq W] (leader : W) (block : ℕ → KV Dist V) (before after : Environment V)
    (eps : ℚ) (start goal : V) : System (Config W (ValidHeap Dist V) (Shared V) ℤ (Frame V)) :=
  system (client block after eps goal) leader
    (initF block after eps start (initializeSearch before start goal)).2 0
    (initF block after eps start (initializeSearch before start goal)).1

/-! ## Where heuristics come from -/

/-- The heuristic the search works with: of the start and the goal it is the one they had before, if
`GetState` took that for a value. -/
def firstAsked (before after : Environment V) (start goal v : V) : ℤ :=
  if (v = start ∨ v = goal) ∧ before.getGoalHeuristic v ≠ -1 then before.getGoalHeuristic v
  else after.getGoalHeuristic v

/-- `h` is set to what the search works with, or `GetState` will set it to that. -/
def Settled (after : Environment V) (work : V → ℤ) (states : V → PwsaState V) : Prop :=
  ∀ v, if (states v).h = -1 then work v = after.getGoalHeuristic v else (states v).h = work v

/-- The memory of the search. -/
structure MemoOk (after : Environment V) (start : V) (work : V → ℤ) (m : Shared V) : Prop where
  settled : Settled after work m.states
  uses : ∀ u ∈ m.uses, u.2 = work u.1 ∧ after.getSuccs.Reaches start u.1

/-- What a worker relies on: it is at vertices the start reaches, when it is about to ask the
environment the answer is what the search works with, and after `GetState` so is `h`. -/
def FrameOk (after : Environment V) (start : V) (work : V → ℤ) (m : Shared V) : Frame V → Prop
  | .loop _ => True
  | .getState _ v | .loadExpanded _ v | .casExpanded _ v | .loadG _ v =>
    after.getSuccs.Reaches start v
  | .askState _ v => after.getSuccs.Reaches start v ∧ work v = after.getGoalHeuristic v
  | .getNbr _ _ _ arcs => ∀ a ∈ arcs, after.getSuccs.Reaches start a.1
  | .askNbr _ _ _ arc arcs =>
    (∀ a ∈ arc :: arcs, after.getSuccs.Reaches start a.1) ∧ work arc.1 = after.getGoalHeuristic arc.1
  | .loadNbr _ _ _ arc arcs | .casNbr _ _ _ arc arcs _ | .checkInsert _ _ _ arc arcs
  | .insert _ _ _ arc arcs =>
    (∀ a ∈ arc :: arcs, after.getSuccs.Reaches start a.1) ∧ (m.states arc.1).h = work arc.1

/-- Values of `h` that are right stay right. -/
def Keeps (work : V → ℤ) (m m' : Shared V) : Prop :=
  ∀ v, (m.states v).h = work v → (m'.states v).h = work v

section Invariant

variable {before after : Environment V} {start goal : V} {work : V → ℤ} {m m' : Shared V}
  {r : Option (Frame V)}

omit [DecidableEq V] in
theorem Keeps.frameOk {b : Frame V} (h : Keeps work m m') (hb : FrameOk after start work m b) :
    FrameOk after start work m' b := by
  cases b with
  | loadNbr | casNbr | checkInsert | insert => exact ⟨hb.1, h _ hb.2⟩
  | _ => exact hb

omit [DecidableEq V] in
/-- A step that leaves every `h` and the log as they are. -/
theorem MemoOk.of_same (hm : MemoOk after start work m)
    (hh : ∀ v, (m'.states v).h = (m.states v).h) (huses : m'.uses = m.uses) :
    MemoOk after start work m' ∧ Keeps work m m' := by
  refine ⟨⟨fun v => ?_, ?_⟩, fun v hv => (hh v).trans hv⟩
  · rw [hh v]
    exact hm.settled v
  · rw [huses]
    exact hm.uses

theorem MemoOk.setH (hm : MemoOk after start work m) {u : V}
    (hu : work u = after.getGoalHeuristic u) :
    MemoOk after start work (m.setH u (after.getGoalHeuristic u)) ∧
      Keeps work m (m.setH u (after.getGoalHeuristic u)) ∧
      ((m.setH u (after.getGoalHeuristic u)).states u).h = work u := by
  have hself : ((m.setH u (after.getGoalHeuristic u)).states u).h = work u := by
    rw [hu]
    simp [Shared.setH]
  have hother : ∀ v, v ≠ u →
      ((m.setH u (after.getGoalHeuristic u)).states v).h = (m.states v).h := fun v hv => by
    simp [Shared.setH, Function.update_of_ne hv]
  refine ⟨⟨fun v => ?_, hm.uses⟩, fun v hv => ?_, hself⟩
  · by_cases hvu : v = u
    · subst hvu
      rw [hself]
      split_ifs
      · exact hu
      · rfl
    · rw [hother v hvu]
      exact hm.settled v
  · by_cases hvu : v = u
    · subst hvu
      exact hself
    · exact (hother v hvu).trans hv

theorem mark_h (v u : V) : ((m.mark u).states v).h = (m.states v).h := by
  by_cases hv : v = u
  · subst hv
    simp [Shared.mark]
  · simp [Shared.mark, Function.update_of_ne hv]

theorem exchange_h (v u : V) (mine : Pwsa.Vertpack V) :
    ((m.exchange u mine).states v).h = (m.states v).h := by
  by_cases hv : v = u
  · subst hv
    simp [Shared.exchange]
  · simp [Shared.exchange, Function.update_of_ne hv]

omit [DecidableEq V] in
theorem MemoOk.refl (hm : MemoOk after start work m) :
    MemoOk after start work m ∧ Keeps work m m := ⟨hm, fun _ h => h⟩

omit [DecidableEq V] in
/-- An access that only reads, and goes on in the frame `b`. -/
theorem MemoOk.read (hm : MemoOk after start work m) {b : Frame V} (h : (m, some b) = (m', r))
    (hb : FrameOk after start work m b) :
    (MemoOk after start work m' ∧ Keeps work m m') ∧
      ∀ b', r = some b' → FrameOk after start work m' b' := by
  obtain ⟨rfl, rfl⟩ := Prod.mk.inj h
  refine ⟨hm.refl, fun b' hb' => ?_⟩
  obtain rfl := Option.some.inj hb'
  exact hb

/-- **One access** keeps the memory in order, does not spoil what others rely on, and the worker goes
on in a frame that is in order. -/
theorem access_ok {x : Bool} {b : Frame V} (hm : MemoOk after start work m)
    (hb : FrameOk after start work m b) (h : access after goal x m b = (m', r)) :
    (MemoOk after start work m' ∧ Keeps work m m') ∧
      ∀ b', r = some b' → FrameOk after start work m' b' := by
  cases b with
  | loop steps => exact hm.read h hb
  | getState steps v =>
    apply hm.read h
    have hv := hm.settled v
    split_ifs at hv ⊢
    · exact ⟨hb, hv⟩
    · exact hb
  | askState steps v =>
    obtain ⟨rfl, rfl⟩ := Prod.mk.inj h
    obtain ⟨hmem, hkeeps, -⟩ := hm.setH hb.2
    refine ⟨⟨hmem, hkeeps⟩, ?_⟩
    rintro b' ⟨⟩
    exact hb.1
  | loadExpanded steps v =>
    apply hm.read h
    split_ifs
    · trivial
    · exact hb
  | casExpanded steps v =>
    simp only [access] at h
    split at h
    · exact hm.read h trivial
    · obtain ⟨rfl, rfl⟩ := Prod.mk.inj h
      refine ⟨hm.of_same (fun u => mark_h u v) rfl, ?_⟩
      intro b' hb'
      split_ifs at hb'
      obtain rfl := Option.some.inj hb'
      exact hb
  | loadG steps v =>
    apply hm.read h
    rintro ⟨u, w⟩ hu
    exact WGraph.Reaches.snoc hb hu
  | getNbr steps v vdistance arcs =>
    cases arcs with
    | nil => exact hm.read h trivial
    | cons arc arcs =>
      apply hm.read h
      have harc := hm.settled arc.1
      split_ifs at harc ⊢
      · exact ⟨hb, harc⟩
      · exact ⟨hb, harc⟩
  | askNbr steps v vdistance arc arcs =>
    obtain ⟨rfl, rfl⟩ := Prod.mk.inj h
    obtain ⟨hmem, hkeeps, hself⟩ := hm.setH hb.2
    refine ⟨⟨hmem, hkeeps⟩, ?_⟩
    rintro b' ⟨⟩
    exact ⟨hb.1, hself⟩
  | loadNbr steps v vdistance arc arcs =>
    apply hm.read h
    split_ifs
    · exact hb
    · exact fun a ha => hb.1 a (List.mem_cons_of_mem arc ha)
  | casNbr steps v vdistance arc arcs expected =>
    simp only [access] at h
    split at h
    · obtain ⟨rfl, rfl⟩ := Prod.mk.inj h
      have hsame := hm.of_same (fun u => exchange_h u arc.1 ⟨vdistance + (arc.2 : Dist), some v⟩) rfl
      refine ⟨hsame, ?_⟩
      rintro b' ⟨⟩
      exact ⟨hb.1, hsame.2 _ hb.2⟩
    · exact hm.read h hb
  | checkInsert steps v vdistance arc arcs =>
    apply hm.read h
    split_ifs
    · exact fun a ha => hb.1 a (List.mem_cons_of_mem arc ha)
    · exact hb
  | insert steps v vdistance arc arcs => exact hm.read h hb

omit [DecidableEq V] in
/-- Computing a priority from a heuristic that is right. -/
theorem MemoOk.use (hm : MemoOk after start work m) {v : V} (hv : (m.states v).h = work v)
    (hreach : after.getSuccs.Reaches start v) :
    MemoOk after start work (m.use v) ∧ Keeps work m (m.use v) := by
  refine ⟨⟨hm.settled, ?_⟩, fun _ h => h⟩
  intro u hu
  rcases List.mem_cons.mp hu with rfl | hu
  · exact ⟨hv, hreach⟩
  · exact hm.uses u hu

/-- **One step of `do_work`.** -/
theorem doWork_ok {eps : ℚ} {x : Bool} {b : Frame V} {balance balance' : ℤ}
    {frontier frontier' : ValidHeap Dist V} {next : Frame V ⊕ Bool}
    (hm : MemoOk after start work m) (hb : FrameOk after start work m b)
    (hf : ∀ e ∈ frontier.entries, after.getSuccs.Reaches start e.value)
    (h : doWork after eps goal pollCutoff x m balance frontier b =
      (m', balance', frontier', next)) :
    (MemoOk after start work m' ∧ Keeps work m m') ∧
      (∀ e ∈ frontier'.entries, after.getSuccs.Reaches start e.value) ∧
      ∀ b', next = .inl b' → FrameOk after start work m' b' := by
  by_cases hloop : ∃ steps, b = .loop steps
  · obtain ⟨steps, rfl⟩ := hloop
    simp only [doWork] at h
    split at h
    · split at h
      · rename_i v frontier₁ hpop
        simp only [Prod.mk.injEq] at h
        obtain ⟨rfl, -, rfl, rfl⟩ := h
        obtain ⟨p, hentries, -⟩ := ValidHeap.entries_deleteMin hpop
        refine ⟨hm.refl, fun e he => hf e ?_, ?_⟩
        · rw [hentries]
          exact Multiset.mem_cons_of_mem he
        · rintro b' ⟨⟩
          exact hf ⟨p, v⟩ (hentries ▸ Multiset.mem_cons_self _ _)
      · simp only [Prod.mk.injEq] at h
        obtain ⟨rfl, -, rfl, rfl⟩ := h
        exact ⟨hm.refl, hf, fun b' hb' => by cases hb'⟩
    · simp only [Prod.mk.injEq] at h
      obtain ⟨rfl, -, rfl, rfl⟩ := h
      exact ⟨hm.refl, hf, fun b' hb' => by cases hb'⟩
  by_cases hinsert : ∃ steps v vdistance arc arcs, b = .insert steps v vdistance arc arcs
  · obtain ⟨steps, v, vdistance, arc, arcs, rfl⟩ := hinsert
    simp only [doWork, Prod.mk.injEq] at h
    obtain ⟨rfl, -, rfl, rfl⟩ := h
    have harc := hb.1 arc List.mem_cons_self
    refine ⟨hm.use hb.2 harc, ?_, ?_⟩
    · intro e he
      rw [ValidHeap.entries_insert] at he
      rcases Multiset.mem_cons.mp he with rfl | he
      · exact harc
      · exact hf e he
    · rintro b' ⟨⟩
      exact fun a ha => hb.1 a (List.mem_cons_of_mem arc ha)
  -- all other frames are accesses
  have haccess : doWork after eps goal pollCutoff x m balance frontier b =
      ((access after goal x m b).1, balance, frontier,
        (access after goal x m b).2.elim (.inr true) .inl) := by
    cases b with
    | loop steps => exact absurd ⟨steps, rfl⟩ hloop
    | insert steps v vdistance arc arcs => exact absurd ⟨steps, v, vdistance, arc, arcs, rfl⟩ hinsert
    | _ => rfl
  rw [haccess] at h
  simp only [Prod.mk.injEq] at h
  obtain ⟨rfl, -, rfl, rfl⟩ := h
  obtain ⟨hmem, hframe⟩ := access_ok hm hb (Prod.mk.eta (p := access after goal x m b)).symm
  refine ⟨hmem, hf, fun b' hb' => hframe b' ?_⟩
  cases hnext : (access after goal x m b).2 with
  | none =>
    rw [hnext] at hb'
    cases hb'
  | some b'' =>
    rw [hnext] at hb'
    cases hb'
    rfl

end Invariant

/-! ## Runs -/

section Runs

variable {before after : Environment V} {start goal : V} {work : V → ℤ}

/-- `GetState` leaves `h` as the search works with it. -/
theorem Settled.getState {states : V → PwsaState V} (h : Settled after work states) (v : V) :
    Settled after work (getState after v states) ∧ (getState after v states v).h = work v := by
  have hv := h v
  unfold pwsaPlanner.getState
  split_ifs at hv ⊢ with hask
  · have hself : (Function.update states v
        { states v with h := after.getGoalHeuristic v } v).h = work v := by
      rw [Function.update_self]
      exact hv.symm
    refine ⟨fun u => ?_, hself⟩
    by_cases huv : u = v
    · subst huv
      rw [hself]
      split_ifs
      · exact hv
      · rfl
    · rw [Function.update_of_ne huv]
      exact h u
  · exact ⟨h, hv⟩

theorem getState_h (env : Environment V) (id v : V) (states : V → PwsaState V) :
    (getState env id states v).h =
      if v = id ∧ (states id).h = -1 then env.getGoalHeuristic id else (states v).h := by
  unfold pwsaPlanner.getState
  by_cases hask : (states id).h = -1
  · by_cases hv : v = id
    · subst hv
      simp [hask]
    · simp [hask, hv]
  · simp [hask]

/-- What the two calls of `GetState` in `initializeSearch` leave. -/
theorem initializeSearch_h (before : Environment V) (start goal v : V) :
    (initializeSearch before start goal v).h =
      if v = start ∨ v = goal then before.getGoalHeuristic v else -1 := by
  simp only [initializeSearch, getState_h, PwsaState.new, and_true]
  grind

theorem settled_initializeSearch (before after : Environment V) (start goal : V) :
    Settled after (firstAsked before after start goal) (initializeSearch before start goal) := by
  intro v
  rw [initializeSearch_h, firstAsked]
  by_cases hv : v = start ∨ v = goal
  · rw [if_pos hv]
    by_cases hask : before.getGoalHeuristic v = -1
    · rw [if_pos hask, if_neg fun h => h.2 hask]
    · rw [if_neg hask, if_pos ⟨hv, hask⟩]
  · rw [if_neg hv, if_pos rfl, if_neg fun h => hv h.1]

variable [DecidableEq W] [Fintype W] {leader : W} {block : ℕ → KV Dist V} {eps : ℚ}

omit [DecidableEq W] [Fintype W] in
theorem bodyInvariant (block : ℕ → KV Dist V) (after : Environment V) (eps : ℚ) (start goal : V)
    (work : V → ℤ) :
    BodyInvariant (client (W := W) block after eps goal) ValidHeap.entries (MemoOk after start work)
      (FrameOk after start work) fun e => after.getSuccs.Reaches start e.value where
  enter _ _ := trivial
  body _ x m l f b m' l' f' r hm hb hf hbody := by
    obtain ⟨⟨hmem, hkeeps⟩, hentry, hframe⟩ := doWork_ok hm hb hf (Option.some.inj hbody)
    exact ⟨hmem, hentry, hframe, fun b' hb' => hkeeps.frameOk hb'⟩

/-- **In every run every priority is computed from the heuristic that was asked for first**, for a
state the start reaches. -/
theorem reachable_uses
    {c : Config W (ValidHeap Dist V) (Shared V) ℤ (Frame V)}
    (hc : (search leader block before after eps start goal).Reachable c) :
    ∀ u ∈ c.shared.uses, u.2 = firstAsked before after start goal u.1 ∧
      after.getSuccs.Reaches start u.1 := by
  obtain ⟨hsettled, hstart⟩ := (settled_initializeSearch before after start goal).getState start
  have hinit : MemoOk after start (firstAsked before after start goal)
      (initF block after eps start (initializeSearch before start goal)).1 := by
    have hm : MemoOk after start (firstAsked before after start goal)
        ⟨pwsaPlanner.getState after start (initializeSearch before start goal), []⟩ :=
      ⟨hsettled, fun u hu => absurd hu List.not_mem_nil⟩
    have hsame := hm.of_same (fun v => exchange_h v start ⟨0, some start⟩) rfl
    exact (hsame.1.use (hsame.2 start hstart) (WGraph.Reaches.refl start)).1
  have hinput : ∀ e ∈ (initF block after eps start (initializeSearch before start goal)).2.entries,
      after.getSuccs.Reaches start e.value := by
    intro e he
    simp only [initF, ValidHeap.entries_insert, ValidHeap.entries_new] at he
    obtain rfl := Multiset.mem_singleton.mp he
    exact WGraph.Reaches.refl start
  exact ((bodyInvariant block after eps start goal _).reachable (heapClient_lawful _ _ _ _) hinit
    hinput hc).memory.uses

end Runs

end PwsaStar.Sbpl.pwsaPlanner
