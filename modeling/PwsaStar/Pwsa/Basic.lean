/-
# PwsaStar.Pwsa.Basic — `pwsa_pc`, `pwsa_pcT` and `pwsa` of `pwsa.hpp`.

The three searches share their set-up, `size`, `fork` and most of `do_work`.  `do_work` is cut into
one `Frame` per access to the shared memory: the pop that starts an iteration is local, every
`load` and `compare_exchange` is a frame of its own.  `access` executes a frame on the shared memory
and says what is inserted into the frontier; `doWork` adds the frontier, which is a heap.

* `pwsa_pc` relaxes an arc by loading the label of the head and, while the new label is lower, trying
  to exchange it;
* `pwsa_pcT` does the same and leaves the program when the label of the expanded vertex is negative;
* `pwsa` loads the label of the head twice and exchanges it without comparing it with the new one.

Arithmetic is exact, `⊤` is `numeric_limits::max()`.
-/
import PwsaStar.ParallelWhile.Sharing
import PwsaStar.Lib.PredForest

namespace PwsaStar.Pwsa

open PwsaStar.Lib PwsaStar.Heap PwsaStar.ParallelWhile

/-! ## The shared memory -/

/-- `struct vertpack`; `pred` is `none` for -1. -/
structure Vertpack (V : Type*) where
  distance : Dist
  pred : Option V
  deriving DecidableEq

/-- `pwsa_state` for all vertices and the pebbles.  `expansions` logs which worker has called
`for_each_neighbor_of` on which vertex; the program does not read it. -/
structure Shared (W V : Type*) where
  isExpanded : V → Bool
  gpred : V → Vertpack V
  h : V → ℤ
  pebbles : Option (V → Option W)
  expansions : List (W × V)

/-- `g(v)` and `predecessor(v)` of the result. -/
def Shared.g {W V : Type*} (m : Shared W V) (v : V) : Dist := (m.gpred v).distance

def Shared.pred {W V : Type*} (m : Shared W V) (v : V) : Option V := (m.gpred v).pred

/-- Which of the three searches. -/
inductive Variant where
  | pwsa_pc
  | pwsa_pcT
  | pwsa
  deriving DecidableEq

/-- The arguments of a search. -/
structure Problem (V : Type*) where
  graph : WGraph V
  heuristic : V → ℤ
  source : V
  destination : V
  splitCutoff : ℤ
  pollCutoff : ℤ
  pebble : Bool

/-- Where a worker stands inside `do_work`.  `steps` is `steps_this_round`. -/
inductive Frame (V : Type*) where
  /-- the loop test, and `v = frontier.delete_min()` -/
  | loop (steps : ℤ)
  /-- `orig = states[v].is_expanded.load()` -/
  | loadExpanded (steps : ℤ) (v : V)
  /-- `states[v].is_expanded.compare_exchange_strong(orig, true)` -/
  | casExpanded (steps : ℤ) (v : V)
  /-- `vdistance = states[v].gpred.load().distance` -/
  | loadG (steps : ℤ) (v : V)
  /-- the (first) `states[nbr].gpred.load()` for the first of the remaining arcs -/
  | relax (steps : ℤ) (v : V) (vdistance : Dist) (arcs : List (V × ℤ))
  /-- the second load of `pwsa` -/
  | reload (steps : ℤ) (v : V) (vdistance : Dist) (arc : V × ℤ) (arcs : List (V × ℤ))
  /-- `states[nbr].gpred.compare_exchange_weak(expected, mine)` -/
  | casG (steps : ℤ) (v : V) (vdistance : Dist) (arc : V × ℤ) (arcs : List (V × ℤ))
      (expected : Vertpack V)
  /-- `if (!states[nbr].is_expanded.load()) frontier.insert(…)` -/
  | checkInsert (steps : ℤ) (v : V) (vdistance : Dist) (arc : V × ℤ) (arcs : List (V × ℤ))
  deriving DecidableEq

variable {W V : Type*} [DecidableEq V]

/-- `my_heur`: the heuristic, memoized in `h`. -/
def myHeur (heuristic : V → ℤ) (m : Shared W V) (v : V) : ℤ × Shared W V :=
  if m.h v = -1 then (heuristic v, { m with h := Function.update m.h v (heuristic v) })
  else (m.h v, m)

/-- `is_expanded` of `v` is set, and its pebble when there are pebbles. -/
def Shared.mark (m : Shared W V) (w : W) (v : V) : Shared W V :=
  { m with
    isExpanded := Function.update m.isExpanded v true
    pebbles := m.pebbles.map fun pebbles => Function.update pebbles v (some w) }

/-- `gpred` of `u` is exchanged. -/
def Shared.exchange (m : Shared W V) (u : V) (mine : Vertpack V) : Shared W V :=
  { m with gpred := Function.update m.gpred u mine }

/-- What a frame does besides changing the memory: go on, go on after an insertion, or return that
the destination is found. -/
inductive Effect (V : Type*) where
  | goto (b : Frame V)
  | insert (priority : Dist) (v : V) (b : Frame V)
  | found

/-- One access of worker `w` to the shared memory.  `x = false` makes `compare_exchange_weak` fail
spuriously.  `none` when the program is left (or at the loop test, which is no access). -/
def access (variant : Variant) (P : Problem V) (w : W) (x : Bool) (m : Shared W V) :
    Frame V → Option (Shared W V × Effect V)
  | .loop _ => none
  | .loadExpanded steps v =>
    some (m, .goto (if m.isExpanded v then .loop steps else .casExpanded steps v))
  | .casExpanded steps v =>
    if m.isExpanded v then some (m, .goto (.loop steps))
    else if v = P.destination then some (m.mark w v, .found)
    else some (m.mark w v, .goto (.loadG steps v))
  | .loadG steps v =>
    if variant = .pwsa_pcT ∧ m.g v < 0 then none
    else some ({ m with expansions := (w, v) :: m.expansions },
      .goto (.relax steps v (m.g v) (P.graph.nbrs v)))
  | .relax steps _ _ [] => some (m, .goto (.loop steps))
  | .relax steps v vdistance (arc :: arcs) =>
    if variant = .pwsa then some (m, .goto (.reload steps v vdistance arc arcs))
    else if vdistance + (arc.2 : Dist) < m.g arc.1 then
      some (m, .goto (.casG steps v vdistance arc arcs (m.gpred arc.1)))
    else some (m, .goto (.relax steps v vdistance arcs))
  | .reload steps v vdistance arc arcs =>
    some (m, .goto (.casG steps v vdistance arc arcs (m.gpred arc.1)))
  | .casG steps v vdistance arc arcs expected =>
    if x ∧ m.gpred arc.1 = expected then
      some (m.exchange arc.1 ⟨vdistance + (arc.2 : Dist), some v⟩,
        .goto (.checkInsert steps v vdistance arc arcs))
    -- `pwsa` gives the arc up, the other two try again
    else if variant = .pwsa then some (m, .goto (.relax steps v vdistance arcs))
    else some (m, .goto (.relax steps v vdistance (arc :: arcs)))
  | .checkInsert steps v vdistance arc arcs =>
    if m.isExpanded arc.1 then some (m, .goto (.relax steps v vdistance arcs))
    else
      let (heur, m') := myHeur P.heuristic m arc.1
      some (m', .insert (vdistance + (arc.2 : Dist) + (heur : Dist)) arc.1
        (.relax steps v vdistance arcs))

/-- A frontier. -/
abbrev Frontier (V : Type*) := ValidHeap Dist V

/-- What a step of `do_work` leaves behind after an access. -/
def Effect.outcome (m : Shared W V) (balance : ℤ) (frontier : Frontier V) :
    Effect V → Shared W V × ℤ × Frontier V × (Frame V ⊕ Bool)
  | .goto b => (m, balance, frontier, .inl b)
  | .insert p v b => (m, balance, frontier.insert p v, .inl b)
  | .found => (m, balance, frontier, .inr true)

/-- One step of `do_work`.  `balance` is `steps_since_load_balancing.mine()`. -/
def doWork (variant : Variant) (P : Problem V) (w : W) (x : Bool) (m : Shared W V) (balance : ℤ)
    (frontier : Frontier V) :
    Frame V → Option (Shared W V × ℤ × Frontier V × (Frame V ⊕ Bool))
  | .loop steps =>
    if steps < P.pollCutoff then
      match frontier.deleteMin with
      | some (v, frontier') => some (m, balance, frontier', .inl (.loadExpanded (steps + 1) v))
      | none => some (m, balance + steps, frontier, .inr false)
    else some (m, balance + steps, frontier, .inr false)
  | b =>
    (access variant P w x m b).map fun r => r.2.outcome r.1 balance frontier

/-! ## The searches -/

/-- `states` and `pebbles` before the initial insertion. -/
def Shared.new (P : Problem V) : Shared W V where
  isExpanded _ := false
  gpred := Function.update (fun _ => ⟨⊤, none⟩) P.source ⟨0, some P.source⟩
  h _ := -1
  pebbles := if P.pebble then some fun _ => none else none
  expansions := []

/-- The initial frontier `initF` and the memory after it is made. -/
def initF (block : ℕ → KV Dist V) (P : Problem V) : Shared W V × Frontier V :=
  let (heur, m) := myHeur P.heuristic (Shared.new P) P.source
  (m, (ValidHeap.new block).insert (heur : Dist) P.source)

/-- What the searches pass to `parallel_while_pwsa`. -/
def client (variant : Variant) (block : ℕ → KV Dist V) (P : Problem V) :
    Client W (Frontier V) (Shared W V) ℤ (Frame V) Bool :=
  heapClient block P.splitCutoff (.loop 0) (doWork variant P)

theorem client_lawful (variant : Variant) (block : ℕ → KV Dist V) (P : Problem V) :
    (client (W := W) variant block P).Lawful ValidHeap.entries := heapClient_lawful ..

/-- A configuration of a search. -/
abbrev SearchConfig (W V : Type*) := Config W (Frontier V) (Shared W V) ℤ (Frame V)

/-- All runs of a search. -/
def search [DecidableEq W] (variant : Variant) (block : ℕ → KV Dist V) (P : Problem V) (leader : W) :
    System (SearchConfig W V) :=
  system (client variant block P) leader (initF (W := W) block P).2 0 (initF block P).1

/-- `pwsa_pc` -/
def pwsaPc [DecidableEq W] (block : ℕ → KV Dist V) (P : Problem V) (leader : W) :
    System (SearchConfig W V) := search .pwsa_pc block P leader

/-- `pwsa_pcT` -/
def pwsaPcT [DecidableEq W] (block : ℕ → KV Dist V) (P : Problem V) (leader : W) :
    System (SearchConfig W V) := search .pwsa_pcT block P leader

/-- `pwsa` -/
def pwsa [DecidableEq W] (block : ℕ → KV Dist V) (P : Problem V) (leader : W) :
    System (SearchConfig W V) := search .pwsa block P leader

/-! ## Corridors

The searches on the smallest graphs, for concrete runs. -/

/-- The search from the first to the last cell of a corridor, with the zero heuristic. -/
def corridorProblem (n : ℕ) : Problem (Fin (n + 1)) where
  graph := WGraph.corridor (n + 1) 10000
  heuristic _ := 0
  source := 0
  destination := Fin.last n
  splitCutoff := 1
  pollCutoff := 100
  pebble := false

def corridorBlock (n : ℕ) : ℕ → KV Dist (Fin (n + 1)) := fun _ => ⟨⊤, 0⟩

/-- `k + 1` workers start on the corridor. -/
def corridorStart (variant : Variant) (k n : ℕ) : SearchConfig (Fin (k + 1)) (Fin (n + 1)) :=
  start (client variant (corridorBlock n) (corridorProblem n)) 0
    (initF (W := Fin (k + 1)) (corridorBlock n) (corridorProblem n)).2 0
    (initF (corridorBlock n) (corridorProblem n)).1 fun _ => .waiting

/-- The only worker takes the input, makes `k` steps of `do_work` and returns. -/
def corridorSchedule (k : ℕ) : List (Fin 1 × Act (Fin 1) Bool) :=
  List.replicate 4 (0, .step) ++ List.replicate k (0, .choose true) ++ [(0, .step)]

theorem exists_corridor_run (variant : Variant) (n k : ℕ) (P : SearchConfig (Fin 1) (Fin (n + 1)) → Prop)
    [DecidablePred P] (h : (runSchedule (next (client variant (corridorBlock n) (corridorProblem n)) 0)
      (corridorSchedule k) (corridorStart variant 0 n)).any (fun c => decide (P c)) = true) :
    ∃ c, (search variant (corridorBlock n) (corridorProblem n) (0 : Fin 1)).Reachable c ∧ P c :=
  exists_reachable (search variant (corridorBlock n) (corridorProblem n) (0 : Fin 1)) _
    (fun a _ _ ha => ⟨a, ha⟩) ⟨_, rfl⟩ (corridorSchedule k) P h

/-- From a cell of four in both directions; a worker polls after each vertex. -/
def forkProblem (source : Fin 4) : Problem (Fin 4) :=
  { corridorProblem 3 with source := source, pollCutoff := 1 }

/-- Two workers, of which `false` leads. -/
def forkStart (source : Fin 4) : SearchConfig Bool (Fin 4) :=
  start (client .pwsa_pc (corridorBlock 3) (forkProblem source)) false
    (initF (W := Bool) (corridorBlock 3) (forkProblem source)).2 0
    (initF (corridorBlock 3) (forkProblem source)).1 fun _ => .waiting

/-- Worker `w` of two goes on; no exchange fails spuriously. -/
def goOn {V : Type*} (c : SearchConfig Bool V) (w : Bool) : Act Bool Bool :=
  match c.pc w with
  | .pickVictim => .pick !w
  | .work _ => .choose true
  | _ => .step

/-- The second worker asks while the leader expands the source, and gets one of its two neighbors. -/
def forkSchedule : List Bool :=
  List.replicate 4 false ++ List.replicate 9 true ++ List.replicate 18 false ++ List.replicate 8 true

theorem exists_fork_run (source : Fin 4) (ws : List Bool) (P : SearchConfig Bool (Fin 4) → Prop)
    [DecidablePred P]
    (h : (runSchedule (fun w c => next (client .pwsa_pc (corridorBlock 3) (forkProblem source)) false
      (w, goOn c w) c) (forkSchedule ++ ws) (forkStart source)).any (fun c => decide (P c)) = true) :
    ∃ c, (search .pwsa_pc (corridorBlock 3) (forkProblem source) false).Reachable c ∧ P c :=
  exists_reachable (search .pwsa_pc (corridorBlock 3) (forkProblem source) false) _
    (fun _ _ _ h => ⟨_, h⟩) ⟨_, rfl⟩ (forkSchedule ++ ws) P h

end PwsaStar.Pwsa
