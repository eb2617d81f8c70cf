/-
# PwsaStar.Baseline.Basic — `astar_thread` and `solveMaze` of `old_pase_main` and `old_pastar_main`.

The two programs differ in how they take a state from the queue, in the test for the end of the search
and in the flag `closed`.  What they share is stated once: the queue, and the part of the loop that
expands a state.

`being_expanded` is read with the mutex held and cleared without it, so every access to it is a step of
its own.  The `multimap` is touched with the mutex held only; an iterator other than `m.end()` stands
for the one entry of its state.  Arithmetic is exact.
-/
import PwsaStar.Baseline.Wake

namespace PwsaStar.Baseline

open PwsaStar.Lib

/-! ## The grid and the queue -/

/-- `(x, y)` -/
abbrev Cell := ℤ × ℤ

/-- `INFINITE` -/
def infinite : ℤ := 1000000000

/-- `dx[i]`, `dy[i]` and `dcost[i]` -/
def directions : List (ℤ × ℤ × ℤ) :=
  [(1, 1, 14142), (1, -1, 14142), (-1, 1, 14142), (-1, -1, 14142),
    (1, 0, 10000), (0, 1, 10000), (-1, 0, 10000), (0, -1, 10000)]

/-- What the programs read from the command line and the map. -/
structure Maze where
  sizeX : ℤ
  sizeY : ℤ
  obs : Cell → Bool
  start : Cell
  goal : Cell
  /-- `int f = s->g + wA_eps*goalH(s)`, of the `g` and the state -/
  fval : ℤ → Cell → ℤ
  /-- whether a difference of two `g` is greater than `pA_eps*p2pH` of the two states -/
  exceeds : ℤ → Cell → Cell → Bool

/-- The fields of all `state`s and the global variables.  `closed` and `errorDuringRun` are those of
`old_pase_main`, `beingExpandedFval` is that of `old_pastar_main`. -/
structure Memory where
  g : Cell → ℤ
  closed : Cell → Bool
  queue : List (ℤ × Cell)
  beingExpanded : ℕ → Option Cell
  beingExpandedFval : ℕ → ℤ
  numDiscovered : ℕ
  numExpands : ℕ
  errorDuringRun : Bool

/-- `m.erase(s->iter); s->iter = m.end()` -/
def Memory.erase (m : Memory) (s : Cell) : Memory :=
  { m with queue := m.queue.filter (·.2 ≠ s) }

/-- `myQueue::insert`.  The new entry stands behind those with the same key. -/
def Memory.insert (Z : Maze) (m : Memory) (s : Cell) : Memory :=
  let f := Z.fval (m.g s) s
  let queue := (m.erase s).queue
  { m with queue := queue.takeWhile (·.1 ≤ f) ++ (f, s) :: queue.dropWhile (·.1 ≤ f) }

/-- The memory when `solveMaze` comes to its first `pthread_mutex_lock`. -/
def Memory.start (Z : Maze) : Memory :=
  Memory.insert Z
    { g := Function.update (fun _ => infinite) Z.start 0
      closed := fun _ => false
      queue := []
      beingExpanded := fun _ => none
      beingExpandedFval := fun _ => 0
      numDiscovered := 1
      numExpands := 0
      errorDuringRun := false } Z.start

/-! ## The loop of `astar_thread` -/

/-- The statements from `pthread_mutex_unlock(&mutex)` in front of the neighbours to the end of the
loop. -/
inductive Expand where
  | unlock (s : Cell)
  /-- the test of neighbour `i` -/
  | neighbor (s : Cell) (i : ℕ)
  | lockNeighbor (s t : Cell) (cost : ℤ) (i : ℕ)
  /-- the critical section -/
  | relax (s t : Cell) (cost : ℤ) (i : ℕ)
  | unlockNeighbor (s : Cell) (i : ℕ)
  /-- `being_expanded[thread_id] = NULL` -/
  | clear
  | relock
  | loop
  deriving DecidableEq

/-- The statements of the loop; `C` are those with which a program chooses a state and tests for the
end of the search. -/
inductive Frame (C : Type) where
  | choose (e : C)
  | expand (e : Expand)
  deriving DecidableEq

/-- The critical section of a neighbour.  `mayImprove` is what the program asks of `t` apart from the
comparison. -/
def relax (Z : Maze) (mayImprove : Bool) (m : Memory) (s t : Cell) (cost : ℤ) : Memory :=
  let m := if m.g t = infinite then { m with numDiscovered := m.numDiscovered + 1 } else m
  if mayImprove && m.g t > m.g s + cost then
    Memory.insert Z { m with g := Function.update m.g t (m.g s + cost) } t
  else m

/-- The end of the loop in both programs. -/
def expandMove {C : Type} (Z : Maze) (mayImprove : Memory → Cell → Bool) (threadId : ℕ) (m : Memory) :
    Expand → Move Memory (Frame C)
  | .unlock s => .unlock m (.expand (.neighbor s 0))
  | .neighbor s i =>
    match directions[i]? with
    | some (dx, dy, dcost) =>
      let t : Cell := (s.1 + dx, s.2 + dy)
      if t.1 < 0 ∨ t.1 = Z.sizeX ∨ t.2 < 0 ∨ t.2 = Z.sizeY ∨ Z.obs t then
        .go m (.expand (.neighbor s (i + 1)))
      else .go m (.expand (.lockNeighbor s t dcost i))
    | none => .go m (.expand .clear)
  | .lockNeighbor s t dcost i => .lock (.expand (.relax s t dcost i))
  | .relax s t dcost i =>
    .go (relax Z (mayImprove m t) m s t dcost) (.expand (.unlockNeighbor s i))
  | .unlockNeighbor s i => .unlock m (.expand (.neighbor s (i + 1)))
  | .clear =>
    .go { m with beingExpanded := Function.update m.beingExpanded threadId none } (.expand .relock)
  | .relock => .lock (.expand .loop)
  | .loop => .again m

/-! ## `old_pase_main` -/

/-- The first statements of the loop of `old_pase_main`. -/
inductive PaseChoose where
  /-- `while(!search_done)` in `remove` -/
  | test
  /-- `local_being_expanded[i] = being_expanded[i]` for the next `i` -/
  | copy (copied : List (Option Cell))
  /-- the test of entry `j` of the queue against the `i`-th state being expanded -/
  | candidate (copied : List (Option Cell)) (j i : ℕ)
  | unlock
  | lock
  /-- behind `q.remove()` -/
  | claim (s : Cell)
  deriving DecidableEq

/-- The loop over the states ahead of `s` in the queue. -/
def aheadOk (Z : Maze) (m : Memory) (s : Cell) (ahead : List (ℤ × Cell)) : Bool :=
  ahead.all fun e => !Z.exceeds (m.g s - m.g e.2) s e.2

def paseChoose (numThreads : ℕ) (Z : Maze) (threadId : ℕ) (searchDone : Bool) (m : Memory) :
    PaseChoose → Move Memory (Frame PaseChoose)
  | .test => if searchDone then .leave m false else .go m (.choose (.copy []))
  | .copy copied =>
    if copied.length < numThreads then
      .go m (.choose (.copy (copied ++ [m.beingExpanded copied.length])))
    else .go m (.choose (.candidate copied 0 0))
  | .candidate copied j i =>
    match m.queue[j]? with
    | none => .go m (.choose .unlock)
    | some (_, s) =>
      match copied[i]? with
      | some other =>
        -- when a state is done being expanded the scan starts over
        if other ≠ m.beingExpanded i then .go m (.choose .unlock)
        else if other.any fun u => Z.exceeds (m.g s - m.g u) s u then
          .go m (.choose (.candidate copied (j + 1) 0))
        else .go m (.choose (.candidate copied j (i + 1)))
      | none =>
        if aheadOk Z m s (m.queue.take j) then .go (m.erase s) (.choose (.claim s))
        else .go m (.choose (.candidate copied (j + 1) 0))
  | .unlock => .unlock m (.choose .lock)
  | .lock => .lock (.choose .test)
  | .claim s =>
    let m := { m with
      beingExpanded := Function.update m.beingExpanded threadId (some s)
      numExpands := m.numExpands + 1
      errorDuringRun := m.errorDuringRun || m.closed s
      closed := Function.update m.closed s true }
    if s = Z.goal then .leave m true else .go m (.expand (.unlock s))

/-- The loop of `astar_thread` of `old_pase_main`. -/
def pase (numThreads : ℕ) (Z : Maze) : Body Memory (Frame PaseChoose) where
  enter := .choose .test
  move threadId searchDone m
    | .choose e => paseChoose numThreads Z threadId searchDone m e
    | .expand e => expandMove Z (fun m t => !m.closed t) threadId m e

/-! ## `old_pastar_main` -/

/-- The first statements of the loop of `old_pastar_main`. -/
inductive PastarChoose where
  /-- `while(!search_done)` in `remove` -/
  | test
  | unlock
  | lock
  /-- behind `q.remove(&min_fval)` -/
  | claim (s : Cell) (minFval : ℤ)
  /-- the loop over the states being expanded -/
  | minimum (s : Cell) (i : ℕ) (minFval : ℤ)
  deriving DecidableEq

def pastarChoose (numThreads : ℕ) (Z : Maze) (threadId : ℕ) (searchDone : Bool) (m : Memory) :
    PastarChoose → Move Memory (Frame PastarChoose)
  | .test =>
    if searchDone then .leave m false
    else
      match m.queue with
      | (f, s) :: _ => .go (m.erase s) (.choose (.claim s f))
      | [] => .go m (.choose .unlock)
  | .unlock => .unlock m (.choose .lock)
  | .lock => .lock (.choose .test)
  | .claim s minFval =>
    .go { m with
      beingExpanded := Function.update m.beingExpanded threadId (some s)
      beingExpandedFval := Function.update m.beingExpandedFval threadId minFval
      numExpands := m.numExpands + 1 } (.choose (.minimum s 0 minFval))
  | .minimum s i minFval =>
    if i < numThreads then
      let smaller := (m.beingExpanded i).isSome ∧ m.beingExpandedFval i < minFval
      .go m (.choose (.minimum s (i + 1) (if smaller then m.beingExpandedFval i else minFval)))
    else if m.g Z.goal ≤ minFval then .leave m true
    else .go m (.expand (.unlock s))

/-- The loop of `astar_thread` of `old_pastar_main`. -/
def pastar (numThreads : ℕ) (Z : Maze) : Body Memory (Frame PastarChoose) where
  enter := .choose .test
  move threadId searchDone m
    | .choose e => pastarChoose numThreads Z threadId searchDone m e
    | .expand e => expandMove Z (fun _ _ => true) threadId m e

/-! ## The discipline of the two loops -/

/-- Which statements of the expansion are executed with the mutex held. -/
def Expand.locked : Expand → Prop
  | .unlock _ | .relax .. | .unlockNeighbor .. | .loop => True
  | _ => False

def PaseChoose.locked : PaseChoose → Prop
  | .lock => False
  | _ => True

def PastarChoose.locked : PastarChoose → Prop
  | .lock => False
  | _ => True

def Frame.locked {C : Type} (chooses : C → Prop) : Frame C → Prop
  | .choose e => chooses e
  | .expand e => e.locked

/-- The number of statements up to the next lock, at most. -/
def Frame.rank {C : Type} : Frame C → ℕ
  | .expand (.neighbor _ i) => directions.length - i + 2
  | .expand .clear => 1
  | _ => 0

section Discipline

variable {C : Type} {chooses : C → Prop} {searchDone : Bool} (threadId : ℕ) (m : Memory)

theorem expandMove_allowed (Z : Maze) (mayImprove : Memory → Cell → Bool) (e : Expand) :
    (expandMove (C := C) Z mayImprove threadId m e).Allowed (Frame.locked chooses) Frame.rank
      searchDone (.expand e) := by
  cases e with
  | neighbor s i =>
    simp only [expandMove]
    cases hi : directions[i]? with
    | none => exact ⟨Iff.rfl, fun _ => by simp [Frame.rank]⟩
    | some d =>
      have hlt : i < directions.length := (List.getElem?_eq_some_iff.mp hi).1
      simp only
      split
      · refine ⟨Iff.rfl, fun _ => ?_⟩
        simp only [Frame.rank]
        omega
      · exact ⟨Iff.rfl, fun _ => by simp [Frame.rank]⟩
  | unlock | unlockNeighbor => exact ⟨trivial, id⟩
  | lockNeighbor | relock => exact ⟨id, trivial⟩
  | relax => exact .of_locked trivial trivial
  | clear => exact ⟨Iff.rfl, fun _ => Nat.zero_lt_one⟩
  | loop => exact trivial

theorem paseChoose_allowed (n : ℕ) (Z : Maze) (e : PaseChoose) :
    (paseChoose n Z threadId searchDone m e).Allowed (Frame.locked PaseChoose.locked) Frame.rank
      searchDone (.choose e) := by
  cases e with
  | test =>
    simp only [paseChoose]
    split
    · exact ⟨trivial, Or.inl ‹_›⟩
    · exact .of_locked trivial trivial
  | copy copied =>
    simp only [paseChoose]
    split <;> exact .of_locked trivial trivial
  | candidate copied j i =>
    simp only [paseChoose]
    split
    · exact .of_locked trivial trivial
    · split
      · split
        · exact .of_locked trivial trivial
        · split <;> exact .of_locked trivial trivial
      · split <;> exact .of_locked trivial trivial
  | unlock => exact ⟨trivial, id⟩
  | lock => exact ⟨id, trivial⟩
  | claim s =>
    simp only [paseChoose]
    split
    · exact ⟨trivial, Or.inr rfl⟩
    · exact .of_locked trivial trivial

theorem pastarChoose_allowed (n : ℕ) (Z : Maze) (e : PastarChoose) :
    (pastarChoose n Z threadId searchDone m e).Allowed (Frame.locked PastarChoose.locked) Frame.rank
      searchDone (.choose e) := by
  cases e with
  | test =>
    simp only [pastarChoose]
    split
    · exact ⟨trivial, Or.inl ‹_›⟩
    · split <;> exact .of_locked trivial trivial
  | minimum s i minFval =>
    simp only [pastarChoose]
    split
    · exact .of_locked trivial trivial
    · split
      · exact ⟨trivial, Or.inr rfl⟩
      · exact .of_locked trivial trivial
  | unlock => exact ⟨trivial, id⟩
  | lock => exact ⟨id, trivial⟩
  | claim => exact .of_locked trivial trivial

end Discipline

/-- **The discipline of `old_pase_main`.** -/
theorem pase_lawful (n : ℕ) (Z : Maze) :
    (pase n Z).Lawful (Frame.locked PaseChoose.locked) Frame.rank where
  enter := trivial
  move threadId searchDone m b := by
    cases b with
    | choose e => exact paseChoose_allowed threadId m n Z e
    | expand e => exact expandMove_allowed threadId m Z (fun m t => !m.closed t) e

/-- **The discipline of `old_pastar_main`.** -/
theorem pastar_lawful (n : ℕ) (Z : Maze) :
    (pastar n Z).Lawful (Frame.locked PastarChoose.locked) Frame.rank where
  enter := trivial
  move threadId searchDone m b := by
    cases b with
    | choose e => exact pastarChoose_allowed threadId m n Z e
    | expand e => exact expandMove_allowed threadId m Z (fun _ _ => true) e

end PwsaStar.Baseline
