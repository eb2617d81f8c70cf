/-
# PwsaStar.ParallelWhile.Basic — the worker loop of `parallel_while_pwsa`, one atomic access a step.

`parallel_while_pwsa(input, size_input, fork_input, body)` runs the same loop on every worker.  A
worker owns a local frontier; the workers share a request word, an answer word and a mailbox each,
and the flag `is_done`.  A `Config` is the memory of the whole machine together with the program
counter of every worker, and `next` executes one load, store, compare-exchange, swap or call of one
worker.  The asserts are compiled out.

`size_input`, `fork_input` and `body` are parameters, collected in `Client`.  The body is itself
executed in steps, so that the searches can interleave inside it; a choice resolves what a step of it
leaves open (a spurious failure of `compare_exchange_weak`).
-/
import PwsaStar.Lib.Handshake

namespace PwsaStar.ParallelWhile

open PwsaStar.Lib PwsaStar.Lib.Handshake

/-! ## Clients -/

/-- `SIZE_EMPTY`, `SIZE_KEEP` and `SIZE_SPLIT`. -/
inductive SizeType where
  | empty
  | keep
  | split
  deriving DecidableEq

/-- What `parallel_while_pwsa` is called with.  `F` is `Input`, `S` the memory the body shares, `L`
the per-worker memory of the three callbacks, `B` where a worker stands inside the body and `X` the
choices a step of the body leaves open. -/
structure Client (W F S L B X : Type*) where
  /-- `Input()`. -/
  fresh : F
  sizeInput : L → F → SizeType × L
  /-- `none` where the call is undefined. -/
  forkInput : L → F → F → Option (L × F × F)
  enter : B
  /-- One step of the body: it goes on inside, or returns whether the search is over. -/
  body : W → X → S → L → F → B → Option (S × L × F × (B ⊕ Bool))

/-! ## Configurations -/

/-- Where a worker stands.  Each constructor is the access it makes next. -/
inductive Pc (W B : Type*) where
  /-- `if (my_id == leader_id) my_frontier.swap(input)` -/
  | start
  /-- `while (!is_done.load())` -/
  | loopTest
  /-- `int sz = size_input(my_frontier)` -/
  | callSize
  /-- `r = requests[my_id].load()` of the blocking loop -/
  | blockLoad
  /-- `requests[my_id].compare_exchange_strong(r, REQUEST_BLOCKED)` -/
  | blockCas
  /-- `requests[my_id].store(REQUEST_BLOCKED)` over the request of `other` -/
  | blockStore (other : W)
  /-- `answers[other].store(ANSWER_REJECTED)` after blocking -/
  | blockReject (other : W)
  /-- `while (!is_done.load())` of the acquiring loop -/
  | acquireTest
  /-- `answers[my_id].store(ANSWER_WAITING)` -/
  | resetAnswer
  /-- `other = sched->random_other()` -/
  | pickVictim
  /-- `requests[other].load() != REQUEST_WAITING` -/
  | loadVictim (other : W)
  /-- `requests[other].compare_exchange_strong(expected, my_id)` -/
  | postRequest (other : W)
  /-- `while (answers[my_id].load() == ANSWER_WAITING)` -/
  | spinLoad (other : W)
  /-- `if (is_done.load()) return` -/
  | spinDone (other : W)
  /-- `if (answers[my_id].load() == ANSWER_TRANSFERRED) break` -/
  | recheck
  /-- `frontiers[my_id].swap(my_frontier)` -/
  | swapMailbox
  /-- `sz = size_input(my_frontier)` after the swap -/
  | callSizeAgain
  /-- `r = requests[my_id].load()` before working -/
  | respondLoad (sz : SizeType)
  /-- `requests[my_id].store(REQUEST_WAITING)` over `REQUEST_BLOCKED` -/
  | unblock
  /-- inside `fork_input(my_frontier, frontiers[other])` -/
  | fork (other : W)
  /-- `answers[other].store(ANSWER_TRANSFERRED)` -/
  | transfer (other : W)
  /-- `answers[other].store(ANSWER_REJECTED)` before working -/
  | reject (other : W)
  /-- `requests[my_id].store(REQUEST_WAITING)` over an answered request -/
  | reopen
  /-- inside `body(my_frontier)` -/
  | work (b : B)
  /-- `is_done.store(true)` -/
  | setDone
  | returned
  deriving DecidableEq

/-- The memory of the machine.  `posted` and `answered` count, for every worker, the requests it has
posted and the answers written for it; the program does not read them. -/
structure Config (W F S L B : Type*) where
  input : F
  frontiers : W → F
  requests : W → Request W
  answers : W → Answer
  isDone : Bool
  myFrontier : W → F
  loc : W → L
  shared : S
  pc : W → Pc W B
  posted : W → ℕ
  answered : W → ℕ

/-- What the scheduler decides: let the worker take its only step, let `random_other` return `k`, or
resolve a step of the body. -/
inductive Act (W X : Type*) where
  | step
  | pick (k : W)
  | choose (x : X)
  deriving DecidableEq

variable {W F S L B X : Type*} [DecidableEq W]

namespace Config

/-- Worker `w` goes on at `p`. -/
def goto (c : Config W F S L B) (w : W) (p : Pc W B) : Config W F S L B :=
  { c with pc := Function.update c.pc w p }

/-- `requests[k].store(r)` -/
def storeRequest (c : Config W F S L B) (k : W) (r : Request W) : Config W F S L B :=
  { c with requests := Function.update c.requests k r }

/-- `answers[other].store(a)` by the worker that was asked. -/
def storeAnswer (c : Config W F S L B) (other : W) (a : Answer) : Config W F S L B :=
  { c with
    answers := Function.update c.answers other a
    answered := Function.update c.answered other (c.answered other + 1) }

/-- The frontier and the private memory of `w`, after a call. -/
def setMine (c : Config W F S L B) (w : W) (l : L) (f : F) : Config W F S L B :=
  { c with loc := Function.update c.loc w l, myFrontier := Function.update c.myFrontier w f }

end Config

/-! ## The loop -/

/-- The step of worker `w` where the program leaves no choice. -/
def advance (K : Client W F S L B X) (leader w : W) (c : Config W F S L B) :
    Option (Config W F S L B) :=
  match c.pc w with
  | .start =>
    if w = leader then
      some ({ c with
        input := c.myFrontier w
        myFrontier := Function.update c.myFrontier w c.input }.goto w .loopTest)
    else some (c.goto w .loopTest)
  | .loopTest => some (c.goto w (if c.isDone then .returned else .callSize))
  | .callSize =>
    let (sz, l) := K.sizeInput (c.loc w) (c.myFrontier w)
    some ((c.setMine w l (c.myFrontier w)).goto w (if sz = .empty then .blockLoad else .respondLoad sz))
  | .blockLoad =>
    match c.requests w with
    | .blocked => some (c.goto w .acquireTest)
    | .waiting => some (c.goto w .blockCas)
    | .from other => some (c.goto w (.blockStore other))
  | .blockCas =>
    if c.requests w = .waiting then some ((c.storeRequest w .blocked).goto w .acquireTest)
    else some (c.goto w .blockLoad)
  | .blockStore other => some ((c.storeRequest w .blocked).goto w (.blockReject other))
  | .blockReject other => some ((c.storeAnswer other .rejected).goto w .acquireTest)
  | .acquireTest => some (c.goto w (if c.isDone then .swapMailbox else .resetAnswer))
  | .resetAnswer =>
    some ({ c with answers := Function.update c.answers w .waiting }.goto w .pickVictim)
  | .loadVictim other =>
    some (c.goto w (if c.requests other = .waiting then .postRequest other else .acquireTest))
  | .postRequest other =>
    if c.requests other = .waiting then
      some ({ c.storeRequest other (.from w) with
        posted := Function.update c.posted w (c.posted w + 1) }.goto w (.spinLoad other))
    else some (c.goto w .acquireTest)
  | .spinLoad other =>
    some (c.goto w (if c.answers w = .waiting then .spinDone other else .recheck))
  | .spinDone other => some (c.goto w (if c.isDone then .returned else .spinLoad other))
  | .recheck => some (c.goto w (if c.answers w = .transferred then .swapMailbox else .acquireTest))
  | .swapMailbox =>
    some ({ c with
      frontiers := Function.update c.frontiers w (c.myFrontier w)
      myFrontier := Function.update c.myFrontier w (c.frontiers w) }.goto w .callSizeAgain)
  | .callSizeAgain =>
    let (sz, l) := K.sizeInput (c.loc w) (c.myFrontier w)
    some ((c.setMine w l (c.myFrontier w)).goto w (.respondLoad sz))
  | .respondLoad sz =>
    match c.requests w with
    | .blocked => some (c.goto w .unblock)
    | .waiting => some (c.goto w (.work K.enter))
    | .from other => some (c.goto w (if sz = .split then .fork other else .reject other))
  | .unblock => some ((c.storeRequest w .waiting).goto w (.work K.enter))
  | .fork other =>
    (K.forkInput (c.loc w) (c.myFrontier w) (c.frontiers other)).map fun (l, src, dst) =>
      { c.setMine w l src with frontiers := Function.update c.frontiers other dst }.goto w
        (.transfer other)
  | .transfer other => some ((c.storeAnswer other .transferred).goto w .reopen)
  | .reject other => some ((c.storeAnswer other .rejected).goto w .reopen)
  | .reopen => some ((c.storeRequest w .waiting).goto w (.work K.enter))
  | .setDone => some ({ c with isDone := true }.goto w .returned)
  | .pickVictim | .work _ | .returned => none

/-- Where a worker goes when a step of its body has ended in `r`. -/
def afterBody : B ⊕ Bool → Pc W B
  | .inl b => .work b
  | .inr true => .setDone
  | .inr false => .loopTest

/-- One step of worker `w`; `none` if the action is not enabled or the call is undefined. -/
def next (K : Client W F S L B X) (leader : W) :
    W × Act W X → Config W F S L B → Option (Config W F S L B)
  | (w, .step), c => advance K leader w c
  | (w, .pick other), c =>
    match c.pc w with
    | .pickVictim => if other = w then none else some (c.goto w (.loadVictim other))
    | _ => none
  | (w, .choose x), c =>
    match c.pc w with
    | .work b =>
      (K.body w x c.shared (c.loc w) (c.myFrontier w) b).map fun (s, l, f, r) =>
        { c.setMine w l f with shared := s }.goto w (afterBody r)
    | _ => none

/-- The machine as it starts: only the word of the leader is open.  The answer words are not
initialised. -/
def start (K : Client W F S L B X) (leader : W) (input : F) (loc : L) (shared : S)
    (answers : W → Answer) : Config W F S L B where
  input := input
  frontiers _ := K.fresh
  requests w := if w = leader then .waiting else .blocked
  answers := answers
  isDone := false
  myFrontier _ := K.fresh
  loc _ := loc
  shared := shared
  pc _ := .start
  posted _ := 0
  answered _ := 0

/-- All interleavings of `parallel_while_pwsa`. -/
def system (K : Client W F S L B X) (leader : W) (input : F) (loc : L) (shared : S) :
    System (Config W F S L B) where
  init c := ∃ answers, c = start K leader input loc shared answers
  step c c' := ∃ a, next K leader a c = some c'

end PwsaStar.ParallelWhile
