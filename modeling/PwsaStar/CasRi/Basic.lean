/-
# PwsaStar.CasRi.Basic — the worker loop of `parallel_while_cas_ri`, one atomic access a step.

`parallel_while_cas_ri(input, size_input, fork_input, set_in_env, body)` hands work over as
`parallel_while_pwsa` does, and stops in another way.  Every worker has a cell of a distributed
counter, which it moves when it is handed work, hands work over, or runs dry; a leader that is out of
work adds up the cells, one after the other, and sets `is_done` when the sum is zero.

A `Config` is the memory of the machine together with the program counter of every worker; `next`
executes one load, store, compare-exchange, swap or call of one worker.  Worker ids are `Fin n`, in
the order of `for_each_worker`.  An assertion that fails is a step that does not exist.
-/
import PwsaStar.Lib.Handshake
import Mathlib.Data.Int.Notation

namespace PwsaStar.CasRi

open PwsaStar.Lib PwsaStar.Lib.Handshake

/-! ## Clients -/

/-- What `parallel_while_cas_ri` is called with.  `F` is `Input`, `S` the memory the body shares, `L`
the per-worker memory of the callbacks, `B` where a worker stands inside the body and `X` the choices
a step of the body leaves open. -/
structure Client (W F S L B X : Type*) where
  /-- `Input()` after `set_in_env`. -/
  fresh : F
  /-- 0 for no work left, more than 1 for splitting, 1 for refusing to split. -/
  size_input : L → F → ℕ × L
  /-- `none` where the call is undefined. -/
  fork_input : L → F → F → Option (L × F × F)
  enter : B
  /-- One step of the body: it goes on inside, or returns. -/
  body : W → X → S → L → F → B → Option (S × L × F × Option B)

/-! ## Configurations -/

/-- Where a worker stands.  Each constructor is the access it makes next. -/
inductive Pc (n : ℕ) (B : Type*) where
  /-- `counter++` of the leader, before it takes the input -/
  | start
  /-- `my_frontier.swap(input)` -/
  | swapInput
  /-- `if (is_done.load()) return` before local work -/
  | loopTest
  /-- `sz = (long)size_input(my_frontier)` -/
  | callSize
  /-- `counter--` -/
  | runDry
  /-- inside `body(my_frontier)` -/
  | work (b : B)
  /-- `req = request[my_id].load()` -/
  | respondLoad
  /-- `size_input(my_frontier) > 1` -/
  | respondSize (j : Fin n)
  /-- `counter++` before a transfer -/
  | countTransfer (j : Fin n)
  /-- inside `fork_input(my_frontier, frontier[j])` -/
  | fork (j : Fin n)
  /-- `answer[j].store(Answer_transfered)` -/
  | answerStore (j : Fin n)
  /-- `request[my_id].store(Request_waiting)` over an answered request -/
  | reopen
  /-- `t = request[my_id].load()` of the rejecting loop -/
  | blockLoad
  /-- `compare_exchange_strong(t, Request_blocked)` with `t` waiting -/
  | blockCas
  /-- `compare_exchange_strong(t, Request_blocked)` with a request of `j` in `t` -/
  | blockFrom (j : Fin n)
  /-- `answer[j].store(Answer_transfered)` after blocking -/
  | blockAnswer (j : Fin n)
  /-- `if (is_done.load()) return` of the acquiring loop -/
  | acquireTest
  /-- `answer[my_id].store(Answer_waiting)` -/
  | resetAnswer
  /-- inside `counter.sum()`, about to read cell `i` -/
  | sum (i : ℕ) (res : ℤ)
  /-- `is_done.store(true)` -/
  | setDone
  /-- `id = sched->random_other()`, if there is another worker -/
  | pickVictim
  /-- `request[id].load() == Request_blocked` -/
  | loadVictim (id : Fin n)
  /-- `request[id].compare_exchange_strong(orig, my_id)` -/
  | postRequest (id : Fin n)
  /-- `while (answer[my_id].load() == Answer_waiting)` -/
  | spinLoad (id : Fin n)
  /-- `if (is_done.load()) return` while it polls -/
  | spinDone (id : Fin n)
  /-- `frontier[my_id].swap(my_frontier)` -/
  | swapMailbox
  /-- `sz = (long)size_input(my_frontier)` after the swap -/
  | callSizeAgain
  /-- `request[my_id].store(Request_waiting)` with work at hand -/
  | unblock
  | returned
  deriving DecidableEq

/-- The memory of the machine.  `posted` and `answered` count the requests each worker has posted and
the answers written for it, and `crossed` says whether `counter++` was executed since the leader last
began to add up; the program reads none of them. -/
structure Config (n : ℕ) (F S L B : Type*) where
  input : F
  frontier : Fin n → F
  request : Fin n → Request (Fin n)
  answer : Fin n → Answer
  counter : Fin n → ℤ
  is_done : Bool
  my_frontier : Fin n → F
  loc : Fin n → L
  shared : S
  pc : Fin n → Pc n B
  posted : Fin n → ℕ
  answered : Fin n → ℕ
  crossed : Bool

/-- What the scheduler decides: let the worker take its only step, let `random_other` return `k`, or
resolve a step of the body. -/
inductive Act (n : ℕ) (X : Type*) where
  | step
  | pick (k : Fin n)
  | choose (x : X)
  deriving DecidableEq

variable {n : ℕ} {F S L B X : Type*}

namespace Config

/-- Worker `w` goes on at `p`. -/
def goto (c : Config n F S L B) (w : Fin n) (p : Pc n B) : Config n F S L B :=
  { c with pc := Function.update c.pc w p }

/-- `request[k].store(r)` -/
def storeRequest (c : Config n F S L B) (k : Fin n) (r : Request (Fin n)) : Config n F S L B :=
  { c with request := Function.update c.request k r }

/-- `answer[j].store(Answer_transfered)` by the worker that was asked. -/
def storeAnswer (c : Config n F S L B) (j : Fin n) : Config n F S L B :=
  { c with
    answer := Function.update c.answer j .transferred
    answered := Function.update c.answered j (c.answered j + 1) }

/-- `counter.delta(my_id, d)` -/
def delta (c : Config n F S L B) (w : Fin n) (d : ℤ) : Config n F S L B :=
  { c with counter := Function.update c.counter w (c.counter w + d) }

/-- The frontier and the private memory of `w`, after a call. -/
def setMine (c : Config n F S L B) (w : Fin n) (l : L) (f : F) : Config n F S L B :=
  { c with loc := Function.update c.loc w l, my_frontier := Function.update c.my_frontier w f }

end Config

/-! ## The loop -/

/-- The step of worker `w` where the program leaves no choice. -/
def advance (K : Client (Fin n) F S L B X) (leader w : Fin n) (c : Config n F S L B) :
    Option (Config n F S L B) :=
  match c.pc w with
  | .start =>
    -- `operator++` of `carray` is `decr`, and `operator--` is `incr`
    if w = leader then some ({ c.delta w (-1) with crossed := true }.goto w .swapInput)
    else some (c.goto w .blockLoad)
  | .swapInput =>
    some ({ c with
      input := c.my_frontier w
      my_frontier := Function.update c.my_frontier w c.input }.goto w .loopTest)
  | .loopTest => some (c.goto w (if c.is_done then .returned else .callSize))
  | .callSize =>
    let (sz, l) := K.size_input (c.loc w) (c.my_frontier w)
    some ((c.setMine w l (c.my_frontier w)).goto w (if sz = 0 then .runDry else .work K.enter))
  | .runDry => some ((c.delta w 1).goto w .blockLoad)
  | .respondLoad =>
    match c.request w with
    | .blocked => none
    | .waiting => some (c.goto w .loopTest)
    | .from j => some (c.goto w (.respondSize j))
  | .respondSize j =>
    let (sz, l) := K.size_input (c.loc w) (c.my_frontier w)
    some ((c.setMine w l (c.my_frontier w)).goto w (if 1 < sz then .countTransfer j else .answerStore j))
  | .countTransfer j => some ({ c.delta w (-1) with crossed := true }.goto w (.fork j))
  | .fork j =>
    (K.fork_input (c.loc w) (c.my_frontier w) (c.frontier j)).map fun (l, src, dst) =>
      { c.setMine w l src with frontier := Function.update c.frontier j dst }.goto w (.answerStore j)
  | .answerStore j => some ((c.storeAnswer j).goto w .reopen)
  | .reopen => some ((c.storeRequest w .waiting).goto w .loopTest)
  | .blockLoad =>
    match c.request w with
    | .blocked => some (c.goto w .acquireTest)
    | .waiting => some (c.goto w .blockCas)
    | .from j => some (c.goto w (.blockFrom j))
  | .blockCas =>
    if c.request w = .waiting then some ((c.storeRequest w .blocked).goto w .blockLoad)
    else some (c.goto w .blockLoad)
  | .blockFrom j =>
    if c.request w = .from j then some ((c.storeRequest w .blocked).goto w (.blockAnswer j))
    else some (c.goto w (.blockAnswer j))
  | .blockAnswer j => some ((c.storeAnswer j).goto w .blockLoad)
  | .acquireTest => some (c.goto w (if c.is_done then .returned else .resetAnswer))
  | .resetAnswer =>
    let c' := { c with answer := Function.update c.answer w .waiting }
    if w = leader then some ({ c' with crossed := false }.goto w (.sum 0 0))
    else some (c'.goto w .pickVictim)
  | .sum i res =>
    if h : i < n then some (c.goto w (.sum (i + 1) (res + c.counter ⟨i, h⟩)))
    else some (c.goto w (if res = 0 then .setDone else .pickVictim))
  | .setDone => some ({ c with is_done := true }.goto w .acquireTest)
  | .pickVictim => if 1 < n then none else some (c.goto w .acquireTest)
  | .loadVictim id => some (c.goto w (if c.request id = .blocked then .acquireTest else .postRequest id))
  | .postRequest id =>
    if c.request id = .waiting then
      some ({ c.storeRequest id (.from w) with
        posted := Function.update c.posted w (c.posted w + 1) }.goto w (.spinLoad id))
    else some (c.goto w .acquireTest)
  | .spinLoad id => some (c.goto w (if c.answer w = .waiting then .spinDone id else .swapMailbox))
  | .spinDone id => some (c.goto w (if c.is_done then .returned else .spinLoad id))
  | .swapMailbox =>
    some ({ c with
      frontier := Function.update c.frontier w (c.my_frontier w)
      my_frontier := Function.update c.my_frontier w (c.frontier w) }.goto w .callSizeAgain)
  | .callSizeAgain =>
    let (sz, l) := K.size_input (c.loc w) (c.my_frontier w)
    some ((c.setMine w l (c.my_frontier w)).goto w (if 0 < sz then .unblock else .acquireTest))
  | .unblock => some ((c.storeRequest w .waiting).goto w .loopTest)
  | .work _ | .returned => none

/-- Where a worker goes when a step of its body has ended in `r`. -/
def afterBody : Option B → Pc n B
  | some b => .work b
  | none => .respondLoad

/-- One step of worker `w`; `none` if the action is not enabled, the call is undefined or an assertion
fails. -/
def next (K : Client (Fin n) F S L B X) (leader : Fin n) :
    Fin n × Act n X → Config n F S L B → Option (Config n F S L B)
  | (w, .step), c => advance K leader w c
  | (w, .pick id), c =>
    match c.pc w with
    | .pickVictim => if id = w then none else some (c.goto w (.loadVictim id))
    | _ => none
  | (w, .choose x), c =>
    match c.pc w with
    | .work b =>
      (K.body w x c.shared (c.loc w) (c.my_frontier w) b).map fun (s, l, f, r) =>
        { c.setMine w l f with shared := s }.goto w (afterBody r)
    | _ => none

/-- The machine as it starts: only the word of the leader is open. -/
def start (K : Client (Fin n) F S L B X) (leader : Fin n) (input : F) (loc : L) (shared : S) :
    Config n F S L B where
  input := input
  frontier _ := K.fresh
  request i := if i = leader then .waiting else .blocked
  answer _ := .waiting
  counter _ := 0
  is_done := false
  my_frontier _ := K.fresh
  loc _ := loc
  shared := shared
  pc _ := .start
  posted _ := 0
  answered _ := 0
  crossed := false

/-- All interleavings of `parallel_while_cas_ri`. -/
def system (K : Client (Fin n) F S L B X) (leader : Fin n) (input : F) (loc : L) (shared : S) :
    System (Config n F S L B) where
  init c := c = start K leader input loc shared
  step c c' := ∃ a, next K leader a c = some c'

end PwsaStar.CasRi
