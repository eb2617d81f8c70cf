/-
# PwsaStar.Baseline.Threads — how the pthread baselines start, number, wake and join their workers.

`old_pase_main` and `old_pastar_main` share `solveMaze` and all of `astar_thread` but the body of its
loop.  The main thread creates the workers with the mutex held, waits on `cond`, and joins the workers
with the mutex held.  A worker takes its number from `ids` and counts `ids` down again when it leaves;
whoever counts it down to zero signals `cond`.

The body of the loop is a parameter.  It is executed in moves, and says of each what it does to the
mutex.  One step of a `Config` is one statement of one thread; a thread that wants the mutex steps
only when the mutex is free.  `pthread_cond_wait` may also return without a signal.
-/
import PwsaStar.ParallelWhile.Protocol

namespace PwsaStar.Baseline

open PwsaStar.Lib

/-! ## The program -/

/-- What a statement of the body does: with the memory changed, it goes on without touching the mutex,
goes on after unlocking it, wants to lock it, is back at the loop test, or leaves the loop (after
setting `search_done` if `found`). -/
inductive Move (S B : Type*) where
  | go (s : S) (b : B)
  | unlock (s : S) (b : B)
  | lock (b : B)
  | again (s : S)
  | leave (s : S) (found : Bool)

/-- The body of the loop of `astar_thread`.  `move` is given the thread's number, `search_done` and the
memory. -/
structure Body (S B : Type*) where
  enter : B
  move : ℕ → Bool → S → B → Move S B

/-- Where a worker stands. -/
inductive Pc (B : Type*) where
  | uncreated
  /-- `pthread_mutex_lock(&mutex)` -/
  | acquire
  /-- `thread_id = ids; ids++` -/
  | number
  /-- `while(!search_done)` -/
  | test (threadId : ℕ)
  | body (threadId : ℕ) (b : B)
  /-- `ids--` -/
  | countDown
  /-- `if(ids==0) pthread_cond_signal(&cond)` -/
  | check
  /-- `pthread_mutex_unlock(&mutex)` before `pthread_exit` -/
  | release
  | exited
  deriving DecidableEq

/-- Where the main thread stands in `solveMaze`. -/
inductive MainPc where
  /-- `pthread_mutex_lock(&mutex)` -/
  | acquire
  /-- about to create worker `i`, if there is one -/
  | create (i : ℕ)
  /-- `pthread_cond_wait(&cond, &mutex)` -/
  | wait
  | sleeping
  /-- inside `pthread_cond_wait`, awake, by a signal or not, and about to lock the mutex -/
  | awake (signalled : Bool)
  /-- about to join worker `i`, if there is one -/
  | join (i : ℕ)
  /-- `pthread_mutex_unlock(&mutex)` -/
  | release
  | done
  deriving DecidableEq

/-- Who holds the mutex. -/
inductive Holder (n : ℕ) where
  | main
  | worker (w : Fin n)
  deriving DecidableEq

/-- The machine with `n` workers. -/
structure Config (n : ℕ) (S B : Type*) where
  mutex : Option (Holder n)
  ids : ℕ
  searchDone : Bool
  memory : S
  main : MainPc
  pc : Fin n → Pc B

variable {n : ℕ} {S B : Type*}

/-- Worker `w` goes on at `p`. -/
def Config.goto (c : Config n S B) (w : Fin n) (p : Pc B) : Config n S B :=
  { c with pc := Function.update c.pc w p }

/-- The next statement of the main thread; `none` while it sleeps or has to wait. -/
def mainStep (c : Config n S B) : Option (Config n S B) :=
  match c.main with
  | .acquire =>
    if c.mutex = none then some { c with mutex := some .main, main := .create 0 } else none
  | .create i =>
    if h : i < n then some ({ c with main := .create (i + 1) }.goto ⟨i, h⟩ .acquire)
    else some { c with main := .wait }
  | .wait => some { c with mutex := none, main := .sleeping }
  | .sleeping => none
  | .awake _ =>
    if c.mutex = none then some { c with mutex := some .main, main := .join 0 } else none
  | .join i =>
    if h : i < n then
      match c.pc ⟨i, h⟩ with
      | .exited => some { c with main := .join (i + 1) }
      | _ => none
    else some { c with main := .release }
  | .release => some { c with mutex := none, main := .done }
  | .done => none

/-- What a move of worker `w` does to the machine. -/
def applyMove (c : Config n S B) (w : Fin n) (threadId : ℕ) : Move S B → Option (Config n S B)
  | .go s b => some ({ c with memory := s }.goto w (.body threadId b))
  | .unlock s b => some ({ c with memory := s, mutex := none }.goto w (.body threadId b))
  | .lock b =>
    if c.mutex = none then some ({ c with mutex := some (.worker w) }.goto w (.body threadId b))
    else none
  | .again s => some ({ c with memory := s }.goto w (.test threadId))
  | .leave s found =>
    some ({ c with memory := s, searchDone := c.searchDone || found }.goto w .countDown)

/-- The next statement of worker `w`. -/
def workerStep (K : Body S B) (w : Fin n) (c : Config n S B) : Option (Config n S B) :=
  match c.pc w with
  | .uncreated => none
  | .acquire =>
    if c.mutex = none then some ({ c with mutex := some (.worker w) }.goto w .number) else none
  | .number => some ({ c with ids := c.ids + 1 }.goto w (.test c.ids))
  | .test threadId => some (c.goto w (if c.searchDone then .countDown else .body threadId K.enter))
  | .body threadId b => applyMove c w threadId (K.move threadId c.searchDone c.memory b)
  | .countDown => some ({ c with ids := c.ids - 1 }.goto w .check)
  | .check =>
    -- a signal wakes the main thread if it sleeps, and is lost otherwise
    some ({ c with main := if c.ids = 0 ∧ c.main = MainPc.sleeping then .awake true else c.main }.goto w
      .release)
  | .release => some ({ c with mutex := none }.goto w .exited)
  | .exited => none

/-- Which thread makes a step. -/
inductive Act (n : ℕ) where
  | main
  /-- `pthread_cond_wait` is about to return without a signal -/
  | spurious
  | worker (w : Fin n)
  deriving DecidableEq

def next (K : Body S B) : Act n → Config n S B → Option (Config n S B)
  | .main, c => mainStep c
  | .spurious, c => if c.main = .sleeping then some { c with main := .awake false } else none
  | .worker w, c => workerStep K w c

/-- The machine when `solveMaze` comes to its first `pthread_mutex_lock`. -/
def start (n : ℕ) (memory : S) : Config n S B where
  mutex := none
  ids := 0
  searchDone := false
  memory := memory
  main := .acquire
  pc _ := .uncreated

/-- All orders in which the threads may make their steps. -/
def system (n : ℕ) (K : Body S B) (memory : S) : System (Config n S B) where
  init c := c = start n memory
  step c c' := ∃ a, next K a c = some c'

/-- Worker `w` wants to lock the mutex. -/
def WantsMutex (K : Body S B) (c : Config n S B) (w : Fin n) : Prop :=
  c.pc w = .acquire ∨ ∃ threadId b b', c.pc w = .body threadId b ∧
    K.move threadId c.searchDone c.memory b = .lock b'

/-- The main thread holds the mutex and waits for a worker that waits for the mutex. -/
def Deadlocked (K : Body S B) (c : Config n S B) : Prop :=
  c.mutex = some .main ∧ ∃ w : Fin n, c.main = .join w ∧ WantsMutex K c w

/-- A worker has left the loop. -/
def Pc.Left : Pc B → Prop
  | .countDown | .check | .release | .exited => True
  | _ => False

instance : DecidablePred (Pc.Left (B := B)) := fun p =>
  match p with
  | .countDown | .check | .release | .exited => .isTrue trivial
  | .uncreated | .acquire | .number | .test _ | .body .. => .isFalse id

/-- If the step is the one in which `pthread_cond_wait` returns, all workers have left the loop. -/
def Timely (c : Config n S B) : Act n → Prop
  | .main => ∀ signalled, c.main = .awake signalled → ∀ w, (c.pc w).Left
  | _ => True

instance (c : Config n S B) (a : Act n) : Decidable (Timely c a) :=
  match a, hmain : c.main with
  | .main, .awake signalled =>
    decidable_of_iff (∀ w, (c.pc w).Left) ⟨fun h _ _ => h, fun h => h signalled hmain⟩
  | .main, .acquire | .main, .create _ | .main, .wait | .main, .sleeping | .main, .join _
  | .main, .release | .main, .done => .isTrue fun _ h => by rw [hmain] at h; cases h
  | .spurious, _ | .worker _, _ => .isTrue trivial

/-- `next`, if the step is timely. -/
def timelyNext (K : Body S B) (a : Act n) (c : Config n S B) : Option (Config n S B) :=
  if Timely c a then next K a c else none

/-- The runs all of whose steps are timely. -/
def timelySystem (n : ℕ) (K : Body S B) (memory : S) : System (Config n S B) where
  init c := c = start n memory
  step c c' := ∃ a, Timely c a ∧ next K a c = some c'

/-! ## The invariant -/

/-- What a move out of `b` may be: statements on either side of a lock or an unlock are executed without
and with the mutex as they should be, the loop is left only when the search is over, and without the
mutex `rank` goes down. -/
def Move.Allowed (locked : B → Prop) (rank : B → ℕ) (searchDone : Bool) (b : B) : Move S B → Prop
  | .go _ b' => (locked b' ↔ locked b) ∧ (¬ locked b → rank b' < rank b)
  | .unlock _ b' => locked b ∧ ¬ locked b'
  | .lock b' => ¬ locked b ∧ locked b'
  | .again _ => locked b
  | .leave _ found => locked b ∧ (searchDone = true ∨ found = true)

theorem Move.Allowed.of_locked {locked : B → Prop} {rank : B → ℕ} {searchDone : Bool} {s : S} {b b' : B}
    (h : locked b) (h' : locked b') : (Move.go s b').Allowed locked rank searchDone b :=
  ⟨iff_of_true h' h, fun hfree => absurd h hfree⟩

/-- The discipline of a body. -/
structure Body.Lawful (K : Body S B) (locked : B → Prop) (rank : B → ℕ) : Prop where
  enter : locked K.enter
  move : ∀ threadId searchDone memory b,
    (K.move threadId searchDone memory b).Allowed locked rank searchDone b

/-- A worker holds the mutex. -/
def Pc.Holds (locked : B → Prop) : Pc B → Prop
  | .number | .test _ | .countDown | .check | .release => True
  | .body _ b => locked b
  | _ => False

/-- The main thread holds the mutex. -/
def MainPc.Holds : MainPc → Prop
  | .create _ | .wait | .join _ | .release => True
  | _ => False

/-- A worker is counted in `ids`. -/
def Pc.counted : Pc B → Bool
  | .test _ | .body .. | .countDown => true
  | _ => false

/-- A worker is inside the body. -/
def Pc.Inside : Pc B → Prop
  | .body .. => True
  | _ => False

/-- The main thread has created worker `w`. -/
def MainPc.Created (w : Fin n) : MainPc → Prop
  | .acquire => False
  | .create i => w.val < i
  | _ => True

/-- The number of workers counted in `ids`. -/
def countedSum (pc : Fin n → Pc B) : ℕ := ∑ w, if (pc w).counted then 1 else 0

/-- **What holds in every run.** -/
structure Inv (locked : B → Prop) (c : Config n S B) : Prop where
  main : c.mutex = some .main ↔ c.main.Holds
  worker : ∀ w, c.mutex = some (.worker w) ↔ (c.pc w).Holds locked
  ids : c.ids = countedSum c.pc
  left : ∀ w, (c.pc w).Left → c.searchDone = true
  created : ∀ w, c.pc w ≠ .uncreated ↔ c.main.Created w
  /-- When the signal is on its way nobody is in the loop, and nobody will enter it again. -/
  signalled : c.main = .awake true → c.searchDone = true ∧ (∀ w, ¬ (c.pc w).Inside) ∧
    ∃ w, c.pc w = .release ∨ c.pc w = .exited

theorem countedSum_update (pc : Fin n → Pc B) (w : Fin n) (p : Pc B) :
    countedSum (Function.update pc w p) + (if (pc w).counted then 1 else 0) =
      countedSum pc + if p.counted then 1 else 0 :=
  ParallelWhile.sum_update (fun p : Pc B => if p.counted then 1 else 0) pc w p

/-- A worker that is counted is somewhere. -/
theorem countedSum_eq_zero {pc : Fin n → Pc B} (h : countedSum pc = 0) (w : Fin n) :
    (pc w).counted = false := by
  have hw := (Finset.sum_eq_zero_iff.mp h) w (Finset.mem_univ w)
  by_contra hne
  rw [Bool.not_eq_false] at hne
  simp [hne] at hw

/-- How the mutex may change when a worker goes from `p` to `p'`. -/
def MutexStep (locked : B → Prop) (w : Fin n) (p p' : Pc B) (mutex mutex' : Option (Holder n)) :
    Prop :=
  (mutex' = mutex ∧ (p'.Holds locked ↔ p.Holds locked)) ∨
    (mutex = none ∧ mutex' = some (.worker w) ∧ p'.Holds locked) ∨
    (p.Holds locked ∧ mutex' = none ∧ ¬ p'.Holds locked)

section Steps

variable {locked : B → Prop} {c : Config n S B}

/-- **A step of a worker** that leaves the main thread where it is. -/
theorem Inv.step_worker (I : Inv locked c) {w : Fin n} {p : Pc B} {mutex : Option (Holder n)} {ids : ℕ}
    {searchDone : Bool} {memory : S} (hmutex : MutexStep locked w (c.pc w) p c.mutex mutex)
    (hids : ids + (if (c.pc w).counted then 1 else 0) = c.ids + if p.counted then 1 else 0)
    (hdone : c.searchDone = true → searchDone = true) (hleft : p.Left → searchDone = true)
    (hold : c.pc w ≠ .uncreated) (hnew : p ≠ .uncreated)
    (hinside : p.Inside → (c.pc w).Inside ∨ c.searchDone = false)
    (hgone : c.pc w = .release ∨ c.pc w = .exited → p = .release ∨ p = .exited) :
    Inv locked ({ c with
      mutex := mutex
      ids := ids
      searchDone := searchDone
      memory := memory }.goto w p) where
  main := by
    show mutex = some .main ↔ c.main.Holds
    rw [← I.main]
    rcases hmutex with ⟨rfl, -⟩ | ⟨hfree, rfl, -⟩ | ⟨hheld, rfl, -⟩
    · exact Iff.rfl
    · simp [hfree]
    · simp [(I.worker w).mpr hheld]
  worker v := by
    show mutex = some (.worker v) ↔ (Function.update c.pc w p v).Holds locked
    by_cases hv : v = w
    · subst hv
      rw [Function.update_self]
      rcases hmutex with ⟨rfl, hiff⟩ | ⟨-, rfl, hholds⟩ | ⟨-, rfl, hnot⟩
      · rw [hiff]
        exact I.worker v
      · simp [hholds]
      · simp [hnot]
    · rw [Function.update_of_ne hv, ← I.worker v]
      rcases hmutex with ⟨rfl, -⟩ | ⟨hfree, rfl, -⟩ | ⟨hheld, rfl, -⟩
      · exact Iff.rfl
      · simp [hfree, Ne.symm hv]
      · simp [(I.worker w).mpr hheld, Ne.symm hv]
  ids := by
    show ids = countedSum (Function.update c.pc w p)
    have hsum := countedSum_update c.pc w p
    rw [← I.ids] at hsum
    omega
  left v hv := by
    show searchDone = true
    by_cases hvw : v = w
    · subst hvw
      exact hleft (by simpa [Config.goto] using hv)
    · exact hdone (I.left v (by simpa [Config.goto, hvw] using hv))
  created v := by
    show Function.update c.pc w p v ≠ .uncreated ↔ c.main.Created v
    rw [← I.created v]
    by_cases hvw : v = w
    · subst hvw
      rw [Function.update_self]
      exact iff_of_true hnew hold
    · rw [Function.update_of_ne hvw]
  signalled hmain := by
    obtain ⟨hd, hout, u, hu⟩ := I.signalled hmain
    refine ⟨hdone hd, fun v hv => ?_, u, ?_⟩
    · by_cases hvw : v = w
      · subst hvw
        -- nobody goes inside once the search is over
        rcases hinside (by simpa [Config.goto] using hv) with h | h
        · exact hout v h
        · rw [hd] at h
          cases h
      · exact hout v (by simpa [Config.goto, hvw] using hv)
    · by_cases huw : u = w
      · subst huw
        simpa [Config.goto] using hgone hu
      · simpa [Config.goto, huw] using hu

/-- The signal that the last worker sends. -/
theorem Inv.signal (I : Inv locked c) {w : Fin n} (hw : c.pc w = .release) (hids : c.ids = 0)
    (hsleep : c.main = .sleeping) : Inv locked { c with main := .awake true } where
  main := by
    rw [I.main, hsleep]
    exact Iff.rfl
  worker := I.worker
  ids := I.ids
  left := I.left
  created v := by
    rw [I.created v, hsleep]
    exact Iff.rfl
  signalled _ := by
    refine ⟨I.left w (by rw [hw]; trivial), fun v hv => ?_, w, Or.inl hw⟩
    have hcount := countedSum_eq_zero (I.ids.symm.trans hids) v
    cases hpc : c.pc v <;> simp_all [Pc.Inside, Pc.counted]

variable {K : Body S B} {rank : B → ℕ}

/-- The moves of the body keep the discipline. -/
theorem Inv.applyMove (hK : K.Lawful locked rank) (I : Inv locked c) {c' : Config n S B} {w : Fin n}
    {threadId : ℕ} {b : B} (hpc : c.pc w = .body threadId b)
    (h : applyMove c w threadId (K.move threadId c.searchDone c.memory b) = some c') :
    Inv locked c' := by
  have hold : c.pc w ≠ .uncreated := by simp [hpc]
  have hcount : (c.pc w).counted = true := by rw [hpc]; rfl
  have hinside : (c.pc w).Inside := by rw [hpc]; trivial
  have hgone : ¬ (c.pc w = .release ∨ c.pc w = .exited) := by simp [hpc]
  have hallowed := hK.move threadId c.searchDone c.memory b
  cases hmove : K.move threadId c.searchDone c.memory b with
  | go s b' =>
    rw [hmove] at h hallowed
    obtain rfl := Option.some.inj h
    refine I.step_worker (Or.inl ⟨rfl, ?_⟩) ?_ id False.elim hold (by simp) (fun _ => Or.inl hinside)
      fun h => absurd h hgone
    · rw [hpc]
      exact hallowed.1
    · rw [hcount]
      rfl
  | unlock s b' =>
    rw [hmove] at h hallowed
    obtain rfl := Option.some.inj h
    obtain ⟨hlocked, hunlocked⟩ := hallowed
    refine I.step_worker (Or.inr (Or.inr ⟨?_, rfl, hunlocked⟩)) ?_ id False.elim hold (by simp)
      (fun _ => Or.inl hinside) fun h => absurd h hgone
    · rw [hpc]
      exact hlocked
    · rw [hcount]
      rfl
  | lock b' =>
    rw [hmove] at h hallowed
    simp only [Baseline.applyMove] at h
    split at h
    · obtain rfl := Option.some.inj h
      refine I.step_worker (Or.inr (Or.inl ⟨‹_›, rfl, hallowed.2⟩)) ?_ id False.elim hold (by simp)
        (fun _ => Or.inl hinside) fun h => absurd h hgone
      rw [hcount]
      rfl
    · cases h
  | again s =>
    rw [hmove] at h hallowed
    obtain rfl := Option.some.inj h
    refine I.step_worker (Or.inl ⟨rfl, ?_⟩) ?_ id False.elim hold (by simp) False.elim
      fun h => absurd h hgone
    · rw [hpc]
      exact iff_of_true trivial hallowed
    · rw [hcount]
      rfl
  | leave s found =>
    rw [hmove] at h hallowed
    obtain rfl := Option.some.inj h
    obtain ⟨hlocked, hover⟩ := hallowed
    refine I.step_worker (Or.inl ⟨rfl, ?_⟩) ?_ ?_ ?_ hold (by simp) False.elim
      fun h => absurd h hgone
    · rw [hpc]
      exact iff_of_true trivial hlocked
    · rw [hcount]
      rfl
    · intro hd
      simp [hd]
    · intro _
      rcases hover with h | h <;> simp [h]

/-- **A statement of a worker.** -/
theorem Inv.worker_next (hK : K.Lawful locked rank) (I : Inv locked c) {c' : Config n S B} {w : Fin n}
    (h : workerStep K w c = some c') : Inv locked c' := by
  unfold workerStep at h
  cases hpc : c.pc w with
  | uncreated =>
    rw [hpc] at h
    cases h
  | acquire =>
    rw [hpc] at h
    simp only at h
    split at h
    · obtain rfl := Option.some.inj h
      refine I.step_worker (Or.inr (Or.inl ⟨‹_›, rfl, trivial⟩)) ?_ id False.elim (by simp [hpc])
        (by simp) False.elim (by simp [hpc])
      rw [hpc]
      rfl
    · cases h
  | number =>
    rw [hpc] at h
    obtain rfl := Option.some.inj h
    refine I.step_worker (Or.inl ⟨rfl, ?_⟩) ?_ id False.elim (by simp [hpc]) (by simp) False.elim
      (by simp [hpc])
    · rw [hpc]
      exact Iff.rfl
    · rw [hpc]
      rfl
  | test threadId =>
    rw [hpc] at h
    obtain rfl := Option.some.inj h
    by_cases hd : c.searchDone = true
    · rw [if_pos hd]
      refine I.step_worker (Or.inl ⟨rfl, ?_⟩) ?_ id (fun _ => hd) (by simp [hpc]) (by simp) False.elim
        (by simp [hpc])
      · rw [hpc]
        exact Iff.rfl
      · rw [hpc]
        rfl
    · rw [if_neg hd]
      refine I.step_worker (Or.inl ⟨rfl, ?_⟩) ?_ id False.elim (by simp [hpc]) (by simp)
        (fun _ => Or.inr (Bool.eq_false_iff.mpr hd)) (by simp [hpc])
      · rw [hpc]
        exact iff_of_true hK.enter trivial
      · rw [hpc]
        rfl
  | body threadId b =>
    rw [hpc] at h
    exact I.applyMove hK hpc h
  | countDown =>
    rw [hpc] at h
    obtain rfl := Option.some.inj h
    have hcount := countedSum_update c.pc w (.check : Pc B)
    rw [← I.ids, hpc] at hcount
    refine I.step_worker (Or.inl ⟨rfl, ?_⟩) ?_ id (fun _ => I.left w (by rw [hpc]; trivial))
      (by simp [hpc]) (by simp) False.elim (by simp [hpc])
    · rw [hpc]
      exact Iff.rfl
    · rw [hpc]
      simp only [Pc.counted] at hcount ⊢
      simp only [if_true, Bool.false_eq_true, if_false] at hcount ⊢
      omega
  | check =>
    rw [hpc] at h
    obtain rfl := Option.some.inj h
    -- the worker goes on first, and then sends its signal if it is the last one
    have hmoved : Inv locked (c.goto w .release) := by
      refine I.step_worker (Or.inl ⟨rfl, ?_⟩) ?_ id (fun _ => I.left w (by rw [hpc]; trivial))
        (by simp [hpc]) (by simp) False.elim (by simp [hpc])
      · rw [hpc]
        exact Iff.rfl
      · rw [hpc]
        rfl
    by_cases hlast : c.ids = 0 ∧ c.main = .sleeping
    · simp only [if_pos hlast]
      exact Inv.signal (w := w) hmoved (by simp [Config.goto]) hlast.1 hlast.2
    · simp only [if_neg hlast]
      exact hmoved
  | release =>
    rw [hpc] at h
    obtain rfl := Option.some.inj h
    refine I.step_worker (Or.inr (Or.inr ⟨?_, rfl, id⟩)) ?_ id
      (fun _ => I.left w (by rw [hpc]; trivial)) (by simp [hpc]) (by simp) False.elim
      fun _ => Or.inr rfl
    · rw [hpc]
      trivial
    · rw [hpc]
      rfl
  | exited =>
    rw [hpc] at h
    cases h

/-- The main thread goes on at `main`, with the mutex as it should be then. -/
theorem Inv.step_main (I : Inv locked c) {main : MainPc} {mutex : Option (Holder n)}
    (hmutex : mutex = c.mutex ∧ (main.Holds ↔ c.main.Holds) ∨
      c.mutex = none ∧ mutex = some .main ∧ main.Holds ∨
      c.main.Holds ∧ mutex = none ∧ ¬ main.Holds)
    (hcreated : ∀ w : Fin n, c.main.Created w ↔ main.Created w) (hsignal : main ≠ .awake true) :
    Inv locked { c with mutex := mutex, main := main } where
  main := by
    show mutex = some .main ↔ main.Holds
    rcases hmutex with ⟨rfl, h⟩ | ⟨-, rfl, h⟩ | ⟨-, rfl, h⟩
    · rw [h]
      exact I.main
    · simp [h]
    · simp [h]
  worker w := by
    show mutex = some (.worker w) ↔ (c.pc w).Holds locked
    rw [← I.worker w]
    rcases hmutex with ⟨rfl, -⟩ | ⟨hfree, rfl, -⟩ | ⟨hheld, rfl, -⟩
    · exact Iff.rfl
    · simp [hfree]
    · simp [I.main.mpr hheld]
  ids := I.ids
  left := I.left
  created w := (I.created w).trans (hcreated w)
  signalled h := absurd h hsignal

/-- The creation of a worker. -/
theorem Inv.create (I : Inv locked c) {i : ℕ} (hmain : c.main = .create i) (hi : i < n) :
    Inv locked ({ c with main := .create (i + 1) }.goto ⟨i, hi⟩ .acquire) := by
  have hold : c.pc ⟨i, hi⟩ = .uncreated := by
    by_contra hne
    have hcreated := (I.created ⟨i, hi⟩).mp hne
    rw [hmain] at hcreated
    exact Nat.lt_irrefl i hcreated
  have hother : ∀ {P : Pc B → Prop}, ¬ P .acquire → ∀ w,
      P (Function.update c.pc ⟨i, hi⟩ .acquire w) → P (c.pc w) := by
    intro P hP w hw
    by_cases hv : w = ⟨i, hi⟩
    · subst hv
      rw [Function.update_self] at hw
      exact absurd hw hP
    · rwa [Function.update_of_ne hv] at hw
  refine
    { main := ?_
      worker := fun w => ?_
      ids := ?_
      left := fun w hw => ?_
      created := fun w => ?_
      signalled := fun h => ?_ }
  · show c.mutex = some .main ↔ _
    rw [I.main, hmain]
    exact Iff.rfl
  · show c.mutex = some (.worker w) ↔ (Function.update c.pc ⟨i, hi⟩ .acquire w).Holds locked
    rw [I.worker w]
    by_cases hv : w = ⟨i, hi⟩
    · subst hv
      rw [hold, Function.update_self]
      exact Iff.rfl
    · rw [Function.update_of_ne hv]
  · show c.ids = countedSum (Function.update c.pc ⟨i, hi⟩ .acquire)
    have hsum := countedSum_update c.pc ⟨i, hi⟩ .acquire
    rw [hold] at hsum
    exact I.ids.trans (Nat.add_right_cancel hsum).symm
  · exact I.left w (hother id w hw)
  · show Function.update c.pc ⟨i, hi⟩ .acquire w ≠ .uncreated ↔ w.val < i + 1
    by_cases hv : w = ⟨i, hi⟩
    · subst hv
      rw [Function.update_self]
      exact iff_of_true (by simp) (Nat.lt_succ_self i)
    · rw [Function.update_of_ne hv, I.created w, hmain]
      have hne : w.val ≠ i := fun h => hv (Fin.ext h)
      show w.val < i ↔ w.val < i + 1
      omega
  · cases h

/-- **A statement of the main thread.** -/
theorem Inv.main_next (I : Inv locked c) {c' : Config n S B} (h : mainStep c = some c') :
    Inv locked c' := by
  unfold mainStep at h
  cases hmain : c.main with
  | acquire =>
    rw [hmain] at h
    simp only at h
    split at h
    · obtain rfl := Option.some.inj h
      refine I.step_main (Or.inr (Or.inl ⟨‹_›, rfl, trivial⟩)) (fun w => ?_) (by simp)
      rw [hmain]
      exact iff_of_false id (Nat.not_lt_zero _)
    · cases h
  | create i =>
    rw [hmain] at h
    simp only at h
    split at h
    · rename_i hi
      obtain rfl := Option.some.inj h
      exact I.create hmain hi
    · rename_i hi
      obtain rfl := Option.some.inj h
      refine I.step_main (Or.inl ⟨rfl, ?_⟩) (fun w => ?_) (by simp)
      · rw [hmain]
        exact Iff.rfl
      · rw [hmain]
        exact iff_of_true (lt_of_lt_of_le w.isLt (Nat.le_of_not_lt hi)) trivial
  | wait =>
    rw [hmain] at h
    obtain rfl := Option.some.inj h
    refine I.step_main (Or.inr (Or.inr ⟨?_, rfl, id⟩)) (fun w => ?_) (by simp)
    · rw [hmain]
      trivial
    · rw [hmain]
      exact Iff.rfl
  | sleeping =>
    rw [hmain] at h
    cases h
  | awake signalled =>
    rw [hmain] at h
    simp only at h
    split at h
    · obtain rfl := Option.some.inj h
      refine I.step_main (Or.inr (Or.inl ⟨‹_›, rfl, trivial⟩)) (fun w => ?_) (by simp)
      rw [hmain]
      exact Iff.rfl
    · cases h
  | join i =>
    rw [hmain] at h
    simp only at h
    split at h
    · split at h
      · obtain rfl := Option.some.inj h
        refine I.step_main (Or.inl ⟨rfl, ?_⟩) (fun w => ?_) (by simp)
        · rw [hmain]
          exact Iff.rfl
        · rw [hmain]
          exact Iff.rfl
      · cases h
    · obtain rfl := Option.some.inj h
      refine I.step_main (Or.inl ⟨rfl, ?_⟩) (fun w => ?_) (by simp)
      · rw [hmain]
        exact Iff.rfl
      · rw [hmain]
        exact Iff.rfl
  | release =>
    rw [hmain] at h
    obtain rfl := Option.some.inj h
    refine I.step_main (Or.inr (Or.inr ⟨?_, rfl, id⟩)) (fun w => ?_) (by simp)
    · rw [hmain]
      trivial
    · rw [hmain]
      exact Iff.rfl
  | done =>
    rw [hmain] at h
    cases h

/-- **A step of the machine.** -/
theorem Inv.next (hK : K.Lawful locked rank) (I : Inv locked c) {a : Act n} {c' : Config n S B}
    (h : next K a c = some c') : Inv locked c' := by
  cases a with
  | main => exact I.main_next h
  | spurious =>
    simp only [Baseline.next] at h
    split at h
    · rename_i hsleep
      obtain rfl := Option.some.inj h
      refine I.step_main (Or.inl ⟨rfl, ?_⟩) (fun w => ?_) (by simp)
      · rw [hsleep]
        exact Iff.rfl
      · rw [hsleep]
        exact Iff.rfl
    · cases h
  | worker w => exact I.worker_next hK h

end Steps

theorem Inv.start (locked : B → Prop) (n : ℕ) (memory : S) : Inv locked (start (B := B) n memory) where
  main := by simp [Baseline.start, MainPc.Holds]
  worker w := by simp [Baseline.start, Pc.Holds]
  ids := by simp [Baseline.start, countedSum, Pc.counted]
  left w h := by cases h
  created w := by simp [Baseline.start, MainPc.Created]
  signalled h := by cases h

variable {K : Body S B} {locked : B → Prop} {rank : B → ℕ} {memory : S} {c c' : Config n S B}

theorem reachable_inv (hK : K.Lawful locked rank) (h : (system n K memory).Reachable c) :
    Inv locked c := by
  apply h.invariant
  · rintro c rfl
    exact Inv.start locked n memory
  · rintro c c' - I ⟨a, ha⟩
    exact I.next hK ha

theorem reachable_of_timely (h : (timelySystem n K memory).Reachable c) :
    (system n K memory).Reachable c := by
  apply h.invariant (fun c hc => .of_init hc)
  rintro c c' - hc ⟨a, -, ha⟩
  exact hc.step ⟨a, ha⟩

end PwsaStar.Baseline
