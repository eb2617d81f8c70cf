/-
# PwsaStar.Pase.Basic — `pase` of `pase.hpp`: expansions out of best-first order under one lock.

The frontier is a `multimap` from keys to vertices.  A worker that wants a vertex scans it from the
smallest key, drops entries of expanded vertices on the way, and claims the first vertex that nobody
is expanding and that passes the independence test against every entry in front of it.  The label of
the claimed vertex is read outside the lock; its arcs are relaxed, the vertex is marked expanded and
the claimed entry erased in a second locked block.

Every `locked.action` block is one step, every other access is a step of its own.  An iterator is the
name of its node; a new node gets a name that was never used.  Arithmetic is exact, `⊤` is
`INT_MAX`.
-/
import PwsaStar.Lib.Transition
import PwsaStar.Lib.PredForest

namespace PwsaStar.Pase

open PwsaStar.Lib

/-! ## The program -/

/-- A node of the `multimap`. -/
structure Entry (V : Type*) where
  id : ℕ
  key : Dist
  vertex : V
  deriving DecidableEq

/-- `pase_state` for all vertices, the pebbles, the `multimap` in iteration order, the name of the
next node, and the flag. -/
structure Mem (W V : Type*) where
  isExpanded : V → Bool
  beingExpanded : V → Bool
  g : V → Dist
  pred : V → Option V
  pebbles : Option (V → Option W)
  queue : List (Entry V)
  fresh : ℕ
  isDone : Bool

/-- The arguments of the search.  The heuristic estimates the way between any two vertices. -/
structure Problem (V : Type*) where
  graph : WGraph V
  heuristic : V → V → ℤ
  source : V
  destination : V
  pebble : Bool

variable {W V : Type*} [DecidableEq V]

/-- `M.insert`: behind all entries with the same key. -/
def Mem.insertLocked (m : Mem W V) (fv : Dist) (v : V) : Mem W V :=
  { m with
    queue := m.queue.takeWhile (fun e => e.key ≤ fv) ++ ⟨m.fresh, fv, v⟩ ::
      m.queue.dropWhile (fun e => e.key ≤ fv)
    fresh := m.fresh + 1 }

/-- The loop of `find_independent` over the entries from `itv` on; `front` are the entries before
`itv`.  Returns what is left of the `multimap` and the node that is claimed. -/
def scan (heuristic : V → V → ℤ) (m : Mem W V) (front : List (Entry V)) :
    List (Entry V) → List (Entry V) × Option (Entry V)
  | [] => (front, none)
  | e :: rest =>
    if m.isExpanded e.vertex then scan heuristic m front rest
    else if m.beingExpanded e.vertex = false ∧ front.all (fun u =>
        m.g u.vertex + (heuristic u.vertex e.vertex : Dist) ≥ m.g e.vertex) then
      (front ++ e :: rest, some e)
    else scan heuristic m (front ++ [e]) rest

/-- `find_independent` -/
def findIndependent (heuristic : V → V → ℤ) (m : Mem W V) : Mem W V × Option (Entry V) :=
  if m.isDone then (m, none)
  else
    match scan heuristic m [] m.queue with
    | (queue, none) => ({ m with queue := queue }, none)
    | (queue, some e) =>
      ({ m with queue := queue, beingExpanded := Function.update m.beingExpanded e.vertex true },
        some e)

/-- The body of the lambda passed to `for_each_neighbor_of(v, …)`. -/
def relax (P : Problem V) (v : V) (vdist : Dist) (m : Mem W V) (arc : V × ℤ) : Mem W V :=
  let nbrdist := vdist + (arc.2 : Dist)
  if nbrdist < m.g arc.1 then
    { m with
      g := Function.update m.g arc.1 nbrdist
      pred := Function.update m.pred arc.1 (some v) }.insertLocked
        (nbrdist + (P.heuristic arc.1 P.destination : Dist)) arc.1
  else m

/-- The second locked block: relax the arcs, mark the vertex, erase the node. -/
def expand (P : Problem V) (e : Entry V) (vdist : Dist) (m : Mem W V) : Mem W V :=
  let m' := (P.graph.nbrs e.vertex).foldl (relax P e.vertex vdist) m
  { m' with
    isExpanded := Function.update m'.isExpanded e.vertex true
    queue := m'.queue.filter fun e' => e'.id ≠ e.id }

/-- Where a worker stands in `body`. -/
inductive Pc (V : Type*) where
  /-- `while (!is_done.load())` -/
  | test
  /-- `find_independent()` -/
  | find
  /-- `if (pebbles) …; if (v == destination) …` -/
  | claimed (e : Entry V)
  /-- `is_done.store(true)` -/
  | setDone
  /-- `vdist = states[v].g`, outside the lock -/
  | readG (e : Entry V)
  /-- the second locked block -/
  | expand (e : Entry V) (vdist : Dist)
  | returned
  deriving DecidableEq

structure Config (W V : Type*) where
  mem : Mem W V
  pc : W → Pc V

variable [DecidableEq W]

/-- Worker `w` leaves memory `m` and goes on at `p`. -/
def Config.set (c : Config W V) (w : W) (m : Mem W V) (p : Pc V) : Config W V where
  mem := m
  pc := Function.update c.pc w p

/-- One step of worker `w`. -/
def next (P : Problem V) (w : W) (c : Config W V) : Option (Config W V) :=
  match c.pc w with
  | .test => some (c.set w c.mem (if c.mem.isDone then .returned else .find))
  | .find =>
    match findIndependent P.heuristic c.mem with
    | (m, none) => some (c.set w m .test)
    | (m, some e) => some (c.set w m (.claimed e))
  | .claimed e =>
    some (c.set w
      { c.mem with pebbles := c.mem.pebbles.map fun p => Function.update p e.vertex (some w) }
      (if e.vertex = P.destination then .setDone else .readG e))
  | .setDone => some (c.set w { c.mem with isDone := true } .returned)
  | .readG e => some (c.set w c.mem (.expand e (c.mem.g e.vertex)))
  | .expand e vdist => some (c.set w (expand P e vdist c.mem) .test)
  | .returned => none

/-- The memory when the workers start. -/
def Mem.start (P : Problem V) : Mem W V :=
  Mem.insertLocked
    { isExpanded := fun _ => false
      beingExpanded := fun _ => false
      g := Function.update (fun _ => ⊤) P.source 0
      pred := fun _ => none
      pebbles := if P.pebble then some fun _ => none else none
      queue := []
      fresh := 0
      isDone := false }
    (P.heuristic P.source P.destination : Dist) P.source

/-- All runs of `pase`. -/
def pase (P : Problem V) : System (Config W V) where
  init c := c = { mem := Mem.start P, pc := fun _ => .test }
  step c c' := ∃ w, next P w c = some c'

/-! ## The memory between two steps -/

/-- Claims stay, labels only drop, and new nodes have new names. -/
structure Grows (m m' : Mem W V) : Prop where
  claimed : ∀ v, m.beingExpanded v = true → m'.beingExpanded v = true
  label : ∀ v, m'.g v ≤ m.g v
  fresh : m.fresh ≤ m'.fresh
  queue : ∀ e ∈ m'.queue, e ∈ m.queue ∨ m.fresh ≤ e.id
  flag : m'.isDone = m.isDone

/-- **What holds of the memory**, whatever the heuristic is. -/
structure MemOk (P : Problem V) (m : Mem W V) : Prop where
  forest : Forest P.graph P.source (fun v => m.beingExpanded v = true) m.g m.pred
  queued : ∀ e ∈ m.queue, m.g e.vertex ≠ ⊤
  claimed : ∀ v, m.beingExpanded v = true → m.g v ≠ ⊤
  fresh : ∀ e ∈ m.queue, e.id < m.fresh
  names : ∀ e ∈ m.queue, ∀ e' ∈ m.queue, e.id = e'.id → e.vertex = e'.vertex

/-- What a worker that has claimed the node `e` may rely on. -/
structure Held (m : Mem W V) (e : Entry V) : Prop where
  claimed : m.beingExpanded e.vertex = true
  fresh : e.id < m.fresh
  name : ∀ e' ∈ m.queue, e'.id = e.id → e'.vertex = e.vertex

omit [DecidableEq V] [DecidableEq W]

theorem Grows.refl (m : Mem W V) : Grows m m :=
  ⟨fun _ h => h, fun _ => le_rfl, le_rfl, fun _ h => Or.inl h, rfl⟩

theorem Grows.trans {m₁ m₂ m₃ : Mem W V} (h₁ : Grows m₁ m₂) (h₂ : Grows m₂ m₃) : Grows m₁ m₃ where
  claimed v h := h₂.claimed v (h₁.claimed v h)
  label v := (h₂.label v).trans (h₁.label v)
  fresh := h₁.fresh.trans h₂.fresh
  queue e he := by
    rcases h₂.queue e he with he | he
    · exact h₁.queue e he
    · exact Or.inr (h₁.fresh.trans he)
  flag := h₂.flag.trans h₁.flag

theorem Held.mono {m m' : Mem W V} {e : Entry V} (h : Held m e) (hm : Grows m m') : Held m' e where
  claimed := hm.claimed _ h.claimed
  fresh := h.fresh.trans_le hm.fresh
  name e' he' hid := by
    rcases hm.queue e' he' with he' | he'
    · exact h.name e' he' hid
    · have := h.fresh
      omega

theorem mem_insertLocked {m : Mem W V} {fv : Dist} {v : V} {e : Entry V} :
    e ∈ (m.insertLocked fv v).queue ↔ e = ⟨m.fresh, fv, v⟩ ∨ e ∈ m.queue := by
  have hsplit := List.takeWhile_append_dropWhile (p := fun e : Entry V => decide (e.key ≤ fv))
    (l := m.queue)
  have hmem : e ∈ m.queue ↔ e ∈ m.queue.takeWhile (fun e => e.key ≤ fv) ∨
      e ∈ m.queue.dropWhile (fun e => e.key ≤ fv) := by
    rw [← List.mem_append, hsplit]
  show e ∈ _ ++ _ :: _ ↔ _
  rw [List.mem_append, List.mem_cons, hmem]
  tauto

/-! ## Finding an independent vertex -/

/-- **What the scan does.**  It drops entries of expanded vertices only, keeps the order, and claims a
vertex nobody is expanding that passed the test against every entry left in front of it. -/
theorem scan_spec (heuristic : V → V → ℤ) (m : Mem W V) :
    ∀ (rest front queue : List (Entry V)) (r : Option (Entry V)),
      scan heuristic m front rest = (queue, r) →
      queue.Sublist (front ++ rest) ∧
      (∀ e ∈ front ++ rest, m.isExpanded e.vertex = false ∨ e ∈ front → e ∈ queue) ∧
      ∀ e, r = some e → m.isExpanded e.vertex = false ∧ m.beingExpanded e.vertex = false ∧
        ∃ before behind, queue = before ++ e :: behind ∧ ∀ u ∈ before,
          m.g e.vertex ≤ m.g u.vertex + (heuristic u.vertex e.vertex : Dist) := by
  intro rest
  induction rest with
  | nil =>
    rintro front queue r h
    cases h
    refine ⟨by simp, ?_, nofun⟩
    intro e he _
    simpa using he
  | cons x rest ih =>
    intro front queue r h
    simp only [scan] at h
    split at h
    · rename_i hx
      obtain ⟨hsub, hkeep, hclaim⟩ := ih front queue r h
      refine ⟨hsub.trans (by simp), ?_, hclaim⟩
      intro e he hopen
      have hmem : e ∈ front ++ rest := by
        rcases List.mem_append.mp he with he | he
        · exact List.mem_append.mpr (Or.inl he)
        · rcases List.mem_cons.mp he with rfl | he
          · rcases hopen with hopen | hfront
            · simp [hx] at hopen
            · exact List.mem_append.mpr (Or.inl hfront)
          · exact List.mem_append.mpr (Or.inr he)
      exact hkeep e hmem hopen
    · rename_i hx
      split at h
      · rename_i hvalid
        cases h
        refine ⟨List.Sublist.refl _, fun e he _ => he, ?_⟩
        rintro e ⟨⟩
        refine ⟨by simpa using hx, hvalid.1, front, rest, rfl, ?_⟩
        intro u hu
        simpa using List.all_eq_true.mp hvalid.2 u hu
      · obtain ⟨hsub, hkeep, hclaim⟩ := ih (front ++ [x]) queue r h
        have happend : front ++ [x] ++ rest = front ++ x :: rest := by simp
        rw [happend] at hsub hkeep
        refine ⟨hsub, ?_, hclaim⟩
        intro e he hopen
        exact hkeep e he (hopen.imp id fun hfront => List.mem_append.mpr (Or.inl hfront))

/-- The outcomes of `find_independent`. -/
theorem findIndependent_cases [DecidableEq V] {heuristic : V → V → ℤ} {m m' : Mem W V}
    {r : Option (Entry V)} (h : findIndependent heuristic m = (m', r)) :
    ∃ queue, queue.Sublist m.queue ∧
      (∀ e ∈ m.queue, m.isExpanded e.vertex = false → e ∈ queue) ∧
      (r = none ∧ m' = { m with queue := queue } ∨
        ∃ e before behind, r = some e ∧ m.isExpanded e.vertex = false ∧
          m.beingExpanded e.vertex = false ∧ queue = before ++ e :: behind ∧
          (∀ u ∈ before, m.g e.vertex ≤ m.g u.vertex + (heuristic u.vertex e.vertex : Dist)) ∧
          m' = { m with
            queue := queue, beingExpanded := Function.update m.beingExpanded e.vertex true }) := by
  unfold findIndependent at h
  split at h
  · cases h
    exact ⟨m.queue, List.Sublist.refl _, fun e he _ => he, Or.inl ⟨rfl, rfl⟩⟩
  · split at h
    · rename_i queue hscan
      cases h
      obtain ⟨hsub, hkeep, -⟩ := scan_spec heuristic m m.queue [] queue none hscan
      exact ⟨queue, hsub, fun e he hopen => hkeep e he (Or.inl hopen), Or.inl ⟨rfl, rfl⟩⟩
    · rename_i queue e hscan
      cases h
      obtain ⟨hsub, hkeep, hclaim⟩ := scan_spec heuristic m m.queue [] queue (some e) hscan
      obtain ⟨hopen, hidle, before, behind, hqueue, htest⟩ := hclaim e rfl
      exact ⟨queue, hsub, fun e he hopen => hkeep e he (Or.inl hopen),
        Or.inr ⟨e, before, behind, rfl, hopen, hidle, hqueue, htest, rfl⟩⟩

theorem MemOk.findIndependent [DecidableEq V] {P : Problem V} {m m' : Mem W V}
    {r : Option (Entry V)} (hm : MemOk P m) (h : findIndependent P.heuristic m = (m', r)) :
    MemOk P m' ∧ Grows m m' ∧ ∀ e, r = some e → Held m' e := by
  obtain ⟨queue, hsub, -, ⟨rfl, rfl⟩ | ⟨e, before, behind, rfl, -, -, hqueue, -, rfl⟩⟩ :=
    findIndependent_cases h
  · refine ⟨⟨hm.forest, ?_, hm.claimed, ?_, ?_⟩, ⟨fun _ h => h, fun _ => le_rfl, le_rfl, ?_, rfl⟩, nofun⟩
    · exact fun e he => hm.queued e (hsub.subset he)
    · exact fun e he => hm.fresh e (hsub.subset he)
    · exact fun e he e' he' => hm.names e (hsub.subset he) e' (hsub.subset he')
    · exact fun e he => Or.inl (hsub.subset he)
  · have he : e ∈ m.queue := hsub.subset (by simp [hqueue])
    have hclaimed : ∀ v, m.beingExpanded v = true →
        Function.update m.beingExpanded e.vertex true v = true :=
      fun v hv => update_mark_iff.mpr (Or.inr hv)
    refine ⟨⟨hm.forest.mono hclaimed, ?_, ?_, ?_, ?_⟩, ⟨hclaimed, fun _ => le_rfl, le_rfl, ?_, rfl⟩, ?_⟩
    · exact fun e' he' => hm.queued e' (hsub.subset he')
    · intro v hv
      rcases update_mark_iff.mp hv with rfl | hv
      · exact hm.queued e he
      · exact hm.claimed v hv
    · exact fun e' he' => hm.fresh e' (hsub.subset he')
    · exact fun e₁ he₁ e₂ he₂ => hm.names e₁ (hsub.subset he₁) e₂ (hsub.subset he₂)
    · exact fun e' he' => Or.inl (hsub.subset he')
    · rintro _ ⟨⟩
      exact ⟨by simp, hm.fresh e he, fun e' he' hid => hm.names e' (hsub.subset he') e he hid⟩

/-! ## Expanding a vertex -/

/-- The memory, and a worker with the finite snapshot `vdist` of the label of a claimed vertex. -/
structure Expanding (P : Problem V) (m : Mem W V) (v : V) (vdist : Dist) : Prop where
  mem : MemOk P m
  claimed : m.beingExpanded v = true
  snapshot : m.g v ≤ vdist
  finite : vdist ≠ ⊤

/-- A label is lowered and an entry for it inserted. -/
theorem relax_cases [DecidableEq V] (P : Problem V) (v : V) (vdist : Dist) (m : Mem W V)
    (arc : V × ℤ) :
    (m.g arc.1 ≤ vdist + (arc.2 : Dist) ∧ relax P v vdist m arc = m) ∨
    (vdist + (arc.2 : Dist) < m.g arc.1 ∧ relax P v vdist m arc =
      { m with
        g := Function.update m.g arc.1 (vdist + (arc.2 : Dist))
        pred := Function.update m.pred arc.1 (some v) }.insertLocked
          (vdist + (arc.2 : Dist) + (P.heuristic arc.1 P.destination : Dist)) arc.1) := by
  rcases lt_or_ge (vdist + (arc.2 : Dist)) (m.g arc.1) with hlt | hge
  · exact Or.inr ⟨hlt, if_pos hlt⟩
  · exact Or.inl ⟨hge, if_neg (not_lt.mpr hge)⟩

theorem Expanding.relax [DecidableEq V] {P : Problem V} {m : Mem W V} {v : V} {vdist : Dist}
    (h : Expanding P m v vdist) {arc : V × ℤ} (harc : arc ∈ P.graph.nbrs v) :
    Expanding P (relax P v vdist m arc) v vdist ∧ Grows m (relax P v vdist m arc) := by
  rcases relax_cases P v vdist m arc with ⟨-, heq⟩ | ⟨hlt, heq⟩ <;> rw [heq]
  · exact ⟨h, Grows.refl m⟩
  · have hlabel : ∀ u, Function.update m.g arc.1 (vdist + (arc.2 : Dist)) u ≤ m.g u :=
      update_le_self_iff.mpr hlt.le
    have hfin : ∀ u, m.g u ≠ ⊤ → Function.update m.g arc.1 (vdist + (arc.2 : Dist)) u ≠ ⊤ :=
      fun u hu => ne_top_of_le_ne_top hu (hlabel u)
    have hnew : Function.update m.g arc.1 (vdist + (arc.2 : Dist)) arc.1 ≠ ⊤ := by
      rw [Function.update_self]
      exact ne_top_of_lt hlt
    refine ⟨⟨{ forest := ?_, queued := ?_, claimed := ?_, fresh := ?_, names := ?_ }, h.claimed,
      (hlabel v).trans h.snapshot, h.finite⟩, ?_⟩
    · exact h.mem.forest.relax h.claimed h.snapshot harc hlt
    · intro e he
      rcases mem_insertLocked.mp he with rfl | he
      · exact hnew
      · exact hfin _ (h.mem.queued e he)
    · exact fun u hu => hfin u (h.mem.claimed u hu)
    · intro e he
      rcases mem_insertLocked.mp he with rfl | he
      · exact Nat.lt_succ_self _
      · exact (h.mem.fresh e he).trans (Nat.lt_succ_self _)
    · -- the new name is larger than every old one
      intro e he e' he' hid
      rcases mem_insertLocked.mp he with rfl | he <;> rcases mem_insertLocked.mp he' with rfl | he'
      · rfl
      · exact absurd hid (h.mem.fresh e' he').ne'
      · exact absurd hid (h.mem.fresh e he).ne
      · exact h.mem.names e he e' he' hid
    · refine ⟨fun _ hu => hu, hlabel, Nat.le_succ _, ?_, rfl⟩
      intro e he
      rcases mem_insertLocked.mp he with rfl | he
      · exact Or.inr le_rfl
      · exact Or.inl he

/-- The loop over the arcs. -/
theorem Expanding.relaxAll [DecidableEq V] {P : Problem V} {v : V} {vdist : Dist} :
    ∀ (arcs : List (V × ℤ)) {m : Mem W V}, Expanding P m v vdist →
      (∀ a ∈ arcs, a ∈ P.graph.nbrs v) →
      Expanding P (arcs.foldl (Pase.relax P v vdist) m) v vdist ∧
        Grows m (arcs.foldl (Pase.relax P v vdist) m) := by
  intro arcs
  induction arcs with
  | nil =>
    intro m h _
    exact ⟨h, Grows.refl m⟩
  | cons arc arcs ih =>
    intro m h harcs
    obtain ⟨h₁, hgrow₁⟩ := h.relax (harcs arc (List.mem_cons_self ..))
    obtain ⟨h₂, hgrow₂⟩ := ih h₁ fun a ha => harcs a (List.mem_cons_of_mem _ ha)
    exact ⟨h₂, hgrow₁.trans hgrow₂⟩

/-- **The second locked block keeps the memory in order.** -/
theorem Expanding.expand [DecidableEq V] {P : Problem V} {m : Mem W V} {e : Entry V} {vdist : Dist}
    (h : Expanding P m e.vertex vdist) :
    MemOk P (expand P e vdist m) ∧ Grows m (expand P e vdist m) := by
  obtain ⟨h', hgrow⟩ := h.relaxAll (P.graph.nbrs e.vertex) fun a ha => ha
  have hsub : ∀ e' ∈ (Pase.expand P e vdist m).queue,
      e' ∈ ((P.graph.nbrs e.vertex).foldl (Pase.relax P e.vertex vdist) m).queue :=
    fun e' he' => List.mem_of_mem_filter he'
  refine ⟨⟨h'.mem.forest, ?_, h'.mem.claimed, ?_, ?_⟩, hgrow.claimed, hgrow.label, hgrow.fresh, ?_,
    hgrow.flag⟩
  · exact fun e' he' => h'.mem.queued e' (hsub e' he')
  · exact fun e' he' => h'.mem.fresh e' (hsub e' he')
  · exact fun e₁ he₁ e₂ he₂ => h'.mem.names e₁ (hsub e₁ he₁) e₂ (hsub e₂ he₂)
  · exact fun e' he' => hgrow.queue e' (hsub e' he')

/-! ## Runs -/

/-- What a worker may rely on where it stands. -/
def PcOk (P : Problem V) (m : Mem W V) : Pc V → Prop
  | .claimed e | .readG e => Held m e
  | .expand e vdist => Held m e ∧ m.g e.vertex ≤ vdist ∧ vdist ≠ ⊤
  | .setDone => m.beingExpanded P.destination = true
  | .returned => m.isDone = true
  | .test | .find => True

theorem PcOk.mono {P : Problem V} {m m' : Mem W V} {p : Pc V} (h : PcOk P m p) (hm : Grows m m') :
    PcOk P m' p := by
  cases p with
  | claimed | readG => exact Held.mono h hm
  | expand e vdist => exact ⟨h.1.mono hm, (hm.label _).trans h.2.1, h.2.2⟩
  | setDone => exact hm.claimed _ h
  | returned => exact hm.flag.trans h
  | test | find => trivial

/-- **The invariant of `pase`.** -/
structure Inv (P : Problem V) (c : Config W V) : Prop where
  mem : MemOk P c.mem
  pcs : ∀ w, PcOk P c.mem (c.pc w)
  done : c.mem.isDone = true → c.mem.beingExpanded P.destination = true

theorem inv_start [DecidableEq V] (P : Problem V) :
    Inv P ({ mem := Mem.start P, pc := fun _ => .test } : Config W V) where
  mem := by
    have hqueue : ∀ e ∈ (Mem.start (W := W) P).queue,
        e = ⟨0, (P.heuristic P.source P.destination : Dist), P.source⟩ := by
      intro e he
      simpa [Mem.start, Mem.insertLocked] using he
    refine ⟨Forest.start .., ?_, nofun, ?_, ?_⟩
    · intro e he
      obtain rfl := hqueue e he
      simp [Mem.start, Mem.insertLocked]
    · intro e he
      obtain rfl := hqueue e he
      simp [Mem.start, Mem.insertLocked]
    · intro e he e' he' _
      obtain rfl := hqueue e he
      obtain rfl := hqueue e' he'
      rfl
  pcs _ := trivial
  done := nofun

/-- One worker moves; the memory grows. -/
theorem Inv.set [DecidableEq W] {P : Problem V} {c : Config W V} (I : Inv P c) {w : W} {m : Mem W V}
    {p : Pc V} (hm : MemOk P m) (hgrow : Grows c.mem m) (hp : PcOk P m p) : Inv P (c.set w m p) where
  mem := hm
  pcs v := by
    rcases eq_or_ne v w with rfl | hne
    · simpa [Config.set] using hp
    · simpa [Config.set, hne] using (I.pcs v).mono hgrow
  done h := hgrow.claimed _ (I.done (hgrow.flag ▸ h))

/-- **Every step keeps the invariant.** -/
theorem inv_next [DecidableEq V] [DecidableEq W] {P : Problem V} {w : W} {c c' : Config W V}
    (I : Inv P c) (h : next P w c = some c') : Inv P c' := by
  have hpc := I.pcs w
  cases hw : c.pc w <;> rw [hw] at hpc <;> simp only [next, hw] at h
  case test =>
    cases h
    apply I.set I.mem (Grows.refl _)
    split
    · assumption
    · trivial
  case find =>
    split at h <;> rename_i hfind <;> cases h
    · obtain ⟨hm, hgrow, -⟩ := I.mem.findIndependent hfind
      exact I.set hm hgrow trivial
    · obtain ⟨hm, hgrow, hheld⟩ := I.mem.findIndependent hfind
      exact I.set hm hgrow (hheld _ rfl)
  case claimed e =>
    cases h
    have hheld : Held c.mem e := hpc
    refine I.set ⟨I.mem.forest, I.mem.queued, I.mem.claimed, I.mem.fresh, I.mem.names⟩
      ⟨fun _ h => h, fun _ => le_rfl, le_rfl, fun _ h => Or.inl h, rfl⟩ ?_
    split
    · rename_i hdest
      show c.mem.beingExpanded P.destination = true
      rw [← hdest]
      exact hheld.claimed
    · exact ⟨hheld.claimed, hheld.fresh, hheld.name⟩
  case setDone =>
    cases h
    refine ⟨⟨I.mem.forest, I.mem.queued, I.mem.claimed, I.mem.fresh, I.mem.names⟩, ?_, fun _ => hpc⟩
    intro v
    rcases eq_or_ne v w with rfl | hne
    · simp [Config.set, PcOk]
    · -- the flag is the only thing that changes
      have hv := I.pcs v
      simp only [Config.set, Function.update_of_ne hne]
      cases hv' : c.pc v <;> rw [hv'] at hv
      case claimed | readG => exact ⟨hv.claimed, hv.fresh, hv.name⟩
      case expand => exact ⟨⟨hv.1.claimed, hv.1.fresh, hv.1.name⟩, hv.2⟩
      case setDone => exact hv
      case returned => exact rfl
      all_goals trivial
  case readG e =>
    cases h
    exact I.set I.mem (Grows.refl _) ⟨hpc, le_rfl, I.mem.claimed _ hpc.claimed⟩
  case expand e vdist =>
    cases h
    obtain ⟨hheld, hsnap, hfin⟩ := hpc
    obtain ⟨hm, hgrow⟩ := Expanding.expand ⟨I.mem, hheld.claimed, hsnap, hfin⟩
    exact I.set hm hgrow trivial
  case returned => cases h

theorem reachable_inv [DecidableEq V] [DecidableEq W] {P : Problem V} {c : Config W V}
    (hc : (pase P).Reachable c) : Inv P c := by
  apply hc.invariant (I := Inv P)
  · rintro _ rfl
    exact inv_start P
  · rintro c c' - I ⟨w, h⟩
    exact inv_next I h

end PwsaStar.Pase
