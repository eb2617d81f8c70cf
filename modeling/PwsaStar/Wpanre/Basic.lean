/-
# PwsaStar.Wpanre.Basic — `wpanre` of `wpanre.hpp`: one shared heap, no re-expansions.

All workers share one heap under one lock.  A worker pops a vertex, claims it with an exchange of
`is_expanded` outside the lock, reads its label outside the lock as well, and relaxes its arcs in a
second locked block.  So the label a worker relaxes with may be out of date by the time it does.

Every `locked.action` block is one step, every other access is a step of its own.  The pebble is
written together with the exchange that earns it, since only the winner writes it and nobody reads
it.  Arithmetic is exact, `⊤` is `INT_MAX`.
-/
import PwsaStar.Heap.Refine
import PwsaStar.Lib.PredForest

namespace PwsaStar.Wpanre

open PwsaStar.Lib PwsaStar.Heap

/-! ## The program -/

/-- `wpanre_state` for all vertices, the pebbles, the shared heap and the flag.  `claims` logs whose
exchange has set which `is_expanded`; the program does not read it. -/
structure Mem (W V : Type*) where
  isExpanded : V → Bool
  pred : V → Option V
  g : V → Dist
  h : V → ℤ
  pebbles : Option (V → Option W)
  frontier : ValidHeap Dist V
  isDone : Bool
  claims : List (W × V)

/-- The arguments of the search. -/
structure Problem (V : Type*) where
  graph : WGraph V
  heuristic : V → ℤ
  source : V
  destination : V
  pebble : Bool

variable {W V : Type*} [DecidableEq V]

/-- `my_heur`: the heuristic, memoized in `h`. -/
def myHeur (heuristic : V → ℤ) (m : Mem W V) (v : V) : ℤ × Mem W V :=
  if m.h v = -1 then (heuristic v, { m with h := Function.update m.h v (heuristic v) })
  else (m.h v, m)

/-- `frontier.insert(dist + my_heur(v), v)` -/
def Mem.insertFrontier (P : Problem V) (m : Mem W V) (dist : Dist) (v : V) : Mem W V :=
  let (heur, m') := myHeur P.heuristic m v
  { m' with frontier := m'.frontier.insert (dist + (heur : Dist)) v }

/-- The body of the lambda passed to `for_each_neighbor_of(v, …)`. -/
def relax (P : Problem V) (v : V) (vdist : Dist) (m : Mem W V) (arc : V × ℤ) : Mem W V :=
  let nbrdist := vdist + (arc.2 : Dist)
  if nbrdist < m.g arc.1 then
    let m' := m.insertFrontier P nbrdist arc.1
    { m' with
      g := Function.update m'.g arc.1 nbrdist
      pred := Function.update m'.pred arc.1 (some v) }
  else m

/-- `is_expanded` of `v` is set by `w`, and its pebble when there are pebbles. -/
def Mem.mark (m : Mem W V) (w : W) (v : V) : Mem W V :=
  { m with
    isExpanded := Function.update m.isExpanded v true
    pebbles := m.pebbles.map fun pebbles => Function.update pebbles v (some w)
    claims := (w, v) :: m.claims }

/-- Where a worker stands in `body`. -/
inductive Pc (V : Type*) where
  /-- `while (!is_done.load())` -/
  | test
  /-- the first locked block -/
  | pop
  /-- `orig = states[v].is_expanded.load()` -/
  | loadExpanded (v : V)
  /-- `states[v].is_expanded.compare_exchange_strong(orig, true)` -/
  | casExpanded (v : V)
  /-- `is_done.store(true)` -/
  | setDone
  /-- `vdist = states[v].g`, outside the lock -/
  | readG (v : V)
  /-- the second locked block -/
  | relax (v : V) (vdist : Dist)
  | returned
  deriving DecidableEq

structure Config (W V : Type*) where
  mem : Mem W V
  pc : W → Pc V

variable [DecidableEq W]

/-- Worker `w` leaves memory `m` and goes on at `p`. -/
def Config.set (c : Config W V) (w : W) (m : Mem W V) (p : Pc V) : Config W V where
  mem := m
  pc := Function.update c.pc w p

/-- One step of worker `w`. -/
def next (P : Problem V) (w : W) (c : Config W V) : Option (Config W V) :=
  match c.pc w with
  | .test => some (c.set w c.mem (if c.mem.isDone then .returned else .pop))
  | .pop =>
    match c.mem.frontier.deleteMin with
    -- the heap is empty: `hiccup(); continue`
    | none => some (c.set w c.mem .test)
    | some (v, frontier) => some (c.set w { c.mem with frontier := frontier } (.loadExpanded v))
  | .loadExpanded v =>
    some (c.set w c.mem (if c.mem.isExpanded v then .test else .casExpanded v))
  | .casExpanded v =>
    if c.mem.isExpanded v then some (c.set w c.mem .test)
    else some (c.set w (c.mem.mark w v) (if v = P.destination then .setDone else .readG v))
  | .setDone => some (c.set w { c.mem with isDone := true } .returned)
  | .readG v => some (c.set w c.mem (.relax v (c.mem.g v)))
  | .relax v vdist => some (c.set w ((P.graph.nbrs v).foldl (relax P v vdist) c.mem) .test)
  | .returned => none

/-- `states`, `pebbles` and `frontier` before the initial insertion.  `block` is what the heap
constructor allocates. -/
def Mem.new (block : ℕ → KV Dist V) (P : Problem V) : Mem W V where
  isExpanded _ := false
  pred _ := none
  g := Function.update (fun _ => ⊤) P.source 0
  h _ := -1
  pebbles := if P.pebble then some fun _ => none else none
  frontier := ValidHeap.new block
  isDone := false
  claims := []

/-- The memory when the workers start. -/
def Mem.start (block : ℕ → KV Dist V) (P : Problem V) : Mem W V :=
  (Mem.new block P).insertFrontier P 0 P.source

/-- All runs of `wpanre`. -/
def wpanre (block : ℕ → KV Dist V) (P : Problem V) : System (Config W V) where
  init c := c = { mem := Mem.start block P, pc := fun _ => .test }
  step c c' := ∃ w, next P w c = some c'

/-! ## The memory between two steps -/

/-- Claims stay and labels only drop. -/
structure Grows (m m' : Mem W V) : Prop where
  expanded : ∀ v, m.isExpanded v = true → m'.isExpanded v = true
  label : ∀ v, m'.g v ≤ m.g v
  flag : m'.isDone = m.isDone

/-- **What holds of the memory**, whatever the heuristic is. -/
structure MemOk (P : Problem V) (m : Mem W V) : Prop where
  forest : Forest P.graph P.source (fun v => m.isExpanded v = true) m.g m.pred
  queued : ∀ e ∈ m.frontier.entries, m.g e.value ≠ ⊤
  expanded : ∀ v, m.isExpanded v = true → m.g v ≠ ⊤

omit [DecidableEq V] [DecidableEq W]

theorem Grows.refl (m : Mem W V) : Grows m m := ⟨fun _ h => h, fun _ => le_rfl, rfl⟩

theorem Grows.trans {m₁ m₂ m₃ : Mem W V} (h₁ : Grows m₁ m₂) (h₂ : Grows m₂ m₃) : Grows m₁ m₃ where
  expanded v h := h₂.expanded v (h₁.expanded v h)
  label v := (h₂.label v).trans (h₁.label v)
  flag := h₂.flag.trans h₁.flag

theorem Grows.ne_top {m m' : Mem W V} (hm : Grows m m') {v : V} (h : m.g v ≠ ⊤) : m'.g v ≠ ⊤ :=
  ne_top_of_le_ne_top h (hm.label v)

section

variable [DecidableEq V] {P : Problem V}

/-- An insertion writes the memo and the heap and nothing else. -/
theorem insertFrontier_eq (P : Problem V) (m : Mem W V) (dist : Dist) (v : V) :
    ∃ h priority, m.insertFrontier P dist v =
      { m with h := h, frontier := m.frontier.insert priority v } := by
  by_cases hmemo : m.h v = -1
  · exact ⟨_, _, by simp only [Mem.insertFrontier, myHeur, if_pos hmemo]; rfl⟩
  · exact ⟨m.h, _, by simp only [Mem.insertFrontier, myHeur, if_neg hmemo]; rfl⟩

theorem memOk_start (block : ℕ → KV Dist V) (P : Problem V) :
    MemOk P (Mem.start (W := W) block P) := by
  obtain ⟨h, priority, heq⟩ := insertFrontier_eq P (Mem.new (W := W) block P) 0 P.source
  rw [Mem.start, heq]
  refine ⟨Forest.start .., ?_, nofun⟩
  intro e he
  obtain rfl : e = ⟨priority, P.source⟩ := by simpa [Mem.new] using he
  simp [Mem.new]

/-- Claiming a labelled vertex keeps the memory in order. -/
theorem MemOk.mark {m : Mem W V} (hm : MemOk P m) (w : W) {v : V} (hv : m.g v ≠ ⊤) :
    MemOk P (m.mark w v) ∧ Grows m (m.mark w v) := by
  have hexp : ∀ u, m.isExpanded u = true → (m.mark w v).isExpanded u = true :=
    fun u hu => update_mark_iff.mpr (Or.inr hu)
  refine ⟨⟨hm.forest.mono hexp, hm.queued, ?_⟩, hexp, fun _ => le_rfl, rfl⟩
  intro u hu
  rcases update_mark_iff.mp hu with rfl | hu
  · exact hv
  · exact hm.expanded u hu

/-! ## Expanding a vertex -/

/-- The memory, and a worker with the finite snapshot `vdist` of the label of a claimed vertex. -/
structure Expanding (P : Problem V) (m : Mem W V) (v : V) (vdist : Dist) : Prop where
  mem : MemOk P m
  claimed : m.isExpanded v = true
  snapshot : m.g v ≤ vdist

/-- A label is lowered and an entry for it inserted, or nothing happens. -/
theorem relax_cases (P : Problem V) (v : V) (vdist : Dist) (m : Mem W V) (arc : V × ℤ) :
    (m.g arc.1 ≤ vdist + (arc.2 : Dist) ∧ relax P v vdist m arc = m) ∨
    (vdist + (arc.2 : Dist) < m.g arc.1 ∧ ∃ h priority, relax P v vdist m arc =
      { m with
        h := h
        frontier := m.frontier.insert priority arc.1
        g := Function.update m.g arc.1 (vdist + (arc.2 : Dist))
        pred := Function.update m.pred arc.1 (some v) }) := by
  rcases lt_or_ge (vdist + (arc.2 : Dist)) (m.g arc.1) with hlt | hge
  · obtain ⟨h, priority, heq⟩ := insertFrontier_eq P m (vdist + (arc.2 : Dist)) arc.1
    refine Or.inr ⟨hlt, h, priority, ?_⟩
    show (if _ then _ else _) = _
    rw [if_pos hlt, heq]
  · exact Or.inl ⟨hge, if_neg (not_lt.mpr hge)⟩

theorem Expanding.relax {m : Mem W V} {v : V} {vdist : Dist} (h : Expanding P m v vdist)
    {arc : V × ℤ} (harc : arc ∈ P.graph.nbrs v) :
    Expanding P (relax P v vdist m arc) v vdist ∧ Grows m (relax P v vdist m arc) := by
  rcases relax_cases P v vdist m arc with ⟨-, heq⟩ | ⟨hlt, memo, priority, heq⟩ <;> rw [heq]
  · exact ⟨h, Grows.refl m⟩
  · have hlabel : ∀ u, Function.update m.g arc.1 (vdist + (arc.2 : Dist)) u ≤ m.g u :=
      update_le_self_iff.mpr hlt.le
    have hgrow : Grows m { m with
        h := memo
        frontier := m.frontier.insert priority arc.1
        g := Function.update m.g arc.1 (vdist + (arc.2 : Dist))
        pred := Function.update m.pred arc.1 (some v) } := ⟨fun _ hu => hu, hlabel, rfl⟩
    refine ⟨⟨⟨?_, ?_, ?_⟩, h.claimed, (hlabel v).trans h.snapshot⟩, hgrow⟩
    · exact h.mem.forest.relax h.claimed h.snapshot harc hlt
    · intro e he
      rcases Multiset.mem_cons.mp (by simpa using he) with rfl | he
      · show Function.update m.g arc.1 _ arc.1 ≠ ⊤
        rw [Function.update_self]
        exact ne_top_of_lt hlt
      · exact hgrow.ne_top (h.mem.queued e he)
    · exact fun u hu => hgrow.ne_top (h.mem.expanded u hu)

/-- **The second locked block keeps the memory in order.** -/
theorem Expanding.relaxAll {v : V} {vdist : Dist} :
    ∀ (arcs : List (V × ℤ)) {m : Mem W V}, Expanding P m v vdist →
      (∀ a ∈ arcs, a ∈ P.graph.nbrs v) →
      Expanding P (arcs.foldl (Wpanre.relax P v vdist) m) v vdist ∧
        Grows m (arcs.foldl (Wpanre.relax P v vdist) m) := by
  intro arcs
  induction arcs with
  | nil =>
    intro m h _
    exact ⟨h, Grows.refl m⟩
  | cons arc arcs ih =>
    intro m h harcs
    obtain ⟨h₁, hgrow₁⟩ := h.relax (harcs arc (List.mem_cons_self ..))
    obtain ⟨h₂, hgrow₂⟩ := ih h₁ fun a ha => harcs a (List.mem_cons_of_mem _ ha)
    exact ⟨h₂, hgrow₁.trans hgrow₂⟩

end

/-! ## Runs -/

/-- What a worker may rely on where it stands. -/
def PcOk (P : Problem V) (m : Mem W V) : Pc V → Prop
  | .loadExpanded v | .casExpanded v => m.g v ≠ ⊤
  | .readG v => m.isExpanded v = true
  | .relax v vdist => m.isExpanded v = true ∧ m.g v ≤ vdist
  | .setDone => m.isExpanded P.destination = true
  | .returned => m.isDone = true
  | .test | .pop => True

theorem PcOk.mono {P : Problem V} {m m' : Mem W V} {p : Pc V} (h : PcOk P m p) (hm : Grows m m') :
    PcOk P m' p := by
  cases p with
  | loadExpanded | casExpanded => exact hm.ne_top h
  | readG => exact hm.expanded _ h
  | relax v vdist => exact ⟨hm.expanded _ h.1, (hm.label _).trans h.2⟩
  | setDone => exact hm.expanded _ h
  | returned => exact hm.flag.trans h
  | test | pop => trivial

/-- **The invariant of `wpanre`.** -/
structure Inv (P : Problem V) (c : Config W V) : Prop where
  mem : MemOk P c.mem
  pcs : ∀ w, PcOk P c.mem (c.pc w)
  done : c.mem.isDone = true → c.mem.isExpanded P.destination = true

theorem inv_start [DecidableEq V] (block : ℕ → KV Dist V) (P : Problem V) :
    Inv P ({ mem := Mem.start block P, pc := fun _ => .test } : Config W V) where
  mem := memOk_start block P
  pcs _ := trivial
  done h := by
    obtain ⟨memo, priority, heq⟩ := insertFrontier_eq P (Mem.new (W := W) block P) 0 P.source
    rw [Mem.start, heq] at h
    cases h

/-- One worker moves; the memory grows. -/
theorem Inv.set [DecidableEq W] {P : Problem V} {c : Config W V} (I : Inv P c) {w : W} {m : Mem W V}
    {p : Pc V} (hm : MemOk P m) (hgrow : Grows c.mem m) (hp : PcOk P m p) : Inv P (c.set w m p) where
  mem := hm
  pcs v := by
    rcases eq_or_ne v w with rfl | hne
    · simpa [Config.set] using hp
    · simpa [Config.set, hne] using (I.pcs v).mono hgrow
  done h := hgrow.expanded _ (I.done (hgrow.flag ▸ h))

/-- **Every step keeps the invariant.** -/
theorem inv_next [DecidableEq V] [DecidableEq W] {P : Problem V} {w : W} {c c' : Config W V}
    (I : Inv P c) (h : next P w c = some c') : Inv P c' := by
  have hpc := I.pcs w
  cases hw : c.pc w <;> rw [hw] at hpc <;> simp only [next, hw] at h
  case test =>
    cases h
    apply I.set I.mem (Grows.refl _)
    split
    · assumption
    · trivial
  case pop =>
    split at h <;> cases h
    · exact I.set I.mem (Grows.refl _) trivial
    · rename_i v frontier hmin
      obtain ⟨p, hentries, -⟩ := ValidHeap.entries_deleteMin hmin
      refine I.set ⟨I.mem.forest, ?_, I.mem.expanded⟩ ⟨fun _ h => h, fun _ => le_rfl, rfl⟩ ?_
      · intro e he
        exact I.mem.queued e (by rw [hentries]; exact Multiset.mem_cons_of_mem he)
      · exact I.mem.queued ⟨p, v⟩ (by rw [hentries]; exact Multiset.mem_cons_self ..)
  case loadExpanded v =>
    cases h
    apply I.set I.mem (Grows.refl _)
    split
    · trivial
    · exact hpc
  case casExpanded v =>
    split at h <;> cases h
    · exact I.set I.mem (Grows.refl _) trivial
    · obtain ⟨hm, hgrow⟩ := I.mem.mark w hpc
      apply I.set hm hgrow
      split
      · rename_i hdest
        show (c.mem.mark w v).isExpanded P.destination = true
        simp [Mem.mark, hdest]
      · show (c.mem.mark w v).isExpanded v = true
        simp [Mem.mark]
  case setDone =>
    cases h
    refine ⟨⟨I.mem.forest, I.mem.queued, I.mem.expanded⟩, ?_, fun _ => hpc⟩
    intro v
    rcases eq_or_ne v w with rfl | hne
    · simp [Config.set, PcOk]
    · -- the flag is the only thing that changes
      have hv := I.pcs v
      simp only [Config.set, Function.update_of_ne hne]
      cases hv' : c.pc v <;> rw [hv'] at hv
      case returned => exact rfl
      all_goals exact hv
  case readG v =>
    cases h
    exact I.set I.mem (Grows.refl _) ⟨hpc, le_rfl⟩
  case relax v vdist =>
    cases h
    obtain ⟨h', hgrow⟩ := Expanding.relaxAll (P.graph.nbrs v) ⟨I.mem, hpc.1, hpc.2⟩ fun a ha => ha
    exact I.set h'.mem hgrow trivial
  case returned => cases h

theorem reachable_inv [DecidableEq V] [DecidableEq W] {block : ℕ → KV Dist V} {P : Problem V}
    {c : Config W V} (hc : (wpanre block P).Reachable c) : Inv P c := by
  apply hc.invariant (I := Inv P)
  · rintro _ rfl
    exact inv_start block P
  · rintro c c' - I ⟨w, h⟩
    exact inv_next I h

end PwsaStar.Wpanre
