/-
# PwsaStar.AStar — `astar` and `astarT` of `astar.hpp`: weighted A* over the array heap.

Both functions are `astarSearch`, a loop that pops, tests for the destination, skips expanded
vertices and otherwise relaxes every arc of the popped vertex; `astarT` additionally leaves the
program when a popped label is negative.  Arithmetic is exact: labels and heap priorities are
`Dist`, an integer or `⊤`, which is `numeric_limits<Number>::max()`.

Vertices are never re-opened, yet the labels and predecessors of expanded vertices keep changing and
the heap holds stale entries.  `Inv` is the loop invariant; the bound itself is `Lib.Settled`, fed by
the minimality of the popped entry (`Inv.pop_bound`), and the path is `Lib.Forest`.
-/
import PwsaStar.Heap.Refine
import PwsaStar.Lib.PredForest
import PwsaStar.Lib.BoundedSearch

namespace PwsaStar.AStar

open PwsaStar.Lib PwsaStar.Heap

variable {V : Type*} [DecidableEq V]

/-! ## The program -/

/-- `astar_state` for all vertices, the pebbles, the frontier, and the log of
`for_each_neighbor_of` calls. -/
structure State (V : Type*) where
  isExpanded : V → Bool
  dist : V → Dist
  pred : V → Option V
  pebbles : Option (V → ℤ)
  frontier : ValidHeap Dist V
  expansions : List V

/-- How the loop can end. -/
inductive Outcome (V : Type*) where
  /-- The destination was popped, after this many pops in all. -/
  | found (st : State V) (pops : ℕ)
  /-- `delete_min` was called on an empty heap. -/
  | emptyPop
  /-- `astarT` met a negative label and left the program. -/
  | negativeG
  /-- The iterations ran out. -/
  | outOfFuel

/-- The body of the lambda passed to `for_each_neighbor_of(v, …)`. -/
def relax (heuristic : V → ℤ) (v : V) (st : State V) (arc : V × ℤ) : State V :=
  let nbrdist := st.dist v + (arc.2 : Dist)
  if nbrdist < st.dist arc.1 then
    { st with
      frontier := st.frontier.insert ((heuristic arc.1 : Dist) + nbrdist) arc.1
      dist := Function.update st.dist arc.1 nbrdist
      pred := Function.update st.pred arc.1 (some v) }
  else st

/-- Marking `v` expanded, before its arcs are relaxed. -/
def mark (v : V) (st : State V) : State V :=
  { st with
    isExpanded := Function.update st.isExpanded v true
    pebbles := st.pebbles.map fun pebbles => Function.update pebbles v 0
    expansions := v :: st.expansions }

/-- The main loop; the first argument bounds the iterations, `pops` counts the pops so far. -/
def loop (checkNegative : Bool) (G : WGraph V) (heuristic : V → ℤ) (destination : V) :
    ℕ → ℕ → State V → Outcome V
  | 0, _, _ => .outOfFuel
  | fuel + 1, pops, st =>
    match st.frontier.deleteMin with
    | none => .emptyPop
    | some (v, frontier) =>
      let st₁ := { st with frontier := frontier }
      if v = destination then .found st₁ (pops + 1)
      else if st.isExpanded v then loop checkNegative G heuristic destination fuel (pops + 1) st₁
      else if checkNegative ∧ st.dist v < 0 then .negativeG
      else loop checkNegative G heuristic destination fuel (pops + 1)
        ((G.nbrs v).foldl (relax heuristic v) (mark v st₁))

/-- The initial states array and the frontier with the source in it.  `block` is the memory the heap
constructor allocates. -/
def start (block : ℕ → KV Dist V) (heuristic : V → ℤ) (source : V) (pebble : Bool) : State V where
  isExpanded _ := false
  dist := Function.update (fun _ => ⊤) source 0
  pred _ := none
  pebbles := if pebble then some fun _ => -1 else none
  frontier := (ValidHeap.new block).insert (heuristic source) source
  expansions := []

/-- The common text of the two searches. -/
def astarSearch (checkNegative : Bool) (block : ℕ → KV Dist V) (G : WGraph V) (heuristic : V → ℤ)
    (source destination : V) (pebble : Bool) (fuel : ℕ) : Outcome V :=
  loop checkNegative G heuristic destination fuel 0 (start block heuristic source pebble)

/-- `astar`. -/
def astar (block : ℕ → KV Dist V) (G : WGraph V) (heuristic : V → ℤ) (source destination : V)
    (pebble : Bool) (fuel : ℕ) : Outcome V :=
  astarSearch false block G heuristic source destination pebble fuel

/-- `astarT`. -/
def astarT (block : ℕ → KV Dist V) (G : WGraph V) (heuristic : V → ℤ) (source destination : V)
    (pebble : Bool) (fuel : ℕ) : Outcome V :=
  astarSearch true block G heuristic source destination pebble fuel

/-! ## The invariant -/

/-- The vertices whose arcs have all been relaxed: everything expanded except the vertex `cur` whose
arcs are being relaxed at the moment. -/
def Closed (st : State V) (cur : Option V) (v : V) : Prop := st.isExpanded v = true ∧ cur ≠ some v

omit [DecidableEq V] in
/-- Between two expansions the closed vertices are the expanded ones. -/
theorem not_closed_none {st : State V} {v : V} : ¬ Closed st none v ↔ st.isExpanded v = false := by
  simp [Closed]

/-- **The loop invariant**, also in the middle of an expansion. -/
structure Inv (G : WGraph V) (W : ℝ) (H : V → ℤ) (s : V) (cur : Option V) (st : State V) : Prop where
  forest : Forest G s (fun v => st.isExpanded v = true) st.dist st.pred
  settled : Settled G s W (Closed st cur) st.dist
  queued : ∀ v (a : ℤ), st.dist v = (a : Dist) → st.isExpanded v = false →
    (⟨((H v + a : ℤ) : Dist), v⟩ : KV Dist V) ∈ st.frontier.entries
  keys : ∀ e ∈ st.frontier.entries, (H e.value : Dist) + st.dist e.value ≤ e.priority ∧
    st.dist e.value ≠ ⊤
  logged : ∀ v, v ∈ st.expansions ↔ st.isExpanded v = true
  nodup : st.expansions.Nodup

variable {G : WGraph V} {W : ℝ} {H : V → ℤ} {s : V}

theorem inv_start (G : WGraph V) (W : ℝ) (block : ℕ → KV Dist V) (H : V → ℤ) (s : V)
    (pebble : Bool) : Inv G W H s none (start block H s pebble) where
  forest := Forest.start G s _ _
  settled := by
    refine (Settled.start G s W ?_).congr ?_
    · simp [start]
    · rintro v ⟨hv, -⟩
      exact absurd hv (by simp [start])
  queued := by
    intro v a ha _
    by_cases hv : v = s
    · subst hv
      have h0 : a = 0 := by
        have : (0 : Dist) = (a : Dist) := by simpa [start] using ha
        exact_mod_cast this.symm
      subst h0
      simp [start]
    · simp [start, Function.update_of_ne hv] at ha
  keys := by
    intro e he
    obtain rfl : e = ⟨(H s : Dist), s⟩ := by simpa [start] using he
    simp [start]
  logged := by simp [start]
  nodup := by simp [start]

omit [DecidableEq V] in
/-- The popped minimum of an unexpanded vertex is within the bound, for every walk. -/
theorem Inv.pop_bound {st : State V} (I : Inv G W H s none st) (hH : G.Consistent W H) {v : V}
    {frontier : ValidHeap Dist V} (hpop : st.frontier.deleteMin = some (v, frontier))
    (hv : st.isExpanded v = false) :
    ∃ a : ℤ, st.dist v = (a : Dist) ∧ ∀ d, G.Walk s v d → (a : ℝ) ≤ W * d := by
  obtain ⟨p, hent, hmin⟩ := ValidHeap.entries_deleteMin hpop
  obtain ⟨hkey, hfin⟩ := I.keys ⟨p, v⟩ (by rw [hent]; exact Multiset.mem_cons_self _ _)
  obtain ⟨a, ha⟩ := WithTop.ne_top_iff_exists.mp hfin
  have ha' : st.dist v = (a : Dist) := ha.symm
  refine ⟨a, ha', ?_⟩
  intro d hw
  have hrule : ∀ u (b : ℤ) d₂, ¬ Closed st none u → st.dist u = (b : Dist) → G.Walk u v d₂ →
      (a : ℝ) ≤ b + W * d₂ := by
    -- an open labelled vertex has an entry with its exact key, which is not below the popped one
    intro u b d₂ hu hb hrest
    have hmem := I.queued u b hb (not_closed_none.mp hu)
    have h1 : (H v : Dist) + (a : Dist) ≤ ((H u + b : ℤ) : Dist) := by
      rw [← ha']
      exact hkey.trans (hmin _ hmem)
    have h2 : H v + a ≤ H u + b := by exact_mod_cast h1
    have h3 : (H v : ℝ) + a ≤ H u + b := by exact_mod_cast h2
    have h4 := hrest.potential_le hH
    linarith
  obtain ⟨a', ha'', hle⟩ := I.settled.select (not_closed_none.mpr hv) ha' hrule hw
  rw [ha'] at ha''
  obtain rfl : a = a' := by exact_mod_cast ha''
  exact hle

omit [DecidableEq V] in
/-- As long as a reachable vertex is not expanded, the frontier is not empty. -/
theorem Inv.frontier_nonempty {st : State V} (I : Inv G W H s none st) {t : V}
    (ht : st.isExpanded t = false) (hreach : G.Reaches s t) : 0 < st.frontier.size := by
  obtain ⟨d, hw⟩ := hreach
  obtain ⟨u, d₁, d₂, -, hu, -, b, hb, -⟩ :=
    I.settled.exists_open (not_closed_none.mpr ht) hw
  have hmem := I.queued u b hb (not_closed_none.mp hu)
  exact ValidHeap.size_pos_of_mem hmem

/-! ## The steps of the loop keep the invariant -/

omit [DecidableEq V] in
/-- Dropping an entry of an expanded vertex. -/
theorem Inv.drop {st : State V} (I : Inv G W H s none st) {v : V} {frontier : ValidHeap Dist V}
    (hpop : st.frontier.deleteMin = some (v, frontier)) (hv : st.isExpanded v = true) :
    Inv G W H s none { st with frontier := frontier } := by
  obtain ⟨p, hent, -⟩ := ValidHeap.entries_deleteMin hpop
  refine { I with queued := ?_, keys := ?_ }
  · intro u a ha hu
    have hmem := I.queued u a ha hu
    rw [hent] at hmem
    rcases Multiset.mem_cons.mp hmem with heq | hmem
    · have huv : u = v := congrArg KV.value heq
      simp [huv, hv] at hu
    · exact hmem
  · intro e he
    exact I.keys e (by rw [hent]; exact Multiset.mem_cons_of_mem he)

/-- Marking a popped vertex as expanded, with none of its arcs relaxed yet. -/
theorem Inv.mark {st : State V} (I : Inv G W H s none st) {v : V} {frontier : ValidHeap Dist V}
    (hpop : st.frontier.deleteMin = some (v, frontier)) (hv : st.isExpanded v = false) :
    Inv G W H s (some v) (mark v { st with frontier := frontier }) := by
  obtain ⟨p, hent, -⟩ := ValidHeap.entries_deleteMin hpop
  have hold : ∀ u, u ≠ v → (AStar.mark v { st with frontier := frontier }).isExpanded u
      = st.isExpanded u := fun u hu => Function.update_of_ne hu _ _
  refine
    { forest := I.forest.mono ?_
      settled := I.settled.congr ?_
      queued := ?_
      keys := ?_
      logged := ?_
      nodup := ?_ }
  · intro u hu
    exact update_mark_iff.mpr (Or.inr hu)
  · rintro u ⟨hu, hne⟩
    have huv : u ≠ v := fun h => hne (by rw [h])
    rw [hold u huv] at hu
    exact ⟨hu, by simp⟩
  · intro u a ha hu
    have huv : u ≠ v := by
      rintro rfl
      simp [AStar.mark] at hu
    rw [hold u huv] at hu
    have hmem := I.queued u a ha hu
    rw [hent] at hmem
    rcases Multiset.mem_cons.mp hmem with heq | hmem
    · exact absurd (congrArg KV.value heq) huv
    · exact hmem
  · intro e he
    exact I.keys e (by rw [hent]; exact Multiset.mem_cons_of_mem he)
  · intro u
    by_cases huv : u = v
    · subst huv; simp [AStar.mark]
    · rw [hold u huv, ← I.logged u]
      simp [AStar.mark, huv]
  · refine List.nodup_cons.mpr ⟨?_, I.nodup⟩
    intro hmem
    rw [(I.logged v).mp hmem] at hv
    exact absurd hv (by simp)

/-- What relaxing one arc of the vertex `v` under expansion does. -/
structure RelaxSpec (G : WGraph V) (W : ℝ) (H : V → ℤ) (s v : V) (a : ℤ) (st st' : State V) : Prop where
  inv : Inv G W H s (some v) st'
  own : st'.dist v = (a : Dist)
  lower : ∀ u, st'.dist u ≤ st.dist u
  expanded : st'.isExpanded = st.isExpanded
  grow : st'.frontier.size ≤ st.frontier.size + 1

/-- A search relaxes the arcs of the vertex under expansion with `r`, whatever it does about the
frontier. -/
def Relaxes (G : WGraph V) (W : ℝ) (H : V → ℤ) (s : V) (r : V → State V → V × ℤ → State V) : Prop :=
  ∀ (v : V) (a : ℤ) (st : State V) (arc : V × ℤ), Inv G W H s (some v) st →
    st.isExpanded v = true → st.dist v = (a : Dist) → G.Arc v arc.1 arc.2 →
    RelaxSpec G W H s v a st (r v st arc) ∧ (r v st arc).dist arc.1 ≤ ((a + arc.2 : ℤ) : Dist)

/-- **Lowering a label keeps the invariant**, if the frontier gains nothing but the new key of the
head, and gains that when the head is not expanded. -/
theorem Inv.improve {st : State V} {v x : V} {a w : ℤ} (I : Inv G W H s (some v) st)
    (hv : st.isExpanded v = true) (ha : st.dist v = (a : Dist)) (harc : G.Arc v x w)
    (hlt : ((a + w : ℤ) : Dist) < st.dist x) {frontier : ValidHeap Dist V}
    (hkept : ∀ e ∈ st.frontier.entries, e ∈ frontier.entries)
    (hnew : ∀ e ∈ frontier.entries,
      e ∈ st.frontier.entries ∨ e = ⟨(H x : Dist) + ((a + w : ℤ) : Dist), x⟩)
    (hopen : st.isExpanded x = false →
      (⟨(H x : Dist) + ((a + w : ℤ) : Dist), x⟩ : KV Dist V) ∈ frontier.entries)
    (hsize : frontier.size ≤ st.frontier.size + 1) :
    RelaxSpec G W H s v a st
      { st with
        frontier := frontier
        dist := Function.update st.dist x ((a + w : ℤ) : Dist)
        pred := Function.update st.pred x (some v) } := by
  -- never at `v` itself, whose arcs weigh nothing negative
  have hw : 0 ≤ w := harc.nonneg
  have hxv : x ≠ v := by
    rintro rfl
    rw [ha] at hlt
    have : a + w < a := by exact_mod_cast hlt
    omega
  have hlower : ∀ u, Function.update st.dist x ((a + w : ℤ) : Dist) u ≤ st.dist u :=
    update_le_self_iff.mpr hlt.le
  have hlt' : (a : Dist) + (w : Dist) < st.dist x := by
    rw [← WithTop.coe_add]
    exact hlt
  have hforest := I.forest.relax hv ha.le harc hlt'
  have hxs : s ≠ x := by
    rintro rfl
    rw [I.forest.root] at hlt
    have hnn : (0 : Dist) ≤ (a : Dist) := ha ▸ I.forest.nonneg v
    have h1 : 0 ≤ a := by exact_mod_cast hnn
    have h2 : a + w < 0 := by exact_mod_cast hlt
    omega
  refine ⟨{ I with forest := ?_, settled := ?_, queued := ?_, keys := ?_ }, ?_, hlower, rfl, hsize⟩
  · simpa only [WithTop.coe_add] using hforest
  · exact I.settled.lower hlower ((Function.update_of_ne hxs _ _).trans I.settled.root)
  · intro u b hb hu
    dsimp only at hb ⊢
    by_cases hux : u = x
    · subst hux
      rw [Function.update_self] at hb
      obtain rfl : a + w = b := by exact_mod_cast hb
      exact hopen hu
    · rw [Function.update_of_ne hux] at hb
      exact hkept _ (I.queued u b hb hu)
  · intro e he
    dsimp only at he ⊢
    rcases hnew e he with he | rfl
    · obtain ⟨hkey, hfin⟩ := I.keys e he
      refine ⟨?_, ne_top_of_le_ne_top hfin (hlower e.value)⟩
      exact (add_le_add_right (hlower e.value) _).trans hkey
    · simp
  · exact (Function.update_of_ne (Ne.symm hxv) _ _).trans ha

theorem relaxes_relax : Relaxes G W H s (relax H) := by
  rintro v a st ⟨x, w⟩ I hv ha harc
  have hcoe : st.dist v + (w : Dist) = ((a + w : ℤ) : Dist) := by rw [ha]; rfl
  unfold relax
  simp only [hcoe]
  split_ifs with hlt
  · refine ⟨I.improve hv ha harc hlt ?_ ?_ ?_ (ValidHeap.size_insert ..).le, by simp⟩
    · intro e he
      rw [ValidHeap.entries_insert]
      exact Multiset.mem_cons_of_mem he
    · intro e he
      rw [ValidHeap.entries_insert] at he
      exact (Multiset.mem_cons.mp he).symm
    · intro _
      rw [ValidHeap.entries_insert]
      exact Multiset.mem_cons_self _ _
  · exact ⟨⟨I, ha, fun _ => le_rfl, rfl, by omega⟩, not_lt.mp hlt⟩

omit [DecidableEq V] in
/-- Relaxing a list of arcs of `v`: every head ends at or below `a + w`. -/
theorem Relaxes.foldl {r : V → State V → V × ℤ → State V} (hr : Relaxes G W H s r) {v : V} {a : ℤ} :
    ∀ (arcs : List (V × ℤ)) {st : State V}, Inv G W H s (some v) st → st.isExpanded v = true →
      st.dist v = (a : Dist) → (∀ arc ∈ arcs, G.Arc v arc.1 arc.2) →
      (Inv G W H s (some v) (arcs.foldl (r v) st) ∧
        (arcs.foldl (r v) st).dist v = (a : Dist) ∧
        (arcs.foldl (r v) st).isExpanded = st.isExpanded ∧
        (arcs.foldl (r v) st).frontier.size ≤ st.frontier.size + arcs.length) ∧
      (∀ u, (arcs.foldl (r v) st).dist u ≤ st.dist u) ∧
      ∀ arc ∈ arcs, (arcs.foldl (r v) st).dist arc.1 ≤ ((a + arc.2 : ℤ) : Dist) := by
  intro arcs
  induction arcs with
  | nil =>
    intro st I _ ha _
    refine ⟨⟨I, ha, rfl, by simp⟩, fun _ => le_rfl, ?_⟩
    intro arc harc
    cases harc
  | cons arc arcs ih =>
    intro st I hv ha harcs
    obtain ⟨hspec, hhead⟩ := hr v a st arc I hv ha (harcs arc List.mem_cons_self)
    have hv' : (r v st arc).isExpanded v = true := by
      rw [hspec.expanded]
      exact hv
    obtain ⟨⟨hinv, hown, hexp, hsize⟩, hlower, hheads⟩ :=
      ih hspec.inv hv' hspec.own fun arc' h => harcs arc' (List.mem_cons_of_mem arc h)
    simp only [List.foldl_cons]
    refine ⟨⟨hinv, hown, hexp.trans hspec.expanded, ?_⟩, ?_, ?_⟩
    · have := hspec.grow
      simp only [List.length_cons]
      omega
    · exact fun u => (hlower u).trans (hspec.lower u)
    · intro arc' h
      rcases List.mem_cons.mp h with rfl | h
      · exact (hlower arc'.1).trans hhead
      · exact hheads arc' h

/-- **One expansion keeps the invariant** and adds at most one entry per arc. -/
theorem Relaxes.expand {r : V → State V → V × ℤ → State V} (hr : Relaxes G W H s r) {st : State V}
    (I : Inv G W H s none st) (hW : 1 ≤ W) (hH : G.Consistent W H)
    {v : V} {frontier : ValidHeap Dist V} (hpop : st.frontier.deleteMin = some (v, frontier))
    (hv : st.isExpanded v = false) :
    Inv G W H s none ((G.nbrs v).foldl (r v) (AStar.mark v { st with frontier := frontier })) ∧
      ((G.nbrs v).foldl (r v) (AStar.mark v { st with frontier := frontier })).isExpanded
        = Function.update st.isExpanded v true ∧
      ((G.nbrs v).foldl (r v) (AStar.mark v { st with frontier := frontier })).frontier.size
        ≤ frontier.size + (G.nbrs v).length := by
  obtain ⟨a, ha, hbound⟩ := I.pop_bound hH hpop hv
  obtain ⟨⟨hinv, hown, hexp, hsize⟩, -, hheads⟩ :=
    hr.foldl (a := a) (G.nbrs v) (I.mark hpop hv) (by simp [AStar.mark]) ha
      (fun arc harc => harc)
  refine ⟨{ hinv with settled := ?_ }, hexp, hsize⟩
  refine (hinv.settled.close hW (v := v) (a := a) hbound hown.le ?_).congr ?_
  · intro u w harc
    exact hheads (u, w) harc
  · rintro u ⟨hu, -⟩
    by_cases huv : u = v
    · exact Or.inr huv
    · exact Or.inl ⟨hu, fun h => huv (Option.some.inj h).symm⟩

/-! ## The whole run -/

/-- The arcs of the expanded vertices. -/
def expandedArcs [Fintype V] (G : WGraph V) (isExpanded : V → Bool) : ℕ :=
  ∑ v, if isExpanded v then (G.nbrs v).length else 0

omit [DecidableEq V] in
theorem expandedArcs_le [Fintype V] (G : WGraph V) (isExpanded : V → Bool) :
    expandedArcs G isExpanded ≤ G.arcCount := by
  apply Finset.sum_le_sum
  intro v _
  split_ifs <;> simp

theorem expandedArcs_update [Fintype V] (G : WGraph V) {isExpanded : V → Bool} {v : V}
    (hv : isExpanded v = false) :
    expandedArcs G (Function.update isExpanded v true)
      = expandedArcs G isExpanded + (G.nbrs v).length := by
  unfold expandedArcs
  rw [← Finset.add_sum_erase _ _ (Finset.mem_univ v), ← Finset.add_sum_erase (a := v) _ _
    (Finset.mem_univ v)]
  simp only [Function.update_self, if_true, hv, Bool.false_eq_true, if_false, zero_add]
  rw [add_comm]
  congr 1
  apply Finset.sum_congr rfl
  intro u hu
  rw [Function.update_of_ne (Finset.ne_of_mem_erase hu)]

/-- What a finished search delivers. -/
structure Delivered (G : WGraph V) (W : ℝ) (s t : V) (st : State V) : Prop where
  once : st.expansions.Nodup
  bounded : ∃ a : ℤ, st.dist t = (a : Dist) ∧ (∀ d, G.IsDist s t d → (a : ℝ) ≤ W * d) ∧
    (W = 1 → G.IsDist s t a) ∧ ∃ l d, PredPath G s st.pred t l d ∧ l.Nodup ∧ d ≤ a

omit [DecidableEq V] in
/-- Popping the destination ends the search with the promised result. -/
theorem Inv.delivered {st : State V} (I : Inv G W H s none st) (hH : G.Consistent W H) {t : V}
    {frontier : ValidHeap Dist V} (hpop : st.frontier.deleteMin = some (t, frontier))
    (ht : st.isExpanded t = false) : Delivered G W s t { st with frontier := frontier } := by
  obtain ⟨a, ha, hbound⟩ := I.pop_bound hH hpop ht
  obtain ⟨l, d, hpath, hd⟩ := I.forest.exists_path ha
  refine ⟨I.nodup, a, ha, fun d hd => hbound d hd.1, ?_, l, d, hpath, hpath.nodup, hd⟩
  rintro rfl
  -- with `W = 1` the label is squeezed between the pointer path and every walk
  have hall : ∀ e, G.Walk s t e → a ≤ e := by
    intro e he
    have := hbound e he
    rw [one_mul] at this
    exact_mod_cast this
  have hwalk := hpath.walk
  obtain rfl : d = a := le_antisymm hd (hall d hwalk)
  exact ⟨hwalk, hall⟩

/-- The loop, started in the invariant with enough iterations, finds the destination. -/
theorem loop_spec [Fintype V] (hW : 1 ≤ W) (hH : G.Consistent W H) {t : V} (hreach : G.Reaches s t)
    (checkNegative : Bool) :
    ∀ (fuel pops : ℕ) {st : State V}, Inv G W H s none st → st.isExpanded t = false →
      pops + st.frontier.size ≤ 1 + expandedArcs G st.isExpanded →
      G.arcCount + 2 ≤ pops + fuel →
      ∃ st' pops', loop checkNegative G H t fuel pops st = .found st' pops' ∧
        pops' ≤ G.arcCount + 2 ∧ Delivered G W s t st' := by
  intro fuel
  induction fuel with
  | zero =>
      intro pops st I ht hcount hfuel
      have := expandedArcs_le G st.isExpanded
      omega
  | succ fuel ih =>
      intro pops st I ht hcount hfuel
      have hle := expandedArcs_le G st.isExpanded
      have hpos := I.frontier_nonempty ht hreach
      obtain ⟨v, frontier, hpop⟩ := ValidHeap.exists_deleteMin hpos
      have hsize := ValidHeap.size_deleteMin hpop
      unfold loop
      simp only [hpop]
      split_ifs with hvt hexp hneg
      · subst hvt
        exact ⟨_, _, rfl, by omega, I.delivered hH hpop ht⟩
      · exact ih (pops + 1) (I.drop hpop hexp) ht (by dsimp only; omega)
          (by omega)
      · -- labels are never negative
        exact absurd hneg.2 (not_lt.mpr (I.forest.nonneg v))
      · have hv : st.isExpanded v = false := by simpa using hexp
        obtain ⟨hinv, hmark, hgrow⟩ := relaxes_relax.expand I hW hH hpop hv
        refine ih (pops + 1) hinv ?_ ?_ (by omega)
        · rw [hmark, Function.update_of_ne (Ne.symm hvt)]
          exact ht
        · rw [hmark, expandedArcs_update G hv]
          omega

/-- **Weighted A\* is `W`-bounded and terminates.**  For every finite graph with non-negative weights,
every `W ≥ 1`, every heuristic that is consistent up to the factor `W` and every reachable
destination, both `astar` and `astarT` pop the destination after at most `|arcs| + 2` pops, never pop
an empty heap, expand no vertex twice, and deliver a label within the bound (the optimum for `W = 1`)
together with a predecessor path that is not longer than the label. -/
theorem astar_bounded [Fintype V] (G : WGraph V) (W : ℝ) (hW : 1 ≤ W) (H : V → ℤ)
    (hH : G.Consistent W H) (source destination : V) (hreach : G.Reaches source destination)
    (block : ℕ → KV Dist V) (pebble : Bool) (fuel : ℕ) (hfuel : G.arcCount + 2 ≤ fuel) :
    (∃ st pops, astar block G H source destination pebble fuel = .found st pops ∧
      pops ≤ G.arcCount + 2 ∧ Delivered G W source destination st) ∧
    ∃ st pops, astarT block G H source destination pebble fuel = .found st pops ∧
      pops ≤ G.arcCount + 2 ∧ Delivered G W source destination st := by
  have hcount : 0 + (start block H source pebble).frontier.size
      ≤ 1 + expandedArcs G (start block H source pebble).isExpanded := by
    show 0 + ((ValidHeap.new block).insert (H source : Dist) source).size ≤ _
    rw [← ValidHeap.card_entries]
    simp
  exact ⟨loop_spec hW hH hreach false fuel 0 (inv_start G W block H source pebble) rfl hcount
      (by omega),
    loop_spec hW hH hreach true fuel 0 (inv_start G W block H source pebble) rfl hcount (by omega)⟩

/-- Two cells in a row, plain A\* with the zero heuristic. -/
theorem astar_bounded_corridor : ∃ st pops,
    astar (fun _ => ⟨⊤, 0⟩) (WGraph.corridor 2 10000) (fun _ => 0) 0 1 false 4 = .found st pops ∧
    pops ≤ 4 ∧ Delivered (WGraph.corridor 2 10000) 1 0 1 st := by
  have harcs : (WGraph.corridor 2 10000).arcCount = 2 := by decide
  have hH : (WGraph.corridor 2 10000).Consistent 1 fun _ => 0 := WGraph.consistent_zero zero_le_one
  have harc : (WGraph.corridor 2 10000).Arc 0 1 10000 := by decide
  obtain ⟨st, pops, hrun, hpops, hdel⟩ := (astar_bounded (WGraph.corridor 2 10000) 1 le_rfl _ hH 0 1
    ⟨10000, WGraph.Walk.single harc⟩ (fun _ => ⟨⊤, 0⟩) false 4 (by rw [harcs])).1
  exact ⟨st, pops, hrun, by rwa [harcs] at hpops, hdel⟩

/-! ## The predecessors, whatever the heuristic is

The bound needs a heuristic that is consistent up to a factor; the predecessors do not. -/

/-- What holds in the loop for every heuristic. -/
structure Labelled (G : WGraph V) (s : V) (st : State V) : Prop where
  forest : Forest G s (fun v => st.isExpanded v = true) st.dist st.pred
  queued : ∀ e ∈ st.frontier.entries, st.dist e.value ≠ ⊤

theorem Labelled.relax {st : State V} (h : Labelled G s st) {v : V} (hv : st.isExpanded v = true)
    {arc : V × ℤ} (harc : G.Arc v arc.1 arc.2) :
    Labelled G s (relax H v st arc) ∧ (relax H v st arc).isExpanded = st.isExpanded := by
  unfold AStar.relax
  dsimp only
  split_ifs with hlt
  · refine ⟨⟨h.forest.relax hv le_rfl harc hlt, ?_⟩, rfl⟩
    intro e he
    dsimp only at he ⊢
    rw [ValidHeap.entries_insert] at he
    by_cases hnew : e.value = arc.1
    · rw [hnew, Function.update_self]
      exact ne_top_of_lt hlt
    · rw [Function.update_of_ne hnew]
      rcases Multiset.mem_cons.mp he with rfl | he
      · exact absurd rfl hnew
      · exact h.queued e he
  · exact ⟨h, rfl⟩

theorem Labelled.relaxAll {v : V} : ∀ (arcs : List (V × ℤ)) {st : State V}, Labelled G s st →
    st.isExpanded v = true → (∀ arc ∈ arcs, G.Arc v arc.1 arc.2) →
    Labelled G s (arcs.foldl (AStar.relax H v) st) := by
  intro arcs
  induction arcs with
  | nil =>
    intro st h _ _
    exact h
  | cons arc arcs ih =>
    intro st h hv harcs
    obtain ⟨h₁, hexp⟩ := h.relax (H := H) hv (harcs arc List.mem_cons_self)
    apply ih h₁
    · rw [hexp]
      exact hv
    · exact fun a ha => harcs a (List.mem_cons_of_mem arc ha)

theorem Labelled.mark {st : State V} (h : Labelled G s st) (v : V) : Labelled G s (mark v st) := by
  refine ⟨h.forest.mono ?_, h.queued⟩
  intro u hu
  exact update_mark_iff.mpr (Or.inr hu)

/-- Whenever the loop finds the destination, the destination has a label. -/
theorem Labelled.loop {checkNegative : Bool} {t : V} :
    ∀ {fuel pops : ℕ} {st st' : State V} {pops' : ℕ}, Labelled G s st →
      loop checkNegative G H t fuel pops st = .found st' pops' →
      Labelled G s st' ∧ st'.dist t ≠ ⊤ := by
  intro fuel
  induction fuel with
  | zero =>
    intro pops st st' pops' _ hrun
    cases hrun
  | succ fuel ih =>
    intro pops st st' pops' h hrun
    unfold AStar.loop at hrun
    cases hpop : st.frontier.deleteMin with
    | none => simp [hpop] at hrun
    | some r =>
      obtain ⟨v, frontier⟩ := r
      obtain ⟨p, hent, -⟩ := ValidHeap.entries_deleteMin hpop
      have hv : st.dist v ≠ ⊤ := h.queued ⟨p, v⟩ (by rw [hent]; exact Multiset.mem_cons_self ..)
      have hrest : Labelled G s { st with frontier := frontier } :=
        ⟨h.forest, fun e he => h.queued e (by rw [hent]; exact Multiset.mem_cons_of_mem he)⟩
      simp only [hpop] at hrun
      split_ifs at hrun with hvt hexp hneg
      · cases hrun
        exact ⟨hrest, hvt ▸ hv⟩
      · exact ih hrest hrun
      · refine ih ((hrest.mark v).relaxAll (G.nbrs v) ?_ fun arc harc => harc) hrun
        simp [AStar.mark]

theorem labelled_start (G : WGraph V) (block : ℕ → KV Dist V) (H : V → ℤ) (s : V) (pebble : Bool) :
    Labelled G s (start block H s pebble) := by
  refine ⟨Forest.start G s _ _, ?_⟩
  intro e he
  obtain rfl : e = ⟨(H s : Dist), s⟩ := by simpa [start] using he
  simp [start]

/-- **The result of a search that finds the destination**: a forest of predecessors in which the
destination is labelled. -/
theorem found_labelled {checkNegative : Bool} {block : ℕ → KV Dist V} {t : V} {pebble : Bool}
    {fuel : ℕ} {st : State V} {pops : ℕ}
    (hrun : astarSearch checkNegative block G H s t pebble fuel = .found st pops) :
    Labelled G s st ∧ st.dist t ≠ ⊤ := by
  exact (labelled_start G block H s pebble).loop hrun

/-! ## When the destination cannot be reached -/

/-- Relaxing arcs marks nothing and adds at most one entry per arc. -/
theorem foldl_relax_size (v : V) : ∀ (arcs : List (V × ℤ)) (st : State V),
    (arcs.foldl (relax H v) st).isExpanded = st.isExpanded ∧
      (arcs.foldl (relax H v) st).frontier.size ≤ st.frontier.size + arcs.length := by
  intro arcs
  induction arcs with
  | nil =>
    intro st
    exact ⟨rfl, Nat.le_add_right _ _⟩
  | cons arc arcs ih =>
    intro st
    have hone : (relax H v st arc).isExpanded = st.isExpanded ∧
        (relax H v st arc).frontier.size ≤ st.frontier.size + 1 := by
      unfold relax
      dsimp only
      split_ifs
      · exact ⟨rfl, (ValidHeap.size_insert ..).le⟩
      · exact ⟨rfl, Nat.le_add_right _ _⟩
    obtain ⟨hexp, hsize⟩ := ih (relax H v st arc)
    simp only [List.foldl_cons, List.length_cons]
    exact ⟨hexp.trans hone.1, by omega⟩

/-- The queue entries and the arcs not yet relaxed are used up, and nothing else ends the loop. -/
theorem Labelled.loop_emptyPop [Fintype V] {checkNegative : Bool} {t : V} (hun : ¬ G.Reaches s t) :
    ∀ (fuel pops : ℕ) {st : State V}, Labelled G s st →
      st.frontier.size + G.arcCount ≤ expandedArcs G st.isExpanded + fuel →
      AStar.loop checkNegative G H t (fuel + 1) pops st = .emptyPop := by
  intro fuel
  induction fuel with
  | zero =>
    intro pops st _ hfuel
    have hle := expandedArcs_le G st.isExpanded
    have hempty : st.frontier.deleteMin = none :=
      (ValidHeap.deleteMin_eq_none_iff st.frontier).mpr (by omega)
    simp [AStar.loop, hempty]
  | succ fuel ih =>
    intro pops st h hfuel
    rw [AStar.loop]
    cases hpop : st.frontier.deleteMin with
    | none => rfl
    | some r =>
      obtain ⟨v, frontier⟩ := r
      obtain ⟨p, hent, -⟩ := ValidHeap.entries_deleteMin hpop
      have hsize := ValidHeap.size_deleteMin hpop
      have hv : st.dist v ≠ ⊤ := h.queued ⟨p, v⟩ (by rw [hent]; exact Multiset.mem_cons_self ..)
      have hrest : Labelled G s { st with frontier := frontier } :=
        ⟨h.forest, fun e he => h.queued e (by rw [hent]; exact Multiset.mem_cons_of_mem he)⟩
      have hvt : v ≠ t := fun heq => hun (heq ▸ h.forest.reaches hv)
      dsimp only
      rw [if_neg hvt]
      split_ifs with hexp hneg
      · exact ih (pops + 1) hrest (by dsimp only; omega)
      · exact absurd hneg.2 (not_lt.mpr (h.forest.nonneg v))
      · have hv' : st.isExpanded v = false := by simpa using hexp
        obtain ⟨hmarked, hgrow⟩ :=
          foldl_relax_size (H := H) v (G.nbrs v) (AStar.mark v { st with frontier := frontier })
        refine ih (pops + 1) ((hrest.mark v).relaxAll (G.nbrs v) ?_ fun arc harc => harc) ?_
        · simp [AStar.mark]
        · have hupd := expandedArcs_update G hv'
          have hsame : (AStar.mark v { st with frontier := frontier }).isExpanded
              = Function.update st.isExpanded v true := rfl
          rw [hmarked, hsame, hupd]
          have hfr : (AStar.mark v { st with frontier := frontier }).frontier.size
              = frontier.size := rfl
          omega

/-- **Both searches pop an empty heap** when the destination cannot be reached, whatever the
heuristic is. -/
theorem astarSearch_emptyPop [Fintype V] (checkNegative : Bool) (block : ℕ → KV Dist V)
    (G : WGraph V) (H : V → ℤ) (s t : V) (hun : ¬ G.Reaches s t) (pebble : Bool) {fuel : ℕ}
    (hfuel : G.arcCount + 2 ≤ fuel) :
    astarSearch checkNegative block G H s t pebble fuel = .emptyPop := by
  obtain ⟨n, rfl⟩ : ∃ n, fuel = n + 1 := ⟨fuel - 1, by omega⟩
  apply (labelled_start G block H s pebble).loop_emptyPop hun n 0
  have hsize : (start block H s pebble).frontier.size = 1 := by
    show ((ValidHeap.new block).insert (H s : Dist) s).size = 1
    rw [← ValidHeap.card_entries]
    simp
  omega

end PwsaStar.AStar
