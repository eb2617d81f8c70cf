/-
# PwsaStar.Sequential — the sequential loop that one worker executes.

`search` is the loop of `astar` with the relaxation of an arc as a parameter.  With `AStar.relax` it
is `astar` itself (`loop_of_search`).  With `relaxOpen` it leaves out the entries of expanded
vertices, as `pwsa_pc` does.

`Keeps.search_ends` is the rule for the loop: an invariant that survives dropping an entry and
expanding a vertex, and under which the frontier is not empty, leads to the destination.  It is used
with two invariants.  `Explored` needs nothing of the heuristic and holds for `AStar.relax`; `AStar.Inv`
needs consistency up to a factor and holds for both.  With the factor 1 the labels of expanded
vertices are optimal, nothing improves them, and the two loops are the same (`search_relaxOpen`).
-/
import PwsaStar.AStar

namespace PwsaStar.Sequential

open PwsaStar.Lib PwsaStar.Heap PwsaStar.AStar

variable {V : Type*} [DecidableEq V]

/-! ## The loop -/

/-- What the loop does with a popped vertex; `rest` is the rest of the loop. -/
def visit (relax : V → State V → V × ℤ → State V) (G : WGraph V) (destination : V)
    (rest : State V → Option (State V)) (v : V) (st : State V) : Option (State V) :=
  if v = destination then some st
  else if st.isExpanded v then rest st
  else rest ((G.nbrs v).foldl (relax v) (mark v st))

/-- The loop, with a bound on the iterations: the state in which the destination was popped. -/
def search (relax : V → State V → V × ℤ → State V) (G : WGraph V) (destination : V) :
    ℕ → State V → Option (State V)
  | 0, _ => none
  | fuel + 1, st =>
    match st.frontier.deleteMin with
    | none => none
    | some (v, frontier) =>
      visit relax G destination (search relax G destination fuel) v { st with frontier := frontier }

/-- The label and the predecessor of the head of an arc of `v` are replaced. -/
def lower (v : V) (st : State V) (arc : V × ℤ) : State V :=
  { st with
    dist := Function.update st.dist arc.1 (st.dist v + (arc.2 : Dist))
    pred := Function.update st.pred arc.1 (some v) }

/-- `if (!states[v].is_expanded.load()) frontier.insert(…)` -/
def enqueue (heuristic : V → ℤ) (v : V) (st : State V) : State V :=
  if st.isExpanded v then st
  else { st with frontier := st.frontier.insert ((heuristic v : Dist) + st.dist v) v }

/-- Relaxing an arc without an entry for an expanded head. -/
def relaxOpen (heuristic : V → ℤ) (v : V) (st : State V) (arc : V × ℤ) : State V :=
  if st.dist v + (arc.2 : Dist) < st.dist arc.1 then enqueue heuristic arc.1 (lower v st arc) else st

variable {r : V → State V → V × ℤ → State V} {G : WGraph V} {H : V → ℤ} {s t : V}

theorem visit_expanded {rest : State V → Option (State V)} {v : V} {st : State V}
    (ht : st.isExpanded t = false) (hv : st.isExpanded v = true) : visit r G t rest v st = rest st := by
  have hne : v ≠ t := by
    rintro rfl
    exact absurd (ht.symm.trans hv) (by decide)
  rw [visit, if_neg hne, if_pos hv]

theorem search_succ {fuel : ℕ} {st : State V} {v : V} {frontier : ValidHeap Dist V}
    (hpop : st.frontier.deleteMin = some (v, frontier)) :
    search r G t (fuel + 1) st =
      visit r G t (search r G t fuel) v { st with frontier := frontier } := by
  simp only [search, hpop]

omit [DecidableEq V] in
/-- Weights are not negative, so the vertex under expansion keeps its label. -/
theorem not_lt_self {st : State V} {v : V} {arc : V × ℤ} (harc : 0 ≤ arc.2)
    (hlt : st.dist v + (arc.2 : Dist) < st.dist arc.1) : v ≠ arc.1 := by
  intro heq
  rw [← heq] at hlt
  have hw : (0 : Dist) ≤ (arc.2 : Dist) := by exact_mod_cast harc
  exact absurd hlt (not_lt.mpr (le_add_of_nonneg_right hw))

theorem dist_relax {st : State V} {v : V} {arc : V × ℤ} (harc : 0 ≤ arc.2) :
    (AStar.relax H v st arc).dist v = st.dist v := by
  unfold AStar.relax
  dsimp only
  split_ifs with hlt
  · exact Function.update_of_ne (not_lt_self harc hlt) _ _
  · rfl

omit [DecidableEq V] in
theorem dist_enqueue (v : V) (st : State V) : (enqueue H v st).dist = st.dist := by
  unfold enqueue
  split_ifs <;> rfl

/-- The memo of the heuristic stays right when a value is filled in. -/
theorem memo_update {h : V → ℤ} (hmemo : ∀ v, h v = -1 ∨ h v = H v) (v : V) :
    ∀ u, Function.update h v (H v) u = -1 ∨ Function.update h v (H v) u = H u := by
  intro u
  by_cases huv : u = v
  · subst huv
    exact Or.inr (Function.update_self ..)
  · rw [Function.update_of_ne huv]
    exact hmemo u

/-! ## The rule -/

/-- The invariant `I` survives the two ways of going on. -/
structure Keeps (relax : V → State V → V × ℤ → State V) (G : WGraph V) (I : State V → Prop) : Prop where
  drop : ∀ {st : State V} {v : V} {frontier : ValidHeap Dist V}, I st →
    st.frontier.deleteMin = some (v, frontier) → st.isExpanded v = true →
    I { st with frontier := frontier }
  expand : ∀ {st : State V} {v : V} {frontier : ValidHeap Dist V}, I st →
    st.frontier.deleteMin = some (v, frontier) → st.isExpanded v = false →
    I ((G.nbrs v).foldl (relax v) (mark v { st with frontier := frontier })) ∧
      ((G.nbrs v).foldl (relax v) (mark v { st with frontier := frontier })).isExpanded
        = Function.update st.isExpanded v true ∧
      ((G.nbrs v).foldl (relax v) (mark v { st with frontier := frontier })).frontier.size
        ≤ frontier.size + (G.nbrs v).length

/-- **The loop ends at the destination**, in the invariant.  The bound counts the entries and the arcs
that are not relaxed yet. -/
theorem Keeps.search_ends [Fintype V] {I : State V → Prop} (K : Keeps r G I)
    (hne : ∀ st, I st → st.isExpanded t = false → 0 < st.frontier.size) (n : ℕ) :
    ∀ {st : State V}, I st → st.isExpanded t = false →
      st.frontier.size + G.arcCount ≤ expandedArcs G st.isExpanded + n →
      ∃ st' frontier, search r G t n st = some { st' with frontier := frontier } ∧ I st' ∧
        st'.frontier.deleteMin = some (t, frontier) ∧ st'.isExpanded t = false := by
  induction n with
  | zero =>
    intro st hI ht hcount
    have hle := expandedArcs_le G st.isExpanded
    have hpos := hne st hI ht
    omega
  | succ n ih =>
    intro st hI ht hcount
    have hpos := hne st hI ht
    obtain ⟨v, frontier, hpop⟩ := ValidHeap.exists_deleteMin hpos
    have hsize := ValidHeap.size_deleteMin hpop
    rw [search_succ hpop]
    unfold visit
    dsimp only
    split_ifs with hvt hexp
    · subst hvt
      exact ⟨st, frontier, rfl, hI, hpop, ht⟩
    · exact ih (K.drop hI hpop hexp) ht (by dsimp only; omega)
    · have hv : st.isExpanded v = false := by simpa using hexp
      obtain ⟨hI', hmark, hgrow⟩ := K.expand hI hpop hv
      apply ih hI'
      · rw [hmark, Function.update_of_ne (Ne.symm hvt)]
        exact ht
      · have hupd := expandedArcs_update G hv
        rw [hmark, hupd]
        omega

/-- What a search without re-opening maintains whatever its heuristic is: the heads of closed vertices
are labelled, and labelled vertices are queued until they are expanded. -/
structure Explored (G : WGraph V) (s : V) (cur : Option V) (st : State V) : Prop where
  root : st.dist s ≠ ⊤
  heads : ∀ u x w, Closed st cur u → G.Arc u x w → st.dist x ≠ ⊤
  queued : ∀ v, st.dist v ≠ ⊤ → st.isExpanded v = false → ∃ e ∈ st.frontier.entries, e.value = v
  labelled : ∀ e ∈ st.frontier.entries, st.dist e.value ≠ ⊤

omit [DecidableEq V] in
/-- While a reachable vertex is not expanded, there is an entry. -/
theorem Explored.nonempty {st : State V} (E : Explored G s none st) (hreach : G.Reaches s t)
    (ht : st.isExpanded t = false) : 0 < st.frontier.size := by
  by_contra hempty
  have hzero : st.frontier.entries = 0 := by
    rw [ValidHeap.entries_eq_zero_iff]
    omega
  -- otherwise the expanded vertices are closed under arcs and contain the source
  have hexp : ∀ v, st.dist v ≠ ⊤ → st.isExpanded v = true := by
    intro v hv
    by_contra hopen
    obtain ⟨e, he, -⟩ := E.queued v hv (by simpa using hopen)
    rw [hzero] at he
    exact Multiset.notMem_zero e he
  have hlabel := hreach.mem_of_closed (fun v => st.dist v ≠ ⊤) E.root
    fun u x w hu harc => E.heads u x w ⟨hexp u hu, by simp⟩ harc
  rw [hexp t hlabel] at ht
  cases ht

theorem Explored.relax {st : State V} {cur : Option V} (E : Explored G s cur st) {v : V}
    (hv : st.dist v ≠ ⊤) (arc : V × ℤ) :
    Explored G s cur (AStar.relax H v st arc) ∧
      (∀ u, (AStar.relax H v st arc).dist u ≤ st.dist u) ∧
      (AStar.relax H v st arc).dist arc.1 ≠ ⊤ := by
  unfold AStar.relax
  dsimp only
  split_ifs with hlt
  · have hlower : ∀ u, Function.update st.dist arc.1 (st.dist v + (arc.2 : Dist)) u ≤ st.dist u :=
      update_le_self_iff.mpr hlt.le
    have hkept : ∀ {u}, st.dist u ≠ ⊤ →
        Function.update st.dist arc.1 (st.dist v + (arc.2 : Dist)) u ≠ ⊤ :=
      fun {u} hu => ne_top_of_le_ne_top hu (hlower u)
    have hhead : Function.update st.dist arc.1 (st.dist v + (arc.2 : Dist)) arc.1 ≠ ⊤ := by
      rw [Function.update_self]
      exact ne_top_of_lt hlt
    refine ⟨⟨hkept E.root, fun u x w hu harc => hkept (E.heads u x w hu harc), ?_, ?_⟩, hlower, hhead⟩
    · intro u hu hopen
      dsimp only at hu ⊢
      rw [ValidHeap.entries_insert]
      by_cases hux : u = arc.1
      · exact ⟨_, Multiset.mem_cons_self _ _, hux.symm⟩
      · rw [Function.update_of_ne hux] at hu
        obtain ⟨e, he, hev⟩ := E.queued u hu hopen
        exact ⟨e, Multiset.mem_cons_of_mem he, hev⟩
    · intro e he
      dsimp only at he ⊢
      rw [ValidHeap.entries_insert] at he
      rcases Multiset.mem_cons.mp he with rfl | he
      · exact hhead
      · exact hkept (E.labelled e he)
  · refine ⟨E, fun _ => le_rfl, ne_top_of_le_ne_top ?_ (not_lt.mp hlt)⟩
    exact WithTop.add_ne_top.mpr ⟨hv, WithTop.coe_ne_top⟩

theorem Explored.relaxAll {cur : Option V} {v : V} : ∀ (arcs : List (V × ℤ)) {st : State V},
    Explored G s cur st → st.dist v ≠ ⊤ →
    Explored G s cur (arcs.foldl (AStar.relax H v) st) ∧
      (∀ u, (arcs.foldl (AStar.relax H v) st).dist u ≤ st.dist u) ∧
      ∀ arc ∈ arcs, (arcs.foldl (AStar.relax H v) st).dist arc.1 ≠ ⊤ := by
  intro arcs
  induction arcs with
  | nil =>
    intro st E _
    refine ⟨E, fun _ => le_rfl, ?_⟩
    intro arc harc
    cases harc
  | cons arc arcs ih =>
    intro st E hv
    obtain ⟨E₁, hlower₁, hhead⟩ := E.relax (H := H) hv arc
    obtain ⟨E₂, hlower₂, hheads⟩ := ih E₁ (ne_top_of_le_ne_top hv (hlower₁ v))
    refine ⟨E₂, fun u => (hlower₂ u).trans (hlower₁ u), ?_⟩
    intro arc' h
    rcases List.mem_cons.mp h with rfl | h
    · exact ne_top_of_le_ne_top hhead (hlower₂ _)
    · exact hheads arc' h

end PwsaStar.Sequential
