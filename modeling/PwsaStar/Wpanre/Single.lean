/-
# PwsaStar.Wpanre.Single — one thread of wPA*NRE is `astar`.

Alone, a worker finds its popped vertex as it left it, and the label it reads is the label it relaxes
with.  So every iteration of `body` does to the memory what an iteration of `astar` does to its
state, heap array included (`Matches`); the memo of the heuristic does not show.  `Follows` says, for
every program counter, which part of the sequential loop is left, and with how many iterations.  The
two searches part only at the end: `wpanre` marks the destination before it looks at it.
-/
import PwsaStar.Sequential
import PwsaStar.Wpanre.Basic
import Mathlib.Data.Prod.Lex

namespace PwsaStar.Wpanre

open PwsaStar.Lib PwsaStar.Heap PwsaStar.Sequential

variable {W V : Type*}

/-! ## Memory and state -/

/-- The memory of `wpanre` next to a state of `astar`. -/
structure Matches (P : Problem V) (m : Mem W V) (st : AStar.State V) : Prop where
  expanded : m.isExpanded = st.isExpanded
  label : m.g = st.dist
  pred : m.pred = st.pred
  memo : ∀ v, m.h v = -1 ∨ m.h v = P.heuristic v
  frontier : m.frontier = st.frontier

/-- The same, while the search is on. -/
structure Live (P : Problem V) (m : Mem W V) (st : AStar.State V) : Prop extends Matches P m st where
  running : m.isDone = false
  ahead : st.isExpanded P.destination = false

/-- **The two results**: the same labels and predecessors, and the destination in addition among the
expanded vertices. -/
structure Agrees (P : Problem V) (m : Mem W V) (st : AStar.State V) : Prop where
  label : ∀ v, m.g v = st.dist v
  pred : ∀ v, m.pred v = st.pred v
  expanded : ∀ v, m.isExpanded v = true ↔ st.isExpanded v = true ∨ v = P.destination

variable [DecidableEq V]

/-- The memo does not show: an insertion has the priority `astar` gives it. -/
theorem insertFrontier_memo {P : Problem V} {m : Mem W V}
    (hmemo : ∀ v, m.h v = -1 ∨ m.h v = P.heuristic v) (dist : Dist) (v : V) :
    ∃ h, (∀ u, h u = -1 ∨ h u = P.heuristic u) ∧ m.insertFrontier P dist v =
      { m with h := h, frontier := m.frontier.insert ((P.heuristic v : Dist) + dist) v } := by
  by_cases hv : m.h v = -1
  · refine ⟨Function.update m.h v (P.heuristic v), memo_update hmemo v, ?_⟩
    simp only [Mem.insertFrontier, myHeur, if_pos hv]
    rw [add_comm dist]
  · refine ⟨m.h, hmemo, ?_⟩
    have hheur := (hmemo v).resolve_left hv
    simp only [Mem.insertFrontier, myHeur, if_neg hv]
    rw [hheur, add_comm dist]

theorem Matches.relax {P : Problem V} {m : Mem W V} {st : AStar.State V} (h : Matches P m st) (v : V)
    (arc : V × ℤ) :
    Matches P (relax P v (st.dist v) m arc) (AStar.relax P.heuristic v st arc) ∧
      (Wpanre.relax P v (st.dist v) m arc).isDone = m.isDone := by
  unfold Wpanre.relax AStar.relax
  rw [h.label]
  dsimp only
  split_ifs with hlt
  · obtain ⟨memo, hmemo, heq⟩ :=
      insertFrontier_memo h.memo (st.dist v + (arc.2 : Dist)) arc.1
    rw [heq]
    refine ⟨⟨h.expanded, ?_, ?_, hmemo, ?_⟩, rfl⟩
    · rw [← h.label]
    · rw [← h.pred]
    · rw [← h.frontier]
  · exact ⟨h, rfl⟩

/-- The second locked block is the expansion of `astar`. -/
theorem Matches.relaxAll {P : Problem V} {v : V} {vdist : Dist} : ∀ (arcs : List (V × ℤ))
    {m : Mem W V} {st : AStar.State V}, Matches P m st → st.dist v = vdist →
    (∀ arc ∈ arcs, 0 ≤ arc.2) →
    Matches P (arcs.foldl (Wpanre.relax P v vdist) m) (arcs.foldl (AStar.relax P.heuristic v) st) ∧
      (arcs.foldl (Wpanre.relax P v vdist) m).isDone = m.isDone := by
  intro arcs
  induction arcs with
  | nil =>
    intro m st h _ _
    exact ⟨h, rfl⟩
  | cons arc arcs ih =>
    intro m st h hv harcs
    obtain ⟨h₁, hdone₁⟩ := h.relax v arc
    rw [hv] at h₁ hdone₁
    have hv₁ := (dist_relax (H := P.heuristic) (harcs arc List.mem_cons_self)).trans hv
    obtain ⟨h₂, hdone₂⟩ := ih h₁ hv₁ fun a ha => harcs a (List.mem_cons_of_mem arc ha)
    exact ⟨h₂, hdone₂.trans hdone₁⟩

theorem Live.expand {P : Problem V} {m : Mem W V} {st : AStar.State V} (h : Live P m st) (v : V) :
    Live P ((P.graph.nbrs v).foldl (Wpanre.relax P v (m.g v)) m)
      ((P.graph.nbrs v).foldl (AStar.relax P.heuristic v) st) := by
  have hlabel : st.dist v = m.g v := by rw [h.label]
  obtain ⟨hmatch, hdone⟩ := h.toMatches.relaxAll (P.graph.nbrs v) hlabel (P.graph.nonneg v)
  refine ⟨hmatch, hdone.trans h.running, ?_⟩
  rw [(AStar.foldl_relax_size v (P.graph.nbrs v) st).1]
  exact h.ahead

/-- Marking a vertex other than the destination. -/
theorem Live.mark {P : Problem V} {m : Mem W V} {st : AStar.State V} (h : Live P m st) (w : W) {v : V}
    (hv : v ≠ P.destination) : Live P (m.mark w v) (AStar.mark v st) where
  expanded := by
    show Function.update m.isExpanded v true = Function.update st.isExpanded v true
    rw [h.expanded]
  label := h.label
  pred := h.pred
  memo := h.memo
  frontier := h.frontier
  running := h.running
  ahead := by
    show Function.update st.isExpanded v true P.destination = false
    rw [Function.update_of_ne (Ne.symm hv)]
    exact h.ahead

/-- Marking the destination ends the search. -/
theorem Live.found {P : Problem V} {m : Mem W V} {st : AStar.State V} (h : Live P m st) (w : W) :
    Agrees P (m.mark w P.destination) st where
  label v := congrFun h.label v
  pred v := congrFun h.pred v
  expanded v := by
    show Function.update m.isExpanded P.destination true v = true ↔ _
    rw [update_mark_iff, h.expanded]
    exact or_comm

/-! ## A run next to the loop -/

/-- The loop of `astar` for the same problem. -/
def loopOf (P : Problem V) : ℕ → AStar.State V → Option (AStar.State V) :=
  search (AStar.relax P.heuristic) P.graph P.destination

/-- A popped vertex that is expanded already is dropped. -/
theorem Live.skip {P : Problem V} {m : Mem W V} {st final : AStar.State V} {n : ℕ} {v : V}
    (h : Live P m st) (hexp : m.isExpanded v = true)
    (hvisit : visit (AStar.relax P.heuristic) P.graph P.destination (loopOf P n) v st = some final) :
    loopOf P n st = some final := by
  rw [h.expanded] at hexp
  rwa [visit_expanded h.ahead hexp] at hvisit

/-- The steps of an iteration, counted down. -/
def Pc.rank : Pc V → ℕ
  | .loadExpanded _ => 7
  | .casExpanded _ => 6
  | .readG _ => 5
  | .relax _ _ => 4
  | .test => 3
  | .pop => 2
  | .setDone => 1
  | .returned => 0

variable [DecidableEq W]

end PwsaStar.Wpanre
