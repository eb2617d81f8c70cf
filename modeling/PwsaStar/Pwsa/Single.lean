/-
# PwsaStar.Pwsa.Single — one worker of wPWSA* is the sequential loop without entries for expanded heads.

Alone, the worker is never asked for work, its word stays open, and every `compare_exchange` finds
what it expects unless it fails spuriously.  So `do_work` executes iterations of the loop of
`Sequential` with `relaxOpen`, up to `poll_cutoff` of them at a time.  `InFrame` says for every access
which part of the loop is left, `Follows` adds the steps of `parallel_while_pwsa` around it.

Nothing is asked of the heuristic here.  What the loop computes is the business of `Sequential`.
-/
import PwsaStar.Sequential
import PwsaStar.Pwsa.Progress
import Mathlib.Data.Prod.Lex

namespace PwsaStar.Pwsa

open PwsaStar.Lib PwsaStar.Lib.Handshake PwsaStar.Heap PwsaStar.ParallelWhile PwsaStar.Sequential

variable {W V : Type*}

/-! ## Memory and state -/

/-- The shared memory and the frontier of the worker next to a state of the loop.  `pwsa_pc` points
the source at itself, `astar` does not. -/
structure Live (P : Problem V) (m : Shared W V) (frontier : Frontier V) (st : AStar.State V) :
    Prop where
  expanded : m.isExpanded = st.isExpanded
  label : m.g = st.dist
  pred : ∀ v, v ≠ P.source → m.pred v = st.pred v
  memo : ∀ v, m.h v = -1 ∨ m.h v = P.heuristic v
  frontier : frontier = st.frontier
  ahead : st.isExpanded P.destination = false

/-- **The two results**: the same labels, the same predecessors except at the source, and the
destination in addition among the expanded vertices. -/
structure Agrees (P : Problem V) (m : Shared W V) (st : AStar.State V) : Prop where
  label : ∀ v, m.g v = st.dist v
  pred : ∀ v, v ≠ P.source → m.pred v = st.pred v
  expanded : ∀ v, m.isExpanded v = true ↔ st.isExpanded v = true ∨ v = P.destination

variable [DecidableEq V] {P : Problem V} {m : Shared W V} {frontier : Frontier V} {st : AStar.State V}

/-- Marking a vertex other than the destination. -/
theorem Live.mark (h : Live P m frontier st) (w : W) {v : V} (hv : v ≠ P.destination) :
    Live P (m.mark w v) frontier (AStar.mark v st) where
  expanded := by
    show Function.update m.isExpanded v true = Function.update st.isExpanded v true
    rw [h.expanded]
  label := h.label
  pred := h.pred
  memo := h.memo
  frontier := h.frontier
  ahead := by
    show Function.update st.isExpanded v true P.destination = false
    rw [Function.update_of_ne (Ne.symm hv)]
    exact h.ahead

/-- Marking the destination ends the search. -/
theorem Live.found (h : Live P m frontier st) (w : W) : Agrees P (m.mark w P.destination) st where
  label v := congrFun h.label v
  pred := h.pred
  expanded v := by
    rw [isExpanded_mark, h.expanded]
    exact or_comm

/-- An exchange lowers the label of the loop. -/
theorem Live.exchange (h : Live P m frontier st) (v : V) (arc : V × ℤ) :
    Live P (m.exchange arc.1 ⟨st.dist v + (arc.2 : Dist), some v⟩) frontier (lower v st arc) where
  expanded := h.expanded
  label := by rw [g_exchange, h.label, lower]
  pred := by
    intro u hu
    rw [pred_exchange]
    show _ = Function.update st.pred arc.1 (some v) u
    by_cases hux : u = arc.1
    · subst hux
      rw [Function.update_self, Function.update_self]
    · rw [Function.update_of_ne hux, Function.update_of_ne hux]
      exact h.pred u hu
  memo := h.memo
  frontier := h.frontier
  ahead := h.ahead

/-! ## Inside `do_work` -/

/-- The loop that one worker of `pwsa_pc` executes. -/
def loopOf (P : Problem V) : ℕ → AStar.State V → Option (AStar.State V) :=
  Sequential.search (relaxOpen P.heuristic) P.graph P.destination

/-- The loop with the arcs `arcs` of `v` to relax first, with the label `vdistance` of `v`. -/
structure Rest (P : Problem V) (final : AStar.State V) (n : ℕ) (v : V) (vdistance : Dist)
    (arcs : List (V × ℤ)) (st : AStar.State V) : Prop where
  label : st.dist v = vdistance
  nonneg : ∀ arc ∈ arcs, 0 ≤ arc.2
  run : loopOf P n (arcs.foldl (relaxOpen P.heuristic v) st) = some final

variable {final : AStar.State V} {n : ℕ}

/-- A popped vertex that is expanded already is dropped. -/
theorem Live.skip (h : Live P m frontier st) {v : V} (hexp : m.isExpanded v = true)
    (hvisit : visit (relaxOpen P.heuristic) P.graph P.destination (loopOf P n) v st = some final) :
    loopOf P n st = some final := by
  rw [h.expanded] at hexp
  rwa [visit_expanded h.ahead hexp] at hvisit

section Arc

variable {v : V} {vdistance : Dist} {arc : V × ℤ} {arcs : List (V × ℤ)}

/-- An arc that does not improve its head is done. -/
theorem Rest.worse (h : Rest P final n v vdistance (arc :: arcs) st)
    (hge : ¬ vdistance + (arc.2 : Dist) < st.dist arc.1) : Rest P final n v vdistance arcs st where
  label := h.label
  nonneg a ha := h.nonneg a (List.mem_cons_of_mem _ ha)
  run := by
    have hrun := h.run
    rw [List.foldl_cons, relaxOpen, h.label, if_neg hge] at hrun
    exact hrun

/-- An arc that improves its head lowers the label, and the entry is left to insert. -/
theorem Rest.better (h : Rest P final n v vdistance (arc :: arcs) st)
    (hlt : vdistance + (arc.2 : Dist) < st.dist arc.1) :
    Rest P final n v vdistance arcs (enqueue P.heuristic arc.1 (lower v st arc)) where
  label := by
    rw [← h.label] at hlt
    rw [dist_enqueue, ← h.label]
    exact Function.update_of_ne (not_lt_self (h.nonneg arc List.mem_cons_self) hlt) _ _
  nonneg a ha := h.nonneg a (List.mem_cons_of_mem _ ha)
  run := by
    have hrun := h.run
    rw [List.foldl_cons, relaxOpen, h.label, if_pos hlt] at hrun
    exact hrun

end Arc

/-- **What is left of the loop** inside `do_work`, with `n` iterations to go; it ends in `final`. -/
def InFrame (P : Problem V) (final : AStar.State V) (n : ℕ) (m : Shared W V) (frontier : Frontier V) :
    Frame V → Prop
  | .loop _ => ∃ st, Live P m frontier st ∧ loopOf P n st = some final
  | .loadExpanded _ v | .casExpanded _ v => ∃ st, Live P m frontier st ∧
      visit (relaxOpen P.heuristic) P.graph P.destination (loopOf P n) v st = some final
  | .loadG _ v => ∃ st, Live P m frontier st ∧ Rest P final n v (m.g v) (P.graph.nbrs v) st
  | .relax _ v vdistance arcs => ∃ st, Live P m frontier st ∧ Rest P final n v vdistance arcs st
  | .reload .. => False
  | .casG _ v vdistance arc arcs expected => ∃ st, Live P m frontier st ∧
      Rest P final n v vdistance (arc :: arcs) st ∧ m.gpred arc.1 = expected ∧
      vdistance + (arc.2 : Dist) < st.dist arc.1
  | .checkInsert _ v vdistance arc arcs => ∃ st, Live P m frontier st ∧
      Rest P final n v vdistance arcs (enqueue P.heuristic arc.1 st) ∧
      st.dist arc.1 = vdistance + (arc.2 : Dist)

/-- The accesses of an iteration, counted down; a round that is over has the steps of the worker loop
ahead. -/
def Frame.rank (P : Problem V) : Frame V → ℕ
  | .loadExpanded _ v => 10 + 3 * (P.graph.nbrs v).length
  | .casExpanded _ v => 9 + 3 * (P.graph.nbrs v).length
  | .loadG _ v => 8 + 3 * (P.graph.nbrs v).length
  | .relax _ _ _ arcs => 7 + 3 * arcs.length
  | .reload .. => 0
  | .casG _ _ _ _ arcs _ => 9 + 3 * arcs.length
  | .checkInsert _ _ _ _ arcs => 8 + 3 * arcs.length
  | .loop steps => if steps < P.pollCutoff then 2 else 6

/-- A weak exchange fails although the word holds what it expects. -/
def FailsWeakly (m : Shared W V) (b b' : Frame V) : Prop :=
  ∃ steps v vdistance arc arcs, b = .casG steps v vdistance arc arcs (m.gpred arc.1) ∧
    b' = .relax steps v vdistance (arc :: arcs)

/-- What is left of the loop after an access. -/
def AfterAccess (P : Problem V) (final : AStar.State V) (n : ℕ) (m : Shared W V)
    (frontier : Frontier V) : Effect V → Prop
  | .goto b => InFrame P final n m frontier b
  | .insert p v b => InFrame P final n m (frontier.insert p v) b
  | .found => Agrees P m final

/-- What an access does in the loop: the rest of it is ahead, and it goes down unless a weak exchange has
failed. -/
def StepsOn (P : Problem V) (final : AStar.State V) (n : ℕ) (m m' : Shared W V) (frontier : Frontier V)
    (b : Frame V) (effect : Effect V) : Prop :=
  AfterAccess P final n m' frontier effect ∧
    ∀ b', effect.frame = some b' → b'.rank P < b.rank P ∨ FailsWeakly m b b'

section Accesses

variable {w : W} {x : Bool} {m' : Shared W V} {effect : Effect V} {steps : ℤ} {v : V}

theorem StepsOn.goto {b b' : Frame V} (h : InFrame P final n m' frontier b')
    (hlt : b'.rank P < b.rank P) : StepsOn P final n m m' frontier b (.goto b') := by
  refine ⟨h, ?_⟩
  rintro b'' ⟨⟩
  exact Or.inl hlt

end Accesses

/-! ## Around `do_work` -/

variable [DecidableEq W]

/-- In this step a weak exchange of `w` fails although the word holds what it expects. -/
def Spurious (w : W) (c c' : SearchConfig W V) : Prop :=
  ∃ b b', c.pc w = .work b ∧ c'.pc w = .work b' ∧ FailsWeakly c.shared b b'

end PwsaStar.Pwsa
