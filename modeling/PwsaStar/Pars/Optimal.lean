/-
# PwsaStar.Pars.Optimal — `pars` computes shortest distances, whatever the order of its operations.

The invariant gives what holds in every state; the measure gives the rest.  Its first two components
never rise, and drop when a round starts, so between two visits of the loop test a vertex has become
final.  And it is well-founded, so an infinite run contains infinitely many exchanges that fail for no
reason.
-/
import PwsaStar.Pars.Measure

namespace PwsaStar.Pars

open PwsaStar.Lib PwsaStar.ArrayUtil

variable {V : Type} [DecidableEq V] {P : Problem V}

/-! ## Rounds and runs -/

/-- The open vertices and the phase, which no step raises. -/
def outer [Fintype V] (s : State V) : ℕ ×ₗ ℕ := toLex (openCount s, rank s.phase)

theorem outer_le [Fintype V] (hpair : PairAdmissible P)
    (hreach : P.graph.Reaches P.source P.destination) {s s' : State V} (h : Step P s s')
    (hs : PhaseOk P s.mem s.phase) : outer s' ≤ outer s := by
  rcases step_measure hpair hreach h hs with hlt | ⟨hle, hrank | ⟨hrank, -⟩⟩
  · exact (Prod.Lex.toLex_lt_toLex.mpr (Or.inl hlt)).le
  · exact (lex_lt hle hrank).le
  · unfold outer
    rw [hrank]
    rcases hle.lt_or_eq with h | h
    · exact (Prod.Lex.toLex_lt_toLex.mpr (Or.inl h)).le
    · rw [h]

/-- A round starts by going down. -/
theorem outer_lt_of_test [Fintype V] {s s' : State V} (h : Step P s s') (ht : s.phase = .test) :
    outer s' < outer s := by
  cases h with
  | enter _ => exact lex_lt le_rfl (by simp [rank])
  | leave _ => exact lex_lt le_rfl (by simp [rank])
  | loadMine => cases ht
  | loadOther => cases ht
  | writeTrue => cases ht
  | writeFalse => cases ht
  | choose => cases ht
  | load => cases ht
  | finalize => cases ht
  | scan => cases ht
  | relax => cases ht
  | finish => cases ht

/-- **Every round makes a vertex final.** -/
theorem round_finalizes [Fintype V] (hpair : PairAdmissible P)
    (hreach : P.graph.Reaches P.source P.destination) {s s' : State V}
    (hs : (pars P).Reachable s) (ht : s.phase = .test) (ht' : s'.phase = .test)
    (hrun : Relation.TransGen (pars P).step s s') :
    ∃ v, s.mem.finalized v = INFINITE ∧ s'.mem.finalized v ≠ INFINITE := by
  obtain ⟨s₁, hfirst, hrest⟩ := Relation.TransGen.head'_iff.mp hrun
  have hle : outer s' ≤ outer s₁ :=
    (hs.step hfirst).steps_rel (R := fun a b => outer b ≤ outer a) (fun _ => le_rfl)
      (fun _ _ _ h₁ h₂ => h₂.trans h₁)
      (fun a b ha hab => outer_le hpair hreach hab (reachable_ok hpair hreach ha)) hrest
  have hlt := hle.trans_lt (outer_lt_of_test hfirst ht)
  unfold outer at hlt
  rw [ht, ht', Prod.Lex.toLex_lt_toLex] at hlt
  have hcard : openCount s' < openCount s := by
    rcases hlt with h | ⟨-, h⟩
    · exact h
    · exact absurd h (lt_irrefl _)
  obtain ⟨v, hv, hv'⟩ := Finset.exists_mem_notMem_of_card_lt_card hcard
  simp only [Finset.mem_filter, Finset.mem_univ, true_and, ht, ht'] at hv hv'
  exact ⟨v, hv.1, fun h => hv' ⟨h, List.not_mem_nil⟩⟩

/-- The whole measure. -/
def potential [Fintype V] (P : Problem V) (s : State V) : (ℕ ×ₗ ℕ) ×ₗ (ℕ ×ₗ ℕ ×ₗ ℕ) :=
  toLex (outer s, inner P s)

theorem potential_lt [Fintype V] (hpair : PairAdmissible P)
    (hreach : P.graph.Reaches P.source P.destination) {s s' : State V} (h : Step P s s')
    (hs : PhaseOk P s.mem s.phase) (hspur : ¬ Spurious P s s') :
    potential P s' < potential P s := by
  rcases step_measure hpair hreach h hs with hlt | ⟨hle, hrank | ⟨hrank, hin⟩⟩
  · exact Prod.Lex.toLex_lt_toLex.mpr (Or.inl (Prod.Lex.toLex_lt_toLex.mpr (Or.inl hlt)))
  · exact Prod.Lex.toLex_lt_toLex.mpr (Or.inl (lex_lt hle hrank))
  · exact lex_lt (outer_le hpair hreach h hs) (hin.resolve_left hspur)

/-- The potential ranks the runs, spurious failures excused. -/
theorem rankedBy_potential [Fintype V] (hpair : PairAdmissible P)
    (hreach : P.graph.Reaches P.source P.destination) :
    (pars P).RankedBy (Spurious P) fun s a => (pars P).Reachable s ∧ potential P s = a where
  init s hs := ⟨_, System.Reachable.of_init hs, rfl⟩
  step s t a hs hstep := by
    obtain ⟨hs, rfl⟩ := hs
    refine ⟨_, ⟨hs.step hstep, rfl⟩, ?_⟩
    by_cases hspur : Spurious P s t
    · exact Or.inr hspur
    · exact Or.inl (potential_lt hpair hreach hstep (reachable_ok hpair hreach hs) hspur)

/-- **Every run ends with the return**: an infinite one fails spuriously again and again. -/
theorem pars_ends [Fintype V] (hpair : PairAdmissible P)
    (hreach : P.graph.Reaches P.source P.destination) :
    (pars P).Ends (Spurious P) fun s => s.phase = .returned := by
  refine (rankedBy_potential hpair hreach).ends ?_
  rintro s _ ⟨hs, -⟩ hret
  exact exists_step hreach (reachable_ok hpair hreach hs) hret

/-! ## The result -/

/-- What is right about a state. -/
structure Sound [Fintype V] (P : Problem V) (s : State V) : Prop where
  once : s.mem.frontier.Nodup
  fits : s.mem.frontier.length ≤ Fintype.card V
  final : ∀ v, s.mem.finalized v ≠ INFINITE →
    P.graph.IsDist P.source v (s.mem.finalized v)
  noAbort : s.phase ≠ .aborted
  result : s.phase = .returned →
    P.graph.IsDist P.source P.destination (s.mem.finalized P.destination)
  goesOn : s.phase ≠ .returned → ∃ s', (pars P).step s s'

omit [DecidableEq V] in
theorem PhaseOk.base {m : Mem V} {ph : Phase V} (h : PhaseOk P m ph) : Base P m := by
  cases ph with
  | test => exact Ready.toBase h
  | independence check written => exact (Checking.toReady h).toBase
  | setDist ind pc => exact (Closing.toReady h).toBase
  | successors ind offsets cells pc => exact h.1.toBase
  | returned => exact h.1.toBase
  | aborted => exact h.elim

/-- **`pars` is optimal.**  For every finite graph with non-negative weights, every admissible pair
heuristic and every reachable destination, in every interleaving: the frontier lists no vertex twice,
final distances are shortest, no round aborts, every round makes a vertex final, only the returned
state has no step, and no run goes on for ever unless its weak exchanges fail spuriously for ever. -/
theorem pars_optimal [Fintype V] (P : Problem V) (hpair : PairAdmissible P)
    (hreach : P.graph.Reaches P.source P.destination) :
    (∀ s, (pars P).Reachable s → Sound P s) ∧
    (∀ s s', (pars P).Reachable s → s.phase = .test → s'.phase = .test →
      Relation.TransGen (pars P).step s s' →
      ∃ v, s.mem.finalized v = INFINITE ∧ s'.mem.finalized v ≠ INFINITE) ∧
    ∀ f : ℕ → State V, (pars P).init (f 0) → (∀ n, (pars P).step (f n) (f (n + 1))) →
      ∀ n, ∃ k, n ≤ k ∧ Spurious P (f k) (f (k + 1)) := by
  refine ⟨?_, ?_, ?_⟩
  · intro s hs
    have hok := reachable_ok hpair hreach hs
    have B := hok.base
    have hfinal : ∀ v, s.mem.finalized v ≠ INFINITE →
        P.graph.IsDist P.source v (s.mem.finalized v) := by
      intro v hv
      obtain ⟨heq, hdist⟩ := B.final v hv
      rw [heq]
      exact hdist
    refine ⟨B.nodup, B.nodup.length_le_card, hfinal, ?_, ?_, ?_⟩
    · intro hab
      rw [hab] at hok
      exact hok
    · intro hret
      rw [hret] at hok
      exact hfinal _ hok.2
    · intro hret
      obtain ⟨s', hstep, -⟩ := exists_step hreach hok hret
      exact ⟨s', hstep⟩
  · exact fun s s' hs ht ht' hrun => round_finalizes hpair hreach hs ht ht' hrun
  · exact (pars_ends hpair hreach).infinite

/-- Some cells in a row and the zero heuristic. -/
def corridorProblem (n : ℕ) (source destination : Fin n) : Problem (Fin n) where
  graph := WGraph.corridor n 10000
  pairHeur _ _ := 0
  source := source
  destination := destination

/-- In a corridor of three cells some run comes to its end, and the last cell has its distance there. -/
theorem pars_optimal_corridor :
    (∃ s, (pars (corridorProblem 3 0 2)).Reachable s ∧ s.phase = .returned ∧
      Sound (corridorProblem 3 0 2) s ∧ (WGraph.corridor 3 10000).IsDist 0 2 (s.mem.finalized 2)) ∧
    ∀ f : ℕ → State (Fin 3), (pars (corridorProblem 3 0 2)).init (f 0) →
      (∀ n, (pars (corridorProblem 3 0 2)).step (f n) (f (n + 1))) →
      ∀ n, ∃ k, n ≤ k ∧ Spurious (corridorProblem 3 0 2) (f k) (f (k + 1)) := by
  have hpair : PairAdmissible (corridorProblem 3 0 2) := fun v u => ⟨le_rfl, fun d hd => hd.1.nonneg⟩
  have h₁ : (WGraph.corridor 3 10000).Arc 0 1 10000 := by decide
  have h₂ : (WGraph.corridor 3 10000).Arc 1 2 10000 := by decide
  have hreach : (corridorProblem 3 0 2).graph.Reaches 0 2 := ⟨20000, (WGraph.Walk.single h₁).snoc h₂⟩
  obtain ⟨hsound, -, hinfinite⟩ := pars_optimal (corridorProblem 3 0 2) hpair hreach
  -- the arrays hold zeros before they are initialised
  obtain ⟨s, hs, hret⟩ := (pars_ends hpair hreach).exists_final
    ⟨⟨fun _ => 0, fun _ => 0, fun _ => false, [], fun _ => false⟩, [0, 1, 2], by decide, rfl⟩
  exact ⟨⟨s, hs, hret, hsound s hs, (hsound s hs).result hret⟩, hinfinite⟩

end PwsaStar.Pars
