/-
# PwsaStar.Failure — the searches when the destination cannot be reached.

All three worker loops leave through one flag: a worker returns when it sees `is_done` or sets it,
and only the worker that claims the destination sets it.  A claimed vertex has a label and a labelled
vertex is reached from the source.  So when the destination cannot be reached nobody ever returns,
however empty the frontiers are: no branch of the three loops notices that there is nothing left.

The sequential searches have one frontier and no flag.  They take entries off it until it is empty,
and then ask it for its minimum.
-/
import PwsaStar.Pwsa.Done
import PwsaStar.Wpanre.Basic
import PwsaStar.Pase.Basic
import PwsaStar.Sbpl.WAStar

namespace PwsaStar

open PwsaStar.Lib PwsaStar.Heap

variable {W V : Type*} [DecidableEq V] [DecidableEq W]

/-! ## Nobody returns -/

theorem Pwsa.not_returned [Fintype W] {block : ℕ → KV Dist V} {P : Pwsa.Problem V} {leader : W}
    (hun : ¬ P.graph.Reaches P.source P.destination) {c : Pwsa.SearchConfig W V}
    (hc : (Pwsa.pwsaPc block P leader).Reachable c) (w : W) : c.pc w ≠ .returned := by
  intro hret
  have hflag := (ParallelWhile.reachable_inv (Pwsa.client_lawful .pwsa_pc block P) hc).returned w hret
  have hexp := (Pwsa.reachable_doneInv hc).flagged hflag
  have hpath := Pwsa.reachable_pathInv (Or.inl (by decide))
    ((Pwsa.search_refines .pwsa_pc block P leader).reachable hc)
  exact hun (hpath.mem.forest.reaches (hpath.mem.labelled _ hexp))

theorem Wpanre.not_returned {block : ℕ → KV Dist V} {P : Wpanre.Problem V}
    (hun : ¬ P.graph.Reaches P.source P.destination) {c : Wpanre.Config W V}
    (hc : (Wpanre.wpanre block P).Reachable c) (w : W) : c.pc w ≠ .returned := by
  intro hret
  have I := Wpanre.reachable_inv hc
  have hflag : Wpanre.PcOk P c.mem .returned := hret ▸ I.pcs w
  exact hun (I.mem.forest.reaches (I.mem.expanded _ (I.done hflag)))

theorem Pase.not_returned {P : Pase.Problem V} (hun : ¬ P.graph.Reaches P.source P.destination)
    {c : Pase.Config W V} (hc : (Pase.pase P).Reachable c) (w : W) : c.pc w ≠ .returned := by
  intro hret
  have I := Pase.reachable_inv hc
  have hflag : Pase.PcOk P c.mem .returned := hret ▸ I.pcs w
  exact hun (I.mem.forest.reaches (I.mem.claimed _ (I.done hflag)))

/-! ## No continuation ends -/

/-- From every reachable state some finite continuation ends in a final state. -/
def CanFinish {σ : Type*} (S : System σ) (final : σ → Prop) : Prop :=
  ∀ c, S.Reachable c → ∃ c', S.Steps c c' ∧ final c'

/-- A system that starts somewhere and reaches no final state cannot finish. -/
theorem not_canFinish {σ : Type*} {S : System σ} {final : σ → Prop} {c : σ} (hinit : S.init c)
    (hfinal : ∀ c, S.Reachable c → ¬ final c) : ¬ CanFinish S final := by
  intro hfin
  have hc := System.Reachable.of_init hinit
  obtain ⟨c', hsteps, hc'⟩ := hfin c hc
  exact hfinal c' (hc.steps hsteps) hc'

/-- **No failure is ever reported.**  When the destination cannot be reached, no continuation of any
run of the three searches ends with every worker returned, so the caller never gets to look at the
label of the destination. -/
theorem failure_unreported [Fintype W] (block : ℕ → KV Dist V) (leader : W) :
    (∀ P : Pwsa.Problem V, ¬ P.graph.Reaches P.source P.destination →
      ∀ c : Pwsa.SearchConfig W V, (Pwsa.pwsaPc block P leader).Reachable c →
        ¬ ∃ c', (Pwsa.pwsaPc block P leader).Steps c c' ∧ ∀ w, c'.pc w = .returned) ∧
    (∀ P : Wpanre.Problem V, ¬ P.graph.Reaches P.source P.destination →
      ∀ c : Wpanre.Config W V, (Wpanre.wpanre block P).Reachable c →
        ¬ ∃ c', (Wpanre.wpanre block P).Steps c c' ∧ ∀ w, c'.pc w = .returned) ∧
    (∀ P : Pase.Problem V, ¬ P.graph.Reaches P.source P.destination →
      ∀ c : Pase.Config W V, (Pase.pase P).Reachable c →
        ¬ ∃ c', (Pase.pase P).Steps c c' ∧ ∀ w, c'.pc w = .returned) := by
  refine ⟨?_, ?_, ?_⟩
  · rintro P hun c hc ⟨c', hsteps, hret⟩
    exact Pwsa.not_returned hun (hc.steps hsteps) leader (hret leader)
  · rintro P hun c hc ⟨c', hsteps, hret⟩
    exact Wpanre.not_returned hun (hc.steps hsteps) leader (hret leader)
  · rintro P hun c hc ⟨c', hsteps, hret⟩
    exact Pase.not_returned hun (hc.steps hsteps) leader (hret leader)

/-! ## Two isolated cells -/

/-- Two cells and no arc. -/
def isolated : WGraph (Fin 2) where
  nbrs _ := []
  nonneg _ _ h := absurd h List.not_mem_nil

theorem not_reaches_isolated : ¬ isolated.Reaches 0 1 := by
  intro h
  have hmem : (1 : Fin 2) = 0 :=
    h.mem_of_closed (fun v => v = 0) rfl fun u x w _ harc => absurd harc List.not_mem_nil
  exact absurd hmem (by decide)

def isolatedPwsa : Pwsa.Problem (Fin 2) where
  graph := isolated
  heuristic _ := 0
  source := 0
  destination := 1
  splitCutoff := 1
  pollCutoff := 100
  pebble := false

def isolatedWpanre : Wpanre.Problem (Fin 2) where
  graph := isolated
  heuristic _ := 0
  source := 0
  destination := 1
  pebble := false

def isolatedPase : Pase.Problem (Fin 2) where
  graph := isolated
  heuristic _ _ := 0
  source := 0
  destination := 1
  pebble := false

/-- Two workers on two isolated cells cannot finish. -/
theorem isolated_cannot_finish :
    ¬ CanFinish (Pwsa.pwsaPc (fun _ => ⟨⊤, 0⟩) isolatedPwsa (0 : Fin 2))
      (fun c => ∀ w, c.pc w = .returned) ∧
    ¬ CanFinish (Wpanre.wpanre (W := Fin 2) (fun _ => ⟨⊤, 0⟩) isolatedWpanre)
      (fun c => ∀ w, c.pc w = .returned) ∧
    ¬ CanFinish (Pase.pase (W := Fin 2) isolatedPase) (fun c => ∀ w, c.pc w = .returned) := by
  refine ⟨?_, ?_, ?_⟩
  · exact not_canFinish ⟨fun _ => .waiting, rfl⟩ fun c hc hret =>
      Pwsa.not_returned not_reaches_isolated hc 0 (hret 0)
  · exact not_canFinish rfl fun c hc hret =>
      Wpanre.not_returned not_reaches_isolated hc 0 (hret 0)
  · exact not_canFinish rfl fun c hc hret =>
      Pase.not_returned not_reaches_isolated hc 0 (hret 0)

/-- No continuation of the start of the three searches on the isolated cells ends. -/
theorem failure_unreported_isolated :
    (¬ ∃ c', (Pwsa.pwsaPc (fun _ => ⟨⊤, 0⟩) isolatedPwsa (0 : Fin 2)).Steps
      (ParallelWhile.start (Pwsa.client .pwsa_pc (fun _ => ⟨⊤, 0⟩) isolatedPwsa) 0
        (Pwsa.initF (W := Fin 2) (fun _ => ⟨⊤, 0⟩) isolatedPwsa).2 0
        (Pwsa.initF (fun _ => ⟨⊤, 0⟩) isolatedPwsa).1 fun _ => .waiting) c' ∧
      ∀ w, c'.pc w = .returned) ∧
    (¬ ∃ c', (Wpanre.wpanre (fun _ => ⟨⊤, 0⟩) isolatedWpanre).Steps
      { mem := Wpanre.Mem.start (fun _ => ⟨⊤, 0⟩) isolatedWpanre, pc := fun _ : Fin 2 => .test } c' ∧
      ∀ w, c'.pc w = .returned) ∧
    ¬ ∃ c', (Pase.pase isolatedPase).Steps
      { mem := Pase.Mem.start isolatedPase, pc := fun _ : Fin 2 => .test } c' ∧
      ∀ w, c'.pc w = .returned := by
  obtain ⟨hpwsa, hwpanre, hpase⟩ := failure_unreported (W := Fin 2) (V := Fin 2) (fun _ => ⟨⊤, 0⟩) 0
  refine ⟨?_, ?_, ?_⟩
  · exact hpwsa isolatedPwsa not_reaches_isolated _ (System.Reachable.of_init ⟨_, rfl⟩)
  · exact hwpanre isolatedWpanre not_reaches_isolated _ (System.Reachable.of_init rfl)
  · exact hpase isolatedPase not_reaches_isolated _ (System.Reachable.of_init rfl)

/-! ## The sequential searches -/

/-- **The frontier runs dry.**  When the destination cannot be reached, `astar`, `astarT` and the
`wAStar` of the SBPL planner all call `delete_min` on an empty heap, for every heuristic: none of them
returns to its caller. -/
theorem frontier_runs_dry {V : Type*} [DecidableEq V] [Fintype V] (G : WGraph V)
    (source destination : V) (hun : ¬ G.Reaches source destination) (block : ℕ → KV Dist V)
    (heuristic : V → ℤ) (fuel : ℕ) (hfuel : G.arcCount + 2 ≤ fuel) :
    (∀ pebble, AStar.astar block G heuristic source destination pebble fuel = .emptyPop ∧
      AStar.astarT block G heuristic source destination pebble fuel = .emptyPop) ∧
    ∀ (memory : V → ℤ) (eps : ℚ),
      Sbpl.search block memory ⟨G, heuristic⟩ eps source destination fuel = .emptyPop := by
  refine ⟨fun pebble => ⟨?_, ?_⟩, fun memory eps => ?_⟩
  · exact AStar.astarSearch_emptyPop false block G heuristic source destination hun pebble hfuel
  · exact AStar.astarSearch_emptyPop true block G heuristic source destination hun pebble hfuel
  · exact (Sbpl.search_ends block memory ⟨G, heuristic⟩ eps source destination hfuel).2 hun

/-- The two isolated cells, with the zero heuristic. -/
theorem frontier_runs_dry_isolated :
    (AStar.astar (fun _ => ⟨⊤, 0⟩) isolated (fun _ => 0) 0 1 false 2 = .emptyPop ∧
      AStar.astarT (fun _ => ⟨⊤, 0⟩) isolated (fun _ => 0) 0 1 false 2 = .emptyPop) ∧
    Sbpl.search (fun _ => ⟨⊤, 0⟩) (fun _ => 0) ⟨isolated, fun _ => 0⟩ 1 0 1 2 = .emptyPop := by
  have hdry := frontier_runs_dry isolated 0 1 not_reaches_isolated (fun _ => ⟨⊤, 0⟩) (fun _ => 0) 2
    (by decide)
  exact ⟨hdry.1 false, hdry.2 (fun _ => 0) 1⟩

/-- The second call of `delete_min` on the isolated cells is one too many. -/
theorem isolated_emptyPop : ¬ isolated.Reaches 0 1 ∧
    AStar.astar (fun _ => ⟨⊤, 0⟩) isolated (fun _ => 0) 0 1 false 2 = .emptyPop ∧
    AStar.astarT (fun _ => ⟨⊤, 0⟩) isolated (fun _ => 0) 0 1 false 2 = .emptyPop ∧
    Sbpl.search (fun _ => ⟨⊤, 0⟩) (fun _ => 0) ⟨isolated, fun _ => 0⟩ 1 0 1 2 = .emptyPop :=
  ⟨not_reaches_isolated, rfl, rfl, rfl⟩

end PwsaStar
