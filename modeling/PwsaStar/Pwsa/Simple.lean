/-
# PwsaStar.Pwsa.Simple — `pwsa`: predecessors without a comparison.

`pwsa` exchanges the `vertpack` of a neighbour without comparing the label it finds with the one it
stores.  In a corridor the second cell then redirects the source, the third cell redirects the
second, and following the predecessors from the destination runs in a circle: one worker is enough.

What goes wrong is exactly an exchange that does not lower a label.  In every run whose exchanges all
lower the label they find (`Lowers`) the predecessors form the tree that `pwsa_pc` builds.
-/
import PwsaStar.Pwsa.Guarantees

namespace PwsaStar.Pwsa

open PwsaStar.Lib PwsaStar.Heap PwsaStar.ParallelWhile

/-! ## Predecessor pairs -/

/-- The arcs in the hands of a worker in this frame are arcs of its vertex. -/
def Frame.FromGraph {V : Type*} (P : Problem V) : Frame V → Prop
  | .relax _ v _ arcs | .checkInsert _ v _ _ arcs => ∀ a ∈ arcs, a ∈ P.graph.nbrs v
  | .reload _ v _ arc arcs | .casG _ v _ arc arcs _ => ∀ a ∈ arc :: arcs, a ∈ P.graph.nbrs v
  | _ => True

section Pairs

variable {W V : Type*} [DecidableEq V]

/-- Only an exchange writes a predecessor, and it writes the tail of an arc, whatever the label is. -/
theorem access_pairs {variant : Variant} {P : Problem V} {w : W} {x : Bool} {m m' : Shared W V}
    {b : Frame V} {effect : Effect V} (hm : PairsAreArcs P m) (hb : b.FromGraph P)
    (h : access variant P w x m b = some (m', effect)) :
    PairsAreArcs P m' ∧ ∀ b', effect.frame = some b' → b'.FromGraph P := by
  cases access_cases h with
  | @exchange steps v vdistance arc arcs hx =>
    refine ⟨hm.exchange (hb arc (List.mem_cons_self ..)) _, ?_⟩
    rintro _ ⟨⟩ a ha
    exact hb a (List.mem_cons_of_mem _ ha)
  | snapshot =>
    refine ⟨hm, ?_⟩
    rintro _ ⟨⟩ a ha
    exact ha
  | first | better | reload | retry | known | insert =>
    refine ⟨hm, ?_⟩
    rintro _ ⟨⟩
    exact hb
  | worse | giveUp =>
    refine ⟨hm, ?_⟩
    rintro _ ⟨⟩ a ha
    exact hb a (List.mem_cons_of_mem _ ha)
  | find => exact ⟨hm, nofun⟩
  | skip | see | lose | win | done =>
    refine ⟨hm, ?_⟩
    rintro _ ⟨⟩
    trivial

/-- The memory and all frames at once. -/
structure PairsInv (P : Problem V) (s : PoolState W V) : Prop where
  mem : PairsAreArcs P s.mem
  frames : ∀ w b, s.frames w = some b → b.FromGraph P

variable [DecidableEq W]

omit [DecidableEq V] in
theorem PairsInv.setFrame {P : Problem V} {s : PoolState W V} (I : PairsInv P s) {m : Shared W V}
    (hm : PairsAreArcs P m) (pool : Multiset (KV Dist V)) {w : W} {o : Option (Frame V)}
    (ho : ∀ b, o = some b → b.FromGraph P) :
    PairsInv P ({ s with mem := m, pool := pool }.setFrame w o) where
  mem := hm
  frames v b hb := by
    rcases frames_setFrame hb with ⟨-, hb⟩ | ⟨-, hb⟩
    · exact ho b hb
    · exact I.frames v b hb

theorem reachable_pairsInv {variant : Variant} {P : Problem V}
    {allowed : Shared W V → Bool → Frame V → Prop} {s : PoolState W V}
    (hs : (poolSystem variant P allowed).Reachable s) : PairsInv P s := by
  apply hs.invariant (I := PairsInv P)
  · rintro _ rfl
    have hstart : PathInv variant P (poolStart P : PoolState W V) := pathInv_start P
    exact ⟨hstart.mem.pairs, nofun⟩
  · intro s t _ I hstep
    cases hstep with
    | enter w hw | leave w n hw | pop w n e rest hw hpool =>
      refine I.setFrame I.mem _ ?_
      rintro _ ⟨⟩ <;> trivial
    | access w x b m effect hw hallowed haccess =>
      obtain ⟨hm, hframe⟩ := access_pairs I.mem (I.frames w b hw) haccess
      exact I.setFrame hm _ hframe

/-- **In every run of a search every predecessor pair is an arc**, also where exchanges raise
labels. -/
theorem pairs_are_arcs [Fintype W] (variant : Variant) (block : ℕ → KV Dist V) (P : Problem V)
    (leader : W) (c : SearchConfig W V) (hc : (search variant block P leader).Reachable c) :
    PairsAreArcs P c.shared :=
  (reachable_pairsInv ((search_refines variant block P leader).reachable hc)).mem

end Pairs

/-! ## Runs whose exchanges lower labels -/

/-- **Path correctness of `pwsa`, as far as it goes.**  In every run in which each winning exchange
stores a label below the one it finds, the predecessors of an expanded destination lead to the source
without a repetition, the loop that follows them ends, and every predecessor pair is an arc. -/
theorem pwsa_path_of_lowers {W V : Type*} [DecidableEq V] [DecidableEq W] [Fintype W]
    (block : ℕ → KV Dist V) (P : Problem V) (leader : W) (c : SearchConfig W V)
    (hc : (searchWhere .pwsa block P leader Lowers).Reachable c)
    (hdest : c.shared.isExpanded P.destination = true) :
    (∃ l d, PredPath P.graph P.source c.shared.pred P.destination l d ∧ l.Nodup ∧
      ∀ fuel, l.length ≤ fuel →
        predWalk c.shared.pred P.source fuel P.destination = some l) ∧
    ∀ v p, v ≠ P.source → c.shared.pred v = some p → ∃ w, P.graph.Arc p v w := by
  have hs := (searchWhere_refines .pwsa block P leader Lowers).reachable hc
  have I := reachable_pathInv (Or.inr fun _ _ _ h => h) hs
  obtain ⟨a, ha⟩ := I.mem.pathCorrect.delivered hdest
  obtain ⟨l, d, hpath, hnodup, -, hwalk⟩ := I.mem.pathCorrect.chain P.destination a ha
  exact ⟨⟨l, d, hpath, hnodup, hwalk⟩, I.mem.pairs⟩

instance {W V : Type*} [DecidableEq V] (m : Shared W V) (x : Bool) (b : Frame V) :
    Decidable (Lowers m x b) :=
  match b with
  | .casG _ _ vdistance arc _ expected => inferInstanceAs
      (Decidable (x = true → m.gpred arc.1 = expected → vdistance + (arc.2 : Dist) < m.g arc.1))
  | .loop _ | .loadExpanded _ _ | .casExpanded _ _ | .loadG _ _ | .relax _ _ _ _
  | .reload _ _ _ _ _ | .checkInsert _ _ _ _ _ => inferInstanceAs (Decidable True)

/-! ## The corridor -/

/-- Two cells that point at each other catch the loop that follows the predecessors. -/
theorem predWalk_circle {V : Type*} [DecidableEq V] {pred : V → Option V} {s a b : V} (ha : a ≠ s)
    (hb : b ≠ s) (hab : pred a = some b) (hba : pred b = some a) (fuel : ℕ) :
    predWalk pred s fuel a = none ∧ predWalk pred s fuel b = none := by
  induction fuel with
  | zero => exact ⟨rfl, rfl⟩
  | succ fuel ih => simp [predWalk, ha, hb, hab, hba, ih.1, ih.2]

/-- **A run of `pwsa` whose predecessors run in a circle.**  Four cells in a row, one worker: it
returns with the destination expanded, and the loop of `pathlen` never ends. -/
theorem pwsa_corridor_circle : ∃ c,
    (pwsa (corridorBlock 3) (corridorProblem 3) (0 : Fin 1)).Reachable c ∧
    (∀ w, c.pc w = .returned) ∧ c.shared.isExpanded (corridorProblem 3).destination = true ∧
    ∀ fuel, predWalk c.shared.pred (corridorProblem 3).source fuel
      (corridorProblem 3).destination = none := by
  obtain ⟨c, hreach, hret, hexp, h3, h2, h1⟩ := exists_corridor_run .pwsa 3 38
    (fun c => c.pc 0 = .returned ∧ c.shared.isExpanded 3 = true ∧ c.shared.pred 3 = some 2 ∧
      c.shared.pred 2 = some 1 ∧ c.shared.pred 1 = some 2) (by decide +kernel)
  refine ⟨c, hreach, ?_, hexp, ?_⟩
  · intro w
    rw [Subsingleton.elim w 0]
    exact hret
  · intro fuel
    show predWalk c.shared.pred 0 fuel 3 = none
    cases fuel with
    | zero => rfl
    | succ fuel =>
      have hcircle := (predWalk_circle (s := (0 : Fin 4)) (by decide) (by decide) h1 h2 fuel).2
      simp [predWalk, h3, hcircle]

/-! ## A detour

From the start to the end over a long way or over a short way, whose first arc is the longer one. -/

inductive Stop where
  | start
  | long
  | short
  | finish
  deriving DecidableEq

def detourProblem : Problem Stop where
  graph :=
    { nbrs := fun
        | .start => [(.long, 1), (.short, 2)]
        | .long => [(.finish, 10)]
        | .short => [(.finish, 1)]
        | .finish => []
      nonneg := by rintro (_ | _ | _ | _) <;> decide }
  heuristic _ := 0
  source := .start
  destination := .finish
  splitCutoff := 1
  pollCutoff := 1
  pebble := false

/-- The second worker is handed the long way and labels the end; the leader lowers that label over the
short way and expands the end.  Every exchange lowers a label, and the path is delivered. -/
theorem pwsa_path_of_lowers_detour : ∃ c,
    (searchWhere .pwsa (fun _ => ⟨⊤, .start⟩) detourProblem false Lowers).Reachable c ∧
    (c.shared.expansions = [(false, .short), (true, .long), (false, .start)] ∧
      c.shared.pred .finish = some .short) ∧
    (∃ l d, PredPath detourProblem.graph .start c.shared.pred .finish l d) ∧
    ∃ w, detourProblem.graph.Arc .short .finish w := by
  have hinit : (searchWhere .pwsa (fun _ => ⟨⊤, .start⟩) detourProblem false Lowers).init
      (start (client .pwsa (fun _ => ⟨⊤, .start⟩) detourProblem) false
        (initF (W := Bool) (fun _ => ⟨⊤, .start⟩) detourProblem).2 0
        (initF (fun _ => ⟨⊤, .start⟩) detourProblem).1 fun _ => .waiting) := ⟨_, rfl⟩
  obtain ⟨c, hreach, hlog, hexp, hpred⟩ := exists_reachable
    (searchWhere .pwsa (fun _ => ⟨⊤, .start⟩) detourProblem false Lowers)
    (fun w c => nextWhere .pwsa (fun _ => ⟨⊤, .start⟩) detourProblem false Lowers (w, goOn c w) c)
    (fun _ _ _ h => step_of_nextWhere h) hinit
    (List.replicate 4 false ++ List.replicate 9 true ++ List.replicate 20 false ++
      List.replicate 14 true ++ List.replicate 16 false)
    (fun c => c.shared.expansions = [(false, .short), (true, .long), (false, .start)] ∧
      c.shared.isExpanded .finish = true ∧ c.shared.pred .finish = some .short) (by decide +kernel)
  obtain ⟨⟨l, d, hpath, -⟩, hpairs⟩ := pwsa_path_of_lowers _ _ _ c hreach hexp
  exact ⟨c, hreach, ⟨hlog, hpred⟩, ⟨l, d, hpath⟩, hpairs .finish .short (by decide) hpred⟩

end PwsaStar.Pwsa
