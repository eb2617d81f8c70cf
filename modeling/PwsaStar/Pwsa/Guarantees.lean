/-
# PwsaStar.Pwsa.Guarantees — what a run of wPWSA* delivers.

`path_correct`: in every interleaving the predecessors of the labelled vertices form a tree rooted at
the source whose arcs never overcharge, labels only drop, and the loop that follows the predecessors
from an expanded destination ends.  It is stated for the pool machine, where entries are popped and
handed on in any order, and for the searches as `parallel_while_pwsa` runs them.

`nothing_forgotten`: no labelled vertex is lost between frontiers, mailboxes and workers, no vertex
is enumerated twice, and when everything has run dry exactly the reachable vertices are expanded.
-/
import PwsaStar.Pwsa.Refine

namespace PwsaStar.Pwsa

open PwsaStar.Lib PwsaStar.Heap PwsaStar.ParallelWhile

variable {W V : Type*} [DecidableEq V]

/-! ## Paths -/

/-- **The predecessors are right.** -/
structure PathCorrect (P : Problem V) (m : Shared W V) : Prop where
  source : m.gpred P.source = ⟨0, some P.source⟩
  /-- A labelled vertex has an expanded predecessor that accounts for its label. -/
  parent : ∀ v, v ≠ P.source → m.g v ≠ ⊤ →
    ∃ p w, m.pred v = some p ∧ m.isExpanded p = true ∧ P.graph.Arc p v w ∧
      m.g p + (w : Dist) ≤ m.g v
  /-- The chain of predecessors ends at the source, repeats no vertex, and its arcs weigh at most the
  label; the loop that follows it ends. -/
  chain : ∀ v (a : ℤ), m.g v = (a : Dist) → ∃ l d, PredPath P.graph P.source m.pred v l d ∧
    l.Nodup ∧ d ≤ a ∧ ∀ fuel, l.length ≤ fuel → predWalk m.pred P.source fuel v = some l
  /-- In particular this holds of the destination once it is expanded. -/
  delivered : m.isExpanded P.destination = true → ∃ a : ℤ, m.g P.destination = (a : Dist)

theorem MemOk.pathCorrect {P : Problem V} {m : Shared W V} (h : MemOk P m) : PathCorrect P m where
  source := h.source
  parent := h.forest.parent
  chain v a ha := by
    obtain ⟨l, d, hpath, hle⟩ := h.forest.exists_path ha
    exact ⟨l, d, hpath, hpath.nodup, hle, hpath.predWalk_eq⟩
  delivered hdest := by
    obtain ⟨a, ha⟩ := WithTop.ne_top_iff_exists.mp (h.labelled P.destination hdest)
    exact ⟨a, ha.symm⟩

/-- **Path correctness of wPWSA\*.**  Every graph with non-negative weights, every heuristic, every
number of workers, every interleaving. -/
theorem path_correct [DecidableEq W] [Fintype W] (variant : Variant)
    (hvariant : variant = .pwsa_pc ∨ variant = .pwsa_pcT) (P : Problem V) :
    (∀ s, (poolSystem (W := W) variant P unrestricted).Reachable s →
      PathCorrect P s.mem ∧ ∀ t, (poolSystem variant P unrestricted).Steps s t →
        ∀ v, t.mem.g v ≤ s.mem.g v) ∧
    ∀ (block : ℕ → KV Dist V) (leader : W) (c : SearchConfig W V),
      (search variant block P leader).Reachable c →
      PathCorrect P c.shared ∧ ∀ c', (search variant block P leader).Steps c c' →
        ∀ v, c'.shared.g v ≤ c.shared.g v := by
  have hne : variant ≠ .pwsa := by
    rcases hvariant with rfl | rfl <;> decide
  have himp : Improving variant (unrestricted (W := W) (V := V)) := Or.inl hne
  have hpool : ∀ s, (poolSystem (W := W) variant P unrestricted).Reachable s →
      PathCorrect P s.mem ∧ ∀ t, (poolSystem variant P unrestricted).Steps s t →
        ∀ v, t.mem.g v ≤ s.mem.g v := by
    intro s hs
    refine ⟨(reachable_pathInv himp hs).mem.pathCorrect, ?_⟩
    intro t ht
    exact (steps_grows himp hs ht).label
  refine ⟨hpool, ?_⟩
  intro block leader c hc
  have R := search_refines variant block P leader
  obtain ⟨hcorrect, hdrop⟩ := hpool (poolView c) (R.reachable hc)
  refine ⟨hcorrect, ?_⟩
  intro c' hc'
  exact hdrop (poolView c') (R.steps hc hc')

/-- Two workers: the second one has expanded the vertex that it was handed, the leader has come to the
destination. -/
theorem path_correct_corridor : ∃ c,
    (search .pwsa_pc (corridorBlock 3) (forkProblem 1) false).Reachable c ∧
    c.shared.expansions = [(false, 2), (true, 0), (false, 1)] ∧
    c.shared.isExpanded 3 = true ∧ PathCorrect (forkProblem 1) c.shared := by
  obtain ⟨c, hreach, hlog, hexp⟩ := exists_fork_run 1
    ((List.replicate 5 [false, true]).flatten ++ List.replicate 11 false)
    (fun c => c.shared.expansions = [(false, 2), (true, 0), (false, 1)] ∧ c.shared.isExpanded 3 = true)
    (by decide +kernel)
  exact ⟨c, hreach, hlog, hexp, ((path_correct .pwsa_pc (Or.inl rfl) _).2 _ _ c hreach).1⟩

/-! ## Completeness -/

/-- **No discovered vertex is forgotten, none is expanded twice.** -/
structure NothingForgotten (P : Problem V) (c : SearchConfig W V) : Prop where
  tracked : ∀ v, c.shared.g v ≠ ⊤ → c.shared.isExpanded v = false →
    (∃ e ∈ c.input.entries, e.value = v) ∨
    (∃ w, ∃ e ∈ (c.myFrontier w).entries, e.value = v) ∨
    (∃ w, ∃ e ∈ (c.frontiers w).entries, e.value = v) ∨
    (∃ w steps, c.pc w = .work (.loadExpanded steps v) ∨ c.pc w = .work (.casExpanded steps v)) ∨
    ∃ w steps u vdistance arc arcs,
      c.pc w = .work (.checkInsert steps u vdistance arc arcs) ∧ arc.1 = v
  once : (c.shared.expansions.map Prod.snd).Nodup
  exhausted : c.shared.isExpanded P.destination = false → c.input.entries = 0 →
    (∀ w, (c.myFrontier w).entries = 0) → (∀ w, (c.frontiers w).entries = 0) →
    (∀ w b, c.pc w ≠ .work b) →
    ∀ v, c.shared.isExpanded v = true ↔ P.graph.Reaches P.source v

omit [DecidableEq V] in
/-- A vertex in the hands of a worker, as the program counters show it. -/
theorem busy_holds [Fintype W] {c : SearchConfig W V} {v : V}
    (h : (poolView c).Busy (Frame.Holds v)) :
    (∃ w steps, c.pc w = .work (.loadExpanded steps v) ∨ c.pc w = .work (.casExpanded steps v)) ∨
    ∃ w steps u vdistance arc arcs,
      c.pc w = .work (.checkInsert steps u vdistance arc arcs) ∧ arc.1 = v := by
  obtain ⟨w, b, hb, hholds⟩ := h
  have hpc : c.pc w = .work b := frameOf_eq_some.mp hb
  cases b with
  | loadExpanded steps u =>
    cases hholds
    exact Or.inl ⟨w, steps, Or.inl hpc⟩
  | casExpanded steps u =>
    cases hholds
    exact Or.inl ⟨w, steps, Or.inr hpc⟩
  | checkInsert steps u vdistance arc arcs => exact Or.inr ⟨w, steps, u, vdistance, arc, arcs, hpc, hholds⟩
  | _ => exact hholds.elim

/-- **wPWSA\* forgets no vertex and expands none twice.** -/
theorem nothing_forgotten [DecidableEq W] [Fintype W] (block : ℕ → KV Dist V) (P : Problem V)
    (leader : W) (c : SearchConfig W V) (hc : (pwsaPc block P leader).Reachable c) :
    NothingForgotten P c := by
  have hs := (search_refines .pwsa_pc block P leader).reachable hc
  have J := reachable_pathInv (Or.inl (by decide)) hs
  have I := reachable_trackInv (by decide) hs
  refine ⟨?_, I.nodup, ?_⟩
  · intro v hv hopen
    rcases I.tracked v hv hopen with ⟨e, he, hev⟩ | h
    · rcases mem_total.mp he with he | ⟨w, he⟩ | ⟨w, he⟩
      · exact Or.inl ⟨e, he, hev⟩
      · exact Or.inr (Or.inl ⟨w, e, he, hev⟩)
      · exact Or.inr (Or.inr (Or.inl ⟨w, e, he, hev⟩))
    · exact Or.inr (Or.inr (Or.inr (busy_holds h)))
  · intro hdest hinput hmine hmail hwork
    apply expanded_iff_reaches J I hdest
    · show total ValidHeap.entries c = 0
      simp [total, hinput, hmine, hmail]
    · intro w b hb
      exact absurd (frameOf_eq_some.mp hb) (hwork w b)

/-- The two neighbors of the source are in the hands of two workers. -/
theorem nothing_forgotten_corridor : ∃ c,
    (pwsaPc (corridorBlock 3) (forkProblem 1) false).Reachable c ∧
    (c.pc false = .work (.loadExpanded 1 2) ∧ c.pc true = .work (.casExpanded 1 0)) ∧
    NothingForgotten (forkProblem 1) c := by
  obtain ⟨c, hreach, hwork⟩ := exists_fork_run 1 [false]
    (fun c => c.pc false = .work (.loadExpanded 1 2) ∧ c.pc true = .work (.casExpanded 1 0))
    (by decide +kernel)
  exact ⟨c, hreach, hwork, nothing_forgotten _ _ _ c hreach⟩

end PwsaStar.Pwsa
