/-
# PwsaStar.Range.AStar — the sums `states[v].dist + weight` of `astar`.

`sums` lists the sums that a run computes.  `loop_sums_le` bounds them for every heuristic: an expansion
is complete before the next vertex is popped, so every popped vertex is `Ready`.  Every label other than
that of the source is one of the sums.
-/
import PwsaStar.AStar
import PwsaStar.Lib.ChordlessPath

namespace PwsaStar.AStar

open PwsaStar.Lib PwsaStar.Heap

variable {V : Type*} [DecidableEq V]

/-! ## The sums of a run -/

/-- The sums computed while arcs of `v` are relaxed. -/
def relaxSums (heuristic : V → ℤ) (v : V) : State V → List (V × ℤ) → List Dist
  | _, [] => []
  | st, arc :: arcs =>
    (st.dist v + (arc.2 : Dist)) :: relaxSums heuristic v (relax heuristic v st arc) arcs

/-- The sums computed in the loop. -/
def loopSums (G : WGraph V) (heuristic : V → ℤ) (destination : V) : ℕ → State V → List Dist
  | 0, _ => []
  | fuel + 1, st =>
    match st.frontier.deleteMin with
    | none => []
    | some (v, frontier) =>
      let st₁ := { st with frontier := frontier }
      if v = destination then []
      else if st.isExpanded v then loopSums G heuristic destination fuel st₁
      else relaxSums heuristic v (mark v st₁) (G.nbrs v) ++
        loopSums G heuristic destination fuel ((G.nbrs v).foldl (relax heuristic v) (mark v st₁))

/-- The sums that a call of `astar` computes in its first `fuel` iterations. -/
def sums (block : ℕ → KV Dist V) (G : WGraph V) (heuristic : V → ℤ) (source destination : V)
    (pebble : Bool) (fuel : ℕ) : List Dist :=
  loopSums G heuristic destination fuel (start block heuristic source pebble)

/-! ## A bound -/

/-- Labels that are there are between 0 and `M`. -/
def LabelsWithin (M : ℤ) (st : State V) : Prop :=
  ∀ v, 0 ≤ st.dist v ∧ (st.dist v ≠ ⊤ → st.dist v ≤ (M : Dist))

/-- A vertex that may be expanded. -/
def ReadyIn (G : WGraph V) (s t : V) (st : State V) (v : V) : Prop :=
  Ready G s t (fun v => st.isExpanded v = true) st.dist v

/-- Between two expansions every entry is one of a vertex that may be expanded. -/
structure Bounded (G : WGraph V) (s t : V) (M : ℤ) (st : State V) : Prop where
  labels : LabelsWithin M st
  ready : ∀ e ∈ st.frontier.entries, ReadyIn G s t st e.value

/-- During the expansion of `v` some entries wait for the rest of its arcs. -/
structure BoundedAt (G : WGraph V) (s t : V) (M : ℤ) (v : V) (arcs : List (V × ℤ)) (d : ℤ)
    (q : List (V × ℤ)) (st : State V) : Prop where
  labels : LabelsWithin M st
  expanding : Expanding G s t (fun v => st.isExpanded v = true) st.dist v arcs d q
  pending : ∀ e ∈ st.frontier.entries, ReadyIn G s t st e.value ∨ ∃ w, G.Arc v e.value w

variable {G : WGraph V} {H : V → ℤ} {s t : V} {M : ℤ}

theorem BoundedAt.relax (hM : ChordlessWithin G s t M) {v : V} {arc : V × ℤ} {arcs : List (V × ℤ)}
    {d : ℤ} {q : List (V × ℤ)} {st : State V} (B : BoundedAt G s t M v (arc :: arcs) d q st) :
    (0 ≤ st.dist v + (arc.2 : Dist) ∧ st.dist v + (arc.2 : Dist) ≤ (M : Dist)) ∧
      BoundedAt G s t M v arcs d q (AStar.relax H v st arc) := by
  have hsum := B.expanding.sum_le hM B.expanding.backed.label
  have hnonneg : 0 ≤ st.dist v + (arc.2 : Dist) := by
    have harc := (B.expanding.remaining arc List.mem_cons_self).nonneg
    exact add_nonneg (B.labels v).1 (by exact_mod_cast harc)
  have hpath : st.dist v + (arc.2 : Dist) ≤ ((d + arc.2 : ℤ) : Dist) :=
    Expanding.sum_le_path B.expanding.backed.label
  refine ⟨⟨hnonneg, hsum⟩, ?_⟩
  unfold AStar.relax
  dsimp only
  split_ifs with hlt
  · have hlower : ∀ u, Function.update st.dist arc.1 (st.dist v + (arc.2 : Dist)) u ≤ st.dist u :=
      update_le_self_iff.mpr hlt.le
    refine ⟨fun u => ?_, ?_, fun e he => ?_⟩
    · dsimp only
      by_cases hua : u = arc.1
      · subst hua
        rw [Function.update_self]
        exact ⟨hnonneg, fun _ => hsum⟩
      · rw [Function.update_of_ne hua]
        exact B.labels u
    · apply (B.expanding.mono (fun _ h => h) hlower).tail
      rw [Function.update_self]
      exact hpath
    · dsimp only at he
      rw [ValidHeap.entries_insert] at he
      rcases Multiset.mem_cons.mp he with rfl | he
      · exact Or.inr ⟨arc.2, B.expanding.remaining arc List.mem_cons_self⟩
      · exact (B.pending e he).imp_left fun h => Ready.mono h (fun _ h => h) hlower
  · exact ⟨B.labels, B.expanding.tail ((not_lt.mp hlt).trans hpath), B.pending⟩

/-- All arcs of a vertex. -/
theorem BoundedAt.relaxAll (hM : ChordlessWithin G s t M) {v : V} {d : ℤ} {q : List (V × ℤ)} :
    ∀ (arcs : List (V × ℤ)) {st : State V}, BoundedAt G s t M v arcs d q st →
      (∀ x ∈ relaxSums H v st arcs, 0 ≤ x ∧ x ≤ (M : Dist)) ∧
        Bounded G s t M (arcs.foldl (AStar.relax H v) st) := by
  intro arcs
  induction arcs with
  | nil =>
    intro st B
    refine ⟨by simp [relaxSums], B.labels, fun e he => ?_⟩
    rcases B.pending e he with h | ⟨w, harc⟩
    · exact h
    · exact B.expanding.ready harc
  | cons arc arcs ih =>
    intro st B
    obtain ⟨hsum, hnext⟩ := B.relax (H := H) hM
    obtain ⟨hsums, hend⟩ := ih hnext
    refine ⟨fun x hx => ?_, hend⟩
    rcases List.mem_cons.mp hx with rfl | hx
    · exact hsum
    · exact hsums x hx

/-- The popped vertex, when it is expanded. -/
theorem Bounded.expand {st : State V} (B : Bounded G s t M st) {v : V}
    {frontier : ValidHeap Dist V} (hpop : st.frontier.deleteMin = some (v, frontier)) (hv : v ≠ t)
    (hopen : st.isExpanded v = false) :
    ∃ d q, BoundedAt G s t M v (G.nbrs v) d q (mark v { st with frontier := frontier }) := by
  obtain ⟨p, hent, -⟩ := ValidHeap.entries_deleteMin hpop
  have hgrow : ∀ u, st.isExpanded u = true →
      (mark v { st with frontier := frontier }).isExpanded u = true :=
    fun u hu => update_mark_iff.mpr (Or.inr hu)
  rcases B.ready ⟨p, v⟩ (by rw [hent]; exact Multiset.mem_cons_self ..) with hexp | ⟨d, q, hbacked⟩
  · dsimp only at hexp
    rw [hopen] at hexp
    cases hexp
  · refine ⟨d, q, B.labels, .start (hbacked.mono hgrow fun _ => le_rfl) hv ?_, fun e he => Or.inl ?_⟩
    · simp [mark]
    · exact Ready.mono (B.ready e (by rw [hent]; exact Multiset.mem_cons_of_mem he)) hgrow
        fun _ => le_rfl

/-- **The loop.** -/
theorem loop_sums_le (hM : ChordlessWithin G s t M) : ∀ (fuel : ℕ) {st : State V},
    Bounded G s t M st → ∀ x ∈ loopSums G H t fuel st, 0 ≤ x ∧ x ≤ (M : Dist) := by
  intro fuel
  induction fuel with
  | zero =>
    intro st _ x hx
    cases hx
  | succ fuel ih =>
    intro st B x hx
    unfold loopSums at hx
    cases hpop : st.frontier.deleteMin with
    | none => simp [hpop] at hx
    | some r =>
      obtain ⟨v, frontier⟩ := r
      simp only [hpop] at hx
      split_ifs at hx with hvt hexp
      · cases hx
      · obtain ⟨p, hent, -⟩ := ValidHeap.entries_deleteMin hpop
        have hrest : Bounded G s t M { st with frontier := frontier } :=
          ⟨B.labels, fun e he => B.ready e (by rw [hent]; exact Multiset.mem_cons_of_mem he)⟩
        exact ih hrest x hx
      · obtain ⟨d, q, hat⟩ := B.expand hpop hvt (by simpa using hexp)
        obtain ⟨hsums, hend⟩ := hat.relaxAll (H := H) hM
        rcases List.mem_append.mp hx with hx | hx
        · exact hsums x hx
        · exact ih hend x hx

/-- **No sum of `astar` is larger than the condition allows**, whatever the heuristic is. -/
theorem sums_le (h0 : 0 ≤ M) (hM : ChordlessWithin G s t M) (block : ℕ → KV Dist V) (H : V → ℤ)
    (pebble : Bool) (fuel : ℕ) : ∀ x ∈ sums block G H s t pebble fuel, 0 ≤ x ∧ x ≤ (M : Dist) := by
  have hsource : (start block H s pebble).dist s = 0 := by simp [start]
  refine loop_sums_le hM fuel ⟨fun v => ?_, fun e he => ?_⟩
  · by_cases hvs : v = s
    · rw [hvs, hsource]
      exact ⟨le_rfl, fun _ => by exact_mod_cast h0⟩
    · simp [start, hvs]
  · obtain rfl : e = ⟨(H s : Dist), s⟩ := by simpa [start] using he
    exact ready_source hsource

/-! ## Labels are sums -/

theorem relaxAll_dist (H : V → ℤ) (v : V) : ∀ (arcs : List (V × ℤ)) (st : State V) (u : V),
    (arcs.foldl (relax H v) st).dist u = st.dist u ∨
      (arcs.foldl (relax H v) st).dist u ∈ relaxSums H v st arcs := by
  intro arcs
  induction arcs with
  | nil =>
    intro st u
    exact Or.inl rfl
  | cons arc arcs ih =>
    intro st u
    rw [List.foldl_cons, relaxSums]
    rcases ih (relax H v st arc) u with heq | hmem
    · rw [heq]
      by_cases hlt : st.dist v + (arc.2 : Dist) < st.dist arc.1
      · by_cases hu : u = arc.1
        · refine Or.inr (List.mem_cons.mpr (Or.inl ?_))
          simp [relax, hlt, hu]
        · exact Or.inl (by simp [relax, hlt, hu])
      · exact Or.inl (by simp [relax, hlt])
    · exact Or.inr (List.mem_cons_of_mem _ hmem)

/-- **When the loop finds the destination**, a label is an old one or one of the sums. -/
theorem loop_dist {fuel : ℕ} : ∀ {pops : ℕ} {st st' : State V} {pops' : ℕ},
    loop false G H t fuel pops st = .found st' pops' →
    ∀ u, st'.dist u = st.dist u ∨ st'.dist u ∈ loopSums G H t fuel st := by
  induction fuel with
  | zero =>
    intro pops st st' pops' hrun
    cases hrun
  | succ fuel ih =>
    intro pops st st' pops' hrun u
    unfold loop at hrun
    unfold loopSums
    cases hpop : st.frontier.deleteMin with
    | none => simp [hpop] at hrun
    | some r =>
      obtain ⟨v, frontier⟩ := r
      simp only [hpop, Bool.false_eq_true, false_and, if_false] at hrun ⊢
      split_ifs at hrun ⊢ with hvt hexp
      · cases hrun
        exact Or.inl rfl
      · exact ih hrun u
      · rcases ih hrun u with heq | hmem
        · rw [heq]
          exact (relaxAll_dist H v (G.nbrs v) _ u).imp_right (List.mem_append_left _)
        · exact Or.inr (List.mem_append_right _ hmem)

end PwsaStar.AStar
