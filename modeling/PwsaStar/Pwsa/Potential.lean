/-
# PwsaStar.Pwsa.Potential — a bound on the accesses that are left.

Every vertex is expanded at most once and every arc is relaxed at most once per expansion, so the
work inside `do_work` is bounded: `potential` charges each unexpanded vertex for its expansion, each
entry for being popped, and each worker for what is left of the vertex in its hands.  No access
raises it.  An access lowers it, unless it only loads a label it is about to exchange or has lost an
exchange; those two are followed by one that does.
-/
import PwsaStar.Pwsa.Pool

namespace PwsaStar.Pwsa

open PwsaStar.Lib PwsaStar.Heap PwsaStar.ParallelWhile

variable {W V : Type*}

/-- What a worker has left to do for the vertex in its hands. -/
def frameCost (P : Problem V) : Option (Frame V) → ℕ
  | some (.loadExpanded _ _) => 2
  | some (.casExpanded _ _) => 1
  | some (.loadG _ v) => 2 + 5 * (P.graph.nbrs v).length
  | some (.relax _ _ _ arcs) => 1 + 5 * arcs.length
  | some (.reload _ _ _ _ arcs) | some (.casG _ _ _ _ arcs _) => 6 + 5 * arcs.length
  | some (.checkInsert _ _ _ _ arcs) => 5 + 5 * arcs.length
  | _ => 0

/-- The expansions that are left. -/
def vertexCost [Fintype V] (P : Problem V) (m : Shared W V) : ℕ :=
  ∑ v, if m.isExpanded v = true then 0 else 2 + 5 * (P.graph.nbrs v).length

/-- **The potential.** -/
def potential [Fintype V] [Fintype W] (P : Problem V) (s : PoolState W V) : ℕ :=
  vertexCost P s.mem + 3 * s.pool.card + ∑ w, frameCost P (s.frames w)

variable [DecidableEq V] [Fintype V]

omit [DecidableEq V] in
/-- A worker changes its frame. -/
theorem potential_setFrame [DecidableEq W] [Fintype W] (P : Problem V) (s : PoolState W V) (w : W)
    (o : Option (Frame V)) :
    potential P (s.setFrame w o) + frameCost P (s.frames w) = potential P s + frameCost P o := by
  have hsum := sum_update (frameCost P) s.frames w o
  simp only [potential, PoolState.setFrame]
  omega

omit [DecidableEq V] in
/-- A worker writes the memory, inserts entries and changes its frame. -/
theorem potential_access [DecidableEq W] [Fintype W] (P : Problem V) (s : PoolState W V) (w : W)
    (m : Shared W V) (inserted : Multiset (KV Dist V)) (o : Option (Frame V)) :
    potential P ({ s with mem := m, pool := inserted + s.pool }.setFrame w o) +
        (vertexCost P s.mem + frameCost P (s.frames w)) =
      potential P s + (vertexCost P m + 3 * inserted.card + frameCost P o) := by
  have hsum := sum_update (frameCost P) s.frames w o
  simp only [potential, PoolState.setFrame, Multiset.card_add]
  omega

omit [DecidableEq V] in
/-- A pop lowers the potential. -/
theorem potential_pop [DecidableEq W] [Fintype W] (P : Problem V) {s : PoolState W V} {w : W}
    {n k : ℤ} {e : KV Dist V} {rest : Multiset (KV Dist V)} (hw : s.frames w = some (.loop n))
    (hpool : s.pool = e ::ₘ rest) (v : V) :
    potential P ({ s with pool := rest }.setFrame w (some (.loadExpanded k v))) + 1 =
      potential P s := by
  have hsum := sum_update (frameCost P) s.frames w (some (.loadExpanded k v))
  have hbefore : frameCost P (some (.loop n)) = 0 := rfl
  have hafter : frameCost P (some (.loadExpanded k v)) = 2 := rfl
  rw [hw, hbefore, hafter] at hsum
  simp only [potential, PoolState.setFrame, hpool, Multiset.card_cons]
  omega

theorem vertexCost_mark (P : Problem V) {m : Shared W V} {v : V} (hv : m.isExpanded v = false)
    (w : W) :
    vertexCost P (m.mark w v) + (2 + 5 * (P.graph.nbrs v).length) = vertexCost P m := by
  unfold vertexCost
  rw [← Finset.add_sum_erase _ _ (Finset.mem_univ v), ← Finset.add_sum_erase (a := v) _ _
    (Finset.mem_univ v)]
  have hrest : ∀ u ∈ Finset.univ.erase v,
      (if (m.mark w v).isExpanded u = true then 0 else 2 + 5 * (P.graph.nbrs u).length) =
        if m.isExpanded u = true then 0 else 2 + 5 * (P.graph.nbrs u).length := by
    intro u hu
    simp only [isExpanded_mark, Finset.ne_of_mem_erase hu, false_or]
  rw [Finset.sum_congr rfl hrest]
  simp only [isExpanded_mark_self, hv, if_true, Bool.false_eq_true, if_false]
  omega

/-- An access that does not lower the potential: a load before an exchange, or a lost exchange. -/
def Idles (m : Shared W V) (b : Frame V) (effect : Effect V) : Prop :=
  (∃ steps v vdistance arc arcs, b = .relax steps v vdistance (arc :: arcs) ∧
    effect = .goto (.casG steps v vdistance arc arcs (m.gpred arc.1))) ∨
  ∃ steps v vdistance arc arcs expected, b = .casG steps v vdistance arc arcs expected ∧
    effect = .goto (.relax steps v vdistance (arc :: arcs))

/-- **An access of `pwsa_pc` lowers the potential or idles.** -/
theorem access_potential {variant : Variant} (hvariant : variant ≠ .pwsa) {P : Problem V} {w : W}
    {x : Bool} {m m' : Shared W V} {b : Frame V} {effect : Effect V} (hb : Guarded b)
    (h : access variant P w x m b = some (m', effect)) :
    vertexCost P m' + 3 * effect.inserted.card + frameCost P effect.frame <
        vertexCost P m + frameCost P (some b) ∨
      m' = m ∧ effect.inserted = 0 ∧ frameCost P effect.frame = frameCost P (some b) ∧
        Idles m b effect := by
  cases access_cases h with
  | better =>
    refine Or.inr ⟨rfl, rfl, ?_, Or.inl ⟨_, _, _, _, _, rfl, rfl⟩⟩
    simp only [frameCost, Effect.frame, List.length_cons]
    omega
  | retry =>
    refine Or.inr ⟨rfl, rfl, ?_, Or.inr ⟨_, _, _, _, _, _, rfl, rfl⟩⟩
    simp only [frameCost, Effect.frame, List.length_cons]
    omega
  | find hv =>
    have hmark := vertexCost_mark P hv w
    apply Or.inl
    simp only [Effect.inserted, Effect.frame, frameCost, Multiset.card_zero]
    omega
  | win hv =>
    have hmark := vertexCost_mark P hv w
    apply Or.inl
    simp only [Effect.inserted, Effect.frame, frameCost, Multiset.card_zero]
    omega
  | first heq | giveUp heq => exact absurd heq hvariant
  | reload => exact hb.elim
  | _ =>
    -- no vertex is marked
    apply Or.inl
    show vertexCost P m + _ + _ < _
    simp only [Effect.inserted, Effect.frame, frameCost, Multiset.card_zero,
      Multiset.card_singleton, List.length_cons, List.length_nil]
    omega

end PwsaStar.Pwsa
