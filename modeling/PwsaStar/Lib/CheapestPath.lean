/-
# PwsaStar.Lib.CheapestPath — paths as lists of vertices, and what they cost over parallel arcs.

`PathCost G l d` says that consecutive vertices of `l` are joined by arcs of `G` of total weight `d`.
`WGraph.cheapest` keeps of the parallel arcs of `G` the lightest ones, so that a path of
`G.cheapest` is a path of `G` charged with the cheapest arc at every step.  Predecessor pointers that
never overcharge in `G` never overcharge in `G.cheapest` (`Forest.cheapest`): a walk along them can
be charged by looking the arcs up again.
-/
import PwsaStar.Lib.PredForest
import Mathlib.Order.Bounds.Basic

namespace PwsaStar.Lib

universe u

variable {V : Type u}

/-! ## The lightest of parallel arcs -/

/-- Of the arcs with the same ends only the lightest. -/
def WGraph.cheapest [DecidableEq V] (G : WGraph V) : WGraph V where
  nbrs u := (G.nbrs u).filter fun a => ∀ b ∈ G.nbrs u, b.1 = a.1 → a.2 ≤ b.2
  nonneg u a ha := G.nonneg u a (List.mem_filter.mp ha).1

theorem WGraph.arc_cheapest [DecidableEq V] {G : WGraph V} {u v : V} {w : ℤ} :
    G.cheapest.Arc u v w ↔ IsLeast {c | G.Arc u v c} w := by
  show (v, w) ∈ (G.nbrs u).filter _ ↔ _
  rw [List.mem_filter, decide_eq_true_iff]
  constructor
  · rintro ⟨hmem, hleast⟩
    exact ⟨hmem, fun c hc => hleast (v, c) hc rfl⟩
  · rintro ⟨hmem, hleast⟩
    refine ⟨hmem, ?_⟩
    rintro ⟨v', c⟩ hb rfl
    exact hleast hb

/-- Where there is an arc, there is a lightest one. -/
theorem WGraph.Arc.exists_cheapest [DecidableEq V] {G : WGraph V} {u v : V} {w : ℤ}
    (h : G.Arc u v w) : ∃ c ≤ w, G.cheapest.Arc u v c := by
  -- weights are natural numbers, and these have a least element
  have hex : ∃ n : ℕ, G.Arc u v n := ⟨w.toNat, by rwa [Int.toNat_of_nonneg h.nonneg]⟩
  have hleast : ∀ c, G.Arc u v c → (Nat.find hex : ℤ) ≤ c := by
    intro c hc
    have hmin : Nat.find hex ≤ c.toNat :=
      Nat.find_min' hex (by rwa [Int.toNat_of_nonneg hc.nonneg])
    have := hc.nonneg
    omega
  exact ⟨Nat.find hex, hleast w h, arc_cheapest.mpr ⟨Nat.find_spec hex, hleast⟩⟩

/-- Pointers that never overcharge never overcharge the lightest arcs. -/
theorem Forest.cheapest [DecidableEq V] {G : WGraph V} {s : V} {closed : V → Prop}
    {g : V → WithTop ℤ} {pred : V → Option V} (F : Forest G s closed g pred) :
    Forest G.cheapest s closed g pred where
  root := F.root
  nonneg := F.nonneg
  parent v hv hfin := by
    obtain ⟨p, w, hp, hcl, harc, hle⟩ := F.parent v hv hfin
    obtain ⟨c, hcw, hc⟩ := harc.exists_cheapest
    refine ⟨p, c, hp, hcl, hc, le_trans ?_ hle⟩
    gcongr
    exact_mod_cast hcw
  rooted := F.rooted

/-! ## The cost of a path -/

/-- Consecutive vertices of the list are joined by arcs; `d` is the sum of their weights. -/
inductive PathCost (G : WGraph V) : List V → ℤ → Prop
  | single (v : V) : PathCost G [v] 0
  | cons {a b : V} {l : List V} {c d : ℤ} :
      G.Arc a b c → PathCost G (b :: l) d → PathCost G (a :: b :: l) (c + d)

theorem PathCost.snoc {G : WGraph V} {l : List V} {d : ℤ} (h : PathCost G l d) {a b : V} {c : ℤ}
    (hlast : l.getLast? = some a) (harc : G.Arc a b c) : PathCost G (l ++ [b]) (d + c) := by
  induction h with
  | single v =>
    obtain rfl : v = a := Option.some.inj hlast
    rw [Int.add_comm]
    exact (PathCost.single b).cons harc
  | @cons a' b' l c' d harc' _ ih =>
    rw [List.getLast?_cons_cons] at hlast
    rw [add_assoc]
    exact (ih hlast).cons harc'

/-- Consecutive vertices are joined by an arc. -/
theorem PathCost.isChain {G : WGraph V} {l : List V} {d : ℤ} (h : PathCost G l d) :
    l.IsChain fun a b => ∃ c, G.Arc a b c := by
  induction h with
  | single v => exact List.isChain_singleton v
  | cons harc _ ih => exact List.isChain_cons_cons.mpr ⟨⟨_, harc⟩, ih⟩

/-- A path from `s` to `t` without a repetition, with its cost. -/
structure IsPath (G : WGraph V) (s t : V) (l : List V) (d : ℤ) : Prop where
  begins : l.head? = some s
  ends : l.getLast? = some t
  nodup : l.Nodup
  cost : PathCost G l d

/-- A pointer path read backwards. -/
theorem PredPath.reverse {G : WGraph V} {s v : V} {pred : V → Option V} {l : List V} {d : ℤ}
    (h : PredPath G s pred v l d) : IsPath G s v l.reverse d := by
  have hnodup := h.nodup
  induction h with
  | root => exact ⟨rfl, rfl, by simp, PathCost.single s⟩
  | @step v p w d l hne hp harc _ ih =>
    have hrest := ih (List.nodup_cons.mp hnodup).2
    rw [List.reverse_cons]
    refine ⟨?_, by simp, ?_, hrest.cost.snoc hrest.ends harc⟩
    · rw [List.head?_append, hrest.begins]
      rfl
    · rw [← List.reverse_cons]
      exact List.nodup_reverse.mpr hnodup

end PwsaStar.Lib
