/-
# PwsaStar.Lib.WeightedGraph — directed graphs with non-negative arc weights.

A graph is given the way a search sees it: for every vertex the list of its outgoing arcs, in the
order they are enumerated (parallel arcs and loops are allowed).  Non-negativity of the weights is a
field, so a graph with a negative arc cannot be built.

The two facts searches rest on are

* `Walk.cut` — a walk out of `s` that ends outside a set of closed vertices leaves the set over a
  last arc, or starts outside it;
* `Walk.potential_le` — a potential that drops by at most `W · c` along every arc drops by at most
  `W · weight` along every walk.
-/
import Mathlib.Data.Real.Basic
import Mathlib.Data.Int.Basic
import Mathlib.Tactic.Linarith
import Mathlib.Tactic.Positivity
import Mathlib.Data.Fintype.BigOperators
import Mathlib.Order.WithBot

namespace PwsaStar.Lib

universe u

/-- Labels of vertices: exact integers, with `⊤` for "no walk found yet". -/
abbrev Dist := WithTop ℤ

-- The order of the labels, written out so that it is decided by the integers whatever is imported.
instance Dist.linearOrder : LinearOrder Dist := @WithTop.linearOrder ℤ Int.instLinearOrder

instance Dist.preorder : Preorder Dist := Dist.linearOrder.toPreorder

instance : LE Dist := Dist.preorder.toLE

instance : LT Dist := Dist.preorder.toLT

instance : OrderTop Dist := @WithTop.instOrderTop ℤ Int.instLEInt

/-- A directed graph: `nbrs v` lists the arcs out of `v` with their weights. -/
structure WGraph (V : Type u) where
  nbrs : V → List (V × ℤ)
  nonneg : ∀ v, ∀ a ∈ nbrs v, 0 ≤ a.2

namespace WGraph

variable {V : Type u}

/-- `G.Arc u v w`: there is an arc from `u` to `v` of weight `w`. -/
def Arc (G : WGraph V) (u v : V) (w : ℤ) : Prop := (v, w) ∈ G.nbrs u

instance [DecidableEq V] (G : WGraph V) (u v : V) (w : ℤ) : Decidable (G.Arc u v w) :=
  inferInstanceAs (Decidable ((v, w) ∈ G.nbrs u))

theorem Arc.nonneg {G : WGraph V} {u v : V} {w : ℤ} (h : G.Arc u v w) : 0 ≤ w :=
  G.nonneg u (v, w) h

/-- `G.Walk s v d`: some walk from `s` to `v` has total weight `d`. -/
inductive Walk (G : WGraph V) (s : V) : V → ℤ → Prop
  | nil : Walk G s s 0
  | snoc {u v : V} {d w : ℤ} : Walk G s u d → G.Arc u v w → Walk G s v (d + w)

/-- Some walk leads from `s` to `v`. -/
def Reaches (G : WGraph V) (s v : V) : Prop := ∃ d, G.Walk s v d

/-- `d` is the shortest distance from `s` to `v`. -/
def IsDist (G : WGraph V) (s v : V) (d : ℤ) : Prop :=
  G.Walk s v d ∧ ∀ d', G.Walk s v d' → d ≤ d'

/-- The number of arcs of a finite graph, parallel arcs counted. -/
def arcCount [Fintype V] (G : WGraph V) : ℕ := ∑ v, (G.nbrs v).length

variable {G : WGraph V}

theorem Walk.nonneg {s v : V} {d : ℤ} (h : G.Walk s v d) : 0 ≤ d := by
  induction h with
  | nil => exact le_rfl
  | snoc _ harc ih => exact add_nonneg ih harc.nonneg

theorem Walk.single {u v : V} {w : ℤ} (h : G.Arc u v w) : G.Walk u v w := by
  simpa using Walk.snoc Walk.nil h

theorem Walk.append {s u v : V} {d e : ℤ} (h₁ : G.Walk s u d) (h₂ : G.Walk u v e) :
    G.Walk s v (d + e) := by
  induction h₂ with
  | nil => simpa using h₁
  | snoc _ harc ih => simpa [add_assoc] using ih.snoc harc

theorem Reaches.refl (s : V) : G.Reaches s s := ⟨0, Walk.nil⟩

theorem Reaches.snoc {s u v : V} {w : ℤ} (h : G.Reaches s u) (harc : G.Arc u v w) :
    G.Reaches s v := by
  obtain ⟨d, hd⟩ := h
  exact ⟨d + w, hd.snoc harc⟩

/-- Weights are non-negative integers, so a reachable vertex has a shortest distance. -/
theorem Reaches.exists_isDist {s v : V} (h : G.Reaches s v) : ∃ d, G.IsDist s v d := by
  classical
  obtain ⟨d, hd⟩ := h
  -- weights of walks are natural numbers, and these have a least element
  have hex : ∃ n : ℕ, G.Walk s v n := ⟨d.toNat, by rwa [Int.toNat_of_nonneg hd.nonneg]⟩
  refine ⟨Nat.find hex, Nat.find_spec hex, ?_⟩
  intro d' hd'
  have hmin : Nat.find hex ≤ d'.toNat :=
    Nat.find_min' hex (by rwa [Int.toNat_of_nonneg hd'.nonneg])
  have := hd'.nonneg
  omega

/-- **Cutting a walk at the boundary of the closed set.**  A walk from `s` to a vertex outside
`closed` passes through a vertex `u` outside it that is `s` itself or the head of an arc whose tail
is closed; the rest of the walk leads from `u` to the end. -/
theorem Walk.cut {s v : V} {d : ℤ} (closed : V → Prop) (h : G.Walk s v d) (hv : ¬ closed v) :
    ∃ u d₁ d₂, d = d₁ + d₂ ∧ ¬ closed u ∧ G.Walk u v d₂ ∧
      ((u = s ∧ d₁ = 0) ∨ ∃ p d₀ w, closed p ∧ G.Walk s p d₀ ∧ G.Arc p u w ∧ d₁ = d₀ + w) := by
  induction h with
  | nil => exact ⟨s, 0, 0, by simp, hv, Walk.nil, Or.inl ⟨rfl, rfl⟩⟩
  | @snoc p v d w hwalk harc ih =>
      by_cases hp : closed p
      · exact ⟨v, d + w, 0, by simp, hv, Walk.nil, Or.inr ⟨p, d, w, hp, hwalk, harc, rfl⟩⟩
      · obtain ⟨u, d₁, d₂, rfl, hu, hsuffix, hprefix⟩ := ih hp
        exact ⟨u, d₁, d₂ + w, add_assoc d₁ d₂ w, hu, hsuffix.snoc harc, hprefix⟩

/-- A set that contains `s` and is closed under arcs contains every vertex `s` reaches. -/
theorem Reaches.mem_of_closed {s v : V} (P : V → Prop) (hs : P s)
    (harcs : ∀ u x w, P u → G.Arc u x w → P x) (h : G.Reaches s v) : P v := by
  obtain ⟨d, hd⟩ := h
  induction hd with
  | nil => exact hs
  | snoc _ harc ih => exact harcs _ _ _ ih harc

/-- `H` is consistent up to the factor `W`: it drops by at most `W · c` along every arc. -/
def Consistent (G : WGraph V) (W : ℝ) (H : V → ℤ) : Prop :=
  ∀ u v w, G.Arc u v w → (H u : ℝ) ≤ W * w + H v

/-- The zero heuristic is consistent. -/
theorem consistent_zero {W : ℝ} (hW : 0 ≤ W) : G.Consistent W fun _ => 0 := by
  intro u v w harc
  have hw : (0 : ℝ) ≤ w := by exact_mod_cast harc.nonneg
  simpa using mul_nonneg hW hw

theorem Walk.potential_le {W : ℝ} {H : V → ℤ} (hH : G.Consistent W H) {u v : V} {d : ℤ}
    (h : G.Walk u v d) : (H u : ℝ) ≤ W * d + H v := by
  induction h with
  | nil => simp
  | @snoc p v d w _ harc ih =>
      have hstep := hH p v w harc
      push_cast
      linarith

/-- An upper bound `W · d` carried over one arc, for `W ≥ 1`. -/
theorem Arc.add_le {W : ℝ} (hW : 1 ≤ W) {p u : V} {w : ℤ} (harc : G.Arc p u w) {a : ℝ} {d : ℤ}
    (ha : a ≤ W * d) : a + w ≤ W * ((d + w : ℤ) : ℝ) := by
  have hw : (0 : ℝ) ≤ w := by exact_mod_cast harc.nonneg
  have hmul : (w : ℝ) ≤ W * w := by nlinarith
  push_cast
  linarith

/-- A corridor of `n` cells: arcs of weight `c` to the left and to the right, in this order. -/
def corridor (n c : ℕ) : WGraph (Fin n) where
  nbrs i := ((List.finRange n).filter fun j => j.val + 1 = i.val ∨ i.val + 1 = j.val).map
    fun j => (j, (c : ℤ))
  nonneg i a ha := by
    obtain ⟨j, -, rfl⟩ := List.mem_map.mp ha
    exact Int.natCast_nonneg c

end WGraph

end PwsaStar.Lib
