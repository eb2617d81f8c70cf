/-
# PwsaStar.Lib.BoundedSearch — the induction behind bounded suboptimality without re-opening.

A best-first search closes vertices whose labels are only known to be within a factor `W` of the
optimum, and never closes a vertex twice.  `Settled` collects what such a search maintains about its
closed vertices: their labels are within the bound, and so are the labels of the heads of their arcs.

`Settled.exists_open` is the induction along a path: every walk to a vertex that is not closed passes
an open vertex whose label is within the bound.  A search keeps the invariant if its rule for choosing
the next vertex guarantees that the chosen label is at most `label u + W · (rest of the walk)` for
every such open `u`; this is `Settled.select`.  The rule itself (least priority in a queue, or an
independence test) is up to the search.
-/
import PwsaStar.Lib.WeightedGraph
import Mathlib.Algebra.Order.Monoid.WithTop

namespace PwsaStar.Lib

universe u

variable {V : Type u}

/-- The label `x` is finite and at most `W · d`. -/
def Within (W : ℝ) (x : WithTop ℤ) (d : ℤ) : Prop := ∃ a : ℤ, x = (a : WithTop ℤ) ∧ (a : ℝ) ≤ W * d

theorem Within.mono {W : ℝ} {x y : WithTop ℤ} {d : ℤ} (h : Within W x d) (hle : y ≤ x) :
    Within W y d := by
  obtain ⟨a, rfl, ha⟩ := h
  obtain ⟨b, rfl⟩ := WithTop.ne_top_iff_exists.mp (ne_top_of_le_ne_top WithTop.coe_ne_top hle)
  have hba : b ≤ a := by exact_mod_cast hle
  exact ⟨b, rfl, le_trans (by exact_mod_cast hba) ha⟩

/-- **What a search without re-opening maintains** about the vertices it has closed. -/
structure Settled (G : WGraph V) (s : V) (W : ℝ) (closed : V → Prop) (g : V → WithTop ℤ) : Prop where
  root : g s = 0
  label : ∀ p d, closed p → G.Walk s p d → Within W (g p) d
  heads : ∀ p u w d, closed p → G.Arc p u w → G.Walk s p d → Within W (g u) (d + w)

namespace Settled

variable {G : WGraph V} {s : V} {W : ℝ} {closed closed' : V → Prop} {g g' : V → WithTop ℤ}

theorem start (G : WGraph V) (s : V) (W : ℝ) (hg : g s = 0) : Settled G s W (fun _ => False) g where
  root := hg
  label _ _ h := h.elim
  heads _ _ _ _ h := h.elim

/-- Lowering labels keeps the bounds. -/
theorem lower (S : Settled G s W closed g) (hle : ∀ v, g' v ≤ g v) (hroot : g' s = 0) : Settled G s W closed g' where
  root := hroot
  label p d hp hw := (S.label p d hp hw).mono (hle p)
  heads p u w d hp ha hw := (S.heads p u w d hp ha hw).mono (hle u)

theorem congr (S : Settled G s W closed g) (h : ∀ v, closed' v → closed v) :
    Settled G s W closed' g where
  root := S.root
  label p d hp hw := S.label p d (h p hp) hw
  heads p u w d hp ha hw := S.heads p u w d (h p hp) ha hw

/-- Every walk to an open vertex passes an open vertex whose label is within the bound. -/
theorem exists_open (S : Settled G s W closed g) {v : V} {d : ℤ}
    (hv : ¬ closed v) (hw : G.Walk s v d) :
    ∃ u d₁ d₂, d = d₁ + d₂ ∧ ¬ closed u ∧ G.Walk u v d₂ ∧ Within W (g u) d₁ := by
  -- cut the walk where it leaves the closed vertices for the last time
  obtain ⟨u, d₁, d₂, hd, hu, hrest, ⟨rfl, rfl⟩ | ⟨p, d₀, w, hp, hpre, harc, rfl⟩⟩ := hw.cut closed hv
  · exact ⟨u, 0, d₂, hd, hu, hrest, 0, S.root, by simp⟩
  · exact ⟨u, d₀ + w, d₂, hd, hu, hrest, S.heads p u w d₀ hp harc hpre⟩

/-- **The selection rule.**  If the label `a` of `v` is at most `label u + W · d₂` for every open
labelled `u` from which a walk of weight `d₂` leads to `v`, then it is within the bound. -/
theorem select (S : Settled G s W closed g) {v : V} {a : ℤ}
    (hv : ¬ closed v) (ha : g v = (a : WithTop ℤ))
    (hrule : ∀ u (b : ℤ) d₂, ¬ closed u → g u = (b : WithTop ℤ) → G.Walk u v d₂ →
      (a : ℝ) ≤ b + W * d₂) {d : ℤ} (hw : G.Walk s v d) : Within W (g v) d := by
  obtain ⟨u, d₁, d₂, rfl, hu, hrest, b, hb, hbd⟩ := S.exists_open hv hw
  refine ⟨a, ha, ?_⟩
  have h := hrule u b d₂ hu hb hrest
  push_cast
  linarith

/-- A vertex whose label is within the bound may be closed once the heads of its arcs carry labels
of at most its own plus the arc weight. -/
theorem close (S : Settled G s W closed g) (hW : 1 ≤ W) {v : V} {a : ℤ}
    (hlabel : ∀ d, G.Walk s v d → (a : ℝ) ≤ W * d)
    (hself : g v ≤ (a : WithTop ℤ))
    (hheads : ∀ u w, G.Arc v u w → g u ≤ ((a + w : ℤ) : WithTop ℤ)) :
    Settled G s W (fun u => closed u ∨ u = v) g where
  root := S.root
  label p d hp hw := by
    rcases hp with hp | rfl
    · exact S.label p d hp hw
    · exact Within.mono ⟨a, rfl, hlabel d hw⟩ hself
  heads p u w d hp harc hw := by
    rcases hp with hp | rfl
    · exact S.heads p u w d hp harc hw
    · refine Within.mono ⟨a + w, rfl, ?_⟩ (hheads u w harc)
      push_cast
      exact_mod_cast harc.add_le hW (hlabel d hw)

end Settled

end PwsaStar.Lib
