/-
# PwsaStar.Grid.Manhattan — the life-cost heuristic of `LifeGraph` and the one it was adapted from.

`LifeGraph::weighted_manhattan` is `GridWorld::ManhattanDist::compute8` of PBNF with the state and the
goal given as vertices.  It takes the position of the state AND of the goal from its first argument,
so that it measures the way from a vertex to itself, which is free; the second argument is never
read.

What the original returns is zero only where there is nothing to climb: for a state at the goal, and
from row 0 to a goal in row 0 or 1.  There, and nowhere else, the two agree (`manhattan_agrees`).
-/
import PwsaStar.Grid.Life
import Mathlib.Tactic.Ring

namespace PwsaStar.Grid

/-! ## The program -/

namespace Pbnf

/-- `enum cost_type` -/
inductive CostType where
  | unitCost
  | lifeCost
  deriving DecidableEq

/-- `fp_one` -/
def fpOne : ℤ := 10000

/-- `fp_sqrt2` -/
def fpSqrt2 : ℤ := 14142

/-- `ManhattanDist::cost_from`: the costs between two rows. -/
def costFrom (a b : ℤ) : ℤ :=
  let last := if b < a then b + 1 else if a < b then b - 1 else b
  ((a + last) * |a - b|).tdiv 2

/-- `ManhattanDist::compute8`, for the state at `x`, `y` and the goal at `gx`, `gy`. -/
def compute8 (costType : CostType) (x y gx gy : ℤ) : ℤ :=
  let dx := |gx - x|
  let dy := |gy - y|
  match costType with
  | .unitCost =>
    let total := if dy < dx then dx else dy
    let diag := if dx < dy then dx else dy
    diag * fpSqrt2 + (total - diag) * fpOne
  | .lifeCost =>
    if dy < dx then
      -- "I *think* we do an arc with 2 diagonal lines."
      let maxUp := if y < gy then y else gy
      let extra := dx - dy
      let up := if maxUp < extra.tdiv 2 then maxUp else extra.tdiv 2
      let highY := (if y < gy then y else gy) - up
      let across := extra - 2 * up
      (costFrom y highY + across * highY + costFrom highY gy) * fpOne
    else costFrom y gy * fpOne

end Pbnf

namespace LifeGraph

/-- `cost_from`, "taken from PBNF source" -/
def costFrom (a b : ℤ) : ℤ :=
  let last := if b < a then b + 1 else if a < b then b - 1 else b
  ((a + last) * |a - b|).tdiv 2

/-- `(long) (10000.0 * w)` -/
def scale (w : ℚ) : ℤ := (10000 * w).num.tdiv (10000 * w).den

/-- `weighted_manhattan`, "adapted from PBNF source".  The vertex `v` is not looked at. -/
def weightedManhattan (m : GridMap) (w : ℚ) (u _v : ℕ) : ℤ :=
  let x : ℤ := (m.coordsOf u).col
  let y : ℤ := (m.coordsOf u).row
  let gx : ℤ := (m.coordsOf u).col
  let gy : ℤ := (m.coordsOf u).row
  let dx := |gx - x|
  let dy := |gy - y|
  if dy < dx then
    let maxUp := if y < gy then y else gy
    let extra := dx - dy
    let up := if maxUp < extra.tdiv 2 then maxUp else extra.tdiv 2
    let highY := (if y < gy then y else gy) - up
    let across := extra - 2 * up
    (costFrom y highY + across * highY + costFrom highY gy) * scale w
  else costFrom y gy * scale w

end LifeGraph

/-! ## Where the original is zero -/

namespace Pbnf

/-- The costs between two rows are not negative, and zero between a row and itself and from row 0 to
row 1 only. -/
theorem costFrom_cases {a b : ℤ} (ha : 0 ≤ a) (hb : 0 ≤ b) :
    0 ≤ costFrom a b ∧ (costFrom a b = 0 ↔ a = b ∨ a = 0 ∧ b = 1) := by
  unfold costFrom
  dsimp only
  rcases lt_trichotomy a b with hlt | rfl | hgt
  · rw [if_neg hlt.not_gt, if_pos hlt, abs_of_neg (by omega), Int.tdiv_eq_ediv_of_nonneg ?_]
    · obtain hone | htwo : b - a = 1 ∨ 2 ≤ b - a := by omega
      · -- one row down: twice the row, halved
        have hsum : (a + (b - 1)) * -(a - b) = 2 * a := by
          rw [show b = a + 1 by omega]
          ring
        rw [hsum]
        omega
      · have hprod : 2 ≤ (a + (b - 1)) * -(a - b) := by nlinarith
        omega
    · exact mul_nonneg (by omega) (by omega)
  · simp
  · rw [if_pos hgt, abs_of_pos (by omega), Int.tdiv_eq_ediv_of_nonneg ?_]
    · have hprod : 2 ≤ (a + (b + 1)) * (a - b) := by nlinarith
      omega
    · exact mul_nonneg (by omega) (by omega)

/-- **Where the life-cost heuristic is zero.** -/
theorem compute8_eq_zero_iff (x gx : ℤ) {y gy : ℤ} (hy : 0 ≤ y) (hgy : 0 ≤ gy) :
    0 ≤ compute8 .lifeCost x y gx gy ∧
      (compute8 .lifeCost x y gx gy = 0 ↔ (x = gx ∧ y = gy) ∨ (y = 0 ∧ gy ≤ 1)) := by
  simp only [compute8, fpOne]
  split
  · rename_i hwide
    -- the highest row of the arc lies between row 0 and the two ends
    set low := if y < gy then y else gy with hlow
    set extra := |gx - x| - |gy - y| with hextra
    set up := if low < extra.tdiv 2 then low else extra.tdiv 2 with hup
    have hhalf : extra.tdiv 2 = extra / 2 := Int.tdiv_eq_ediv_of_nonneg (by omega)
    have hlow' : low ≤ y ∧ low ≤ gy ∧ 0 ≤ low ∧ (low = y ∨ low = gy) := by
      rw [hlow]
      split <;> omega
    have hup' : 0 ≤ up ∧ up ≤ low ∧ 2 * up ≤ extra ∧ (up = low ∨ up = extra / 2) := by
      rw [hup, hhalf]
      split <;> omega
    obtain ⟨hclimb, hclimb0⟩ := costFrom_cases hy (b := low - up) (by omega)
    obtain ⟨hfall, hfall0⟩ := costFrom_cases (a := low - up) (by omega) hgy
    have hacross : 0 ≤ (extra - 2 * up) * (low - up) := mul_nonneg (by omega) (by omega)
    refine ⟨by omega, ?_⟩
    constructor
    · intro hzero
      have hy' := hclimb0.mp (by omega)
      have hgy' := hfall0.mp (by omega)
      have hflat : (extra - 2 * up) * (low - up) = 0 := by omega
      rcases mul_eq_zero.mp hflat with h | h
      · omega
      · omega
    · rintro (⟨rfl, rfl⟩ | ⟨rfl, hle⟩)
      · simp at hwide
      · have hlow0 : low = 0 := by omega
        have hup0 : up = 0 := by omega
        rw [hclimb0.mpr (by omega), hfall0.mpr (by omega), hlow0, hup0]
        simp
  · rename_i hnarrow
    obtain ⟨hcost, hcost0⟩ := costFrom_cases hy hgy
    refine ⟨by omega, ?_⟩
    constructor
    · intro hzero
      rcases hcost0.mp (by omega) with rfl | h
      · have hcol : gx - x = 0 := by
          simpa using hnarrow
        exact Or.inl ⟨by omega, rfl⟩
      · exact Or.inr ⟨h.1, by omega⟩
    · rintro (⟨rfl, rfl⟩ | ⟨rfl, hle⟩)
      · rw [hcost0.mpr (Or.inl rfl), zero_mul]
      · rw [hcost0.mpr (by omega), zero_mul]

end Pbnf

/-! ## Where the two agree -/

namespace LifeGraph

/-- The way from a vertex to itself is free. -/
theorem weightedManhattan_eq_zero (m : GridMap) (w : ℚ) (u v : ℕ) :
    weightedManhattan m w u v = 0 := by
  simp [weightedManhattan, costFrom]

/-- What the original says for the state at `u` and the goal at `v`. -/
def pbnfHeuristic (m : GridMap) (u v : ℕ) : ℤ :=
  Pbnf.compute8 .lifeCost (m.coordsOf u).col (m.coordsOf u).row (m.coordsOf v).col
    (m.coordsOf v).row

/-- What the heuristic should do for `u` and `v`: be that of the original, and be positive between
different rows that are both positive. -/
def Faithful (m : GridMap) (u v : ℕ) : Prop :=
  weightedManhattan m 1 u v = pbnfHeuristic m u v ∧
    ((m.coordsOf u).row ≠ (m.coordsOf v).row → 0 < (m.coordsOf u).row → 0 < (m.coordsOf v).row →
      0 < weightedManhattan m 1 u v)

/-- **Where the heuristic is that of the original.**  For every `LifeGraph` and all vertices: exactly
for two vertices in one cell, and from row 0 to row 0 or 1. -/
theorem manhattan_agrees (m : GridMap) (u v : ℕ) :
    Faithful m u v ↔ m.coordsOf u = m.coordsOf v ∨
      ((m.coordsOf u).row = 0 ∧ (m.coordsOf v).row ≤ 1) := by
  have hzero := (Pbnf.compute8_eq_zero_iff (m.coordsOf u).col (m.coordsOf v).col
    (Int.natCast_nonneg (m.coordsOf u).row) (Int.natCast_nonneg (m.coordsOf v).row)).2
  have hcell : m.coordsOf u = m.coordsOf v ↔ ((m.coordsOf u).col : ℤ) = (m.coordsOf v).col ∧
      ((m.coordsOf u).row : ℤ) = (m.coordsOf v).row := by
    obtain ⟨ur, uc⟩ := m.coordsOf u
    obtain ⟨vr, vc⟩ := m.coordsOf v
    simp only [Coords.mk.injEq, Int.natCast_inj]
    exact and_comm
  unfold Faithful pbnfHeuristic
  rw [weightedManhattan_eq_zero]
  constructor
  · rintro ⟨heq, -⟩
    rcases hzero.mp heq.symm with h | ⟨hrow, hgoal⟩
    · exact Or.inl (hcell.mpr h)
    · exact Or.inr ⟨by exact_mod_cast hrow, by exact_mod_cast hgoal⟩
  · intro h
    refine ⟨(hzero.mpr ?_).symm, ?_⟩
    · rcases h with h | ⟨hrow, hgoal⟩
      · exact Or.inl (hcell.mp h)
      · exact Or.inr ⟨by exact_mod_cast hrow, by exact_mod_cast hgoal⟩
    · intro hne hpos _
      rcases h with h | ⟨hrow, -⟩
      · exact absurd (by rw [h]) hne
      · omega

/-- **Two free cells below an obstacle, one below the other.**  From the upper one in row 1 to the
lower one the original says 10000, and `weighted_manhattan` says 0, as it does for every `v`. -/
theorem column_heuristic_zero : ∃ m, GridMap.load 3 1 ['@', '\n', '.', '\n', '.'] = some m ∧
    m.numberVertices = 2 ∧ m.coordsOf 0 = ⟨1, 0⟩ ∧ m.coordsOf 1 = ⟨2, 0⟩ ∧
    pbnfHeuristic m 0 1 = 10000 ∧ weightedManhattan m 1 0 1 = 0 ∧
    (∀ v v', weightedManhattan m 1 0 v = weightedManhattan m 1 0 v') ∧ ¬ Faithful m 0 1 := by
  have hrun : (GridMap.load 3 1 ['@', '\n', '.', '\n', '.']).any (fun m =>
      decide (m.numberVertices = 2 ∧ m.coordsOf 0 = ⟨1, 0⟩ ∧ m.coordsOf 1 = ⟨2, 0⟩)) = true := by
    decide +kernel
  obtain ⟨m, hload, hm⟩ := (Option.any_eq_true _ _).mp hrun
  obtain ⟨hsize, hfirst, hsecond⟩ := of_decide_eq_true hm
  have hpbnf : pbnfHeuristic m 0 1 = 10000 := by
    rw [pbnfHeuristic, hfirst, hsecond]
    decide
  refine ⟨m, hload, hsize, hfirst, hsecond, hpbnf, weightedManhattan_eq_zero m 1 0 1, ?_, ?_⟩
  · intro v v'
    rw [weightedManhattan_eq_zero, weightedManhattan_eq_zero]
  · rintro ⟨heq, -⟩
    rw [weightedManhattan_eq_zero, hpbnf] at heq
    exact absurd heq (by decide)

end LifeGraph

end PwsaStar.Grid
