/-
# PwsaStar.Pbnf.ManhattanDist — `GridWorld::ManhattanDist`.

With Life costs the rows further up are cheaper, so a cheap way climbs to some row, goes across there and
descends.  Twice the cost of climbing from row `a` to row 0 and of descending to row `b` from there is
`a² + a + b² - b`, and a way that turns earlier saves some of it.  The heuristics are this less twice the
most that can be saved, `saved4` and `saved8`; along a move the saving grows by what the move costs at most.

The sum of the squares is one of `int`s, all else is in `fp_type`.  Up to 32768 rows nothing overflows; with
one row more the four-way heuristic can be too large (`overflows`).
-/
import PwsaStar.Pbnf.GridWorld
import Mathlib.Tactic.Ring
import Mathlib.Tactic.Linarith

namespace PwsaStar.Pbnf

open PwsaStar.Lib
open PwsaStar.Grid.Pbnf (CostType costFrom compute8 fpOne fpSqrt2)

namespace ManhattanDist

/-! ## The program -/

/-- Up or down to the row of the goal, and across in the upper one of the two. -/
def compute_up_over4 (x y gx gy : ℤ) : ℤ :=
  let min_y := if y < gy then y else gy
  let dx := |gx - x|
  dx * min_y + costFrom y gy

/-- What an `int` keeps of a sum. -/
def to_int (k : ℤ) : ℤ := k.bmod 4294967296

/-- What `fp_type` keeps of it. -/
def to_fp (k : ℤ) : ℤ := k % 18446744073709551616

/-- Up to row 0, across for free, and down. -/
def compute_up_over_down4 (_x y _gx gy : ℤ) : ℤ := to_fp ((to_int ((y * y) + y + (gy * gy) - gy)).tdiv 2)

/-- The four-way estimate. -/
def compute4 (cost_type : CostType) (x y gx gy : ℤ) : ℤ :=
  let dx := |gx - x|
  match cost_type with
  | .unitCost => (dx + |gy - y|) * fpOne
  | .lifeCost =>
    let cost_up_over_down := compute_up_over_down4 x y gx gy
    let cost_up_over := compute_up_over4 x y gx gy
    if cost_up_over_down < cost_up_over then cost_up_over_down * fpOne else cost_up_over * fpOne

/-- The estimate for the moves of the board. -/
def compute (g : GridWorld) (s : g.Cell) : ℤ :=
  match g.move_type with
  | .four_way => compute4 g.cost_type s.x s.y g.goal.x g.goal.y
  | .eight_way => compute8 g.cost_type s.x s.y g.goal.x g.goal.y

/-- The boards on which no sum of the heuristic overflows; a width is an `int`. -/
structure Fits (g : GridWorld) : Prop where
  width : g.width ≤ 2147483647
  height : g.height ≤ 32768

/-- A row of a board that fits. -/
theorem Fits.row {g : GridWorld} (h : Fits g) (s : g.Cell) : (0 : ℤ) ≤ s.y ∧ (s.y : ℤ) ≤ 32767 := by
  have hy := s.y.isLt
  have hheight := h.height
  omega

/-! ## Savings -/

/-- Twice the cost of the way over row 0. -/
def over_top (a b : ℤ) : ℤ := a * a + a + b * b - b

/-- What is saved by going across, `d` cells, in the upper one of the rows `a` and `b`. -/
def saved4 (d a b : ℤ) : ℤ := max 0 (min a b * (min a b - d))

/-- How far up a way of two diagonals ends, twice: it ends there if the two lines are to meet over `d` cells. -/
def turn8 (d a b : ℤ) : ℤ := max 0 (min (a + b - d) (2 * min a b))

/-- The square of the half. -/
def half_square (k : ℤ) : ℤ := (k / 2) * ((k + 1) / 2)

/-- What is saved by an arc of two diagonals. -/
def saved8 (d a b : ℤ) : ℤ := half_square (turn8 d a b)

theorem two_mul_tdiv {k : ℤ} (h : 2 ∣ k) : 2 * k.tdiv 2 = k := Int.mul_tdiv_cancel' h

/-- It is even, so the divisions by 2 are exact. -/
theorem over_top_even (a b : ℤ) : 2 ∣ over_top a b := by
  have ha : 2 ∣ a * (a + 1) := (Int.even_mul_succ_self a).two_dvd
  have hb : 2 ∣ (b - 1) * (b - 1 + 1) := (Int.even_mul_succ_self (b - 1)).two_dvd
  rw [show over_top a b = a * (a + 1) + (b - 1) * (b - 1 + 1) by rw [over_top]; ring]
  exact dvd_add ha hb

theorem two_costFrom (a b : ℤ) :
    2 * costFrom a b = over_top a b - 2 * (min a b * min a b) := by
  have heven := over_top_even a b
  rw [costFrom]
  rcases lt_trichotomy a b with hlt | rfl | hgt
  · rw [if_neg hlt.not_gt, if_pos hlt, abs_of_neg (by omega), min_eq_left hlt.le]
    have hform : (a + (b - 1)) * -(a - b) = over_top a b - 2 * (a * a) := by
      rw [over_top]
      ring
    rw [hform]
    exact two_mul_tdiv (dvd_sub heven (dvd_mul_right 2 _))
  · rw [if_neg (lt_irrefl a), if_neg (lt_irrefl a), sub_self, abs_zero, mul_zero, min_self, over_top]
    ring_nf
    rfl
  · rw [if_pos hgt, abs_of_pos (by omega), min_eq_right hgt.le]
    have hform : (a + (b + 1)) * (a - b) = over_top a b - 2 * (b * b) := by
      rw [over_top]
      ring
    rw [hform]
    exact two_mul_tdiv (dvd_sub heven (dvd_mul_right 2 _))

/-- Below 32768 the sum of the squares is an `int`. -/
theorem over_top_range {a b : ℤ} (ha : 0 ≤ a ∧ a ≤ 32767) (hb : 0 ≤ b ∧ b ≤ 32767) :
    0 ≤ over_top a b ∧ over_top a b ≤ 2147352578 := by
  have hsq : ∀ {k : ℤ}, 0 ≤ k ∧ k ≤ 32767 → k ≤ k * k ∨ k = 0 := by
    intro k hk
    rcases hk.1.eq_or_lt with hzero | hpos
    · exact Or.inr hzero.symm
    · exact Or.inl (le_mul_of_one_le_right hk.1 hpos)
  have htop : ∀ {k : ℤ}, 0 ≤ k ∧ k ≤ 32767 → 0 ≤ k * k ∧ k * k ≤ 32767 * k :=
    fun hk => ⟨mul_self_nonneg _, mul_le_mul_of_nonneg_right hk.2 hk.1⟩
  rw [over_top]
  have := hsq hb
  have := htop ha
  have := htop hb
  omega

/-- `compute_up_over_down4` divides exactly, and on rows that fit nothing wraps. -/
theorem two_up_over_down4 (x gx : ℤ) {y gy : ℤ} (hy : 0 ≤ y ∧ y ≤ 32767) (hgy : 0 ≤ gy ∧ gy ≤ 32767) :
    2 * compute_up_over_down4 x y gx gy = over_top y gy := by
  obtain ⟨hnonneg, hle⟩ := over_top_range hy hgy
  have hint : to_int (over_top y gy) = over_top y gy := Int.bmod_eq_of_le (by omega) (by omega)
  have hfp : to_fp ((over_top y gy).tdiv 2) = (over_top y gy).tdiv 2 := by
    rw [Int.tdiv_eq_ediv_of_nonneg hnonneg]
    exact Int.emod_eq_of_lt (by omega) (by omega)
  show 2 * to_fp ((to_int (over_top y gy)).tdiv 2) = over_top y gy
  rw [hint, hfp]
  exact two_mul_tdiv (over_top_even y gy)

/-- **The four-way heuristic for Life costs.** -/
theorem two_compute4 (x gx : ℤ) {y gy : ℤ} (hy : 0 ≤ y ∧ y ≤ 32767) (hgy : 0 ≤ gy ∧ gy ≤ 32767) :
    2 * compute4 .lifeCost x y gx gy = (over_top y gy - 2 * saved4 |gx - x| y gy) * fpOne := by
  have hdown := two_up_over_down4 x gx hy hgy
  have hmin : (if y < gy then y else gy) = min y gy := by
    split_ifs <;> omega
  have hover : 2 * compute_up_over4 x y gx gy
      = over_top y gy - 2 * (min y gy * (min y gy - |gx - x|)) := by
    have hclimb := two_costFrom y gy
    rw [compute_up_over4, hmin]
    linarith
  rw [compute4, saved4]
  split_ifs with hlt
  · rw [max_eq_left (by omega), ← mul_assoc, hdown]
    ring
  · rw [max_eq_right (by omega), ← mul_assoc, hover]

/-- Up to row `r`, `k` cells across, and down. -/
theorem two_arc {a b r : ℤ} (k : ℤ) (ha : r ≤ a) (hb : r ≤ b) :
    2 * (costFrom a r + k * r + costFrom r b) = over_top a b - 2 * (r * (r - k)) := by
  have hup := two_costFrom a r
  have hdown := two_costFrom r b
  rw [min_eq_right ha] at hup
  rw [min_eq_left hb] at hdown
  rw [over_top] at hup hdown ⊢
  linarith

theorem half_square_of {k r : ℤ} (h : k = 2 * r ∨ k = 2 * r - 1) : half_square k = r * (r - (2 * r - k)) := by
  have hhalf : k / 2 = r - (2 * r - k) ∧ (k + 1) / 2 = r := by omega
  rw [half_square, hhalf.1, hhalf.2, mul_comm]

/-- **The eight-way heuristic for Life costs**, "I *think* we do an arc with 2 diagonal lines". -/
theorem two_compute8 (x gx : ℤ) {y gy : ℤ} (hy : 0 ≤ y) (hgy : 0 ≤ gy) :
    2 * compute8 .lifeCost x y gx gy = (over_top y gy - 2 * saved8 |gx - x| y gy) * fpOne := by
  have hmin : (if y < gy then y else gy) = min y gy := by
    split_ifs <;> omega
  have hdy : y + gy = 2 * min y gy + |gy - y| ∧ 0 ≤ |gy - y| := by
    rcases abs_cases (gy - y) with h | h <;> omega
  have hm : 0 ≤ min y gy ∧ min y gy ≤ y ∧ min y gy ≤ gy := by omega
  rw [compute8, hmin, saved8, turn8]
  dsimp only
  generalize |gx - x| = d
  generalize |gy - y| = e at hdy ⊢
  split_ifs with hwide hlow
  · -- up to row 0, across and down
    have hhalf : (d - e).tdiv 2 = (d - e) / 2 := Int.tdiv_eq_ediv_of_nonneg (by omega)
    have hturn : max 0 (min (y + gy - d) (2 * min y gy)) = 0 := by omega
    have harc := two_arc (d - e - 2 * min y gy) hy hgy
    rw [hturn, sub_self, ← mul_assoc, harc, half_square]
    simp
  · -- up until the two diagonals meet, or one cell is left between them
    have hhalf : (d - e).tdiv 2 = (d - e) / 2 := Int.tdiv_eq_ediv_of_nonneg (by omega)
    rw [hhalf] at hlow ⊢
    have harc := two_arc (d - e - 2 * ((d - e) / 2)) (show min y gy - (d - e) / 2 ≤ y by omega) (show min y gy - (d - e) / 2 ≤ gy by omega)
    rw [← mul_assoc, harc]
    have hsaved : half_square (max 0 (min (y + gy - d) (2 * min y gy)))
        = (min y gy - (d - e) / 2) * (min y gy - (d - e) / 2 - (d - e - 2 * ((d - e) / 2))) := by
      by_cases hover : y + gy - d < 0
      · -- the two lines do not meet below row 0
        have hzero : min y gy - (d - e) / 2 = 0 := by omega
        rw [max_eq_left (by omega), hzero, half_square]
        simp
      · have hturn : max 0 (min (y + gy - d) (2 * min y gy)) = y + gy - d := by omega
        rw [hturn, half_square_of (show y + gy - d = 2 * (min y gy - (d - e) / 2)
          ∨ y + gy - d = 2 * (min y gy - (d - e) / 2) - 1 by omega)]
        congr 2
        omega
    rw [hsaved]
  · have hturn : max 0 (min (y + gy - d) (2 * min y gy)) = 2 * min y gy := by omega
    rw [hturn, half_square_of (Or.inl rfl), ← mul_assoc, two_costFrom y gy, sub_self, sub_zero]

/-! ## Along a move -/

/-- What a move from row `a` to row `a'` may add to the saving. -/
def Grows (a a' sv sv' : ℤ) : Prop :=
  (a' = a ∧ sv' ≤ sv + a) ∨ (a' = a - 1 ∧ sv' ≤ sv) ∨ (a' = a + 1 ∧ sv' ≤ sv + (2 * a + 1))

/-- A saving that grows no faster than the row keeps the estimate consistent. -/
theorem Grows.over_top_le {a a' sv sv' : ℤ} (h : Grows a a' sv sv') (b : ℤ) :
    over_top a b - 2 * sv ≤ 2 * a + (over_top a' b - 2 * sv') := by
  rcases h with ⟨rfl, h⟩ | ⟨rfl, h⟩ | ⟨rfl, h⟩
  · omega
  · have hform : over_top (a - 1) b = over_top a b - 2 * a := by
      rw [over_top, over_top]
      ring
    omega
  · have hform : over_top (a + 1) b = over_top a b + 2 * a + 2 := by
      rw [over_top, over_top]
      ring
    omega

/-- A step along the row loses at most the row. -/
theorem saved4_across {d d' a b : ℤ} (ha : 0 ≤ a) (hb : 0 ≤ b) (hd : d ≤ d' + 1) :
    saved4 d' a b ≤ saved4 d a b + a := by
  rw [saved4, saved4]
  have hm : 0 ≤ min a b ∧ min a b ≤ a := by omega
  have hgrow : min a b * (min a b - d') ≤ min a b * (min a b - d) + min a b := by nlinarith
  omega

/-- A step up loses nothing. -/
theorem saved4_up {d a b : ℤ} (ha : 1 ≤ a) (hb : 0 ≤ b) : saved4 d (a - 1) b ≤ saved4 d a b := by
  rw [saved4, saved4]
  have hm : 0 ≤ min (a - 1) b ∧ min (a - 1) b ≤ min a b := by omega
  by_cases hd : min (a - 1) b ≤ d
  · have hzero : min (a - 1) b * (min (a - 1) b - d) ≤ 0 :=
      mul_nonpos_of_nonneg_of_nonpos hm.1 (by omega)
    omega
  · have hgrow : min (a - 1) b * (min (a - 1) b - d) ≤ min a b * (min a b - d) :=
      mul_le_mul hm.2 (by omega) (by omega) (by omega)
    omega

/-- A step down loses at most an odd number. -/
theorem saved4_down {d a b : ℤ} (hd : 0 ≤ d) (ha : 0 ≤ a) :
    saved4 d (a + 1) b ≤ saved4 d a b + (2 * a + 1) := by
  rw [saved4, saved4]
  by_cases hb : b ≤ a
  · rw [min_eq_right (by omega), min_eq_right hb]
    omega
  · rw [min_eq_left (show a + 1 ≤ b by omega), min_eq_left (show a ≤ b by omega)]
    have hform : (a + 1) * (a + 1 - d) = a * (a - d) + 2 * a + 1 - d := by ring
    omega

theorem half_square_succ (k : ℤ) : half_square (k + 1) = half_square k + (k + 1) / 2 := by
  have hnext : (k + 1 + 1) / 2 = k / 2 + 1 := by omega
  rw [half_square, half_square, hnext]
  ring

theorem half_square_mono {k k' : ℤ} (hk : 0 ≤ k) (h : k ≤ k') : half_square k ≤ half_square k' := by
  rw [half_square, half_square]
  exact mul_le_mul (by omega) (by omega) (by omega) (by omega)

theorem saved8_grows {d d' a a' b : ℤ} (hd : d ≤ d' + 1) (ha : 0 ≤ a) (ha' : 0 ≤ a') (hb : 0 ≤ b)
    (h : a' = a ∨ a' = a - 1 ∨ a' = a + 1) : Grows a a' (saved8 d a b) (saved8 d' a' b) := by
  have hk : 0 ≤ turn8 d a b ∧ 0 ≤ turn8 d' a' b := ⟨le_max_left _ _, le_max_left _ _⟩
  have hle : turn8 d' a' b ≤ turn8 d a b → saved8 d' a' b ≤ saved8 d a b := half_square_mono hk.2
  have hone : turn8 d' a' b = turn8 d a b + 1 → saved8 d' a' b = saved8 d a b + turn8 d' a' b / 2 := by
    intro h
    rw [saved8, saved8, h, half_square_succ]
  rcases h with rfl | rfl | rfl
  · have hturn : turn8 d' a' b ≤ turn8 d a' b + 1 ∧ turn8 d' a' b ≤ 2 * a' := by
      rw [turn8, turn8]
      omega
    refine Or.inl ⟨rfl, ?_⟩
    rcases hturn.1.lt_or_eq with hlt | heq
    · have := hle (by omega)
      omega
    · rw [hone heq]
      omega
  · have hturn : turn8 d' (a - 1) b ≤ turn8 d a b := by
      rw [turn8, turn8]
      omega
    exact Or.inr (Or.inl ⟨rfl, hle hturn⟩)
  · have hturn : turn8 d' (a + 1) b ≤ turn8 d a b + 2 ∧ turn8 d' (a + 1) b ≤ 2 * (a + 1) := by
      rw [turn8, turn8]
      omega
    refine Or.inr (Or.inr ⟨rfl, ?_⟩)
    rcases hturn.1.lt_or_eq with hlt | heq
    · by_cases hnext : turn8 d' (a + 1) b = turn8 d a b + 1
      · rw [hone hnext]
        omega
      · have := hle (by omega)
        omega
    · have htwo : saved8 d' (a + 1) b = saved8 d a b + (turn8 d a b + 1) := by
        rw [saved8, saved8, heq, show turn8 d a b + 2 = turn8 d a b + 1 + 1 by ring, half_square_succ,
          half_square_succ]
        omega
      omega

theorem abs_step {gx x x' : ℤ} (h : x' = x ∨ x' + 1 = x ∨ x' = x + 1) : |gx - x| ≤ |gx - x'| + 1 := by
  rcases abs_cases (gx - x) with h₁ | h₁ <;> rcases abs_cases (gx - x') with h₂ | h₂ <;> omega

/-- What a move may change in the heuristic of Life costs, when it leaves row `y`. -/
theorem life_le {y sv sv' h h' gy y' : ℤ} (hh : 2 * h = (over_top y gy - 2 * sv) * fpOne)
    (hh' : 2 * h' = (over_top y' gy - 2 * sv') * fpOne) (hgrows : Grows y y' sv sv') :
    h ≤ y * fpOne + h' := by
  have hle := hgrows.over_top_le gy
  have hone : fpOne = 10000 := rfl
  rw [hone] at hh hh' ⊢
  omega

variable {g : GridWorld} {s t : g.Cell}

theorem fp_one_cast : (fp_one : ℤ) = fpOne := rfl

theorem fp_sqrt2_cast : (fp_sqrt2 : ℤ) = fpSqrt2 := rfl

/-- The four-way estimate drops by at most the cost of a straight move. -/
theorem compute4_move (hfits : Fits g) (hmove : GridWorld.Straight s t) :
    compute4 g.cost_type s.x s.y g.goal.x g.goal.y
      ≤ g.straight s.y + compute4 g.cost_type t.x t.y g.goal.x g.goal.y := by
  have hnear : ((t.x : ℤ) = s.x ∨ (t.x : ℤ) + 1 = s.x ∨ (t.x : ℤ) = s.x + 1)
      ∧ ((t.y : ℤ) = s.y ∨ (t.y : ℤ) + 1 = s.y ∨ (t.y : ℤ) = s.y + 1) := by
    rcases hmove with ⟨hy, hx⟩ | ⟨hx, hy⟩ <;> omega
  rw [GridWorld.straight]
  cases g.cost_type with
  | unitCost =>
    have hx : |(g.goal.x : ℤ) - s.x| ≤ |(g.goal.x : ℤ) - t.x| + 1 := abs_step hnear.1
    have hy : |(g.goal.y : ℤ) - s.y| ≤ |(g.goal.y : ℤ) - t.y| + 1 := abs_step hnear.2
    have hone : fpOne = 10000 := rfl
    simp only [compute4]
    rw [fp_one_cast, hone]
    rcases hmove with ⟨hrow, -⟩ | ⟨hcol, -⟩
    · rw [hrow]
      omega
    · rw [hcol]
      omega
  | lifeCost =>
    have hgoal : (0 : ℤ) ≤ g.goal.y := Int.natCast_nonneg _
    have hrow : (0 : ℤ) ≤ s.y := Int.natCast_nonneg _
    have hgrows : Grows s.y t.y (saved4 |(g.goal.x : ℤ) - s.x| s.y g.goal.y)
        (saved4 |(g.goal.x : ℤ) - t.x| t.y g.goal.y) := by
      rcases hmove with ⟨hy, hx⟩ | ⟨hx, hy | hy⟩
      · refine Or.inl ⟨congrArg Nat.cast hy, ?_⟩
        rw [hy]
        exact saved4_across hrow hgoal (abs_step hnear.1)
      · refine Or.inr (Or.inl ⟨by omega, ?_⟩)
        rw [hx, show (t.y : ℤ) = s.y - 1 by omega]
        exact saved4_up (by omega) hgoal
      · refine Or.inr (Or.inr ⟨by omega, ?_⟩)
        rw [hx, show (t.y : ℤ) = s.y + 1 by omega]
        exact saved4_down (abs_nonneg _) hrow
    have hle := life_le (two_compute4 s.x g.goal.x (hfits.row s) (hfits.row g.goal))
      (two_compute4 t.x g.goal.x (hfits.row t) (hfits.row g.goal)) hgrows
    push_cast
    rwa [fp_one_cast]

/-- The heuristic of Life costs, for moves of all eight directions at the cost of straight ones. -/
theorem compute8_life_move (hmove : GridWorld.Straight s t ∨ GridWorld.Diagonal s t) :
    compute8 .lifeCost s.x s.y g.goal.x g.goal.y
      ≤ s.y * fpOne + compute8 .lifeCost t.x t.y g.goal.x g.goal.y := by
  have hnonneg : ∀ k : ℕ, (0 : ℤ) ≤ k := Int.natCast_nonneg
  have hnear : ((t.x : ℤ) = s.x ∨ (t.x : ℤ) + 1 = s.x ∨ (t.x : ℤ) = s.x + 1)
      ∧ ((t.y : ℤ) = s.y ∨ (t.y : ℤ) + 1 = s.y ∨ (t.y : ℤ) = s.y + 1) := by
    rcases hmove with (⟨hy, hx⟩ | ⟨hx, hy⟩) | ⟨hx, hy⟩ <;> omega
  exact life_le (two_compute8 _ _ (hnonneg _) (hnonneg _)) (two_compute8 _ _ (hnonneg _) (hnonneg _))
    (saved8_grows (abs_step hnear.1) (hnonneg _) (hnonneg _) (hnonneg _) (by omega))

/-- The eight-way estimate with unit costs drops by at most the cost of a move. -/
theorem compute8_unit_move (hmove : GridWorld.Straight s t ∨ GridWorld.Diagonal s t) {c : ℤ}
    (hc : GridWorld.Straight s t ∧ c = fpOne ∨ c = fpSqrt2) :
    compute8 .unitCost s.x s.y g.goal.x g.goal.y ≤ c + compute8 .unitCost t.x t.y g.goal.x g.goal.y := by
  have hnear : ((t.x : ℤ) = s.x ∨ (t.x : ℤ) + 1 = s.x ∨ (t.x : ℤ) = s.x + 1)
      ∧ ((t.y : ℤ) = s.y ∨ (t.y : ℤ) + 1 = s.y ∨ (t.y : ℤ) = s.y + 1) := by
    rcases hmove with (⟨hy, hx⟩ | ⟨hx, hy⟩) | ⟨hx, hy⟩ <;> omega
  have hx : |(g.goal.x : ℤ) - s.x| ≤ |(g.goal.x : ℤ) - t.x| + 1 := abs_step hnear.1
  have hy : |(g.goal.y : ℤ) - s.y| ≤ |(g.goal.y : ℤ) - t.y| + 1 := abs_step hnear.2
  have hscale : fpOne = 10000 ∧ fpSqrt2 = 14142 := ⟨rfl, rfl⟩
  simp only [compute8]
  rw [hscale.1, hscale.2] at hc ⊢
  rcases hc with ⟨⟨hrow, -⟩ | ⟨hcol, -⟩, rfl⟩ | rfl
  · rw [hrow]
    split_ifs <;> omega
  · rw [hcol]
    split_ifs <;> omega
  · split_ifs <;> omega

variable {c : ℕ}

/-- **The heuristic is consistent**, with unit and with Life costs, four ways and eight ways: no move costs
less than the heuristic falls. -/
theorem compute_consistent (hfits : Fits g) (h : (t, c) ∈ g.expand s) :
    compute g s ≤ c + compute g t := by
  rw [compute, compute]
  rcases GridWorld.expand_cases h with ⟨hmove, rfl⟩ | ⟨height, hmove, rfl⟩
  · cases g.move_type with
    | four_way => exact compute4_move hfits hmove
    | eight_way =>
      dsimp only
      rw [GridWorld.straight]
      cases g.cost_type with
      | unitCost => exact compute8_unit_move (Or.inl hmove) (Or.inl ⟨hmove, rfl⟩)
      | lifeCost =>
        dsimp only
        push_cast
        exact compute8_life_move (Or.inl hmove)
  · rw [height]
    dsimp only
    rw [GridWorld.diagonal]
    cases g.cost_type with
    | unitCost => exact compute8_unit_move (Or.inr hmove) (Or.inr rfl)
    | lifeCost =>
      have hle : (s.y : ℤ) * fpOne ≤ s.y * fpSqrt2 :=
        mul_le_mul_of_nonneg_left (by decide) (Int.natCast_nonneg _)
      have hlife := compute8_life_move (s := s) (t := t) (Or.inr hmove)
      dsimp only
      push_cast
      rw [fp_sqrt2_cast]
      omega

/-- The goal is estimated 0. -/
theorem compute_goal (hfits : Fits g) : compute g g.goal = 0 := by
  have hrow : (0 : ℤ) ≤ g.goal.y := Int.natCast_nonneg _
  have hover : over_top g.goal.y g.goal.y = 2 * (g.goal.y * g.goal.y) := by
    rw [over_top]
    ring
  rw [compute]
  cases g.move_type with
  | four_way =>
    cases g.cost_type with
    | unitCost => simp [compute4]
    | lifeCost =>
      have htwo := two_compute4 g.goal.x g.goal.x (hfits.row g.goal) (hfits.row g.goal)
      have hsaved : saved4 |(g.goal.x : ℤ) - g.goal.x| g.goal.y g.goal.y = g.goal.y * g.goal.y := by
        rw [saved4, sub_self, abs_zero, min_self, sub_zero, max_eq_right (mul_self_nonneg _)]
      rw [hover, hsaved, sub_self, zero_mul] at htwo
      dsimp only
      omega
  | eight_way =>
    cases g.cost_type with
    | unitCost => simp [compute8]
    | lifeCost =>
      have htwo := two_compute8 g.goal.x g.goal.x hrow hrow
      have hturn : turn8 |(g.goal.x : ℤ) - g.goal.x| g.goal.y g.goal.y = 2 * g.goal.y := by
        rw [turn8, sub_self, abs_zero]
        omega
      rw [hover, saved8, hturn, half_square_of (Or.inl rfl), sub_self, sub_zero, sub_self, zero_mul] at htwo
      dsimp only
      omega

/-! ## The range -/

theorem two_min_sq_le {a b : ℤ} (ha : 0 ≤ a) (hb : 0 ≤ b) : 2 * (min a b * min a b) ≤ over_top a b := by
  have hcost := (Grid.Pbnf.costFrom_cases ha hb).1
  have htwo := two_costFrom a b
  omega

theorem saved4_range {d a b : ℤ} (hd : 0 ≤ d) (ha : 0 ≤ a) (hb : 0 ≤ b) :
    0 ≤ saved4 d a b ∧ saved4 d a b ≤ min a b * min a b := by
  have hm : 0 ≤ min a b := le_min ha hb
  refine ⟨le_max_left _ _, max_le (mul_self_nonneg _) ?_⟩
  exact mul_le_mul_of_nonneg_left (by omega) hm

theorem saved8_range {d a b : ℤ} (ha : 0 ≤ a) (hb : 0 ≤ b) :
    0 ≤ saved8 d a b ∧ saved8 d a b ≤ min a b * min a b := by
  have hm : 0 ≤ min a b := le_min ha hb
  have hturn : 0 ≤ turn8 d a b ∧ turn8 d a b ≤ 2 * min a b := by
    rw [turn8]
    omega
  have htop := half_square_mono hturn.1 hturn.2
  rw [half_square_of (Or.inl rfl), sub_self, sub_zero] at htop
  refine ⟨?_, htop⟩
  rw [saved8, half_square]
  exact mul_nonneg (by omega) (by omega)

/-- An estimate with life costs fits in 64 bits on a board whose rows fit in 16. -/
theorem life_range {a b sv h : ℤ} (hh : 2 * h = (over_top a b - 2 * sv) * fpOne)
    (hsv : 0 ≤ sv ∧ sv ≤ min a b * min a b) (ha : 0 ≤ a ∧ a ≤ 32767) (hb : 0 ≤ b ∧ b ≤ 32767) :
    0 ≤ h ∧ h < 18446744073709551616 := by
  have hle := (over_top_range ha hb).2
  have hmin := two_min_sq_le ha.1 hb.1
  have hone : fpOne = 10000 := rfl
  rw [hone] at hh
  omega

/-- The heuristic is a value of `fp_type`. -/
theorem compute_range (hfits : Fits g) (s : g.Cell) :
    0 ≤ compute g s ∧ compute g s < 18446744073709551616 := by
  have hrow := hfits.row s
  have hgoal := hfits.row g.goal
  have hx : |(g.goal.x : ℤ) - s.x| ≤ 2147483647 := by
    have := hfits.width
    have := s.x.isLt
    have := g.goal.x.isLt
    rw [abs_le]
    omega
  have hy : |(g.goal.y : ℤ) - s.y| ≤ 32767 := by
    rw [abs_le]
    omega
  have hscale : fpOne = 10000 ∧ fpSqrt2 = 14142 := ⟨rfl, rfl⟩
  have hnonneg := abs_nonneg ((g.goal.x : ℤ) - s.x)
  have hnonneg' := abs_nonneg ((g.goal.y : ℤ) - s.y)
  rw [compute]
  cases g.move_type with
  | four_way =>
    cases g.cost_type with
    | unitCost =>
      simp only [compute4]
      rw [hscale.1]
      omega
    | lifeCost =>
      exact life_range (two_compute4 s.x g.goal.x hrow hgoal) (saved4_range hnonneg hrow.1 hgoal.1) hrow hgoal
  | eight_way =>
    cases g.cost_type with
    | unitCost =>
      simp only [compute8]
      rw [hscale.1, hscale.2]
      split_ifs <;> omega
    | lifeCost =>
      exact life_range (two_compute8 s.x g.goal.x hrow.1 hgoal.1) (saved8_range hrow.1 hgoal.1) hrow hgoal

end ManhattanDist

/-! ## The search on a grid -/

/-- The domain of a grid search. -/
def GridWorld.domain (g : GridWorld) (weight : ℕ) : SearchDomain g.Cell where
  expand := g.expand
  is_goal s := g.goal.x = s.x ∧ g.goal.y = s.y
  get_h s := (ManhattanDist.compute g s).toNat
  weight := weight
  initial_state := g.start

theorem GridWorld.eq_goal {g : GridWorld} {weight : ℕ} {s : g.Cell}
    (h : (g.domain weight).is_goal s = true) : s = g.goal := by
  obtain ⟨hx, hy⟩ := of_decide_eq_true h
  obtain ⟨x, y⟩ := s
  exact congrArg₂ GridState.mk hx.symm hy.symm

/-- **The heuristic is admissible.** -/
theorem GridWorld.compute_le_walk {g : GridWorld} (hfits : ManhattanDist.Fits g) {weight : ℕ}
    {s t : g.Cell} {d : ℤ} (hwalk : (g.domain weight).graph.Walk s t d) :
    ManhattanDist.compute g s ≤ d + ManhattanDist.compute g t := by
  induction hwalk with
  | nil => omega
  | @snoc u v d w _ harc ih =>
    obtain ⟨⟨x, c⟩, hmem, heq⟩ := List.mem_map.mp harc
    obtain ⟨rfl, rfl⟩ := Prod.mk.inj heq
    have hstep := ManhattanDist.compute_consistent hfits hmem
    show ManhattanDist.compute g s ≤ d + c + ManhattanDist.compute g x
    omega

/-! ## On an open board -/

namespace ManhattanDist

theorem costFrom_self (a : ℤ) : costFrom a a = 0 := by
  have h := two_costFrom a a
  rw [over_top, min_self] at h
  linarith

theorem costFrom_up {a b : ℤ} (h : b < a) : costFrom a b = a + costFrom (a - 1) b := by
  have h₁ := two_costFrom a b
  have h₂ := two_costFrom (a - 1) b
  rw [over_top, min_eq_right (by omega)] at h₁ h₂
  linarith

theorem costFrom_down {a b : ℤ} (h : a < b) : costFrom a b = a + costFrom (a + 1) b := by
  have h₁ := two_costFrom a b
  have h₂ := two_costFrom (a + 1) b
  rw [over_top, min_eq_left (by omega)] at h₁ h₂
  linarith

/-- The cost of a way along a column. -/
def climb (cost_type : CostType) (a b : ℤ) : ℤ :=
  match cost_type with
  | .unitCost => |b - a| * fpOne
  | .lifeCost => costFrom a b * fpOne

theorem climb_self (cost_type : CostType) (a : ℤ) : climb cost_type a a = 0 := by
  cases cost_type with
  | unitCost => simp [climb]
  | lifeCost => rw [climb, costFrom_self, zero_mul]

/-- A climb is its first move and the rest. -/
theorem climb_step {g : GridWorld} {a a' b : ℕ} (h : a' + 1 = a ∧ b ≤ a' ∨ a' = a + 1 ∧ a' ≤ b) :
    climb g.cost_type a b = g.straight a + climb g.cost_type a' b := by
  rw [GridWorld.straight]
  cases g.cost_type with
  | unitCost =>
    have habs : |(b : ℤ) - a| = 1 + |(b : ℤ) - a'| := by
      rcases abs_cases ((b : ℤ) - a) with h₁ | h₁ <;> rcases abs_cases ((b : ℤ) - a') with h₂ | h₂ <;> omega
    show |(b : ℤ) - a| * fpOne = fp_one + |(b : ℤ) - a'| * fpOne
    rw [habs, fp_one_cast, add_mul, one_mul]
  | lifeCost =>
    have hcost : costFrom a b = a + costFrom a' b := by
      rcases h with ⟨hup, hb⟩ | ⟨hdown, hb⟩
      · rw [costFrom_up (by omega), show (a : ℤ) - 1 = a' by omega]
      · rw [costFrom_down (by omega), show (a : ℤ) + 1 = a' by omega]
    show costFrom a b * fpOne = ((a * fp_one : ℕ) : ℤ) + costFrom a' b * fpOne
    push_cast
    rw [hcost, fp_one_cast, add_mul]

section OpenBoard

variable {g : GridWorld} {weight : ℕ} (hopen : ∀ x y, g.is_obstacle x y = false)

include hopen

theorem arc_of_straight {s t : g.Cell} (hmove : GridWorld.Straight s t) :
    (g.domain weight).graph.Arc s t (g.straight s.y) := by
  have h4 : (t, g.straight s.y) ∈ g.expand4 s := GridWorld.mem_expand4.mpr ⟨hmove, hopen _ _, rfl⟩
  refine SearchDomain.arc (show (t, g.straight s.y) ∈ g.expand s from ?_)
  rw [GridWorld.expand]
  cases g.move_type with
  | four_way => exact h4
  | eight_way => exact GridWorld.mem_expand8.mpr (Or.inl h4)

/-- Along a column. -/
theorem column_walk (x : Fin g.width) (b : Fin g.height) : ∀ (k : ℕ) (a : Fin g.height),
    (a.val + k = b ∨ b.val + k = a) →
      (g.domain weight).graph.Walk (⟨x, a⟩ : g.Cell) ⟨x, b⟩ (climb g.cost_type a b) := by
  intro k
  induction k with
  | zero =>
    intro a h
    obtain rfl : a = b := Fin.ext (by omega)
    rw [climb_self]
    exact .nil
  | succ k ih =>
    intro a h
    have hnext : ∃ a' : Fin g.height, (a'.val + 1 = a ∧ b.val ≤ a' ∨ a'.val = a + 1 ∧ a'.val ≤ b)
        ∧ (a'.val + k = b ∨ b.val + k = a') := by
      rcases h with h | h
      · exact ⟨⟨a + 1, by omega⟩, Or.inr ⟨rfl, by dsimp only; omega⟩, Or.inl (by dsimp only; omega)⟩
      · exact ⟨⟨a - 1, by omega⟩, Or.inl (by dsimp only; omega), Or.inr (by dsimp only; omega)⟩
    obtain ⟨a', hstep, hrest⟩ := hnext
    rw [climb_step hstep]
    refine (WGraph.Walk.single (arc_of_straight hopen ?_)).append (ih a' hrest)
    exact Or.inr ⟨rfl, hstep.imp (·.1) (·.1)⟩

/-- Along a row. -/
theorem row_walk (y : Fin g.height) (b : Fin g.width) : ∀ (k : ℕ) (a : Fin g.width),
    (a.val + k = b ∨ b.val + k = a) →
      (g.domain weight).graph.Walk (⟨a, y⟩ : g.Cell) ⟨b, y⟩ (|(b : ℤ) - a| * g.straight y) := by
  intro k
  induction k with
  | zero =>
    intro a h
    obtain rfl : a = b := Fin.ext (by omega)
    rw [sub_self, abs_zero, zero_mul]
    exact .nil
  | succ k ih =>
    intro a h
    have hnext : ∃ a' : Fin g.width, (a'.val + 1 = a ∧ b.val ≤ a' ∨ a'.val = a + 1 ∧ a'.val ≤ b)
        ∧ (a'.val + k = b ∨ b.val + k = a') := by
      rcases h with h | h
      · exact ⟨⟨a + 1, by omega⟩, Or.inr ⟨rfl, by dsimp only; omega⟩, Or.inl (by dsimp only; omega)⟩
      · exact ⟨⟨a - 1, by omega⟩, Or.inl (by dsimp only; omega), Or.inr (by dsimp only; omega)⟩
    obtain ⟨a', hstep, hrest⟩ := hnext
    have habs : |(b : ℤ) - a| = 1 + |(b : ℤ) - a'| := by
      rcases abs_cases ((b : ℤ) - a) with h₁ | h₁ <;> rcases abs_cases ((b : ℤ) - a') with h₂ | h₂ <;> omega
    rw [habs, add_mul, one_mul]
    refine (WGraph.Walk.single (arc_of_straight hopen ?_)).append (ih a' hrest)
    exact Or.inl ⟨rfl, hstep.imp (·.1) (·.1)⟩

/-- Up or down to row `r`, across it, and on to the goal. -/
theorem over_walk (s : g.Cell) (r : Fin g.height) :
    (g.domain weight).graph.Walk s g.goal (climb g.cost_type s.y r + |(g.goal.x : ℤ) - s.x| * g.straight r
      + climb g.cost_type r g.goal.y) := by
  have hdist : ∀ i j : ℕ, ∃ k, i + k = j ∨ j + k = i := by
    intro i j
    rcases Nat.le_total i j with h | h
    · exact ⟨j - i, Or.inl (by omega)⟩
    · exact ⟨i - j, Or.inr (by omega)⟩
  obtain ⟨k₁, h₁⟩ := hdist s.y r
  obtain ⟨k₂, h₂⟩ := hdist s.x g.goal.x
  obtain ⟨k₃, h₃⟩ := hdist r g.goal.y
  exact ((column_walk hopen s.x r k₁ s.y h₁).append (row_walk hopen r g.goal.x k₂ s.x h₂)).append
    (column_walk hopen g.goal.x g.goal.y k₃ r h₃)

/-- Some way over one row costs what the four-way heuristic says. -/
theorem four_way_walk (hfits : Fits g) (hmove : g.move_type = .four_way) (s : g.Cell) :
    (g.domain weight).graph.Walk s g.goal (compute g s) := by
  have hover : ∀ r : Fin g.height, climb g.cost_type s.y r + |(g.goal.x : ℤ) - s.x| * g.straight r
      + climb g.cost_type r g.goal.y = compute4 g.cost_type s.x s.y g.goal.x g.goal.y →
        (g.domain weight).graph.Walk s g.goal (compute g s) := by
    intro r hr
    rw [compute, hmove]
    dsimp only
    rw [← hr]
    exact over_walk hopen s r
  have hgoal : (0 : ℤ) ≤ g.goal.y := Int.natCast_nonneg _
  have hrow : (0 : ℤ) ≤ s.y := Int.natCast_nonneg _
  cases hcost : g.cost_type with
  | unitCost =>
    apply hover s.y
    rw [climb_self, GridWorld.straight, hcost]
    show 0 + |(g.goal.x : ℤ) - s.x| * fp_one + |(g.goal.y : ℤ) - s.y| * fpOne
      = (|(g.goal.x : ℤ) - s.x| + |(g.goal.y : ℤ) - s.y|) * fpOne
    rw [fp_one_cast]
    ring
  | lifeCost =>
    -- it is enough to compare the costs of one row, without the scale
    have hlife : ∀ r : Fin g.height, costFrom s.y r + |(g.goal.x : ℤ) - s.x| * r + costFrom r g.goal.y
        = (if compute_up_over_down4 s.x s.y g.goal.x g.goal.y < compute_up_over4 s.x s.y g.goal.x g.goal.y
          then compute_up_over_down4 s.x s.y g.goal.x g.goal.y
          else compute_up_over4 s.x s.y g.goal.x g.goal.y) →
            (g.domain weight).graph.Walk s g.goal (compute g s) := by
      intro r hr
      apply hover r
      rw [GridWorld.straight, hcost]
      show costFrom s.y r * fpOne + |(g.goal.x : ℤ) - s.x| * ((r * fp_one : ℕ) : ℤ) + costFrom r g.goal.y * fpOne
        = if compute_up_over_down4 s.x s.y g.goal.x g.goal.y < compute_up_over4 s.x s.y g.goal.x g.goal.y
          then compute_up_over_down4 s.x s.y g.goal.x g.goal.y * fpOne
          else compute_up_over4 s.x s.y g.goal.x g.goal.y * fpOne
      rw [← ite_mul, ← hr]
      push_cast
      rw [fp_one_cast]
      ring
    by_cases hlt : compute_up_over_down4 s.x s.y g.goal.x g.goal.y < compute_up_over4 s.x s.y g.goal.x g.goal.y
    · apply hlife ⟨0, s.y.pos⟩
      rw [if_pos hlt]
      have htop := two_up_over_down4 s.x g.goal.x (hfits.row s) (hfits.row g.goal)
      have hup := two_costFrom s.y 0
      have hdown := two_costFrom 0 g.goal.y
      rw [over_top, min_eq_right hrow] at hup
      rw [over_top, min_eq_left hgoal] at hdown
      rw [over_top] at htop
      show costFrom s.y 0 + |(g.goal.x : ℤ) - s.x| * 0 + costFrom 0 g.goal.y = _
      linarith
    · by_cases hbelow : (s.y : ℤ) < g.goal.y
      · apply hlife s.y
        rw [if_neg hlt, compute_up_over4, if_pos hbelow, costFrom_self, zero_add]
      · apply hlife g.goal.y
        rw [if_neg hlt, compute_up_over4, if_neg hbelow, costFrom_self, add_zero, add_comm]

end OpenBoard

/-- **The heuristic and the distance.**  On every board of at most 32768 rows it is a value of `fp_type`, and
with unit and with Life costs, four ways and eight ways, at most the distance to the goal; four ways, on such a
board without obstacles, it is the distance. -/
theorem manhattan_distance (g : GridWorld) (hfits : Fits g) (weight : ℕ) :
    (∀ s, 0 ≤ compute g s ∧ compute g s < 18446744073709551616)
      ∧ (∀ s d, (g.domain weight).graph.Walk s g.goal d → compute g s ≤ d)
      ∧ (g.move_type = .four_way → (∀ x y, g.is_obstacle x y = false) →
        ∀ s, (g.domain weight).graph.IsDist s g.goal (compute g s)) := by
  have hle : ∀ s d, (g.domain weight).graph.Walk s g.goal d → compute g s ≤ d := by
    intro s d hwalk
    have h := GridWorld.compute_le_walk hfits hwalk
    rwa [compute_goal hfits, add_zero] at h
  exact ⟨compute_range hfits, hle, fun hmove hopen s => ⟨four_way_walk hopen hfits hmove s, hle s⟩⟩

theorem board_fits : Fits board := ⟨by decide, by decide⟩

/-- From the first cell of the small board to the goal. -/
theorem manhattan_distance_board : compute board board.start = 550000
    ∧ ∀ d, (board.domain fp_one).graph.Walk board.start board.goal d → 550000 ≤ d := by
  have hvalue : compute board board.start = 550000 := by decide +kernel
  have hle := (manhattan_distance board board_fits fp_one).2.1 board.start
  rw [hvalue] at hle
  exact ⟨hvalue, hle⟩

/-- A board with one row more than fit. -/
def tall_board : GridWorld where
  width := 32770
  height := 32769
  obstacles _ := false
  cost_type := .lifeCost
  move_type := .four_way
  start := ⟨(Fin.last 32769).rev, Fin.last 32768⟩
  goal := ⟨Fin.last 32769, Fin.last 32768⟩

/-- **One row more.**  From one end of the last row to the other it is cheaper over row 0, but the cost of this
way overflows, and the heuristic is the cost of the last row. -/
theorem overflows (weight : ℕ) : ∃ d, (tall_board.domain weight).graph.Walk tall_board.start tall_board.goal d
    ∧ d < compute tall_board tall_board.start :=
  ⟨_, over_walk (fun _ _ => rfl) tall_board.start (Fin.last 32768).rev, by decide +kernel⟩

end ManhattanDist

/-! ## What the search relies on -/

/-- Every grid world is searched well, with a projection that shows its moves. -/
theorem GridWorld.setting {g : GridWorld} (hfits : ManhattanDist.Fits g) {weight n : ℕ}
    {P : Projection g.Cell n} (hpreds : P.Mutual) (hcovers : P.Covers (g.domain weight)) (hne : ∀ b, P.interferes b ≠ []) (hweight : 1 ≤ weight) :
    Setting (g.domain weight) P where
  preds := hpreds
  covers := hcovers
  neighbours := hne
  admissible v goal d hgoal hwalk := by
    have hle := GridWorld.compute_le_walk hfits hwalk
    rw [GridWorld.eq_goal hgoal, ManhattanDist.compute_goal hfits] at hle
    have hd := hwalk.nonneg
    show ((ManhattanDist.compute g v).toNat : ℤ) ≤ d
    omega
  goal_last s pre t c todo hexpand _ t' c' hmem goal d _ hwalk := by
    have hsorted := GridWorld.expand_sorted s
    rw [show g.expand s = pre ++ (t, c) :: todo from hexpand, List.pairwise_append, List.pairwise_cons] at hsorted
    have hle : c ≤ c' := hsorted.2.1.1 (t', c') hmem
    have hd := hwalk.nonneg
    omega
  weight := hweight

/-- **Searches on a grid.**  Every grid world of at most 32768 rows meets what the search relies on, as long as
there are two nblocks: with `RowModProject`, and with a `CoarseProject` whose columns and rows, as many as were
asked for or one more, divide the width and the height.  On other boards moves leave the scope of their nblock. -/
theorem grid_setting (g : GridWorld) (hfits : ManhattanDist.Fits g) {weight : ℕ} (hweight : 1 ≤ weight) :
    (∀ (mod_val : ℕ) [NeZero mod_val], 2 ≤ mod_val →
        Setting (g.domain weight) (RowModProject.projection g mod_val)
          ∧ (RowModProject.projection g mod_val).Allocated)
      ∧ ∀ (p : CoarseProject) (c r : ℕ) [NeZero p.get_num_nblocks], CoarseProject.new g c r = some p →
        (c ∣ g.width ∨ c + 1 ∣ g.width) → (r ∣ g.height ∨ r + 1 ∣ g.height) → 2 ≤ p.get_num_nblocks →
          ∃ htotal : p.Total g, Setting (g.domain weight) (p.projection htotal)
            ∧ (p.projection htotal).Allocated := by
  refine ⟨?_, ?_⟩
  · intro mod_val _ htwo
    refine ⟨GridWorld.setting hfits (RowModProject.projection_mutual g) ?_
      (RowModProject.interferes_ne_nil htwo) hweight, Projection.allocated_of_subset fun _ _ hk => hk⟩
    intro s t c hmem
    apply RowModProject.project_mem_scope
    rcases GridWorld.expand_cases hmem with ⟨⟨hy, -⟩ | ⟨-, hy⟩, -⟩ | ⟨-, ⟨-, hy⟩, -⟩
    · exact Or.inl hy
    · exact Or.inr hy
    · exact Or.inr hy
  · intro p c r _ hnew hwidth hheight htwo
    obtain ⟨hlaid, hcols, hrows⟩ := CoarseProject.new_laid hnew
    have htotal : p.Total g := by
      rw [hlaid.total_iff, hcols, hrows]
      exact ⟨CoarseProject.adjust_dvd.mpr hwidth, CoarseProject.adjust_dvd.mpr hheight⟩
    refine ⟨htotal, GridWorld.setting hfits (hlaid.projection_mutual htotal) ?_
      (hlaid.interferes_ne_nil htotal htwo) hweight, Projection.allocated_of_subset fun _ _ hk => hk⟩
    exact fun s t c hmem => hlaid.project_mem_scope htotal hmem

/-- The small board, in two bands of rows, and in 11 columns and 4 rows where 10 columns were asked for. -/
theorem grid_setting_board : Setting (board.domain fp_one) (RowModProject.projection board 2)
    ∧ ∃ p, CoarseProject.new board 10 4 = some p ∧ p.get_num_nblocks = 44
      ∧ ∃ (_ : NeZero p.get_num_nblocks) (htotal : p.Total board),
        Setting (board.domain fp_one) (p.projection htotal) := by
  obtain ⟨hrows, hcoarse⟩ := grid_setting board ManhattanDist.board_fits (show 1 ≤ fp_one by decide)
  refine ⟨(hrows 2 (le_refl 2)).1, ⟨11, 1, 4, 3, .eight_way⟩, rfl, rfl, ⟨by decide⟩, ?_⟩
  have : NeZero (CoarseProject.get_num_nblocks ⟨11, 1, 4, 3, .eight_way⟩) := ⟨by decide⟩
  obtain ⟨htotal, hset, -⟩ := hcoarse ⟨11, 1, 4, 3, .eight_way⟩ 10 4 rfl (by decide) (by decide) (by decide)
  exact ⟨htotal, hset⟩

/-- 4 columns do not divide a board of 11 columns: along row 0 the move from column 9 to column 10 leads from the
last nblock of the first row to the first one of the next, and these are no neighbours. -/
example : ∃ p, CoarseProject.new board 4 4 = some p ∧ p.project 9 0 = some 4 ∧ p.project 10 0 = some 5
    ∧ 5 ∉ p.get_neighbors 4 := ⟨_, rfl, by decide⟩

end PwsaStar.Pbnf
