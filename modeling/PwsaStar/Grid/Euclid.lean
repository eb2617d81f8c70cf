/-
# PwsaStar.Grid.Euclid — the Euclidean heuristic against the weights of the arcs.

`weighted_euclidean` multiplies the exact distance by 10000 and cuts the product off; the arcs weigh
10000 and 14142, the second of which is `10000 · √2` cut off.  Exact distances obey the triangle
inequality.  A straight move loses nothing when it is rounded, so along it the heuristic drops by at
most the weight of the arc.  A diagonal move is charged `10000 · √2 - 14142` too little, about 0.1356,
and the losses add up along a path: on eight diagonal moves in a row the heuristic is one more than
the path is long.

Arithmetic is that of the reals.  With factor 1 the value is an integer square root
(`weightedEuclidean_one`), which is how concrete values are computed.
-/
import PwsaStar.Grid.Adjacency
import Mathlib.Analysis.Complex.Norm
import Mathlib.Analysis.Real.Sqrt

namespace PwsaStar.Grid

open Real

/-! ## Exact distances -/

/-- The distance of two cells. -/
noncomputable def exactDist (p q : Coords) : ℝ :=
  √(((p.row : ℝ) - q.row) ^ 2 + ((p.col : ℝ) - q.col) ^ 2)

theorem exactDist_eq_norm (p q : Coords) :
    exactDist p q = ‖(⟨p.row, p.col⟩ : ℂ) - ⟨q.row, q.col⟩‖ := by
  rw [Complex.norm_eq_sqrt_sq_add_sq]
  rfl

theorem exactDist_triangle (p q t : Coords) : exactDist p t ≤ exactDist p q + exactDist q t := by
  rw [exactDist_eq_norm, exactDist_eq_norm, exactDist_eq_norm]
  exact norm_sub_le_norm_sub_add_norm_sub _ _ _

/-- The exact length of a move to an adjacent cell. -/
noncomputable def exactWeight (weight : ℤ) : ℝ := if weight = 10000 then 10000 else 10000 * √2

theorem sq_diff {a b : ℕ} (h : (b - a : ℤ).natAbs ≤ 1) :
    ((a : ℝ) - b) ^ 2 = if b = a then 0 else 1 := by
  split
  · rename_i heq
    simp [heq]
  · have hcase : (a : ℤ) - b = 1 ∨ (a : ℤ) - b = -1 := by omega
    rcases hcase with hcase | hcase
    · have hreal : (a : ℝ) - b = 1 := by exact_mod_cast hcase
      rw [hreal, one_pow]
    · have hreal : (a : ℝ) - b = -1 := by exact_mod_cast hcase
      rw [hreal, neg_one_sq]

theorem Adjacent.exactWeight_eq {p q : Coords} {weight : ℤ} (h : Adjacent p q weight) :
    10000 * exactDist p q = exactWeight weight := by
  obtain ⟨⟨hrow, hcol, hne⟩, hw⟩ := h
  have hdiff : ¬ (q.row = p.row ∧ q.col = p.col) := by
    rintro ⟨hrow', hcol'⟩
    obtain ⟨pr, pc⟩ := p
    obtain ⟨qr, qc⟩ := q
    exact hne (by simpa using ⟨hrow', hcol'⟩)
  rw [exactDist, sq_diff hrow, sq_diff hcol, exactWeight, hw]
  by_cases h₁ : q.row = p.row <;> by_cases h₂ : q.col = p.col
  · exact absurd ⟨h₁, h₂⟩ hdiff
  · simp [h₁, h₂]
  · simp [h₁, h₂]
  · norm_num [h₁, h₂]

theorem Adjacent.weight_cases {p q : Coords} {weight : ℤ} (h : Adjacent p q weight) :
    weight = 10000 ∨ weight = 14142 := by
  obtain ⟨-, hw⟩ := h
  split at hw
  · exact Or.inl hw
  · exact Or.inr hw

/-! ## Cutting off -/

theorem sqrt_two_bounds : 14142 < 10000 * √2 ∧ 7 * (10000 * √2 - 14142) < 1 := by
  have hsq : √2 * √2 = 2 := Real.mul_self_sqrt (by norm_num)
  have hpos : 0 ≤ √2 := Real.sqrt_nonneg 2
  constructor
  · by_contra hle
    nlinarith
  · by_contra hle
    nlinarith

/-- The value of the heuristic for two cells: `(int) (10000.0 * w * sqrt(…))`. -/
noncomputable def euclidean (w : ℝ) (p q : Coords) : ℤ := ⌊10000 * w * exactDist p q⌋

/-- Along a straight move the heuristic drops by at most its weight. -/
theorem euclidean_straight {p q : Coords} (h : Adjacent p q 10000) (t : Coords) :
    euclidean 1 p t ≤ 10000 + euclidean 1 q t := by
  have hmove := h.exactWeight_eq
  rw [exactWeight, if_pos rfl] at hmove
  have htri := exactDist_triangle p q t
  simp only [euclidean, mul_one]
  calc ⌊10000 * exactDist p t⌋ ≤ ⌊10000 * exactDist q t + (10000 : ℤ)⌋ := by
        apply Int.floor_le_floor
        push_cast
        linarith
    _ = 10000 + ⌊10000 * exactDist q t⌋ := by rw [Int.floor_add_intCast, add_comm]

/-- Along any move it drops by at most one more than the weight. -/
theorem euclidean_move {p q : Coords} {weight : ℤ} (h : Adjacent p q weight) (t : Coords) :
    euclidean 1 p t ≤ weight + euclidean 1 q t + 1 := by
  have hmove := h.exactWeight_eq
  have htri := exactDist_triangle p q t
  have hle : 10000 * exactDist p q ≤ (weight : ℝ) + 1 := by
    rw [hmove, exactWeight]
    rcases h.weight_cases with rfl | rfl
    · norm_num
    · have := sqrt_two_bounds.2
      rw [if_neg (by norm_num)]
      push_cast
      linarith
  simp only [euclidean, mul_one]
  calc ⌊10000 * exactDist p t⌋ ≤ ⌊10000 * exactDist q t + ((weight + 1 : ℤ) : ℝ)⌋ := by
        apply Int.floor_le_floor
        push_cast
        linarith
    _ = weight + ⌊10000 * exactDist q t⌋ + 1 := by
        rw [Int.floor_add_intCast]
        ring

/-- With factor 1 the heuristic is an integer square root. -/
theorem euclidean_one (p q : Coords) : euclidean 1 p q =
    Nat.sqrt (100000000 * ((p.row - q.row : ℤ).natAbs ^ 2 + (p.col - q.col : ℤ).natAbs ^ 2)) := by
  have hsq : ∀ a b : ℕ, ((a : ℝ) - b) ^ 2 = (((a - b : ℤ).natAbs ^ 2 : ℕ) : ℝ) := by
    intro a b
    rw [Nat.cast_pow, Nat.cast_natAbs, Int.cast_abs, sq_abs]
    push_cast
    rfl
  have hroot : √((100000000 : ℕ) : ℝ) = 10000 := by
    rw [show ((100000000 : ℕ) : ℝ) = 10000 ^ 2 by norm_num]
    exact Real.sqrt_sq (by norm_num)
  rw [euclidean, exactDist, hsq, hsq, ← Real.floor_real_sqrt_eq_nat_sqrt, mul_one, Nat.cast_mul,
    Real.sqrt_mul (Nat.cast_nonneg _), ← Nat.cast_add, hroot]

namespace Graph

/-- `weighted_euclidean` -/
noncomputable def weightedEuclidean (g : Graph) (w : ℝ) (u v : ℕ) : Option ℤ := do
  let p ← g.vertices[u]?
  let q ← g.vertices[v]?
  some (euclidean w p q)

/-- `g.Path t u d k`: a path of the stored arcs from `u` to `t` has length `d` and `k` diagonal
moves. -/
inductive Path (g : Graph) (t : ℕ) : ℕ → ℤ → ℕ → Prop
  | nil : Path g t t 0 0
  | cons {u v : ℕ} {weight d : ℤ} {k : ℕ} {l : List (ℤ × ℤ)} : g.forEachNeighborOf u = some l →
      ((v : ℤ), weight) ∈ l → Path g t v d k →
      Path g t u (weight + d) (k + if weight = 10000 then 0 else 1)

theorem weightedEuclidean_eq {g : Graph} {w : ℝ} {u v : ℕ} {p q : Coords}
    (hp : g.vertices[u]? = some p) (hq : g.vertices[v]? = some q) :
    g.weightedEuclidean w u v = some (euclidean w p q) := by
  rw [weightedEuclidean, hp, hq]
  rfl

variable {m : GridMap}

/-- The ends of an arc stand in adjacent cells. -/
theorem adjacent_of_arc (h : Inverse m) {u v : ℕ} {weight : ℤ} {l : List (ℤ × ℤ)}
    (hl : (ofMap m).forEachNeighborOf u = some l) (hmem : ((v : ℤ), weight) ∈ l) :
    ∃ p q, m.vertices[u]? = some p ∧ m.vertices[v]? = some q ∧ Adjacent p q weight := by
  obtain ⟨p, hp, rfl⟩ := exists_vertex_of_forEachNeighborOf hl
  obtain ⟨v', q, hv, hq, hadj⟩ := h.mem_neighborsIn.mp hmem
  obtain rfl : v = v' := by exact_mod_cast hv
  exact ⟨p, q, hp, hq, hadj⟩

/-- **The exact distance along a path**: every diagonal move adds what was cut off its weight. -/
theorem Path.exactDist_le (h : Inverse m) {t u : ℕ} {d : ℤ} {k : ℕ} (hpath : (ofMap m).Path t u d k)
    {q : Coords} (ht : m.vertices[t]? = some q) : ∃ p, m.vertices[u]? = some p ∧
      10000 * exactDist p q ≤ d + k * (10000 * √2 - 14142) := by
  induction hpath with
  | nil => exact ⟨q, ht, by simp [exactDist]⟩
  | @cons u v weight d k l hl hmem _ ih =>
    obtain ⟨p', hp', hle⟩ := ih
    obtain ⟨p, p'', hp, hp'', hadj⟩ := adjacent_of_arc h hl hmem
    obtain rfl : p' = p'' := Option.some.inj (hp'.symm.trans hp'')
    refine ⟨p, hp, ?_⟩
    have htri := exactDist_triangle p p' q
    have hmove := hadj.exactWeight_eq
    rcases hadj.weight_cases with rfl | rfl
    · rw [exactWeight, if_pos rfl] at hmove
      rw [if_pos rfl]
      push_cast
      linarith
    · rw [exactWeight, if_neg (by norm_num)] at hmove
      rw [if_neg (by norm_num)]
      push_cast
      linarith

/-- **How far the heuristic is from consistent.**  On every map of known characters and for every
arc and every vertex `t`: along a straight arc it drops by at most the weight, along a diagonal one by
at most one more.  On a path with `k` diagonal moves it exceeds the length by at most
`k · (10000 · √2 - 14142)`, and with at most seven it does not exceed it. -/
theorem nearly_consistent (height width : ℕ) (body : List Char)
    (hknown : ∀ ch ∈ mapCells height width body, GridMap.isRecognised ch = true)
    (hlen : height * width ≤ (cellsOf (GridMap.skipSpace body)).length) :
    ∃ g, construct height width body = some g ∧
      (∀ (u v t : ℕ) l weight, g.forEachNeighborOf u = some l → ((v : ℤ), weight) ∈ l →
        t < g.numberVertices → ∃ Hu Hv, g.weightedEuclidean 1 u t = some Hu ∧
          g.weightedEuclidean 1 v t = some Hv ∧ (weight = 10000 → Hu ≤ weight + Hv) ∧
          Hu ≤ weight + Hv + 1) ∧
      ∀ u t d k, t < g.numberVertices → g.Path t u d k →
        ∃ Hu, g.weightedEuclidean 1 u t = some Hu ∧
          (Hu : ℝ) ≤ d + k * (10000 * √2 - 14142) ∧ (k ≤ 7 → Hu ≤ d) := by
  have hinv := inverse_readMap hlen hknown
  refine ⟨_, construct_readMap hlen, ?_, ?_⟩
  · intro u v t l weight hl hmem ht
    obtain ⟨p, q, hp, hq, hadj⟩ := adjacent_of_arc hinv hl hmem
    have htget : (readMap height width body).vertices[t]? = some _ := List.getElem?_eq_getElem ht
    refine ⟨_, _, weightedEuclidean_eq hp htget, weightedEuclidean_eq hq htget, ?_,
      euclidean_move hadj _⟩
    rintro rfl
    exact euclidean_straight hadj _
  · intro u t d k ht hpath
    have htget : (readMap height width body).vertices[t]? = some _ := List.getElem?_eq_getElem ht
    obtain ⟨p, hp, hle⟩ := hpath.exactDist_le hinv htget
    refine ⟨_, weightedEuclidean_eq hp htget, ?_, ?_⟩
    · rw [euclidean, mul_one]
      exact (Int.floor_le _).trans hle
    · intro hk
      obtain ⟨hlow, hsmall⟩ := sqrt_two_bounds
      have hk' : (k : ℝ) ≤ 7 := by exact_mod_cast hk
      have hloss : (k : ℝ) * (10000 * √2 - 14142) < 1 := by nlinarith
      rw [euclidean, mul_one]
      refine Int.lt_add_one_iff.mp (Int.floor_lt.mpr ?_)
      push_cast
      linarith

/-! ## A diagonal of nine cells -/

/-- Nine by nine cells, free on the diagonal. -/
def diagonalMap : List Char :=
  (List.range 81).map fun k => if k / 9 = k % 9 then '.' else '@'

theorem diagonal_run : ∃ g, construct 9 9 diagonalMap = some g ∧
    g.vertices = (List.range 9).map (fun i => ⟨i, i⟩) ∧
    ∀ v < 8, ∃ l, g.forEachNeighborOf v = some l ∧ (((v + 1 : ℕ) : ℤ), 14142) ∈ l := by
  have hrun : (construct 9 9 diagonalMap).any (fun g =>
      decide (g.vertices = (List.range 9).map (fun i => ⟨i, i⟩) ∧ ∀ v ∈ List.range 8,
        (g.forEachNeighborOf v).any (fun l => decide ((((v + 1 : ℕ) : ℤ), 14142) ∈ l)) = true)) =
      true := by
    decide +kernel
  obtain ⟨g, hg, hm⟩ := (Option.any_eq_true _ _).mp hrun
  obtain ⟨hvertices, harcs⟩ := of_decide_eq_true hm
  refine ⟨g, hg, hvertices, ?_⟩
  intro v hv
  obtain ⟨l, hl, hmem⟩ := (Option.any_eq_true _ _).mp (harcs v (List.mem_range.mpr hv))
  exact ⟨l, hl, of_decide_eq_true hmem⟩

/-- The path down the diagonal, with `k` moves to go. -/
theorem diagonal_path {g : Graph}
    (harcs : ∀ v < 8, ∃ l, g.forEachNeighborOf v = some l ∧ (((v + 1 : ℕ) : ℤ), 14142) ∈ l) :
    ∀ k ≤ 8, g.Path 8 (8 - k) (14142 * k) k
  | 0, _ => Path.nil
  | k + 1, hk => by
    obtain ⟨l, hl, hmem⟩ := harcs (8 - (k + 1)) (by omega)
    rw [show 8 - (k + 1) + 1 = 8 - k by omega] at hmem
    have hpath := Path.cons hl hmem (diagonal_path harcs k (by omega))
    rw [if_neg (by norm_num)] at hpath
    have hlen : (14142 : ℤ) + 14142 * k = 14142 * ((k + 1 : ℕ) : ℤ) := by
      push_cast
      ring
    rwa [hlen] at hpath

/-- **Eight diagonal moves.**  The heuristic from the first cell of the diagonal is 113137, from the
second 98994; the arc between them weighs 14142, and the path to the end is 113136 long. -/
theorem diagonal_inconsistent : ∃ g, construct 9 9 diagonalMap = some g ∧
    (∃ l, g.forEachNeighborOf 0 = some l ∧ ((1 : ℤ), (14142 : ℤ)) ∈ l) ∧
    g.weightedEuclidean 1 0 8 = some 113137 ∧ g.weightedEuclidean 1 1 8 = some 98994 ∧
    ¬ (113137 : ℤ) ≤ 14142 + 98994 ∧
    g.Path 8 0 113136 8 ∧ ¬ (113137 : ℤ) ≤ 113136 := by
  obtain ⟨g, hg, hvertices, harcs⟩ := diagonal_run
  have hfirst : g.vertices[0]? = some ⟨0, 0⟩ := by rw [hvertices]; rfl
  have hsecond : g.vertices[1]? = some ⟨1, 1⟩ := by rw [hvertices]; rfl
  have hlast : g.vertices[8]? = some ⟨8, 8⟩ := by rw [hvertices]; rfl
  refine ⟨g, hg, harcs 0 (by norm_num), ?_, ?_, by norm_num, diagonal_path harcs 8 le_rfl, by norm_num⟩
  · rw [weightedEuclidean_eq hfirst hlast, euclidean_one]
    decide +kernel
  · rw [weightedEuclidean_eq hsecond hlast, euclidean_one]
    decide +kernel

/-- From the second cell on there are seven, and the heuristic does not exceed the length. -/
theorem nearly_consistent_diagonal : ∃ g Hu, construct 9 9 diagonalMap = some g ∧
    g.Path 8 1 98994 7 ∧ g.weightedEuclidean 1 1 8 = some Hu ∧ Hu ≤ 98994 := by
  obtain ⟨g, hg, -, hpaths⟩ := nearly_consistent 9 9 diagonalMap
    (List.all_eq_true.mp (by decide +kernel)) (by decide +kernel)
  obtain ⟨g', hg', hvertices, harcs⟩ := diagonal_run
  obtain rfl : g' = g := Option.some.inj (hg'.symm.trans hg)
  have hpath : g'.Path 8 1 98994 7 := diagonal_path harcs 7 (by norm_num)
  obtain ⟨Hu, hHu, -, hle⟩ := hpaths 1 8 98994 7 (by rw [numberVertices, hvertices]; decide) hpath
  exact ⟨g', Hu, hg, hpath, hHu, hle le_rfl⟩

end Graph

end PwsaStar.Grid
