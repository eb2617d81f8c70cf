/-
# PwsaStar.Grid.Adjacency — from the text of a map to the adjacency of the free cells.

On a map of known characters `grid` and `vertices` are inverse to each other (`Inverse`): a cell
holds the number of the vertex that stands in it, or none.  Everything else follows from that.  The
eight tests of `populate_neighbors` find exactly the free cells around a vertex, each once, since the
eight directions lead to eight cells.

A character that the constructor does not know breaks the inverse at once: its cell holds the number
0, and vertex 0, if there is one, stands in a free cell.  Only white space before the first cell does no
harm, since the header swallows it, but then the text may end too early.
-/
import PwsaStar.Grid.Arrays

namespace PwsaStar.Grid

open PwsaStar.Lib

/-- `q` is one of the eight cells around `p`, and `weight` is the length of the move. -/
def Adjacent (p q : Coords) (weight : ℤ) : Prop :=
  ((q.row - p.row : ℤ).natAbs ≤ 1 ∧ (q.col - p.col : ℤ).natAbs ≤ 1 ∧ q ≠ p) ∧
    weight = if q.row = p.row ∨ q.col = p.col then 10000 else 14142

instance (p q : Coords) (weight : ℤ) : Decidable (Adjacent p q weight) :=
  inferInstanceAs (Decidable (_ ∧ _))

theorem Adjacent.symm {p q : Coords} {weight : ℤ} (h : Adjacent p q weight) : Adjacent q p weight := by
  obtain ⟨⟨hrow, hcol, hne⟩, hw⟩ := h
  refine ⟨⟨by omega, by omega, hne.symm⟩, ?_⟩
  rw [hw]
  simp only [eq_comm]

/-- The move from `p` to an adjacent cell is one of the eight directions. -/
theorem direction_of_adjacent {p q : Coords} {weight : ℤ} (h : Adjacent p q weight) :
    (⟨q.row - p.row, q.col - p.col, weight⟩ : Direction) ∈ directions := by
  obtain ⟨pr, pc⟩ := p
  obtain ⟨qr, qc⟩ := q
  obtain ⟨⟨hrow, hcol, hne⟩, hw⟩ := h
  dsimp only at hrow hcol hw ⊢
  have hne' : qr ≠ pr ∨ qc ≠ pc := by
    by_contra hsame
    simp only [not_or, not_not] at hsame
    exact hne (by rw [hsame.1, hsame.2])
  have hr : (qr - pr : ℤ) = -1 ∨ (qr - pr : ℤ) = 0 ∨ (qr - pr : ℤ) = 1 := by omega
  have hc : (qc - pc : ℤ) = -1 ∨ (qc - pc : ℤ) = 0 ∨ (qc - pc : ℤ) = 1 := by omega
  -- nine moves, one of which stays where it is
  rcases hr with hr | hr | hr <;> rcases hc with hc | hc | hc <;> rw [hr, hc] <;>
    first
      | omega
      | (obtain rfl : weight = 10000 := by rw [hw, if_pos (by omega)]
         decide)
      | (obtain rfl : weight = 14142 := by rw [hw, if_neg (by omega)]
         decide)

/-- A direction leads to an adjacent cell. -/
theorem adjacent_of_direction {p q : Coords} {d : Direction} (hd : d ∈ directions)
    (hrow : (q.row : ℤ) = p.row + d.drow) (hcol : (q.col : ℤ) = p.col + d.dcol) :
    Adjacent p q d.dist := by
  have hcases : ∀ d ∈ directions, d.drow.natAbs ≤ 1 ∧ d.dcol.natAbs ≤ 1 ∧
      (d.drow ≠ 0 ∨ d.dcol ≠ 0) ∧
      d.dist = if d.drow = 0 ∨ d.dcol = 0 then 10000 else 14142 := by decide
  obtain ⟨hr, hc, hne, hdist⟩ := hcases d hd
  refine ⟨⟨by omega, by omega, ?_⟩, ?_⟩
  · rintro rfl
    omega
  · rw [hdist]
    refine if_congr ?_ rfl rfl
    omega

theorem directions_apart :
    directions.Pairwise fun d d' => ¬ (d.drow = d'.drow ∧ d.dcol = d'.dcol) := by decide

/-! ## Grids and vertex tables that are inverse to each other -/

/-- Every cell that holds a number is the cell of that vertex, and every vertex has its cell. -/
structure Inverse (m : GridMap) : Prop where
  placed : ∀ r c k, r < m.height → c < m.width → m.grid r c = some k → m.vertices[k]? = some ⟨r, c⟩
  stands : ∀ k q, m.vertices[k]? = some q →
    q.row < m.height ∧ q.col < m.width ∧ m.grid q.row q.col = some k

namespace Inverse

variable {m : GridMap} {p q : Coords}

theorem neighborAt_iff (h : Inverse m) {d : Direction} {u : ℕ} {weight : ℤ} :
    m.neighborAt unitCharge p d = some (u, weight) ↔
      ∃ q : Coords, m.vertices[u]? = some q ∧ (q.row : ℤ) = p.row + d.drow ∧
        (q.col : ℤ) = p.col + d.dcol ∧ weight = d.dist := by
  constructor
  · intro hnbr
    obtain ⟨r, c, hr, hc, hrow, hcol, hgrid, hw⟩ := GridMap.neighborAt_eq_some hnbr
    exact ⟨⟨r, c⟩, h.placed r c u hrow hcol hgrid, hr, hc, hw⟩
  · rintro ⟨q, hq, hr, hc, rfl⟩
    obtain ⟨hrow, hcol, hgrid⟩ := h.stands u q hq
    unfold GridMap.neighborAt
    dsimp only
    rw [if_pos (by omega), ← hr, ← hc, Int.toNat_natCast, Int.toNat_natCast, hgrid]
    rfl

/-- **The neighbors of a vertex are the free cells around it.** -/
theorem mem_neighborsIn (h : Inverse m) {x weight : ℤ} :
    (x, weight) ∈ Graph.neighborsIn m p directions ↔
      ∃ (u : ℕ) (q : Coords), x = u ∧ m.vertices[u]? = some q ∧ Adjacent p q weight := by
  simp only [Graph.neighborsIn, List.mem_filterMap, Option.map_eq_some_iff]
  constructor
  · rintro ⟨d, hd, ⟨u, w⟩, hnbr, heq⟩
    obtain ⟨rfl, rfl⟩ : (u : ℤ) = x ∧ w = weight := by simpa [Graph.asInt] using heq
    obtain ⟨q, hq, hr, hc, rfl⟩ := h.neighborAt_iff.mp hnbr
    exact ⟨u, q, rfl, hq, adjacent_of_direction hd hr hc⟩
  · rintro ⟨u, q, rfl, hq, hadj⟩
    have hd := direction_of_adjacent hadj
    refine ⟨_, hd, (u, weight), h.neighborAt_iff.mpr ⟨q, hq, ?_, ?_, rfl⟩, rfl⟩
    · dsimp only
      omega
    · dsimp only
      omega

/-- **Each of them once.** -/
theorem nodup_neighborsIn (h : Inverse m) (p : Coords) :
    ((Graph.neighborsIn m p directions).map Prod.fst).Nodup := by
  rw [Graph.neighborsIn, List.map_filterMap, List.Nodup, List.pairwise_filterMap]
  -- two directions that lead to one vertex lead to its one cell
  apply directions_apart.imp
  intro d d' hapart x hx x' hx' hsame
  simp only [Option.map_map, Option.map_eq_some_iff, Function.comp_apply] at hx hx'
  obtain ⟨⟨u, w⟩, hnbr, rfl⟩ := hx
  obtain ⟨⟨u', w'⟩, hnbr', rfl⟩ := hx'
  obtain rfl : u = u' := by simpa [Graph.asInt] using hsame
  obtain ⟨q, hq, hr, hc, -⟩ := h.neighborAt_iff.mp hnbr
  obtain ⟨q', hq', hr', hc', -⟩ := h.neighborAt_iff.mp hnbr'
  obtain rfl : q = q' := Option.some.inj (hq.symm.trans hq')
  exact hapart ⟨by omega, by omega⟩

end Inverse

/-! ## The map that is read -/

section Read

variable {height width : ℕ} {body : List Char}

/-- What is read from `body`. -/
def readMap (height width : ℕ) (body : List Char) : GridMap :=
  placeCells width 0 (mapCells height width body) (blank height width)

theorem readMap_size (height width : ℕ) (body : List Char) :
    (readMap height width body).width = width ∧ (readMap height width body).height = height :=
  placeCells_width width (mapCells height width body) 0 (blank height width)

theorem vertices_readMap :
    (readMap height width body).vertices = freeCells width 0 (mapCells height width body) :=
  vertices_placeCells width (mapCells height width body) 0 (blank height width)

theorem grid_readMap {r c : ℕ} (hc : c < width) {ch : Char}
    (hch : (mapCells height width body)[r * width + c]? = some ch) :
    (readMap height width body).grid r c = cellValue
      (freeCells width 0 ((mapCells height width body).take (r * width + c))).length (some 0) ch := by
  have h := grid_placeCells hc (mapCells height width body) 0 (blank height width) (r * width + c) ch
    (Nat.zero_add _).symm hch
  rwa [show (blank height width).vertices.length = 0 from rfl, Nat.zero_add] at h

/-- Every cell of the map has a character. -/
theorem exists_char (hlen : height * width ≤ (cellsOf (GridMap.skipSpace body)).length) {r c : ℕ}
    (hr : r < height) (hc : c < width) : ∃ ch, (mapCells height width body)[r * width + c]? = some ch := by
  have hcells := length_mapCells hlen
  have hpos : r * width + c < height * width := by
    calc r * width + c < r * width + width := by omega
      _ = (r + 1) * width := by rw [Nat.add_mul, Nat.one_mul]
      _ ≤ height * width := Nat.mul_le_mul_right _ hr
  exact ⟨_, List.getElem?_eq_getElem (by rw [hcells]; exact hpos)⟩

/-- A vertex is a free cell of the map, numbered by the free cells before it. -/
theorem vertex_readMap {k : ℕ} {q : Coords}
    (hq : (readMap height width body).vertices[k]? = some q) :
    q.row < height ∧ q.col < width ∧
      ∃ ch, (mapCells height width body)[q.row * width + q.col]? = some ch ∧
        GridMap.isFree ch = true ∧
        k = (freeCells width 0
          ((mapCells height width body).take (q.row * width + q.col))).length := by
  rw [vertices_readMap] at hq
  obtain ⟨p, ch, hch, hfree, rfl, hk⟩ := exists_of_freeCells_get width _ 0 k q hq
  rw [Nat.zero_add] at *
  have hp : p < height * width := by
    have hlt := (List.getElem?_eq_some_iff.mp hch).1
    rw [mapCells, List.length_take] at hlt
    omega
  have hwidth : 0 < width := by
    rcases Nat.eq_zero_or_pos width with rfl | h
    · simp at hp
    · exact h
  have hpos : p / width * width + p % width = p := by
    rw [Nat.mul_comm, Nat.div_add_mod]
  dsimp only
  rw [hpos]
  exact ⟨(Nat.div_lt_iff_lt_mul hwidth).mpr hp, Nat.mod_lt _ hwidth, ch, hch, hfree, hk⟩

/-- Whatever the characters are, every vertex has its cell. -/
theorem stands_readMap {k : ℕ} {q : Coords}
    (hq : (readMap height width body).vertices[k]? = some q) :
    q.row < (readMap height width body).height ∧ q.col < (readMap height width body).width ∧
      (readMap height width body).grid q.row q.col = some k := by
  obtain ⟨hw, hh⟩ := readMap_size height width body
  obtain ⟨hrow, hcol, ch, hch, hfree, rfl⟩ := vertex_readMap hq
  refine ⟨by rw [hh]; exact hrow, by rw [hw]; exact hcol, ?_⟩
  rw [grid_readMap hcol hch, cellValue, if_pos hfree]

/-- A cell that holds a number is the cell of that vertex, unless nobody knows its character; then the
number is 0. -/
theorem placed_readMap (hlen : height * width ≤ (cellsOf (GridMap.skipSpace body)).length) {r c k : ℕ}
    (hr : r < (readMap height width body).height) (hc : c < (readMap height width body).width)
    (hgrid : (readMap height width body).grid r c = some k) :
    (readMap height width body).vertices[k]? = some ⟨r, c⟩ ∨
      k = 0 ∧ ∃ ch ∈ mapCells height width body, GridMap.isRecognised ch = false := by
  obtain ⟨hw, hh⟩ := readMap_size height width body
  rw [hh] at hr
  rw [hw] at hc
  obtain ⟨ch, hch⟩ := exists_char hlen hr hc
  rw [grid_readMap hc hch, cellValue] at hgrid
  by_cases hfree : GridMap.isFree ch = true
  · rw [if_pos hfree] at hgrid
    obtain rfl := Option.some.inj hgrid
    have hget := freeCells_get width (k := 0) hch hfree
    rw [Nat.zero_add, div_row hc, mod_row hc] at hget
    rw [vertices_readMap, hget]
    exact Or.inl rfl
  · rw [if_neg hfree] at hgrid
    by_cases hobstacle : GridMap.isObstacle ch = true
    · rw [if_pos hobstacle] at hgrid
      cases hgrid
    · rw [if_neg hobstacle] at hgrid
      have hne : ch ≠ '\n' := by
        rintro rfl
        have hmem : '\n' ∈ cellsOf (GridMap.skipSpace body) :=
          List.mem_of_mem_take (List.mem_of_getElem? hch)
        simp [cellsOf] at hmem
      refine Or.inr ⟨(Option.some.inj hgrid).symm, ch, List.mem_of_getElem? hch, ?_⟩
      simp [GridMap.isRecognised, hne, hfree, hobstacle]

/-- **On a map of known characters the grid and the vertices are inverse to each other.** -/
theorem inverse_readMap (hlen : height * width ≤ (cellsOf (GridMap.skipSpace body)).length)
    (hknown : ∀ ch ∈ mapCells height width body, GridMap.isRecognised ch = true) :
    Inverse (readMap height width body) where
  placed r c k hr hc hgrid := by
    rcases placed_readMap hlen hr hc hgrid with hplaced | ⟨-, ch, hch, hunknown⟩
    · exact hplaced
    · rw [hknown ch hch] at hunknown
      cases hunknown
  stands k q hq := stands_readMap hq

end Read

/-! ## The object that is constructed -/

namespace Graph

/-- `vertex_at` -/
def vertexAt (g : Graph) (row col : ℕ) : Option ℤ := do
  let cells ← g.grid[row]?
  cells[col]?

variable {m : GridMap} {height width : ℕ} {body : List Char}

theorem vertexAt_ofMap {r c : ℕ} (hr : r < m.height) (hc : c < m.width) :
    (ofMap m).vertexAt r c = some (encode (m.grid r c)) := by
  rw [vertexAt, show (ofMap m).grid = gridArray m from rfl, gridArray_get hr, Option.bind_eq_bind,
    Option.bind_some, rowArray_get hc]

theorem construct_readMap (hlen : height * width ≤ (cellsOf (GridMap.skipSpace body)).length) :
    construct height width body = some (ofMap (readMap height width body)) := by
  rw [construct_eq, load_eq hlen]
  rfl

theorem vertexAt_readMap {r c : ℕ} (hr : r < height) (hc : c < width) :
    (ofMap (readMap height width body)).vertexAt r c =
      some (encode ((readMap height width body).grid r c)) := by
  obtain ⟨hw, hh⟩ := readMap_size height width body
  exact vertexAt_ofMap (by rw [hh]; exact hr) (by rw [hw]; exact hc)

theorem offsets_sorted (m : GridMap) : (ofMap m).neighborOffsets.Pairwise (· ≤ ·) := by
  rw [List.pairwise_iff_getElem]
  intro i j hi hj hij
  have hlen : (ofMap m).neighborOffsets.length = m.vertices.length + 1 := by
    show (packed m).offsets.length = _
    rw [packed, Csr.length_offsets, List.length_map]
  have hle : j ≤ (m.vertices.map fun v => neighborsIn m v directions).length := by
    rw [List.length_map]
    omega
  have hmono := Csr.offsets_mono (m.vertices.map fun v => neighborsIn m v directions) hij.le hle
  rw [List.getD_eq_getElem?_getD, List.getD_eq_getElem?_getD] at hmono
  have hget : ∀ k (hk : k < (ofMap m).neighborOffsets.length),
      (packed m).offsets[k]?.getD 0 = (ofMap m).neighborOffsets[k] := by
    intro k hk
    show (ofMap m).neighborOffsets[k]?.getD 0 = _
    rw [List.getElem?_eq_getElem hk]
    rfl
  rw [← hget i hi, ← hget j hj]
  exact hmono

theorem offsets_last (m : GridMap) :
    (ofMap m).neighborOffsets.getLast? = some (ofMap m).neighbors.length := by
  have hlen : (ofMap m).neighborOffsets.length = m.vertices.length + 1 := by
    show (packed m).offsets.length = _
    rw [packed, Csr.length_offsets, List.length_map]
  have hend := Csr.offset_ofRows (m.vertices.map fun v => neighborsIn m v directions)
    (Nat.le_of_eq (List.length_map ..).symm)
  rw [← List.length_map (f := fun v => neighborsIn m v directions), List.take_length] at hend
  rw [List.getLast?_eq_getElem?, hlen, Nat.add_sub_cancel, offset_get le_rfl, packed]
  show _ = some (Csr.ofRows _).entries.length
  rw [Csr.entries_ofRows, ← hend, List.length_map]

theorem not_isObstacle_of_isFree {ch : Char} (h : GridMap.isFree ch = true) :
    GridMap.isObstacle ch = false := by
  rcases Bool.or_eq_true_iff.mp h with h | h <;> obtain rfl := of_decide_eq_true h <;> rfl

theorem encode_ne_obstacle (k : ℕ) : encode (some k) ≠ obstacle := by
  simp only [encode, obstacle]
  omega

/-- Only the characters of obstacles leave `OBSTACLE` behind. -/
theorem encode_cellValue_iff {n : ℕ} (ch : Char) :
    encode (cellValue n (some 0) ch) = obstacle ↔ GridMap.isObstacle ch = true := by
  unfold cellValue
  by_cases hfree : GridMap.isFree ch = true
  · rw [if_pos hfree, not_isObstacle_of_isFree hfree]
    simp [encode_ne_obstacle]
  · rw [if_neg hfree]
    by_cases hobstacle : GridMap.isObstacle ch = true
    · simp [hobstacle, encode]
    · simp [hobstacle, encode_ne_obstacle]

/-- **What the constructor promises on a map of known characters**, in the arrays of the class. -/
structure FromText (height width : ℕ) (cells : List Char) (g : Graph) : Prop where
  /-- A free cell holds the number of the vertex that stands there. -/
  free : ∀ r c ch, r < height → c < width → cells[r * width + c]? = some ch →
    GridMap.isFree ch = true →
      ∃ k : ℕ, g.vertexAt r c = some (k : ℤ) ∧ k < g.numberVertices ∧ g.vertices[k]? = some ⟨r, c⟩
  obstacles : ∀ r c ch, r < height → c < width → cells[r * width + c]? = some ch →
    (g.vertexAt r c = some obstacle ↔ GridMap.isObstacle ch = true)
  /-- The vertices are the free cells in row-major order. -/
  vertex : ∀ (k : ℕ) (q : Coords), g.vertices[k]? = some q → q.row < height ∧ q.col < width ∧
    g.vertexAt q.row q.col = some (k : ℤ) ∧
    ∃ ch, cells[q.row * width + q.col]? = some ch ∧ GridMap.isFree ch = true
  rowMajor : ∀ (k k' : ℕ) (q q' : Coords), g.vertices[k]? = some q → g.vertices[k']? = some q' → k < k' →
    q.row * width + q.col < q'.row * width + q'.col
  offsets : g.neighborOffsets.length = g.numberVertices + 1 ∧ g.neighborOffsets.Pairwise (· ≤ ·) ∧
    g.neighborOffsets.getLast? = some g.neighbors.length
  /-- The free cells around a vertex are enumerated, each once, and nothing else. -/
  neighbors : ∀ v p, g.vertices[v]? = some p → ∃ l, g.forEachNeighborOf v = some l ∧
    (l.map Prod.fst).Nodup ∧ ∀ x weight, (x, weight) ∈ l ↔
      ∃ (u : ℕ) (q : Coords), x = u ∧ g.vertices[u]? = some q ∧ Adjacent p q weight
  symmetric : ∀ u v l l' weight, g.forEachNeighborOf u = some l → g.forEachNeighborOf v = some l' →
    (((v : ℤ), weight) ∈ l ↔ ((u : ℤ), weight) ∈ l')
  checked : g.checkNeighbors = some true

/-- Only vertices have neighbors to enumerate. -/
theorem exists_vertex_of_forEachNeighborOf {v : ℕ} {l : List (ℤ × ℤ)}
    (h : (ofMap m).forEachNeighborOf v = some l) :
    ∃ p, m.vertices[v]? = some p ∧ l = neighborsIn m p directions := by
  have hlt : v < m.vertices.length := by
    by_contra hge
    have hnone : (ofMap m).neighborOffsets[v + 1]? = none := by
      rw [List.getElem?_eq_none_iff]
      show (packed m).offsets.length ≤ v + 1
      rw [packed, Csr.length_offsets, List.length_map]
      omega
    simp [forEachNeighborOf, degree, hnone] at h
  have hget : m.vertices[v]? = some m.vertices[v] := List.getElem?_eq_getElem hlt
  exact ⟨_, hget, Option.some.inj (h.symm.trans (forEachNeighborOf_eq hget))⟩

/-- In a map whose grid and vertices are inverse, being neighbors is symmetric. -/
theorem neighbors_symm (h : Inverse m) {u v : ℕ} {p q : Coords} (hp : m.vertices[u]? = some p)
    (hq : m.vertices[v]? = some q) {weight : ℤ}
    (hmem : ((v : ℤ), weight) ∈ neighborsIn m p directions) :
    ((u : ℤ), weight) ∈ neighborsIn m q directions := by
  obtain ⟨v', q', hv', hq', hadj⟩ := h.mem_neighborsIn.mp hmem
  obtain rfl : v = v' := by exact_mod_cast hv'
  obtain rfl : q = q' := Option.some.inj (hq.symm.trans hq')
  exact h.mem_neighborsIn.mpr ⟨u, p, rfl, hp, hadj.symm⟩

/-- **From the text of a map to its adjacency.**  For every height, width and body of known characters
that is long enough, all accesses of the constructor, of `for_each_neighbor_of` and of
`check_neighbors` are in range, and the arrays are right. -/
theorem text_to_adjacency (height width : ℕ) (body : List Char)
    (hknown : ∀ ch ∈ body, GridMap.isRecognised ch = true)
    (hlen : height * width ≤ (cellsOf body).length) :
    ∃ g, construct height width body = some g ∧
      FromText height width (mapCells height width body) g := by
  have hcells : ∀ ch ∈ mapCells height width body, GridMap.isRecognised ch = true := fun ch hch =>
    hknown ch (GridMap.skipSpace_subset body (List.mem_of_mem_filter (List.mem_of_mem_take hch)))
  rw [← cellsOf_skipSpace hknown] at hlen
  have hinv := inverse_readMap hlen hcells
  obtain ⟨hw, hh⟩ := readMap_size height width body
  refine ⟨_, construct_readMap hlen, ?_, ?_, ?_, ?_, ?_, ?_, ?_, checkNeighbors_eq _⟩
  · intro r c ch hr hc hch hfree
    have hgrid := grid_readMap hc hch
    rw [cellValue, if_pos hfree] at hgrid
    have hplaced := hinv.placed r c _ (by rw [hh]; exact hr) (by rw [hw]; exact hc) hgrid
    refine ⟨_, ?_, (List.getElem?_eq_some_iff.mp hplaced).1, hplaced⟩
    rw [vertexAt_readMap hr hc, hgrid]
    rfl
  · intro r c ch hr hc hch
    rw [vertexAt_readMap hr hc, grid_readMap hc hch, Option.some_inj]
    exact encode_cellValue_iff ch
  · intro k q hq
    obtain ⟨hrow, hcol, ch, hch, hfree, -⟩ := vertex_readMap hq
    obtain ⟨-, -, hgrid⟩ := hinv.stands k q hq
    refine ⟨hrow, hcol, ?_, ch, hch, hfree⟩
    rw [vertexAt_readMap hrow hcol, hgrid]
    rfl
  · intro k k' q q' hq hq' hlt
    obtain ⟨-, -, -, -, -, rfl⟩ := vertex_readMap hq
    obtain ⟨-, -, -, -, -, rfl⟩ := vertex_readMap hq'
    by_contra hge
    have hmono := freeCells_take_mono width (mapCells height width body) 0 (not_lt.mp hge)
    omega
  · refine ⟨?_, offsets_sorted _, offsets_last _⟩
    show (packed _).offsets.length = _
    rw [packed, Csr.length_offsets, List.length_map]
    rfl
  · intro v p hp
    exact ⟨_, forEachNeighborOf_eq hp, hinv.nodup_neighborsIn p, fun x weight => hinv.mem_neighborsIn⟩
  · intro u v l l' weight hu hv
    obtain ⟨p, hp, rfl⟩ := exists_vertex_of_forEachNeighborOf hu
    obtain ⟨q, hq, rfl⟩ := exists_vertex_of_forEachNeighborOf hv
    exact ⟨neighbors_symm hinv hp hq, neighbors_symm hinv hq hp⟩

/-- A map with one wall: five free cells around an obstacle. -/
theorem text_to_adjacency_wall : ∃ g,
    construct 2 3 ['.', '@', 'G', '\n', '.', '.', '.', '\n'] = some g ∧
    FromText 2 3 ['.', '@', 'G', '.', '.', '.'] g ∧ g.numberVertices = 5 ∧
    g.forEachNeighborOf 3 = some [(0, 14142), (1, 14142), (2, 10000), (4, 10000)] := by
  obtain ⟨g, hg, htext⟩ := text_to_adjacency 2 3 ['.', '@', 'G', '\n', '.', '.', '.', '\n']
    (List.all_eq_true.mp (by decide)) (by decide)
  have hrun : (construct 2 3 ['.', '@', 'G', '\n', '.', '.', '.', '\n']).any (fun g =>
      decide (g.numberVertices = 5 ∧
        g.forEachNeighborOf 3 = some [(0, 14142), (1, 14142), (2, 10000), (4, 10000)])) = true := by
    decide +kernel
  rw [hg] at hrun
  exact ⟨g, hg, htext, of_decide_eq_true hrun⟩

/-! ## Unknown characters -/

/-- **A graph that was not corrupted by its text.** -/
structure Uncorrupted (height width : ℕ) (cells : List Char) (g : Graph) : Prop where
  /-- A cell holds `OBSTACLE` or the number of the vertex that stands there. -/
  inverse : ∀ r c, r < height → c < width → ∃ x, g.vertexAt r c = some x ∧
    (x = obstacle ∨ ∃ k : ℕ, x = k ∧ k < g.numberVertices ∧ g.vertices[k]? = some ⟨r, c⟩)
  /-- A cell with an unknown character is not passable. -/
  impassable : ∀ r c ch, r < height → c < width → cells[r * width + c]? = some ch →
    GridMap.isRecognised ch = false → g.vertexAt r c = some obstacle
  /-- An arc joins cells that are adjacent. -/
  arcs : ∀ (v : ℕ) (p : Coords) l, g.vertices[v]? = some p → g.forEachNeighborOf v = some l →
    ∀ x weight, (x, weight) ∈ l →
      ∃ (u : ℕ) (q : Coords), x = u ∧ g.vertices[u]? = some q ∧ Adjacent p q weight

/-- A cell with an unknown character holds the number 0, and that vertex stands elsewhere. -/
theorem vertexAt_unknown {r c : ℕ} (hr : r < height) (hc : c < width) {ch : Char}
    (hch : (mapCells height width body)[r * width + c]? = some ch)
    (hunknown : GridMap.isRecognised ch = false) :
    (ofMap (readMap height width body)).vertexAt r c = some 0 ∧
      (readMap height width body).vertices[0]? ≠ some ⟨r, c⟩ := by
  obtain ⟨⟨-, hfree⟩, hobstacle⟩ : (ch ≠ '\n' ∧ GridMap.isFree ch = false) ∧
      GridMap.isObstacle ch = false := by
    simpa [GridMap.isRecognised] using hunknown
  refine ⟨?_, ?_⟩
  · rw [vertexAt_readMap hr hc, grid_readMap hc hch, cellValue, hfree, hobstacle]
    rfl
  · intro hzero
    obtain ⟨-, -, ch', hch', hfree', -⟩ := vertex_readMap hzero
    obtain rfl : ch = ch' := Option.some.inj (hch.symm.trans hch')
    exact absurd hfree' (by simp [hfree])

theorem construct_short (hlen : (cellsOf (GridMap.skipSpace body)).length < height * width) :
    construct height width body = none := by
  rw [construct_eq, load_short hlen]
  rfl

/-- The graph that is read is in order exactly when every one of the characters that fill the cells is
known. -/
theorem uncorrupted_readMap (hlen : height * width ≤ (cellsOf (GridMap.skipSpace body)).length) :
    Uncorrupted height width (mapCells height width body) (ofMap (readMap height width body)) ↔
      ∀ ch ∈ mapCells height width body, GridMap.isRecognised ch = true := by
  obtain ⟨hw, hh⟩ := readMap_size height width body
  refine ⟨?_, ?_⟩
  · intro h ch hmem
    by_contra hunknown
    obtain ⟨p, hp, hget⟩ := List.mem_iff_getElem.mp hmem
    have hlt : p < height * width := by
      rw [mapCells, List.length_take] at hp
      omega
    have hwidth : 0 < width := by
      rcases Nat.eq_zero_or_pos width with rfl | hpos
      · simp at hlt
      · exact hpos
    have hr : p / width < height := (Nat.div_lt_iff_lt_mul hwidth).mpr hlt
    have hc : p % width < width := Nat.mod_lt _ hwidth
    have hpos : p / width * width + p % width = p := by rw [Nat.mul_comm, Nat.div_add_mod]
    have hch : (mapCells height width body)[p / width * width + p % width]? = some ch := by
      rw [hpos, List.getElem?_eq_getElem hp, hget]
    obtain ⟨hvertex, helse⟩ := vertexAt_unknown hr hc hch (by simpa using hunknown)
    -- the cell would have to be an obstacle or the place of vertex 0
    obtain ⟨x, hx, hcases⟩ := h.inverse (p / width) (p % width) hr hc
    obtain rfl : 0 = x := Option.some.inj (hvertex.symm.trans hx)
    rcases hcases with hobstacle | ⟨k, hk, -, hplace⟩
    · exact absurd hobstacle (by decide)
    · obtain rfl : 0 = k := by exact_mod_cast hk
      exact helse hplace
  · intro hknown
    have hinv := inverse_readMap hlen hknown
    refine ⟨?_, ?_, ?_⟩
    · intro r c hr hc
      refine ⟨_, vertexAt_readMap hr hc, ?_⟩
      cases hgrid : (readMap height width body).grid r c with
      | none => exact Or.inl rfl
      | some k =>
        have hplaced := hinv.placed r c k (by rw [hh]; exact hr) (by rw [hw]; exact hc) hgrid
        exact Or.inr ⟨k, rfl, (List.getElem?_eq_some_iff.mp hplaced).1, hplaced⟩
    · intro r c ch _ _ hch hunknown
      rw [hknown ch (List.mem_of_getElem? hch)] at hunknown
      cases hunknown
    · intro v p l hp hl x weight hmem
      obtain ⟨p', hp', rfl⟩ := exists_vertex_of_forEachNeighborOf hl
      obtain rfl : p = p' := Option.some.inj (hp.symm.trans hp')
      exact hinv.mem_neighborsIn.mp hmem

/-- **When a text does not corrupt the graph**: exactly when the white space that it begins with leaves
enough of it, and every one of the characters that fill the cells is known. -/
theorem uncorrupted_iff (height width : ℕ) (body : List Char) :
    (∃ g, construct height width body = some g ∧
      Uncorrupted height width (mapCells height width body) g) ↔
        height * width ≤ (cellsOf (GridMap.skipSpace body)).length ∧
          ∀ ch ∈ mapCells height width body, GridMap.isRecognised ch = true := by
  rcases Nat.lt_or_ge (cellsOf (GridMap.skipSpace body)).length (height * width) with hshort | henough
  · have hnone := construct_short hshort
    refine iff_of_false ?_ fun h => absurd h.1 (Nat.not_le.mpr hshort)
    rintro ⟨g, hg, -⟩
    exact absurd (hnone.symm.trans hg) (Option.some_ne_none g).symm
  · have hread := construct_readMap henough
    have hiff := uncorrupted_readMap henough
    constructor
    · rintro ⟨g, hg, h⟩
      obtain rfl := Option.some.inj (hread.symm.trans hg)
      exact ⟨henough, hiff.mp h⟩
    · rintro ⟨-, hknown⟩
      exact ⟨_, hread, hiff.mpr hknown⟩

/-- A blank, and one free cell above a `G`: the blank is swallowed and everything is in order. -/
theorem uncorrupted_iff_column : ∃ g, construct 2 1 [' ', '.', '\n', 'G'] = some g ∧
    Uncorrupted 2 1 ['.', 'G'] g :=
  (uncorrupted_iff 2 1 [' ', '.', '\n', 'G']).mpr
    ⟨by decide, List.all_eq_true.mp (by decide)⟩

/-- **A row of two free cells with an `x` between them.**  The cell of the `x` is vertex 0 for both of
its neighbors, so that the cells on the two sides are joined, and vertex 0 to itself. -/
theorem unknown_corrupts : ∃ g, construct 1 3 ['.', 'x', '.'] = some g ∧
    g.vertexAt 0 1 = some 0 ∧ g.vertices[0]? = some ⟨0, 0⟩ ∧
    g.forEachNeighborOf 0 = some [(0, 10000)] ∧ g.forEachNeighborOf 1 = some [(0, 10000)] ∧
    ¬ Uncorrupted 1 3 ['.', 'x', '.'] g := by
  have hrun : (construct 1 3 ['.', 'x', '.']).any (fun g =>
      decide (g.vertexAt 0 1 = some 0 ∧ g.vertices[0]? = some ⟨0, 0⟩ ∧
        g.forEachNeighborOf 0 = some [(0, 10000)] ∧ g.forEachNeighborOf 1 = some [(0, 10000)])) =
      true := by
    decide +kernel
  obtain ⟨g, hg, hm⟩ := (Option.any_eq_true _ _).mp hrun
  obtain ⟨hcell, hzero, hloop, hjump⟩ := of_decide_eq_true hm
  refine ⟨g, hg, hcell, hzero, hloop, hjump, ?_⟩
  intro h
  have hwall := h.impassable 0 1 'x' (by decide) (by decide) rfl (by decide)
  rw [hcell] at hwall
  exact absurd hwall (by decide)

end Graph

end PwsaStar.Grid
