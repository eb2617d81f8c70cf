/-
# PwsaStar.Grid.Arrays — the class `Graph` of `weighted_graph.hpp` with its arrays, every access checked.

`GridMap` is what the constructor computes; here it is computed in the arrays of the class.  An
access outside an array makes the whole computation `none`, so a `some` says that every access that
was made is in range.  The vertex table is allocated for `width · height` vertices and cut back when
the number of free cells is known; `neighbor_offsets` is allocated before it is filled.

`construct_eq` is the refinement: on every text that is long enough the constructor succeeds
and its arrays hold the cells, the vertices and the packed neighbors of the `GridMap`.
-/
import PwsaStar.Grid.Cells
import PwsaStar.Lib.CheckedArray

namespace PwsaStar.Grid

open PwsaStar.Lib

/-! ## The program -/

/-- `OBSTACLE` -/
def obstacle : ℤ := -1

/-- `dist[i]`, whatever the row. -/
def unitCharge : Charge where
  weight _ dist := dist
  nonneg _ _ _ h := h

/-- What the cell loop writes. -/
structure Reader where
  grid : List (List ℤ)
  vertices : List Coords
  nextId : ℕ

namespace Reader

/-- `grid[i][j] = x` -/
def setCell (s : Reader) (i j : ℕ) (x : ℤ) : Option Reader := do
  let row ← s.grid[i]?
  let row' ← store row j x
  let grid ← store s.grid i row'
  some { s with grid := grid }

/-- What is done with a character. -/
def readCell (s : Reader) (i j : ℕ) (c : Char) : Option Reader :=
  if GridMap.isFree c then do
    let vertices ← store s.vertices s.nextId ⟨i, j⟩
    let s' ← s.setCell i j s.nextId
    some { s' with vertices := vertices, nextId := s.nextId + 1 }
  else if GridMap.isObstacle c then s.setCell i j obstacle
  else some s

/-- The loop over the columns of row `i`, from column `j` on. -/
def readRow (i : ℕ) : ℕ → List Char → Reader → Option (List Char × Reader)
  | j, [], s => do
    let row ← s.grid[i]?
    if j < row.length then none else some ([], s)
  | j, c :: cs, s => do
    let row ← s.grid[i]?
    if j < row.length then
      if c = '\n' then readRow i j cs s
      else do
        let s' ← s.readCell i j c
        readRow i (j + 1) cs s'
    else some (c :: cs, s)

/-- The loop over the rows: `n` more from row `i` on. -/
def readRows : ℕ → ℕ → List Char → Reader → Option Reader
  | 0, _, _, s => some s
  | n + 1, i, cs, s => do
    let (cs', s') ← readRow i 0 cs s
    readRows n (i + 1) cs' s'

/-- `grid` and `vertices` as `resize` makes them. -/
def start (height width : ℕ) : Reader where
  grid := List.replicate height (List.replicate width 0)
  vertices := List.replicate (width * height) ⟨0, 0⟩
  nextId := 0

end Reader

/-- The fields of the class.  A neighbor is a vertex and a weight. -/
structure Graph where
  grid : List (List ℤ)
  vertices : List Coords
  height : ℕ
  width : ℕ
  neighborOffsets : List ℕ
  neighbors : List (ℤ × ℤ)

namespace Graph

/-- The test of `populate_neighbors` and `check_neighbors` in direction `d`: the neighbor of `v` that
stands there, if one does. -/
def probe (g : Graph) (v : ℕ) (d : Direction) : Option (Option (ℤ × ℤ)) := do
  let coords ← g.vertices[v]?
  let nghrow := coords.row + d.drow
  let nghcol := coords.col + d.dcol
  if 0 ≤ nghrow ∧ nghrow < g.height ∧ 0 ≤ nghcol ∧ nghcol < g.width then do
    let row ← g.grid[nghrow.toNat]?
    let x ← row[nghcol.toNat]?
    some (if x = obstacle then none else some (x, d.dist))
  else some none

/-- The loop over the directions, with `curr_offset` and the neighbors pushed so far. -/
def pushNeighbors (g : Graph) (v : ℕ) :
    List Direction → ℕ → List (ℤ × ℤ) → Option (ℕ × List (ℤ × ℤ))
  | [], curr, neighbors => some (curr, neighbors)
  | d :: ds, curr, neighbors => do
    match ← g.probe v d with
    | none => g.pushNeighbors v ds curr neighbors
    | some u => g.pushNeighbors v ds (curr + 1) (neighbors ++ [u])

/-- The loop over the vertices. -/
def populateFrom (g : Graph) : List ℕ → ℕ → List ℕ → List (ℤ × ℤ) →
    Option (ℕ × List ℕ × List (ℤ × ℤ))
  | [], curr, offsets, neighbors => some (curr, offsets, neighbors)
  | v :: vs, curr, offsets, neighbors => do
    let offsets' ← store offsets v curr
    let (curr', neighbors') ← g.pushNeighbors v directions curr neighbors
    g.populateFrom vs curr' offsets' neighbors'

/-- `populate_neighbors` -/
def populateNeighbors (g : Graph) : Option Graph := do
  let n := g.vertices.length
  let (curr, offsets, neighbors) ←
    g.populateFrom (List.range n) 0 (List.replicate (n + 1) 0) g.neighbors
  let offsets' ← store offsets n curr
  some { g with neighborOffsets := offsets', neighbors := neighbors }

/-- The constructor, after `height`, `width` and the word `map` are read.  `none` also stands for a text
that ends too early, where `c` is read uninitialised. -/
def construct (height width : ℕ) (body : List Char) : Option Graph := do
  let s ← Reader.readRows height 0 (GridMap.skipSpace body) (Reader.start height width)
  populateNeighbors
    { grid := s.grid
      vertices := s.vertices.take s.nextId
      height := height
      width := width
      neighborOffsets := []
      neighbors := [] }

/-- `number_vertices` -/
def numberVertices (g : Graph) : ℕ := g.vertices.length

/-- `degree` -/
def degree (g : Graph) (v : ℕ) : Option ℤ := do
  let high ← g.neighborOffsets[v + 1]?
  let low ← g.neighborOffsets[v]?
  some ((high : ℤ) - low)

/-- The calls that `for_each_neighbor_of` makes. -/
def forEachNeighborOf (g : Graph) (v : ℕ) : Option (List (ℤ × ℤ)) := do
  let degv ← g.degree v
  (List.range degv.toNat).mapM fun i => do
    let offset ← g.neighborOffsets[v]?
    g.neighbors[offset + i]?

/-- The loop of `check_neighbors` over the directions, with `deg` so far; `some none` is
`return false`. -/
def checkDirections (g : Graph) (v : ℕ) : List Direction → ℕ → Option (Option ℕ)
  | [], deg => some (some deg)
  | d :: ds, deg => do
    match ← g.probe v d with
    | none => g.checkDirections v ds deg
    | some u =>
      let offset ← g.neighborOffsets[v]?
      let n ← g.neighbors[offset + deg]?
      if n.1 ≠ u.1 then some none
      else if n.2 ≠ u.2 then some none
      else g.checkDirections v ds (deg + 1)

/-- The loop of `check_neighbors` over the vertices. -/
def checkFrom (g : Graph) : List ℕ → Option Bool
  | [] => some true
  | v :: vs => do
    match ← g.checkDirections v directions 0 with
    | none => some false
    | some deg =>
      let degv ← g.degree v
      if (deg : ℤ) ≠ degv then some false else g.checkFrom vs

/-- `check_neighbors` -/
def checkNeighbors (g : Graph) : Option Bool := g.checkFrom (List.range g.vertices.length)

end Graph

/-! ## The cell loop -/

/-- How a cell is stored. -/
def encode : Option ℕ → ℤ
  | none => obstacle
  | some k => k

/-- A row and the whole `grid` as arrays. -/
def rowArray (m : GridMap) (r : ℕ) : List ℤ := (List.range m.width).map fun c => encode (m.grid r c)

def gridArray (m : GridMap) : List (List ℤ) := (List.range m.height).map (rowArray m)

theorem gridArray_get {m : GridMap} {r : ℕ} (hr : r < m.height) :
    (gridArray m)[r]? = some (rowArray m r) := by
  simp [gridArray, hr]

theorem rowArray_get {m : GridMap} {r c : ℕ} (hc : c < m.width) :
    (rowArray m r)[c]? = some (encode (m.grid r c)) := by
  simp [rowArray, hc]

theorem rowArray_set {m : GridMap} {i j : ℕ} (x : Option ℕ) :
    (rowArray m i).set j (encode x) = rowArray (m.setCell i j x) i := by
  refine List.ext_getElem? fun c => ?_
  simp only [rowArray, List.getElem?_set, List.getElem?_map, List.length_map, List.length_range,
    GridMap.setCell]
  by_cases hc : c < m.width
  · rcases eq_or_ne j c with rfl | hne
    · simp [hc]
    · simp [hc, hne, hne.symm]
  · simp [hc]
    omega

theorem gridArray_set {m : GridMap} {i j : ℕ} (x : Option ℕ) :
    (gridArray m).set i (rowArray (m.setCell i j x) i) = gridArray (m.setCell i j x) := by
  refine List.ext_getElem? fun r => ?_
  simp only [gridArray, List.getElem?_set, List.getElem?_map, List.length_map, List.length_range]
  by_cases hr : r < m.height
  · rcases eq_or_ne i r with rfl | hne
    · simp [hr, GridMap.setCell]
    · simp [hr, hne, hne.symm, GridMap.setCell, rowArray]
  · simp [hr, GridMap.setCell]
    omega

namespace Reader

/-- The arrays while `m` is being read. -/
def ofMap (m : GridMap) : Reader where
  grid := gridArray m
  vertices := m.vertices ++ List.replicate (m.width * m.height - m.vertices.length) ⟨0, 0⟩
  nextId := m.vertices.length

theorem start_eq (height width : ℕ) : Reader.start height width = ofMap (blank height width) := by
  have hrow : ∀ r, rowArray (blank height width) r = List.replicate width 0 := by
    intro r
    simp [rowArray, blank, encode, List.map_const']
  have hgrid : gridArray (blank height width) = List.replicate height (List.replicate width 0) := by
    rw [gridArray, List.map_congr_left fun r _ => hrow r, List.map_const', List.length_range]
    rfl
  rw [ofMap, hgrid]
  rfl

theorem setCell_eq {m : GridMap} {i j : ℕ} (hi : i < m.height) (hj : j < m.width) (x : Option ℕ) :
    (ofMap m).setCell i j (encode x) =
      some { ofMap m with grid := gridArray (m.setCell i j x) } := by
  have hrow : j < (rowArray m i).length := by simpa [rowArray] using hj
  have hgrid : i < (gridArray m).length := by simpa [gridArray] using hi
  simp only [setCell, ofMap, gridArray_get hi, store_eq hrow, store_eq hgrid, Option.bind_eq_bind,
    Option.bind_some, rowArray_set, gridArray_set]

/-- **One character**, with room for one more vertex. -/
theorem readCell_eq {m : GridMap} {i j : ℕ} (hi : i < m.height) (hj : j < m.width)
    (hroom : m.vertices.length < m.width * m.height) (c : Char) :
    (ofMap m).readCell i j c = some (ofMap (m.readCell i j c)) := by
  unfold readCell GridMap.readCell
  split
  · have hplace : m.vertices.length < (ofMap m).vertices.length := by
      simp only [ofMap, List.length_append, List.length_replicate]
      omega
    have hleft : m.width * m.height - m.vertices.length =
        m.width * m.height - (m.vertices.length + 1) + 1 := by omega
    have hset := setCell_eq hi hj (some m.vertices.length)
    have hid : ((ofMap m).nextId : ℤ) = encode (some m.vertices.length) := rfl
    rw [hid, hset]
    have hvertices : (ofMap m).vertices.set m.vertices.length ⟨i, j⟩ =
        m.vertices ++ [⟨i, j⟩] ++
          List.replicate (m.width * m.height - (m.vertices.length + 1)) ⟨0, 0⟩ := by
      simp only [ofMap]
      rw [List.set_append_right _ _ le_rfl, Nat.sub_self, hleft, List.replicate_succ,
        List.set_cons_zero, List.append_assoc, List.singleton_append]
    have hstore : store (ofMap m).vertices (ofMap m).nextId ⟨i, j⟩ = some _ := store_eq hplace _
    rw [hstore, Option.bind_eq_bind, Option.bind_some, Option.bind_eq_bind, Option.bind_some]
    simp only [ofMap, GridMap.setCell, List.length_append, List.length_singleton] at hvertices ⊢
    rw [hvertices]
    rfl
  · split
    · exact setCell_eq hi hj none
    · rfl

/-- The vertices counted so far stand in cells that have been read. -/
theorem vertices_readCell (m : GridMap) (i j : ℕ) (c : Char) :
    (m.readCell i j c).vertices.length ≤ m.vertices.length + 1 := by
  unfold GridMap.readCell
  split
  · simp
  · split <;> exact Nat.le_succ _

/-- The loop over the columns. -/
theorem readRow_eq {i : ℕ} : ∀ (cs : List Char) (j : ℕ) (m : GridMap), i < m.height →
    m.vertices.length ≤ i * m.width + j → j ≤ m.width →
    readRow i j cs (ofMap m) = (GridMap.readRow i j cs m).map (fun r => (r.1, ofMap r.2)) ∧
      ∀ cs' m', GridMap.readRow i j cs m = some (cs', m') →
        m'.vertices.length ≤ (i + 1) * m.width ∧ m'.width = m.width ∧ m'.height = m.height := by
  intro cs
  induction cs with
  | nil =>
    intro j m hi hread hj
    have hrow : (rowArray m i).length = m.width := by simp [rowArray]
    simp only [readRow, GridMap.readRow, ofMap, gridArray_get hi, Option.bind_eq_bind,
      Option.bind_some, hrow]
    split
    · simp
    · refine ⟨rfl, ?_⟩
      rintro cs' m' ⟨⟩
      refine ⟨?_, rfl, rfl⟩
      rw [Nat.add_mul]
      omega
  | cons c cs ih =>
    intro j m hi hread hj
    have hrow : (rowArray m i).length = m.width := by simp [rowArray]
    have hget : (ofMap m).grid[i]? = some (rowArray m i) := gridArray_get hi
    simp only [readRow, GridMap.readRow, hget, Option.bind_eq_bind, Option.bind_some, hrow]
    split
    · rename_i hlt
      split
      · exact ih j m hi hread hj
      · have hroom : m.vertices.length < m.width * m.height := by
          calc m.vertices.length ≤ i * m.width + j := hread
            _ < i * m.width + m.width := by omega
            _ = (i + 1) * m.width := by rw [Nat.add_mul, Nat.one_mul]
            _ ≤ m.height * m.width := Nat.mul_le_mul_right _ hi
            _ = m.width * m.height := Nat.mul_comm ..
        obtain ⟨hw, hh⟩ := GridMap.readCell_width m i j c
        have hmore := vertices_readCell m i j c
        have hrest := ih (j + 1) (m.readCell i j c) (by rw [hh]; exact hi) (by rw [hw]; omega)
          (by rw [hw]; omega)
        rw [hw, hh] at hrest
        rw [readCell_eq hi hlt hroom, Option.bind_some]
        exact hrest
    · refine ⟨rfl, ?_⟩
      rintro cs' m' ⟨⟩
      refine ⟨?_, rfl, rfl⟩
      rw [Nat.add_mul]
      omega

/-- The loop over the rows. -/
theorem readRows_eq : ∀ (n i : ℕ) (cs : List Char) (m : GridMap), i + n ≤ m.height →
    m.vertices.length ≤ i * m.width →
    readRows n i cs (ofMap m) = (GridMap.readRows n i cs m).map ofMap ∧
      ∀ m', GridMap.readRows n i cs m = some m' → m'.width = m.width ∧ m'.height = m.height
  | 0, _, _, _, _, _ => ⟨rfl, by rintro m' ⟨⟩; exact ⟨rfl, rfl⟩⟩
  | n + 1, i, cs, m, hi, hread => by
    obtain ⟨hrow, hnext⟩ := readRow_eq cs 0 m (by omega) (by omega) (Nat.zero_le _) (i := i)
    rw [readRows, hrow, GridMap.readRows]
    cases hrun : GridMap.readRow i 0 cs m with
    | none => exact ⟨rfl, by rintro m' ⟨⟩⟩
    | some r =>
      obtain ⟨cs', m'⟩ := r
      obtain ⟨hread', hw, hh⟩ := hnext cs' m' hrun
      obtain ⟨hrows, hsame⟩ := readRows_eq n (i + 1) cs' m' (by rw [hh]; omega) (by rw [hw]; exact hread')
      refine ⟨hrows, ?_⟩
      intro m'' hrun'
      obtain ⟨hw', hh'⟩ := hsame m'' hrun'
      exact ⟨hw'.trans hw, hh'.trans hh⟩

end Reader

/-! ## The neighbors -/

namespace Graph

/-- A neighbor as it is stored. -/
def asInt (a : ℕ × ℤ) : ℤ × ℤ := (a.1, a.2)

/-- The neighbors of a cell in the directions `ds`. -/
def neighborsIn (m : GridMap) (v : Coords) (ds : List Direction) : List (ℤ × ℤ) :=
  ds.filterMap fun d => (m.neighborAt unitCharge v d).map asInt

/-- The packed neighbors of all vertices. -/
def packed (m : GridMap) : Csr (ℤ × ℤ) :=
  Csr.ofRows (m.vertices.map fun v => neighborsIn m v directions)

/-- The object that holds `m`. -/
def ofMap (m : GridMap) : Graph where
  grid := gridArray m
  vertices := m.vertices
  height := m.height
  width := m.width
  neighborOffsets := (packed m).offsets
  neighbors := (packed m).entries

/-- The cells and vertices of `g` are those of `m`. -/
structure Holds (g : Graph) (m : GridMap) : Prop where
  grid : g.grid = gridArray m
  vertices : g.vertices = m.vertices
  height : g.height = m.height
  width : g.width = m.width

theorem ofMap_holds (m : GridMap) : (ofMap m).Holds m := ⟨rfl, rfl, rfl, rfl⟩

variable {g : Graph} {m : GridMap} {v : ℕ} {coords : Coords}

/-- The guarded accesses to `grid` are in range. -/
theorem probe_eq (h : g.Holds m) (hv : m.vertices[v]? = some coords) (d : Direction) :
    g.probe v d = some ((m.neighborAt unitCharge coords d).map asInt) := by
  simp only [probe, GridMap.neighborAt, h.vertices, hv, h.height, h.width, h.grid,
    Option.bind_eq_bind, Option.bind_some]
  split
  · rename_i hin
    obtain ⟨hrow, hrow', hcol, hcol'⟩ := hin
    rw [gridArray_get (by omega), Option.bind_some, rowArray_get (by omega), Option.bind_some]
    cases m.grid (coords.row + d.drow : ℤ).toNat (coords.col + d.dcol : ℤ).toNat with
    | none => rfl
    | some u =>
      have hfree : (u : ℤ) ≠ obstacle := by
        simp only [obstacle]
        omega
      simp [encode, hfree, asInt, unitCharge]
  · rfl

theorem pushNeighbors_eq (h : g.Holds m) (hv : m.vertices[v]? = some coords) :
    ∀ (ds : List Direction) (curr : ℕ) (neighbors : List (ℤ × ℤ)),
      g.pushNeighbors v ds curr neighbors =
        some (curr + (neighborsIn m coords ds).length, neighbors ++ neighborsIn m coords ds) := by
  intro ds
  induction ds with
  | nil =>
    intro curr neighbors
    simp [pushNeighbors, neighborsIn]
  | cons d ds ih =>
    intro curr neighbors
    rw [pushNeighbors, probe_eq h hv, Option.bind_eq_bind, Option.bind_some]
    cases hnbr : (m.neighborAt unitCharge coords d).map asInt with
    | none =>
      have hcons : neighborsIn m coords (d :: ds) = neighborsIn m coords ds := by
        simp only [neighborsIn, List.filterMap_cons, hnbr]
      rw [hcons]
      exact ih curr neighbors
    | some u =>
      have hcons : neighborsIn m coords (d :: ds) = u :: neighborsIn m coords ds := by
        simp only [neighborsIn, List.filterMap_cons, hnbr]
      rw [hcons]
      dsimp only
      rw [ih (curr + 1) (neighbors ++ [u]), List.append_assoc,
        List.singleton_append, List.length_cons, Nat.add_right_comm, Nat.add_assoc]

/-- The loop over the vertices packs the rows, from vertex `k` on with `j` to go. -/
theorem populateFrom_eq (h : g.Holds m) : ∀ (j k : ℕ) (c : Csr (ℤ × ℤ)), k + j = m.vertices.length →
    c.offsets.length = k →
    ∃ c', ((m.vertices.drop k).map fun v => neighborsIn m v directions).foldl Csr.addRow c = c' ∧
      c'.offsets.length = m.vertices.length ∧
      g.populateFrom (List.range' k j) c.entries.length (c.offsets ++ List.replicate (j + 1) 0)
        c.entries = some (c'.entries.length, c'.offsets ++ [0], c'.entries)
  | 0, k, c, hk, hc => by
    refine ⟨c, ?_, by omega, rfl⟩
    rw [List.drop_eq_nil_of_le (by omega)]
    rfl
  | j + 1, k, c, hk, hc => by
    have hlt : k < m.vertices.length := by omega
    have hget : m.vertices[k]? = some m.vertices[k] := List.getElem?_eq_getElem hlt
    have hdrop : m.vertices.drop k = m.vertices[k] :: m.vertices.drop (k + 1) :=
      List.drop_eq_getElem_cons hlt
    obtain ⟨c', hfold, hlen, hrun⟩ := populateFrom_eq h j (k + 1)
      (c.addRow (neighborsIn m m.vertices[k] directions)) (by omega) (by simp [Csr.addRow, hc])
    refine ⟨c', by rw [hdrop, List.map_cons, List.foldl_cons, hfold], hlen, ?_⟩
    have hplace : k < (c.offsets ++ List.replicate (j + 1 + 1) 0).length := by
      rw [List.length_append, List.length_replicate]
      omega
    have hset : (c.offsets ++ List.replicate (j + 1 + 1) 0).set k c.entries.length =
        c.offsets ++ [c.entries.length] ++ List.replicate (j + 1) 0 := by
      rw [List.set_append_right _ _ (by omega), hc, Nat.sub_self, List.replicate_succ,
        List.set_cons_zero, List.append_assoc, List.singleton_append]
    rw [List.range'_succ, populateFrom, store_eq hplace, Option.bind_eq_bind, Option.bind_some,
      pushNeighbors_eq h hget, hset, Option.bind_eq_bind, Option.bind_some]
    simpa only [Csr.addRow, List.length_append] using hrun

/-- **`populate_neighbors` packs the neighbors**, and all its accesses are in range. -/
theorem populateNeighbors_eq (h : g.Holds m) (hempty : g.neighbors = []) :
    g.populateNeighbors = some (ofMap m) := by
  obtain ⟨c, hfold, hlen, hrun⟩ := populateFrom_eq h m.vertices.length 0 ⟨[], []⟩ (by omega) rfl
  have hplace : m.vertices.length < (c.offsets ++ [0]).length := by
    rw [List.length_append, hlen]
    exact Nat.lt_succ_self _
  have hset : (c.offsets ++ [0]).set m.vertices.length c.entries.length =
      c.offsets ++ [c.entries.length] := by
    rw [List.set_append_right _ _ (by omega), hlen, Nat.sub_self, List.set_cons_zero]
  have hpacked : packed m = { c with offsets := c.offsets ++ [c.entries.length] } := by
    rw [packed, Csr.ofRows, ← hfold, List.drop_zero]
  simp only [populateNeighbors, h.vertices, hempty, List.range_eq_range']
  rw [List.length_nil, List.nil_append] at hrun
  rw [hrun, Option.bind_eq_bind, Option.bind_some]
  dsimp only
  rw [store_eq hplace, hset, Option.bind_eq_bind, Option.bind_some, ofMap, hpacked, h.grid, h.height, h.width]

/-- **The constructor in its arrays.**  It succeeds whenever there is enough text, and its arrays hold
what was read. -/
theorem construct_eq (height width : ℕ) (body : List Char) :
    construct height width body = (GridMap.load height width body).map ofMap := by
  obtain ⟨hread, hsame⟩ := Reader.readRows_eq height 0 (GridMap.skipSpace body) (blank height width)
    (by simp [blank]) (by simp [blank])
  have hload : GridMap.load height width body =
      GridMap.readRows height 0 (GridMap.skipSpace body) (blank height width) := rfl
  rw [construct, Reader.start_eq, hread, hload]
  cases hrun : GridMap.readRows height 0 (GridMap.skipSpace body) (blank height width) with
  | none => rfl
  | some m =>
    obtain ⟨hw, hh⟩ := hsame m hrun
    exact populateNeighbors_eq ⟨rfl, List.take_left .., hh.symm, hw.symm⟩ rfl

/-! ## Reading the arrays -/

theorem row_get (hv : v < m.vertices.length) :
    v < (m.vertices.map fun v => neighborsIn m v directions).length := by
  rwa [List.length_map]

theorem offset_get (hv : v ≤ m.vertices.length) :
    (ofMap m).neighborOffsets[v]? = some ((packed m).offsets.getD v 0) := by
  have hlen : v < (packed m).offsets.length := by
    rw [packed, Csr.length_offsets, List.length_map]
    omega
  show (packed m).offsets[v]? = _
  rw [List.getD_eq_getElem?_getD, List.getElem?_eq_getElem hlen]
  rfl

theorem neighbor_get (hv : m.vertices[v]? = some coords) {i : ℕ}
    (hi : i < (neighborsIn m coords directions).length) :
    (ofMap m).neighbors[(packed m).offsets.getD v 0 + i]? =
      (neighborsIn m coords directions)[i]? := by
  obtain ⟨hlt, rfl⟩ := List.getElem?_eq_some_iff.mp hv
  have hentry := Csr.entry_ofRows (m.vertices.map fun v => neighborsIn m v directions) (i := v) (k := i)
    (row_get hlt) (by rwa [List.getElem_map])
  rwa [List.getElem_map] at hentry

theorem degree_eq (hv : m.vertices[v]? = some coords) :
    (ofMap m).degree v = some ((neighborsIn m coords directions).length : ℤ) := by
  obtain ⟨hlt, rfl⟩ := List.getElem?_eq_some_iff.mp hv
  have hdeg := Csr.degree_ofRows (m.vertices.map fun v => neighborsIn m v directions) (row_get hlt)
  have hmono := Csr.offsets_mono (m.vertices.map fun v => neighborsIn m v directions)
    (Nat.le_add_right v 1) (row_get hlt)
  rw [List.getElem_map, Csr.degree] at hdeg
  rw [degree, offset_get (v := v + 1) hlt, offset_get hlt.le]
  simp only [Option.bind_eq_bind, Option.bind_some, Option.some.injEq, packed]
  omega

theorem mapM_eq_some {α β : Type*} {f : α → Option β} {h : α → β} :
    ∀ {l : List α}, (∀ a ∈ l, f a = some (h a)) → l.mapM f = some (l.map h) := by
  intro l
  induction l with
  | nil =>
    intro _
    rfl
  | cons a l ih =>
    intro hf
    have htail := ih fun b hb => hf b (List.mem_cons_of_mem a hb)
    rw [List.mapM_cons, hf a (List.mem_cons_self ..), htail]
    rfl

/-- **`for_each_neighbor_of` reads the neighbors of the cell back.** -/
theorem forEachNeighborOf_eq (hv : m.vertices[v]? = some coords) :
    (ofMap m).forEachNeighborOf v = some (neighborsIn m coords directions) := by
  have hlt := (List.getElem?_eq_some_iff.mp hv).1
  rw [forEachNeighborOf, degree_eq hv, Option.bind_eq_bind, Option.bind_some, Int.toNat_natCast]
  have hread : ∀ i ∈ List.range (neighborsIn m coords directions).length,
      (do
        let offset ← (ofMap m).neighborOffsets[v]?
        (ofMap m).neighbors[offset + i]?) =
      some ((neighborsIn m coords directions).getD i (0, 0)) := by
    intro i hi
    have hi := List.mem_range.mp hi
    rw [offset_get hlt.le, Option.bind_eq_bind, Option.bind_some, neighbor_get hv hi,
      List.getD_eq_getElem?_getD, List.getElem?_eq_getElem hi]
    rfl
  rw [mapM_eq_some hread]
  congr 1
  refine List.ext_getElem? fun i => ?_
  by_cases hi : i < (neighborsIn m coords directions).length
  · simp [hi]
  · simp [hi]

/-- `check_neighbors` finds the neighbor it expects in every direction. -/
theorem checkDirections_eq (hv : m.vertices[v]? = some coords) :
    ∀ (ds : List Direction) (deg : ℕ),
      (∀ i < (neighborsIn m coords ds).length,
        (neighborsIn m coords directions)[deg + i]? = (neighborsIn m coords ds)[i]?) →
      (ofMap m).checkDirections v ds deg = some (some (deg + (neighborsIn m coords ds).length)) := by
  intro ds
  induction ds with
  | nil =>
    intro deg _
    rfl
  | cons d ds ih =>
    intro deg hrest
    have hlt := (List.getElem?_eq_some_iff.mp hv).1
    rw [checkDirections, probe_eq (ofMap_holds m) hv, Option.bind_eq_bind, Option.bind_some]
    cases hnbr : (m.neighborAt unitCharge coords d).map asInt with
    | none =>
      have hcons : neighborsIn m coords (d :: ds) = neighborsIn m coords ds := by
        simp only [neighborsIn, List.filterMap_cons, hnbr]
      rw [hcons] at hrest ⊢
      exact ih deg hrest
    | some u =>
      have hcons : neighborsIn m coords (d :: ds) = u :: neighborsIn m coords ds := by
        simp only [neighborsIn, List.filterMap_cons, hnbr]
      rw [hcons] at hrest ⊢
      have hfirst : (neighborsIn m coords directions)[deg]? = some u := by
        simpa using hrest 0 (by simp)
      have hin := (List.getElem?_eq_some_iff.mp hfirst).1
      have hnext := ih (deg + 1) ?_
      · dsimp only
        rw [offset_get hlt.le, Option.bind_eq_bind, Option.bind_some, neighbor_get hv hin, hfirst,
          Option.bind_eq_bind, Option.bind_some, if_neg (by simp), if_neg (by simp), hnext,
          List.length_cons, Nat.add_right_comm, Nat.add_assoc]
      · intro i hi
        have h := hrest (i + 1) (by simpa using hi)
        rw [List.getElem?_cons_succ] at h
        rw [← h, Nat.add_right_comm, Nat.add_assoc]

theorem checkFrom_eq : ∀ (vs : List ℕ), (∀ v ∈ vs, v < m.vertices.length) →
    (ofMap m).checkFrom vs = some true := by
  intro vs
  induction vs with
  | nil =>
    intro _
    rfl
  | cons v vs ih =>
    intro hvs
    have hget : m.vertices[v]? = some _ := List.getElem?_eq_getElem (hvs v (List.mem_cons_self ..))
    have htail := ih fun u hu => hvs u (List.mem_cons_of_mem v hu)
    have hdirs := checkDirections_eq hget directions 0 (by simp)
    rw [Nat.zero_add] at hdirs
    rw [checkFrom, hdirs, Option.bind_eq_bind, Option.bind_some]
    dsimp only
    rw [degree_eq hget, Option.bind_eq_bind, Option.bind_some, if_neg (by simp), htail]

/-- **`check_neighbors` returns true.** -/
theorem checkNeighbors_eq (m : GridMap) : (ofMap m).checkNeighbors = some true :=
  checkFrom_eq _ fun _ hv => List.mem_range.mp hv

end Graph

end PwsaStar.Grid
