/-
# PwsaStar.Grid.Basic — from the text of a map to the arrays of a graph (`weighted_graph.hpp`).

`Graph` and `LifeGraph` read a map in the same way and enumerate the same neighbors; they differ in
what they charge for an arc.  A `Charge` is that difference.

* `GridMap.load` is the constructor: it numbers the free cells in reading order.  The format of the
  header ends in white space, so the white space that the body begins with never gets to the cells.  A
  character the loop does not know is reported and leaves its cell as `resize` made it, which is vertex 0.
* `GridMap.populateNeighbors` fills `neighbor_offsets` and `neighbors`, and `forEachNeighborOf` reads
  them back.
-/
import PwsaStar.Lib.Csr
import PwsaStar.Lib.WeightedGraph

namespace PwsaStar.Grid

open PwsaStar.Lib

/-! ## The program -/

structure Coords where
  row : ℕ
  col : ℕ
  deriving DecidableEq

/-- One column of the tables `drow`, `dcol` and `dist`. -/
structure Direction where
  drow : ℤ
  dcol : ℤ
  dist : ℤ
  deriving DecidableEq

def directions : List Direction :=
  [⟨-1, -1, 14142⟩, ⟨-1, 0, 10000⟩, ⟨-1, 1, 14142⟩, ⟨0, -1, 10000⟩, ⟨0, 1, 10000⟩, ⟨1, -1, 14142⟩,
    ⟨1, 0, 10000⟩, ⟨1, 1, 14142⟩]

/-- What an arc weighs, given the row it leads to and the length of the move. -/
structure Charge where
  weight : ℤ → ℤ → ℤ
  nonneg : ∀ nghrow dist, 0 ≤ nghrow → 0 ≤ dist → 0 ≤ weight nghrow dist

/-- `grid` holds a vertex, or `none` for `OBSTACLE`; only cells below `height` and `width` exist. -/
structure GridMap where
  height : ℕ
  width : ℕ
  grid : ℕ → ℕ → Option ℕ
  vertices : List Coords

namespace GridMap

def setCell (m : GridMap) (i j : ℕ) (x : Option ℕ) : GridMap :=
  { m with grid := fun r c => if r = i ∧ c = j then x else m.grid r c }

/-- `c == '.' || c == 'G'` -/
def isFree (c : Char) : Bool := c = '.' || c = 'G'

def isObstacle (c : Char) : Bool := c = '@' || c = 'O' || c = 'T' || c = 'S' || c = 'W'

/-- What the constructor does with a character at row `i`, column `j`. -/
def readCell (m : GridMap) (i j : ℕ) (c : Char) : GridMap :=
  if isFree c then
    { m.setCell i j (some m.vertices.length) with vertices := m.vertices ++ [⟨i, j⟩] }
  else if isObstacle c then m.setCell i j none
  -- "Bad map character": the cell stays what it is
  else m

/-- The loop over the columns of row `i`, from column `j` on.  Returns what is left of the text;
`none` when the text ends too early. -/
def readRow (i : ℕ) : ℕ → List Char → GridMap → Option (List Char × GridMap)
  | j, [], m => if j < m.width then none else some ([], m)
  | j, c :: cs, m =>
    if j < m.width then
      if c = '\n' then readRow i j cs m else readRow i (j + 1) cs (m.readCell i j c)
    else some (c :: cs, m)

/-- The loop over the rows: `n` more from row `i` on. -/
def readRows : ℕ → ℕ → List Char → GridMap → Option GridMap
  | 0, _, _, m => some m
  | n + 1, i, cs, m => (readRow i 0 cs m).bind fun (cs', m') => readRows n (i + 1) cs' m'

/-- White space, as `fscanf` has it. -/
def isSpace (c : Char) : Bool := c = ' ' || (9 ≤ c.toNat && c.toNat ≤ 13)

/-- What the last `\n` of `"width %d\n map\n"` leaves of the text. -/
def skipSpace (body : List Char) : List Char := body.dropWhile isSpace

/-- The constructor, after `height`, `width` and the word `map` are read. -/
def load (height width : ℕ) (body : List Char) : Option GridMap :=
  readRows height 0 (skipSpace body)
    { height := height, width := width, grid := fun _ _ => some 0, vertices := [] }

def numberVertices (m : GridMap) : ℕ := m.vertices.length

def coordsOf (m : GridMap) (v : ℕ) : Coords := m.vertices.getD v ⟨0, 0⟩

/-- The neighbor of the cell `v` in direction `d`, with the weight of the arc. -/
def neighborAt (charge : Charge) (m : GridMap) (v : Coords) (d : Direction) : Option (ℕ × ℤ) :=
  let nghrow := v.row + d.drow
  let nghcol := v.col + d.dcol
  if 0 ≤ nghrow ∧ nghrow < m.height ∧ 0 ≤ nghcol ∧ nghcol < m.width then
    (m.grid nghrow.toNat nghcol.toNat).map fun u => (u, charge.weight nghrow d.dist)
  else none

/-- `neighbor_offsets` and `neighbors`; `curr_offset` is the number of neighbors pushed so far. -/
def populateNeighbors (charge : Charge) (m : GridMap) : Csr (ℕ × ℤ) :=
  Csr.ofRows (m.vertices.map fun v => directions.filterMap (m.neighborAt charge v))

/-- The calls that `for_each_neighbor_of` makes. -/
def forEachNeighborOf (charge : Charge) (m : GridMap) (v : ℕ) : List (ℕ × ℤ) :=
  (m.populateNeighbors charge).row v

/-! ## The arrays hold the neighbors -/

theorem dist_nonneg {d : Direction} (hd : d ∈ directions) : 0 ≤ d.dist := by
  revert d
  decide

/-- A move stays in its row and is straight, or leads to the next row up or down. -/
theorem direction_cases {d : Direction} (hd : d ∈ directions) :
    (d.drow = 0 ∧ d.dcol.natAbs = 1 ∧ d.dist = 10000) ∨
      ((d.drow = 1 ∨ d.drow = -1) ∧ (d.dist = 10000 ∨ d.dist = 14142)) := by
  revert d
  decide

theorem coordsOf_eq {m : GridMap} {v : ℕ} (hv : v < m.numberVertices) :
    m.vertices[v]? = some (m.coordsOf v) := by
  have hget := List.getElem?_eq_getElem hv
  rw [coordsOf, List.getD_eq_getElem?_getD, hget]
  rfl

/-- **The two arrays enumerate the neighbors in all eight directions.** -/
theorem forEachNeighborOf_eq (charge : Charge) (m : GridMap) {v : ℕ} (hv : v < m.numberVertices) :
    m.forEachNeighborOf charge v = directions.filterMap (m.neighborAt charge (m.coordsOf v)) := by
  have hv' : v < m.vertices.length := hv
  have hlen : v < (m.vertices.map fun v => directions.filterMap (m.neighborAt charge v)).length := by
    rwa [List.length_map]
  have hcoords : m.vertices[v] = m.coordsOf v := by
    have h := coordsOf_eq hv
    rw [List.getElem?_eq_getElem hv'] at h
    exact Option.some.inj h
  rw [forEachNeighborOf, populateNeighbors, Csr.row_ofRows _ hlen, List.getElem_map, hcoords]

/-- There is an arc for every direction in which a neighbor stands, and for nothing else. -/
theorem mem_forEachNeighborOf {charge : Charge} {m : GridMap} {v : ℕ} {a : ℕ × ℤ} :
    a ∈ m.forEachNeighborOf charge v ↔
      v < m.numberVertices ∧ ∃ d ∈ directions, m.neighborAt charge (m.coordsOf v) d = some a := by
  by_cases hv : v < m.numberVertices
  · simp [forEachNeighborOf_eq charge m hv, hv, List.mem_filterMap]
  · have hnone : m.forEachNeighborOf charge v = [] := by
      apply Csr.row_of_le _
      simpa [numberVertices] using hv
    simp [hnone, hv]

/-- What a neighbor is. -/
theorem neighborAt_eq_some {charge : Charge} {m : GridMap} {v : Coords} {d : Direction} {a : ℕ × ℤ}
    (h : m.neighborAt charge v d = some a) :
    ∃ r c : ℕ, (r : ℤ) = v.row + d.drow ∧ (c : ℤ) = v.col + d.dcol ∧ r < m.height ∧ c < m.width ∧
      m.grid r c = some a.1 ∧ a.2 = charge.weight r d.dist := by
  unfold neighborAt at h
  dsimp only at h
  split at h
  · rename_i hin
    obtain ⟨hrow, hrow', hcol, hcol'⟩ := hin
    obtain ⟨u, hgrid, rfl⟩ := Option.map_eq_some_iff.mp h
    have hr := Int.toNat_of_nonneg hrow
    have hc := Int.toNat_of_nonneg hcol
    refine ⟨_, _, hr, hc, by omega, by omega, hgrid, ?_⟩
    rw [hr]
  · cases h

/-- The graph a search sees. -/
def graph (charge : Charge) (m : GridMap) : WGraph ℕ where
  nbrs := m.forEachNeighborOf charge
  nonneg v a ha := by
    obtain ⟨-, d, hd, hnbr⟩ := mem_forEachNeighborOf.mp ha
    obtain ⟨r, c, -, -, -, -, -, hw⟩ := neighborAt_eq_some hnbr
    rw [hw]
    exact charge.nonneg _ _ (Int.natCast_nonneg r) (dist_nonneg hd)

/-! ## Reading a map of known characters -/

/-- The characters the constructor knows. -/
def isRecognised (c : Char) : Bool := c = '\n' || isFree c || isObstacle c

theorem skipSpace_subset (body : List Char) : skipSpace body ⊆ body :=
  (List.dropWhile_suffix isSpace).subset

theorem isSpace_newline : isSpace '\n' = true := rfl

/-- The only white space among the known characters is the newline. -/
theorem not_isSpace {c : Char} (hknown : isRecognised c = true) (hne : c ≠ '\n') : isSpace c = false := by
  simp only [isRecognised, isFree, isObstacle, Bool.or_eq_true, decide_eq_true_eq] at hknown
  rcases hknown with (rfl | rfl | rfl) | (((rfl | rfl) | rfl) | rfl) | rfl
  · exact absurd rfl hne
  all_goals rfl

/-- In front of column `j` of row `i`, every free cell holds the vertex that stands there. -/
def PlacedUpTo (m : GridMap) (i j : ℕ) : Prop :=
  ∀ r c k, c < m.width → (r < i ∨ r = i ∧ c < j) → m.grid r c = some k →
    m.vertices[k]? = some ⟨r, c⟩

theorem PlacedUpTo.readCell {m : GridMap} {i j : ℕ} {c : Char} (h : m.PlacedUpTo i j)
    (hc : isRecognised c = true) (hne : c ≠ '\n') : (m.readCell i j c).PlacedUpTo i (j + 1) := by
  intro r col k hcol hbefore hgrid
  have hold : ¬ (r = i ∧ col = j) → r < i ∨ r = i ∧ col < j := by omega
  unfold GridMap.readCell at hcol hgrid ⊢
  split at hgrid
  · rename_i hfree
    rw [if_pos hfree] at hcol ⊢
    simp only [setCell] at hcol hgrid ⊢
    by_cases hcell : r = i ∧ col = j
    · rw [if_pos hcell] at hgrid
      obtain rfl := Option.some.inj hgrid
      simp [hcell]
    · rw [if_neg hcell] at hgrid
      have hget := h r col k hcol (hold hcell) hgrid
      rw [List.getElem?_append_left (List.getElem?_eq_some_iff.mp hget).1]
      exact hget
  · rename_i hfree
    have hobstacle : isObstacle c = true := by
      simpa [isRecognised, hne, hfree] using hc
    rw [if_neg hfree, if_pos hobstacle] at hcol ⊢
    rw [if_pos hobstacle] at hgrid
    simp only [setCell] at hcol hgrid ⊢
    by_cases hcell : r = i ∧ col = j
    · rw [if_pos hcell] at hgrid
      cases hgrid
    · rw [if_neg hcell] at hgrid
      exact h r col k hcol (hold hcell) hgrid

theorem readCell_width (m : GridMap) (i j : ℕ) (c : Char) :
    (m.readCell i j c).width = m.width ∧ (m.readCell i j c).height = m.height := by
  unfold readCell
  split
  · exact ⟨rfl, rfl⟩
  · split <;> exact ⟨rfl, rfl⟩

/-- One row. -/
theorem PlacedUpTo.readRow {i : ℕ} : ∀ {cs : List Char} {j : ℕ} {m m' : GridMap} {cs' : List Char},
    m.PlacedUpTo i j → (∀ c ∈ cs, isRecognised c = true) → readRow i j cs m = some (cs', m') →
    m'.PlacedUpTo (i + 1) 0 ∧ m'.width = m.width ∧ m'.height = m.height ∧ ∀ c ∈ cs', c ∈ cs := by
  intro cs
  induction cs with
  | nil =>
    intro j m m' cs' h _ hrun
    simp only [GridMap.readRow] at hrun
    split at hrun
    · cases hrun
    · rename_i hj
      cases hrun
      refine ⟨?_, rfl, rfl, fun _ hc => hc⟩
      intro r col k hcol hbefore hgrid
      exact h r col k hcol (by omega) hgrid
  | cons c cs ih =>
    intro j m m' cs' h hknown hrun
    have htail : ∀ c' ∈ cs, isRecognised c' = true :=
      fun c' hc' => hknown c' (List.mem_cons_of_mem c hc')
    simp only [GridMap.readRow] at hrun
    split at hrun
    · split at hrun
      · obtain ⟨hplaced, hw, hh, hsub⟩ := ih h htail hrun
        exact ⟨hplaced, hw, hh, fun c' hc' => List.mem_cons_of_mem c (hsub c' hc')⟩
      · rename_i hne
        have hcell := h.readCell (hknown c (List.mem_cons_self ..)) hne
        obtain ⟨hplaced, hw, hh, hsub⟩ := ih hcell htail hrun
        obtain ⟨hw', hh'⟩ := readCell_width m i j c
        exact ⟨hplaced, hw.trans hw', hh.trans hh', fun c' hc' => List.mem_cons_of_mem c (hsub c' hc')⟩
    · cases hrun
      refine ⟨?_, rfl, rfl, fun _ hc => hc⟩
      intro r col k hcol hbefore hgrid
      exact h r col k hcol (by omega) hgrid

/-- All rows. -/
theorem PlacedUpTo.readRows : ∀ {n i : ℕ} {cs : List Char} {m m' : GridMap},
    m.PlacedUpTo i 0 → (∀ c ∈ cs, isRecognised c = true) → readRows n i cs m = some m' →
    m'.PlacedUpTo (i + n) 0 ∧ m'.height = m.height := by
  intro n
  induction n with
  | zero =>
    intro i cs m m' h _ hrun
    cases hrun
    exact ⟨h, rfl⟩
  | succ n ih =>
    intro i cs m m' h hknown hrun
    obtain ⟨⟨cs₁, m₁⟩, hrow, hrest⟩ := Option.bind_eq_some_iff.mp hrun
    obtain ⟨h₁, -, hh, hsub⟩ := h.readRow hknown hrow
    obtain ⟨h₂, hh₂⟩ := ih h₁ (fun c hc => hknown c (hsub c hc)) hrest
    refine ⟨?_, hh₂.trans hh⟩
    rwa [Nat.add_right_comm, Nat.add_assoc] at h₂

/-- **A map of known characters is read right**: a cell that holds a vertex is the cell of that
vertex. -/
theorem load_placed {height width : ℕ} {body : List Char} {m : GridMap}
    (hload : load height width body = some m) (hknown : ∀ c ∈ body, isRecognised c = true)
    {r c k : ℕ} (hr : r < m.height) (hc : c < m.width) (hgrid : m.grid r c = some k) :
    m.vertices[k]? = some ⟨r, c⟩ := by
  have hstart : PlacedUpTo { height := height, width := width, grid := fun _ _ => some 0, vertices := [] }
      0 0 := by
    intro r c k _ hbefore _
    omega
  obtain ⟨hplaced, hheight⟩ := hstart.readRows (fun c hc => hknown c (skipSpace_subset body hc)) hload
  have hh : m.height = height := hheight
  exact hplaced r c k hc (Or.inl (by omega)) hgrid

end GridMap

end PwsaStar.Grid
