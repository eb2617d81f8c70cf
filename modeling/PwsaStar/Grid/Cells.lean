/-
# PwsaStar.Grid.Cells — what the cell loop of the constructor leaves behind.

The loop of `GridMap.load` skips newlines and stops after `height · width` other characters, of those
that the header left.  So it is a walk over the cells of the map in row-major order (`placeCells`), and what it leaves in a cell
depends on the character of that cell and on the number of free cells before it:

* the vertices are the free cells in this order (`freeCells`);
* a free cell holds its own number, an obstacle holds none;
* a cell with an unknown character keeps what `resize` put there, which is the number 0.
-/
import PwsaStar.Grid.Basic

namespace PwsaStar.Grid

/-- The characters that fill cells: all but the newlines. -/
def cellsOf (body : List Char) : List Char := body.filter fun c => c ≠ '\n'

/-- In a text of known characters the header swallows newlines only. -/
theorem cellsOf_skipSpace : ∀ {body : List Char}, (∀ c ∈ body, GridMap.isRecognised c = true) →
    cellsOf (GridMap.skipSpace body) = cellsOf body := by
  intro body
  induction body with
  | nil =>
    intro _
    rfl
  | cons c cs ih =>
    intro hknown
    by_cases hc : c = '\n'
    · subst hc
      have hskip : GridMap.skipSpace ('\n' :: cs) = GridMap.skipSpace cs :=
        List.dropWhile_cons_of_pos GridMap.isSpace_newline
      have hcells : cellsOf ('\n' :: cs) = cellsOf cs := by simp [cellsOf]
      rw [hskip, hcells]
      exact ih fun c' hc' => hknown c' (List.mem_cons_of_mem _ hc')
    · have hspace := GridMap.not_isSpace (hknown c (List.mem_cons_self ..)) hc
      have hskip : GridMap.skipSpace (c :: cs) = c :: cs :=
        List.dropWhile_cons_of_neg (by simp [hspace])
      rw [hskip]

/-- Read the characters `cs` into the cells from number `k` on. -/
def placeCells (width : ℕ) : ℕ → List Char → GridMap → GridMap
  | _, [], m => m
  | k, c :: cs, m => placeCells width (k + 1) cs (m.readCell (k / width) (k % width) c)

/-- The free cells among those from number `k` on. -/
def freeCells (width : ℕ) : ℕ → List Char → List Coords
  | _, [] => []
  | k, c :: cs =>
    if GridMap.isFree c then ⟨k / width, k % width⟩ :: freeCells width (k + 1) cs
    else freeCells width (k + 1) cs

theorem placeCells_append (width : ℕ) : ∀ (cs cs' : List Char) (k : ℕ) (m : GridMap),
    placeCells width k (cs ++ cs') m =
      placeCells width (k + cs.length) cs' (placeCells width k cs m) := by
  intro cs
  induction cs with
  | nil =>
    intro cs' k m
    rfl
  | cons c cs ih =>
    intro cs' k m
    rw [List.cons_append, placeCells, ih cs', placeCells, List.length_cons, Nat.add_right_comm,
      Nat.add_assoc]

theorem freeCells_append (width : ℕ) : ∀ (cs cs' : List Char) (k : ℕ),
    freeCells width k (cs ++ cs') = freeCells width k cs ++ freeCells width (k + cs.length) cs' := by
  intro cs
  induction cs with
  | nil =>
    intro cs' k
    rfl
  | cons c cs ih =>
    intro cs' k
    have hrest := ih cs' (k + 1)
    rw [Nat.add_right_comm, Nat.add_assoc] at hrest
    rw [List.cons_append, freeCells, freeCells, hrest]
    split <;> rfl

/-! ## The loops -/

section Loops

theorem div_row {width i j : ℕ} (hj : j < width) : (i * width + j) / width = i := by
  rw [Nat.mul_comm, Nat.mul_add_div (by omega), Nat.div_eq_of_lt hj, Nat.add_zero]

theorem mod_row {width i j : ℕ} (hj : j < width) : (i * width + j) % width = j := by
  rw [Nat.mul_comm, Nat.mul_add_mod, Nat.mod_eq_of_lt hj]

theorem placeCells_width (width : ℕ) : ∀ (cs : List Char) (k : ℕ) (m : GridMap),
    (placeCells width k cs m).width = m.width ∧ (placeCells width k cs m).height = m.height := by
  intro cs
  induction cs with
  | nil =>
    intro k m
    exact ⟨rfl, rfl⟩
  | cons c cs ih =>
    intro k m
    obtain ⟨hw, hh⟩ := ih (k + 1) (m.readCell (k / width) (k % width) c)
    obtain ⟨hw', hh'⟩ := GridMap.readCell_width m (k / width) (k % width) c
    exact ⟨hw.trans hw', hh.trans hh'⟩

/-- The loop over the columns reads the rest of its row, when there is enough text. -/
theorem readRow_eq {i : ℕ} : ∀ (cs : List Char) (j : ℕ) (m : GridMap), j ≤ m.width →
    m.width - j ≤ (cellsOf cs).length →
    ∃ cs', GridMap.readRow i j cs m =
        some (cs', placeCells m.width (i * m.width + j) ((cellsOf cs).take (m.width - j)) m) ∧
      cellsOf cs' = (cellsOf cs).drop (m.width - j) := by
  intro cs
  induction cs with
  | nil =>
    intro j m hj hlen
    have hend : m.width = j := by simp [cellsOf] at hlen; omega
    refine ⟨[], ?_, by simp [cellsOf]⟩
    simp [GridMap.readRow, hend, cellsOf, placeCells]
  | cons c cs ih =>
    intro j m hj hlen
    rcases Nat.lt_or_eq_of_le hj with hlt | rfl
    · by_cases hc : c = '\n'
      · have hcells : cellsOf (c :: cs) = cellsOf cs := by simp [cellsOf, hc]
        rw [hcells] at hlen ⊢
        simpa only [GridMap.readRow, if_pos hlt, if_pos hc] using ih j m hj hlen
      · have hcells : cellsOf (c :: cs) = c :: cellsOf cs := by simp [cellsOf, hc]
        obtain ⟨hw, -⟩ := GridMap.readCell_width m i j c
        have hsucc : m.width - j = m.width - (j + 1) + 1 := by omega
        rw [hcells, List.length_cons] at hlen
        obtain ⟨cs', hrun, hrest⟩ := ih (j + 1) (m.readCell i j c) (by omega) (by omega)
        rw [hw] at hrun hrest
        refine ⟨cs', ?_, ?_⟩
        · rw [GridMap.readRow, if_pos hlt, if_neg hc, hrun, hcells, hsucc, List.take_succ_cons,
            placeCells, div_row hlt, mod_row hlt, Nat.add_assoc]
        · rw [hcells, hsucc, List.drop_succ_cons]
          exact hrest
    · refine ⟨c :: cs, ?_, by simp⟩
      simp [GridMap.readRow, placeCells]

/-- The loop over the rows reads the rest of the map, when there is enough text. -/
theorem readRows_eq : ∀ (n i : ℕ) (cs : List Char) (m : GridMap), n * m.width ≤ (cellsOf cs).length →
    GridMap.readRows n i cs m =
      some (placeCells m.width (i * m.width) ((cellsOf cs).take (n * m.width)) m)
  | 0, i, cs, m, _ => by simp [GridMap.readRows, placeCells]
  | n + 1, i, cs, m, hlen => by
    rw [Nat.add_mul, Nat.one_mul] at hlen
    obtain ⟨cs', hrow, hrest⟩ := readRow_eq (i := i) cs 0 m (Nat.zero_le _) (by omega)
    rw [Nat.sub_zero, Nat.add_zero] at hrow
    rw [Nat.sub_zero] at hrest
    have hw := (placeCells_width m.width ((cellsOf cs).take m.width) (i * m.width) m).1
    have hlen' : n * m.width ≤ (cellsOf cs').length := by
      rw [hrest, List.length_drop]
      omega
    have hrows := readRows_eq n (i + 1) cs' _ (by rw [hw]; exact hlen')
    have hsplit : (cellsOf cs).take ((n + 1) * m.width) =
        (cellsOf cs).take m.width ++ ((cellsOf cs).drop m.width).take (n * m.width) := by
      rw [Nat.add_mul, Nat.one_mul, Nat.add_comm, List.take_add]
    have htake : ((cellsOf cs).take m.width).length = m.width := by
      rw [List.length_take]
      omega
    rw [GridMap.readRows, hrow, Option.bind_some]
    dsimp only
    rw [hrows, hw, hrest, hsplit, placeCells_append, htake, Nat.add_mul, Nat.one_mul]

/-- When there is not enough text, the loop over the columns comes to its end. -/
theorem readRow_short {i : ℕ} : ∀ (cs : List Char) (j : ℕ) (m : GridMap),
    (cellsOf cs).length < m.width - j → GridMap.readRow i j cs m = none := by
  intro cs
  induction cs with
  | nil =>
    intro j m hlen
    rw [GridMap.readRow, if_pos (by omega)]
  | cons c cs ih =>
    intro j m hlen
    by_cases hc : c = '\n'
    · have hcells : cellsOf (c :: cs) = cellsOf cs := by simp [cellsOf, hc]
      rw [hcells] at hlen
      rw [GridMap.readRow, if_pos (by omega), if_pos hc]
      exact ih j m hlen
    · have hcells : cellsOf (c :: cs) = c :: cellsOf cs := by simp [cellsOf, hc]
      rw [hcells, List.length_cons] at hlen
      rw [GridMap.readRow, if_pos (by omega), if_neg hc]
      apply ih
      rw [(GridMap.readCell_width m i j c).1]
      omega

theorem readRows_short : ∀ (n i : ℕ) (cs : List Char) (m : GridMap),
    (cellsOf cs).length < n * m.width → GridMap.readRows n i cs m = none
  | 0, _, _, m, hlen => by
    rw [Nat.zero_mul] at hlen
    exact absurd hlen (Nat.not_lt_zero _)
  | n + 1, i, cs, m, hlen => by
    rw [Nat.add_mul, Nat.one_mul] at hlen
    rcases Nat.lt_or_ge (cellsOf cs).length m.width with hshort | hrow
    · rw [GridMap.readRows, readRow_short cs 0 m hshort]
      rfl
    · obtain ⟨cs', hread, hrest⟩ := readRow_eq (i := i) cs 0 m (Nat.zero_le _) hrow
      rw [GridMap.readRows, hread, Option.bind_some]
      dsimp only
      apply readRows_short n (i + 1) cs'
      rw [hrest, List.length_drop, (placeCells_width ..).1]
      omega

end Loops

/-- The map before the first character is read. -/
def blank (height width : ℕ) : GridMap where
  height := height
  width := width
  grid _ _ := some 0
  vertices := []

/-- The first `height · width` characters of the cells. -/
def mapCells (height width : ℕ) (body : List Char) : List Char :=
  (cellsOf (GridMap.skipSpace body)).take (height * width)

theorem length_mapCells {height width : ℕ} {body : List Char}
    (hlen : height * width ≤ (cellsOf (GridMap.skipSpace body)).length) :
    (mapCells height width body).length = height * width := by
  rw [mapCells, List.length_take]
  omega

/-- **The constructor walks over the cells of the map.** -/
theorem load_eq {height width : ℕ} {body : List Char}
    (hlen : height * width ≤ (cellsOf (GridMap.skipSpace body)).length) :
    GridMap.load height width body =
      some (placeCells width 0 (mapCells height width body) (blank height width)) := by
  have h := readRows_eq height 0 (GridMap.skipSpace body) (blank height width) hlen
  rwa [Nat.zero_mul] at h

/-- A text that ends too early: the last calls of `fscanf` fail, and `c` is not initialised. -/
theorem load_short {height width : ℕ} {body : List Char}
    (hlen : (cellsOf (GridMap.skipSpace body)).length < height * width) :
    GridMap.load height width body = none :=
  readRows_short height 0 (GridMap.skipSpace body) (blank height width) hlen

/-! ## What is left in the cells -/

theorem vertices_placeCells (width : ℕ) : ∀ (cs : List Char) (k : ℕ) (m : GridMap),
    (placeCells width k cs m).vertices = m.vertices ++ freeCells width k cs := by
  intro cs
  induction cs with
  | nil =>
    intro k m
    exact (List.append_nil _).symm
  | cons c cs ih =>
    intro k m
    rw [placeCells, ih, freeCells, GridMap.readCell]
    split
    · simp
    · split <;> rfl

/-- What a character leaves in its cell, when `n` free cells come before it and the cell held
`old`. -/
def cellValue (n : ℕ) (old : Option ℕ) (c : Char) : Option ℕ :=
  if GridMap.isFree c then some n else if GridMap.isObstacle c then none else old

theorem grid_readCell (m : GridMap) (i j r col : ℕ) (c : Char) :
    (m.readCell i j c).grid r col =
      if r = i ∧ col = j then cellValue m.vertices.length (m.grid r col) c else m.grid r col := by
  unfold GridMap.readCell cellValue
  by_cases hcell : r = i ∧ col = j
  · rw [if_pos hcell]
    split
    · simp [GridMap.setCell, hcell]
    · split
      · simp [GridMap.setCell, hcell]
      · rfl
  · rw [if_neg hcell]
    split
    · simp [GridMap.setCell, hcell]
    · split
      · simp [GridMap.setCell, hcell]
      · rfl

/-- A cell is where its number says. -/
theorem cell_iff {width k r col : ℕ} (hcol : col < width) :
    (r = k / width ∧ col = k % width) ↔ k = r * width + col := by
  constructor
  · rintro ⟨rfl, rfl⟩
    rw [Nat.mul_comm, Nat.div_add_mod]
  · rintro rfl
    exact ⟨(div_row hcol).symm, (mod_row hcol).symm⟩

/-- Cells outside the stretch that is read stay as they are. -/
theorem grid_placeCells_of_lt {width r col : ℕ} (hcol : col < width) :
    ∀ (cs : List Char) (k : ℕ) (m : GridMap), r * width + col < k →
      (placeCells width k cs m).grid r col = m.grid r col := by
  intro cs
  induction cs with
  | nil =>
    intro k m _
    rfl
  | cons c cs ih =>
    intro k m hlt
    rw [placeCells, ih (k + 1) _ (by omega), grid_readCell, if_neg]
    rw [cell_iff hcol]
    omega

/-- **What the constructor leaves in a cell**: the character decides, and a free cell gets the number
of free cells before it. -/
theorem grid_placeCells {width r col : ℕ} (hcol : col < width) :
    ∀ (cs : List Char) (k : ℕ) (m : GridMap) (i : ℕ) (c : Char), r * width + col = k + i →
      cs[i]? = some c → (placeCells width k cs m).grid r col =
        cellValue (m.vertices.length + (freeCells width k (cs.take i)).length) (m.grid r col) c := by
  intro cs
  induction cs with
  | nil =>
    intro k m i c _ hc
    cases hc
  | cons x cs ih =>
    intro k m i c hpos hc
    cases i with
    | zero =>
      obtain rfl : x = c := by simpa using hc
      rw [placeCells, grid_placeCells_of_lt hcol cs (k + 1) _ (by omega), grid_readCell, if_pos]
      · rfl
      · rw [cell_iff hcol]
        omega
    | succ i =>
      have hget : cs[i]? = some c := by simpa using hc
      have hother : ¬ (r = k / width ∧ col = k % width) := by
        rw [cell_iff hcol]
        omega
      rw [placeCells, ih (k + 1) _ i c (by omega) hget, grid_readCell, if_neg hother,
        List.take_succ_cons, freeCells]
      -- the number of free cells before it counts the cell just read
      congr 1
      unfold GridMap.readCell
      split
      · simp only [List.length_append, List.length_cons, List.length_nil]
        omega
      · split <;> rfl

/-! ## The free cells -/

/-- A free cell gets the number of free cells before it. -/
theorem freeCells_get (width : ℕ) {cs : List Char} {k p : ℕ} {c : Char} (hc : cs[p]? = some c)
    (hfree : GridMap.isFree c = true) :
    (freeCells width k cs)[(freeCells width k (cs.take p)).length]? =
      some ⟨(k + p) / width, (k + p) % width⟩ := by
  obtain ⟨hp, rfl⟩ := List.getElem?_eq_some_iff.mp hc
  have hsplit : cs = cs.take p ++ cs[p] :: cs.drop (p + 1) := by
    rw [← List.drop_eq_getElem_cons hp, List.take_append_drop]
  have hlen : (cs.take p).length = p := by
    rw [List.length_take]
    omega
  have hcells : freeCells width k cs = freeCells width k (cs.take p) ++
      ⟨(k + p) / width, (k + p) % width⟩ :: freeCells width (k + p + 1) (cs.drop (p + 1)) := by
    conv_lhs => rw [hsplit]
    rw [freeCells_append, hlen, freeCells, if_pos hfree]
  rw [hcells, List.getElem?_append_right le_rfl, Nat.sub_self]
  rfl

/-- And only free cells get numbers. -/
theorem exists_of_freeCells_get (width : ℕ) : ∀ (cs : List Char) (k i : ℕ) (q : Coords),
    (freeCells width k cs)[i]? = some q → ∃ p c, cs[p]? = some c ∧ GridMap.isFree c = true ∧
      q = ⟨(k + p) / width, (k + p) % width⟩ ∧ i = (freeCells width k (cs.take p)).length := by
  intro cs
  induction cs with
  | nil =>
    intro k i q h
    simp [freeCells] at h
  | cons c cs ih =>
    intro k i q h
    rw [freeCells] at h
    by_cases hfree : GridMap.isFree c = true
    · rw [if_pos hfree] at h
      cases i with
      | zero => exact ⟨0, c, rfl, hfree, by simpa using h.symm, rfl⟩
      | succ i =>
        obtain ⟨p, c', hc', hfree', hq, hi⟩ := ih (k + 1) i q (by simpa using h)
        refine ⟨p + 1, c', by simpa using hc', hfree', ?_, ?_⟩
        · rwa [Nat.add_right_comm, Nat.add_assoc] at hq
        · rw [List.take_succ_cons, freeCells, if_pos hfree, List.length_cons, hi]
    · rw [if_neg hfree] at h
      obtain ⟨p, c', hc', hfree', hq, hi⟩ := ih (k + 1) i q h
      refine ⟨p + 1, c', by simpa using hc', hfree', ?_, ?_⟩
      · rwa [Nat.add_right_comm, Nat.add_assoc] at hq
      · rw [List.take_succ_cons, freeCells, if_neg hfree, hi]

theorem freeCells_take_mono (width : ℕ) (cs : List Char) (k : ℕ) {p q : ℕ} (hpq : p ≤ q) :
    (freeCells width k (cs.take p)).length ≤ (freeCells width k (cs.take q)).length := by
  have hsplit : cs.take q = cs.take p ++ (cs.take q).drop p := by
    have h := List.take_append_drop p (cs.take q)
    rw [List.take_take, Nat.min_eq_left hpq] at h
    exact h.symm
  rw [hsplit, freeCells_append, List.length_append]
  exact Nat.le_add_right ..

end PwsaStar.Grid
