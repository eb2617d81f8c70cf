/-
# PwsaStar.Lib.Csr — rows packed into one array with offsets.

The rows of a table are stored one behind the other in `entries`; `offsets` has, for every row and
once more at the end, the number of entries before it.  Reading a row back goes through the offsets
only.  `Csr.row_ofRows` says that this returns the row that was packed, `Csr.row_of_le` that there is
nothing behind the last row.
-/
import Mathlib.Data.List.Basic
import Mathlib.Data.List.TakeDrop

namespace PwsaStar.Lib

universe u

/-- A packed table. -/
structure Csr (α : Type u) where
  offsets : List ℕ
  entries : List α

namespace Csr

variable {α : Type u}

/-- Note where the row starts, then push its entries. -/
def addRow (c : Csr α) (row : List α) : Csr α where
  offsets := c.offsets ++ [c.entries.length]
  entries := c.entries ++ row

/-- Pack rows, and note where the last one ends. -/
def ofRows (rows : List (List α)) : Csr α :=
  let c := rows.foldl addRow ⟨[], []⟩
  { c with offsets := c.offsets ++ [c.entries.length] }

/-- The number of entries of row `i`. -/
def degree (c : Csr α) (i : ℕ) : ℕ := c.offsets.getD (i + 1) 0 - c.offsets.getD i 0

/-- The entries of row `i`, read through the offsets. -/
def row (c : Csr α) (i : ℕ) : List α :=
  (List.range (c.degree i)).filterMap fun k => c.entries[c.offsets.getD i 0 + k]?

/-! ## What is packed can be read back -/

theorem foldl_addRow (rows : List (List α)) (c : Csr α) :
    rows.foldl addRow c =
      { offsets := c.offsets ++
          (List.range rows.length).map fun i => c.entries.length + (rows.take i).flatten.length
        entries := c.entries ++ rows.flatten } := by
  induction rows generalizing c with
  | nil => simp
  | cons r rows ih =>
      rw [List.foldl_cons, ih]
      simp only [addRow, List.length_append, List.append_assoc, List.flatten_cons, List.length_cons,
        List.range_succ_eq_map, List.map_cons, List.map_map, List.take_zero, List.flatten_nil,
        List.length_nil, Nat.add_zero, List.singleton_append]
      congr 3
      apply List.map_congr_left
      intro i _
      simp [Nat.add_assoc]

theorem entries_ofRows (rows : List (List α)) : (ofRows rows).entries = rows.flatten := by
  simp [ofRows, foldl_addRow]

/-- The offset of a row, and of the end, counts the entries before it. -/
theorem offset_ofRows (rows : List (List α)) {i : ℕ} (hi : i ≤ rows.length) :
    (ofRows rows).offsets.getD i 0 = (rows.take i).flatten.length := by
  rcases Nat.lt_or_eq_of_le hi with hlt | rfl
  · simp [ofRows, foldl_addRow, List.getD_eq_getElem?_getD, List.getElem?_append_left, hlt]
  · simp [ofRows, foldl_addRow, List.getD_eq_getElem?_getD]

theorem length_offsets (rows : List (List α)) : (ofRows rows).offsets.length = rows.length + 1 := by
  simp [ofRows, foldl_addRow]

theorem offset_of_lt (rows : List (List α)) {i : ℕ} (hi : rows.length < i) :
    (ofRows rows).offsets.getD i 0 = 0 := by
  have hlen : (ofRows rows).offsets.length ≤ i := by
    rw [length_offsets]
    omega
  simp [List.getD_eq_getElem?_getD, hlen]

/-- The offsets do not decrease. -/
theorem offsets_mono (rows : List (List α)) {i j : ℕ} (hij : i ≤ j) (hj : j ≤ rows.length) :
    (ofRows rows).offsets.getD i 0 ≤ (ofRows rows).offsets.getD j 0 := by
  rw [offset_ofRows rows (Nat.le_trans hij hj), offset_ofRows rows hj]
  have hprefix := congrArg (fun l => l.flatten.length) (List.take_append_drop i (rows.take j))
  simp only [List.take_take, Nat.min_eq_left hij, List.flatten_append, List.length_append] at hprefix
  omega

theorem degree_ofRows (rows : List (List α)) {i : ℕ} (hi : i < rows.length) :
    (ofRows rows).degree i = rows[i].length := by
  have hsucc : rows.take (i + 1) = rows.take i ++ [rows[i]] := by simp
  have hend := offset_ofRows rows (show i + 1 ≤ rows.length from hi)
  rw [degree, hend, offset_ofRows rows (Nat.le_of_lt hi), hsucc, List.flatten_append,
    List.length_append, List.flatten_singleton, Nat.add_sub_cancel_left]

theorem filterMap_getElem?_range (l : List α) :
    (List.range l.length).filterMap (fun k => l[k]?) = l := by
  induction l with
  | nil => rfl
  | cons a l ih =>
      rw [List.length_cons, List.range_succ_eq_map, List.filterMap_cons, List.filterMap_map]
      exact congrArg (a :: ·) ih

/-- Entry `k` of row `i` stands `k` places behind the offset of the row. -/
theorem entry_ofRows (rows : List (List α)) {i k : ℕ} (hi : i < rows.length)
    (hk : k < rows[i].length) :
    (ofRows rows).entries[(ofRows rows).offsets.getD i 0 + k]? = rows[i][k]? := by
  have hsplit : rows.flatten = (rows.take i).flatten ++ (rows[i] ++ (rows.drop (i + 1)).flatten) := by
    rw [← List.flatten_cons, ← List.drop_eq_getElem_cons hi, ← List.flatten_append,
      List.take_append_drop]
  rw [entries_ofRows, offset_ofRows rows (Nat.le_of_lt hi), hsplit,
    List.getElem?_append_right (Nat.le_add_right ..), Nat.add_sub_cancel_left,
    List.getElem?_append_left hk]

/-- **Reading a packed row returns it.** -/
theorem row_ofRows (rows : List (List α)) {i : ℕ} (hi : i < rows.length) :
    (ofRows rows).row i = rows[i] := by
  have hget : ∀ k ∈ List.range rows[i].length,
      (ofRows rows).entries[(ofRows rows).offsets.getD i 0 + k]? = rows[i][k]? :=
    fun k hk => entry_ofRows rows hi (List.mem_range.mp hk)
  rw [row, degree_ofRows rows hi, List.filterMap_congr hget, filterMap_getElem?_range]

/-- There is nothing behind the last row. -/
theorem row_of_le (rows : List (List α)) {i : ℕ} (hi : rows.length ≤ i) : (ofRows rows).row i = [] := by
  have hdeg : (ofRows rows).degree i = 0 := by
    rw [degree, offset_of_lt rows (Nat.lt_succ_of_le hi), Nat.zero_sub]
  simp [row, hdeg]

end Csr

end PwsaStar.Lib
