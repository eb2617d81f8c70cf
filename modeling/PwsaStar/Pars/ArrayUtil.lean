/-
# PwsaStar.Pars.ArrayUtil — `plus_scan`, `filter` and `append` of `array_util.hpp`.

The three functions work on arrays they allocate themselves, and are parallel inside: the sweeps of
`plus_scan` fork over the two halves of their range, `filter` and `append` end in a `parallel_for`.
Here every access is checked, an allocation has arbitrary contents, and the iterations of a
`parallel_for` run in an arbitrary order, which is an argument.  The sweeps run their two halves one
after the other; the halves use different parts of the tree (`plusUpSweep_spec`).

The results do not depend on what the allocations held nor on the order: `plusScan_eq`, `filter_eq`,
`append_eq`.
-/
import PwsaStar.Lib.CheckedArray
import Mathlib.Algebra.BigOperators.Group.List.Basic
import Mathlib.Algebra.GroupWithZero.Nat

namespace PwsaStar.ArrayUtil

open PwsaStar.Lib

variable {T M : Type}

/-! ## The program -/

/-- `my_malloc(n)`: `n` cells with whatever was in memory.  A negative `n` is a huge one for
`malloc`, which then returns a null pointer. -/
def myMalloc (memory : ℕ → T) (n : ℤ) : Option (List T) :=
  if 0 ≤ n then some ((List.range n.toNat).map memory) else none

section Scan

variable [Add M] [Zero M]

/-- `plus_up_sweep`: fill the part of `tree` that starts at `treeIdx` with the sums of the range. -/
def plusUpSweep (lift : ℕ → T → M) (xs : List T) (lo hi : ℕ) (tree : List M) (treeIdx : ℕ) :
    Option (List M) :=
  if hi - lo = 0 then some tree
  else if hi - lo = 1 then do
    let x ← xs[lo]?
    store tree treeIdx (lift lo x)
  else do
    let half := (hi - lo) / 2
    let leftIdx := treeIdx + 1
    let rightIdx := treeIdx + 2 * half
    let tree₁ ← plusUpSweep lift xs lo (lo + half) tree leftIdx
    let tree₂ ← plusUpSweep lift xs (lo + half) hi tree₁ rightIdx
    let left ← tree₂[leftIdx]?
    let right ← tree₂[rightIdx]?
    store tree₂ treeIdx (left + right)
termination_by hi - lo

/-- `plus_down_sweep`: write the running sums of the range, the one of cell `i` to `out[i + 1]`. -/
def plusDownSweep (leftVal : M) (tree : List M) (treeIdx : ℕ) (out : List M) (lo hi : ℕ) :
    Option (List M) :=
  if hi - lo = 0 then some out
  else if hi - lo = 1 then do
    let x ← tree[treeIdx]?
    store out (lo + 1) (leftVal + x)
  else do
    let half := (hi - lo) / 2
    let leftIdx := treeIdx + 1
    let rightIdx := treeIdx + 2 * half
    let left ← tree[leftIdx]?
    let out₁ ← plusDownSweep leftVal tree leftIdx out lo (lo + half)
    plusDownSweep (leftVal + left) tree rightIdx out₁ (lo + half) hi
termination_by hi - lo

/-- `plus_scan`. -/
def plusScan (treeMemory outMemory : ℕ → M) (lift : ℕ → T → M) (xs : List T) : Option (List M) := do
  let n := xs.length
  let tree ← myMalloc treeMemory (2 * n - 1)
  let tree ← plusUpSweep lift xs 0 n tree 0
  let out ← myMalloc outMemory (n + 1)
  let out ← plusDownSweep 0 tree 0 out 0 n
  store out 0 0

end Scan

/-- What the allocator and the scheduler decide in a call of `filter` or `append`: the contents of
the fresh arrays and the order of the iterations. -/
structure Choice (T : Type) where
  tree : ℕ → ℕ
  offsets : ℕ → ℕ
  cells : ℕ → T
  order : List ℕ

/-- The write of iteration `i` in the loop of `filter`. -/
def filterWrite (offsets : List ℕ) (xs : List T) (i : ℕ) : Option (Option (ℕ × T)) := do
  let here ← offsets[i]?
  let next ← offsets[i + 1]?
  if here + 1 = next then do
    let x ← xs[i]?
    some (some (here, x))
  else some none

/-- `filter` -/
def filter (choice : Choice T) (pred : ℕ → T → Bool) (xs : List T) : Option (List T) := do
  let offsets ← plusScan choice.tree choice.offsets (fun i x => (pred i x).toNat) xs
  let finalLen ← offsets[xs.length]?
  let out ← myMalloc choice.cells finalLen
  scatter (filterWrite offsets xs) choice.order out

/-- The write of iteration `i` in the loop of `append`. -/
def appendWrite (xs ys : List T) (i : ℕ) : Option (Option (ℕ × T)) :=
  if i < xs.length then xs[i]?.map fun x => some (i, x)
  else ys[i - xs.length]?.map fun y => some (i, y)

/-- `append` -/
def append (choice : Choice T) (xs ys : List T) : Option (List T) := do
  let out ← myMalloc choice.cells (xs.length + ys.length)
  scatter (appendWrite xs ys) choice.order out

/-! ## The sums -/

section Spec

variable [AddMonoid M] {lift : ℕ → T → M} {xs : List T}

/-- What cell `j` contributes. -/
def term (lift : ℕ → T → M) (xs : List T) (j : ℕ) : M := (xs[j]?).elim 0 (lift j)

/-- The sum over the cells from `lo` on and before `hi`. -/
def total (lift : ℕ → T → M) (xs : List T) (lo hi : ℕ) : M :=
  ((List.range' lo (hi - lo)).map (term lift xs)).sum

theorem total_one (lo : ℕ) : total lift xs lo (lo + 1) = term lift xs lo := by
  simp [total]

theorem total_add {lo mid hi : ℕ} (h₁ : lo ≤ mid) (h₂ : mid ≤ hi) :
    total lift xs lo mid + total lift xs mid hi = total lift xs lo hi := by
  have hsplit : List.range' lo (hi - lo) = List.range' lo (mid - lo) ++ List.range' mid (hi - mid) := by
    rw [show hi - lo = (mid - lo) + (hi - mid) by omega, ← List.range'_append_1,
      show lo + (mid - lo) = mid by omega]
  rw [total, total, total, hsplit, List.map_append, List.sum_append]

theorem total_succ {lo hi : ℕ} (h : lo ≤ hi) :
    total lift xs lo (hi + 1) = total lift xs lo hi + term lift xs hi := by
  rw [← total_add h (Nat.le_succ hi), total_one]

/-- `tree` holds at `treeIdx` the sum of the range, and below it the sums of its halves. -/
inductive Swept (lift : ℕ → T → M) (xs : List T) (tree : List M) : ℕ → ℕ → ℕ → Prop
  | empty (treeIdx lo hi : ℕ) : hi - lo = 0 → Swept lift xs tree treeIdx lo hi
  | leaf (treeIdx lo hi : ℕ) : hi - lo = 1 → tree[treeIdx]? = some (total lift xs lo hi) →
      Swept lift xs tree treeIdx lo hi
  | node (treeIdx lo hi : ℕ) : 2 ≤ hi - lo → tree[treeIdx]? = some (total lift xs lo hi) →
      Swept lift xs tree (treeIdx + 1) lo (lo + (hi - lo) / 2) →
      Swept lift xs tree (treeIdx + 2 * ((hi - lo) / 2)) (lo + (hi - lo) / 2) hi →
      Swept lift xs tree treeIdx lo hi

/-- The root of a swept part. -/
theorem Swept.root {tree : List M} {treeIdx lo hi : ℕ} (h : Swept lift xs tree treeIdx lo hi)
    (hne : lo < hi) : tree[treeIdx]? = some (total lift xs lo hi) := by
  cases h with
  | empty => omega
  | leaf _ _ _ _ hroot => exact hroot
  | node _ _ _ _ hroot => exact hroot

/-- A swept part only depends on its own cells. -/
theorem Swept.congr {tree tree' : List M} {treeIdx lo hi : ℕ} (h : Swept lift xs tree treeIdx lo hi)
    (hsame : ∀ k, treeIdx ≤ k → k + 1 < treeIdx + 2 * (hi - lo) → tree'[k]? = tree[k]?) :
    Swept lift xs tree' treeIdx lo hi := by
  induction h with
  | empty treeIdx lo hi hn => exact .empty _ _ _ hn
  | leaf treeIdx lo hi hn hroot =>
      exact .leaf _ _ _ hn (by rw [hsame treeIdx le_rfl (by omega)]; exact hroot)
  | node treeIdx lo hi hn hroot _ _ ihl ihr =>
      refine .node _ _ _ hn (by rw [hsame treeIdx le_rfl (by omega)]; exact hroot) ?_ ?_
      · exact ihl fun k h₁ h₂ => hsame k (by omega) (by omega)
      · exact ihr fun k h₁ h₂ => hsame k (by omega) (by omega)

/-- **The up sweep** fills the `2n - 1` cells from `treeIdx` on, and no other. -/
theorem plusUpSweep_spec (lift : ℕ → T → M) (xs : List T) (lo hi : ℕ) (tree : List M) (treeIdx : ℕ)
    (hle : lo ≤ hi) (hxs : hi ≤ xs.length) (htree : treeIdx + 2 * (hi - lo) ≤ tree.length + 1) :
    ∃ tree', plusUpSweep lift xs lo hi tree treeIdx = some tree' ∧ tree'.length = tree.length ∧
      (∀ k, k < treeIdx ∨ treeIdx + 2 * (hi - lo) ≤ k + 1 → tree'[k]? = tree[k]?) ∧
      Swept lift xs tree' treeIdx lo hi := by
  induction lo, hi, tree, treeIdx using plusUpSweep.induct with
  | case1 lo hi tree treeIdx h0 =>
    rw [plusUpSweep, if_pos h0]
    exact ⟨tree, rfl, rfl, fun _ _ => rfl, .empty _ _ _ h0⟩
  | case2 lo hi tree treeIdx h0 h1 =>
    rw [plusUpSweep, if_neg h0, if_pos h1]
    have hx : xs[lo]? = some xs[lo] := List.getElem?_eq_getElem (by omega)
    have hput : treeIdx < tree.length := by omega
    refine ⟨tree.set treeIdx (lift lo xs[lo]), ?_, List.length_set, ?_, ?_⟩
    · rw [hx, Option.bind_eq_bind, Option.bind_some, store_eq hput]
    · intro k hk
      exact List.getElem?_set_ne (by omega)
    · refine .leaf _ _ _ h1 ?_
      obtain rfl : hi = lo + 1 := by omega
      rw [List.getElem?_set_self hput, total_one, term, hx, Option.elim_some]
  | case3 lo hi tree treeIdx h0 h1 half leftIdx rightIdx ihl ihr =>
    obtain ⟨tree₁, hrun₁, hlen₁, hkeep₁, hswept₁⟩ := ihl (by omega) (by omega) (by omega)
    obtain ⟨tree₂, hrun₂, hlen₂, hkeep₂, hswept₂⟩ := ihr tree₁ (by omega) hxs (by omega)
    -- the second call leaves the part of the first one alone
    have hswept₁' : Swept lift xs tree₂ leftIdx lo (lo + half) :=
      hswept₁.congr fun k hk₁ hk₂ => hkeep₂ k (by omega)
    have hleft := hswept₁'.root (by omega)
    have hright := hswept₂.root (by omega)
    have hput : treeIdx < tree₂.length := by omega
    have hsum : total lift xs lo (lo + half) + total lift xs (lo + half) hi = total lift xs lo hi :=
      total_add (by omega) (by omega)
    rw [plusUpSweep, if_neg h0, if_neg h1]
    refine ⟨tree₂.set treeIdx (total lift xs lo hi), ?_, by rw [List.length_set]; omega, ?_, ?_⟩
    · show Option.bind (plusUpSweep lift xs lo (lo + half) tree leftIdx) _ = _
      rw [hrun₁, Option.bind_some]
      show Option.bind (plusUpSweep lift xs (lo + half) hi tree₁ rightIdx) _ = _
      rw [hrun₂, Option.bind_some]
      show Option.bind tree₂[leftIdx]? _ = _
      rw [hleft, Option.bind_some]
      show Option.bind tree₂[rightIdx]? _ = _
      rw [hright, Option.bind_some, hsum, store_eq hput]
    · intro k hk
      rw [List.getElem?_set_ne (by omega), hkeep₂ k (by omega), hkeep₁ k (by omega)]
    · refine .node _ _ _ (by omega) (List.getElem?_set_self hput) ?_ ?_
      · exact hswept₁'.congr fun k hk₁ _ => List.getElem?_set_ne (by omega)
      · exact hswept₂.congr fun k hk₁ _ => List.getElem?_set_ne (by omega)

/-- **The down sweep** writes the running sums of its range, and no other cell. -/
theorem plusDownSweep_spec {tree : List M} {treeIdx lo hi : ℕ}
    (hswept : Swept lift xs tree treeIdx lo hi) : ∀ (leftVal : M) (out : List M), hi < out.length →
    ∃ out', plusDownSweep leftVal tree treeIdx out lo hi = some out' ∧ out'.length = out.length ∧
      (∀ k, k ≤ lo ∨ hi < k → out'[k]? = out[k]?) ∧
      ∀ k, lo < k → k ≤ hi → out'[k]? = some (leftVal + total lift xs lo k) := by
  induction hswept with
  | empty treeIdx lo hi hn =>
      intro leftVal out _
      rw [plusDownSweep, if_pos hn]
      exact ⟨out, rfl, rfl, fun _ _ => rfl, fun k h₁ h₂ => absurd h₁ (by omega)⟩
  | leaf treeIdx lo hi hn hroot =>
      intro leftVal out hout
      rw [plusDownSweep, if_neg (by omega), if_pos hn, hroot, Option.bind_eq_bind, Option.bind_some,
        store_eq (by omega)]
      refine ⟨_, rfl, List.length_set, fun k hk => List.getElem?_set_ne (by omega), ?_⟩
      intro k h₁ h₂
      obtain rfl : k = lo + 1 := by omega
      obtain rfl : hi = lo + 1 := by omega
      exact List.getElem?_set_self (by omega)
  | node treeIdx lo hi hn _ hleft _ ihl ihr =>
      intro leftVal out hout
      have hl := hleft.root (by omega)
      obtain ⟨out₁, hrun₁, hlen₁, hkeep₁, hnew₁⟩ := ihl leftVal out (by omega)
      obtain ⟨out₂, hrun₂, hlen₂, hkeep₂, hnew₂⟩ := ihr
        (leftVal + total lift xs lo (lo + (hi - lo) / 2)) out₁ (by omega)
      refine ⟨out₂, ?_, hlen₂.trans hlen₁, ?_, ?_⟩
      · rw [plusDownSweep, if_neg (by omega), if_neg (by omega)]
        simp only [hl, hrun₁, hrun₂, Option.bind_eq_bind, Option.bind_some]
      · intro k hk
        rw [hkeep₂ k (by omega), hkeep₁ k (by omega)]
      · intro k h₁ h₂
        by_cases hk : k ≤ lo + (hi - lo) / 2
        · rw [hkeep₂ k (Or.inl hk)]
          exact hnew₁ k h₁ hk
        · rw [hnew₂ k (by omega) h₂, add_assoc, total_add (by omega) (by omega)]

/-- **`plus_scan` returns the running sums.** -/
theorem plusScan_eq (treeMemory outMemory : ℕ → M) (lift : ℕ → T → M) (hxs : xs ≠ []) :
    plusScan treeMemory outMemory lift xs
      = some ((List.range (xs.length + 1)).map fun i => total lift xs 0 i) := by
  have hpos : 0 < xs.length := List.length_pos_iff.mpr hxs
  have htree : myMalloc treeMemory (2 * (xs.length : ℤ) - 1)
      = some ((List.range (2 * xs.length - 1)).map treeMemory) := by
    rw [myMalloc, if_pos (by omega), show (2 * (xs.length : ℤ) - 1).toNat = 2 * xs.length - 1 by omega]
  have hout : myMalloc outMemory ((xs.length : ℤ) + 1)
      = some ((List.range (xs.length + 1)).map outMemory) := by
    rw [myMalloc, if_pos (by omega), show ((xs.length : ℤ) + 1).toNat = xs.length + 1 by omega]
  obtain ⟨tree, hup, -, -, hswept⟩ := plusUpSweep_spec lift xs 0 xs.length
    ((List.range (2 * xs.length - 1)).map treeMemory) 0 (by omega) le_rfl (by simp; omega)
  obtain ⟨out, hdown, hlen, -, hnew⟩ := plusDownSweep_spec hswept 0
    ((List.range (xs.length + 1)).map outMemory) (by simp)
  have hlen' : out.length = xs.length + 1 := by rw [hlen]; simp
  unfold plusScan
  simp only [htree, hup, hout, hdown, Option.bind_eq_bind, Option.bind_some]
  rw [store_eq (by omega)]
  congr 1
  refine List.ext_getElem? fun k => ?_
  rcases Nat.eq_zero_or_pos k with rfl | hk
  · rw [List.getElem?_set_self (by omega)]
    simp [total]
  · rw [List.getElem?_set_ne (by omega)]
    by_cases hk' : k ≤ xs.length
    · rw [hnew k hk hk', zero_add]
      simp [Nat.lt_succ_of_le hk']
    · rw [List.getElem?_eq_none (by omega), List.getElem?_eq_none (by simp; omega)]

end Spec

/-! ## Rows packed one behind the other -/

section Rows

variable {size : T → ℕ} {xs : List T}

/-- Where the row of cell `i` starts. -/
def offset (size : T → ℕ) (xs : List T) (i : ℕ) : ℕ := total (fun _ x => size x) xs 0 i

theorem offset_succ (size : T → ℕ) {i : ℕ} {x : T} (hx : xs[i]? = some x) :
    offset size xs (i + 1) = offset size xs i + size x := by
  rw [offset, total_succ (Nat.zero_le i), term, hx]
  rfl

theorem offset_mono (size : T → ℕ) (xs : List T) {i i' : ℕ} (h : i ≤ i') : offset size xs i ≤ offset size xs i' := by
  rw [offset, offset, ← total_add (Nat.zero_le i) h]
  exact Nat.le_add_right _ _

/-- The places of a row are in the array. -/
theorem offset_add_lt {i j : ℕ} {x : T} (hx : xs[i]? = some x) (hj : j < size x) :
    offset size xs i + j < offset size xs xs.length := by
  have hi : i < xs.length := (List.getElem?_eq_some_iff.mp hx).1
  have h₁ := offset_succ size hx
  have h₂ := offset_mono size xs (show i + 1 ≤ xs.length from hi)
  omega

/-- Different places of the rows are different places of the array. -/
theorem offset_add_inj {i i' j j' : ℕ} {x x' : T} (hx : xs[i]? = some x) (hj : j < size x)
    (hx' : xs[i']? = some x') (hj' : j' < size x')
    (h : offset size xs i + j = offset size xs i' + j') : i = i' ∧ j = j' := by
  have h₁ := offset_succ size hx
  have h₂ := offset_succ size hx'
  rcases Nat.lt_trichotomy i i' with hlt | rfl | hlt
  · have := offset_mono size xs (show i + 1 ≤ i' from hlt)
    omega
  · exact ⟨rfl, by omega⟩
  · have := offset_mono size xs (show i' + 1 ≤ i from hlt)
    omega

/-- Every place of the array is one of a row. -/
theorem exists_offset_add {k : ℕ} (hk : k < offset size xs xs.length) :
    ∃ i x j, xs[i]? = some x ∧ j < size x ∧ offset size xs i + j = k := by
  have key : ∀ n ≤ xs.length, k < offset size xs n →
      ∃ i x j, xs[i]? = some x ∧ j < size x ∧ offset size xs i + j = k := by
    intro n
    induction n with
    | zero =>
      intro _ h
      simp [offset, total] at h
    | succ n ih =>
      intro hn h
      by_cases hlt : k < offset size xs n
      · exact ih (by omega) hlt
      · have hx : xs[n]? = some xs[n] := List.getElem?_eq_getElem (by omega)
        rw [offset_succ size hx] at h
        exact ⟨n, xs[n], k - offset size xs n, hx, by omega, by omega⟩
  exact key xs.length le_rfl hk

end Rows

/-! ## Filtering and appending -/

/-- The cells of `xs` whose index and contents satisfy `pred`, in order. -/
def kept (pred : ℕ → T → Bool) (xs : List T) : List T :=
  (xs.zipIdx.filter fun p => pred p.2 p.1).map Prod.fst

theorem kept_sublist (pred : ℕ → T → Bool) (xs : List T) : (kept pred xs).Sublist xs := by
  have h : ((xs.zipIdx.filter fun p => pred p.2 p.1).map Prod.fst).Sublist
      (xs.zipIdx.map Prod.fst) := List.filter_sublist.map Prod.fst
  rwa [List.zipIdx_map_fst] at h

theorem mem_kept {pred : ℕ → T → Bool} {xs : List T} {x : T} :
    x ∈ kept pred xs ↔ ∃ i, xs[i]? = some x ∧ pred i x = true := by
  simp only [kept, List.mem_map, List.mem_filter, Prod.exists, exists_and_right, exists_eq_right]
  constructor
  · rintro ⟨i, hi, hp⟩
    exact ⟨i, List.mk_mem_zipIdx_iff_getElem?.mp hi, hp⟩
  · rintro ⟨i, hi, hp⟩
    exact ⟨i, List.mk_mem_zipIdx_iff_getElem?.mpr hi, hp⟩

/-- An element that passes the test comes behind the ones before it that pass. -/
theorem filter_getElem? {α : Type} {q : α → Bool} : ∀ (l : List α) {i : ℕ} {x : α},
    l[i]? = some x → q x = true → (l.filter q)[(l.take i).countP q]? = some x := by
  intro l
  induction l with
  | nil =>
    intro i x h _
    simp at h
  | cons a l ih =>
    intro i x h hq
    cases i with
    | zero =>
      obtain rfl : a = x := by simpa using h
      simp [hq]
    | succ i =>
      have htail := ih (i := i) (x := x) (by simpa using h) hq
      by_cases ha : q a = true
      · simpa [ha] using htail
      · simpa [ha] using htail

/-- Every place of the filtered list is filled that way. -/
theorem exists_of_lt_filter {α : Type} {q : α → Bool} : ∀ (l : List α) {k : ℕ},
    k < (l.filter q).length → ∃ i x, l[i]? = some x ∧ q x = true ∧ (l.take i).countP q = k := by
  intro l
  induction l with
  | nil =>
    intro k h
    simp at h
  | cons a l ih =>
    intro k h
    by_cases ha : q a = true
    · cases k with
      | zero => exact ⟨0, a, rfl, ha, by simp⟩
      | succ k =>
        obtain ⟨i, x, hx, hq, hk⟩ := ih (k := k) (by simpa [ha] using h)
        exact ⟨i + 1, x, by simpa using hx, hq, by simp [ha, hk]⟩
    · obtain ⟨i, x, hx, hq, hk⟩ := ih (k := k) (by simpa [ha] using h)
      exact ⟨i + 1, x, by simpa using hx, hq, by simp [ha, hk]⟩

theorem getElem?_zipIdx_iff {xs : List T} {i j : ℕ} {x : T} :
    xs.zipIdx[i]? = some (x, j) ↔ xs[i]? = some x ∧ j = i := by
  rw [List.getElem?_zipIdx]
  cases xs[i]? with
  | none => simp
  | some y =>
    simp only [Option.map_some, Nat.zero_add, Option.some.injEq, Prod.mk.injEq]
    exact and_congr_right fun _ => eq_comm

/-- How many of the first `i` cells pass. -/
def passed (pred : ℕ → T → Bool) (xs : List T) (i : ℕ) : ℕ :=
  total (fun i x => (pred i x).toNat) xs 0 i

theorem passed_eq_countP (pred : ℕ → T → Bool) (xs : List T) (i : ℕ) :
    passed pred xs i = (xs.zipIdx.take i).countP fun p => pred p.2 p.1 := by
  induction i with
  | zero => simp [passed, total]
  | succ i ih =>
    rw [passed, total_succ (Nat.zero_le i)]
    rw [passed] at ih
    rw [ih, List.take_add_one, List.countP_append]
    congr 1
    cases hx : xs[i]? with
    | none => simp [term, hx]
    | some x =>
      cases hp : pred i x with
      | false => simp [term, hx, hp]
      | true => simp [term, hx, hp]

theorem length_kept (pred : ℕ → T → Bool) (xs : List T) :
    (kept pred xs).length = passed pred xs xs.length := by
  rw [passed_eq_countP, kept, List.length_map, ← List.countP_eq_length_filter,
    List.take_of_length_le (by simp)]

/-- Where a cell that passes ends up. -/
theorem kept_getElem? {pred : ℕ → T → Bool} {xs : List T} {i : ℕ} {x : T} (hx : xs[i]? = some x)
    (hp : pred i x = true) : (kept pred xs)[passed pred xs i]? = some x := by
  have hz : xs.zipIdx[i]? = some (x, i) := getElem?_zipIdx_iff.mpr ⟨hx, rfl⟩
  have hfilter : (xs.zipIdx.filter fun p => pred p.2 p.1)[passed pred xs i]? = some (x, i) := by
    rw [passed_eq_countP]
    exact filter_getElem? xs.zipIdx hz hp
  rw [kept, List.getElem?_map, hfilter]
  rfl

/-- Every place of the result is one where a cell that passes ends up. -/
theorem exists_passed {pred : ℕ → T → Bool} {xs : List T} {k : ℕ} (hk : k < (kept pred xs).length) :
    ∃ i x, xs[i]? = some x ∧ pred i x = true ∧ passed pred xs i = k := by
  rw [kept, List.length_map] at hk
  obtain ⟨i, ⟨x, j⟩, hi, hp, hcount⟩ := exists_of_lt_filter xs.zipIdx hk
  obtain ⟨hx, rfl⟩ := getElem?_zipIdx_iff.mp hi
  exact ⟨j, x, hx, hp, by rw [passed_eq_countP, hcount]⟩

/-- What an iteration of `filter` writes. -/
theorem filterWrite_eq {pred : ℕ → T → Bool} {xs : List T} {i : ℕ} {x : T} (hx : xs[i]? = some x) :
    filterWrite ((List.range (xs.length + 1)).map (passed pred xs)) xs i
      = some (if pred i x then some (passed pred xs i, x) else none) := by
  have hi : i < xs.length := (List.getElem?_eq_some_iff.mp hx).1
  have hoffset : ∀ j ≤ xs.length,
      ((List.range (xs.length + 1)).map (passed pred xs))[j]? = some (passed pred xs j) := by
    intro j hj
    simp [Nat.lt_succ_of_le hj]
  have hsucc : passed pred xs (i + 1) = passed pred xs i + (pred i x).toNat := by
    rw [passed, total_succ (Nat.zero_le i), term, hx]
    rfl
  rw [filterWrite, hoffset i hi.le, hoffset (i + 1) hi]
  simp only [Option.bind_eq_bind, Option.bind_some, hsucc, hx]
  cases pred i x with
  | false => simp
  | true => simp

theorem range_map_getD (l : List T) (d : ℕ → T) :
    ((List.range l.length).map fun k => (l[k]?).getD (d k)) = l := by
  apply List.ext_getElem (by simp)
  intro k h₁ h₂
  simp [h₂]

/-- **`filter` returns the cells that pass**, for every allocation and every order of the
iterations of its loop. -/
theorem filter_eq (choice : Choice T) (pred : ℕ → T → Bool) {xs : List T} (hxs : xs ≠ [])
    (horder : choice.order.Perm (List.range xs.length)) :
    filter choice pred xs = some (kept pred xs) := by
  have hscan : plusScan choice.tree choice.offsets (fun i x => (pred i x).toNat) xs
      = some ((List.range (xs.length + 1)).map (passed pred xs)) := plusScan_eq _ _ _ hxs
  have hlast : ((List.range (xs.length + 1)).map (passed pred xs))[xs.length]?
      = some (kept pred xs).length := by
    rw [length_kept]
    simp
  have hmalloc : myMalloc choice.cells ((kept pred xs).length : ℤ)
      = some ((List.range (kept pred xs).length).map choice.cells) := by
    rw [myMalloc, if_pos (Int.natCast_nonneg _), Int.toNat_natCast]
  unfold filter
  simp only [hscan, hlast, hmalloc, Option.bind_eq_bind, Option.bind_some]
  rw [scatter_eq _ (fun k => ((kept pred xs)[k]?).getD (choice.cells k))]
  · rw [List.length_map, List.length_range, range_map_getD]
  · intro i hi
    have hlt : i < xs.length := List.mem_range.mp (horder.mem_iff.mp hi)
    have hx : xs[i]? = some xs[i] := List.getElem?_eq_getElem hlt
    refine ⟨_, filterWrite_eq hx, ?_⟩
    intro k y hky
    split_ifs at hky with hp
    obtain ⟨rfl, rfl⟩ := Prod.mk.inj (Option.some.inj hky)
    have hget := kept_getElem? hx hp
    have hin := (List.getElem?_eq_some_iff.mp hget).1
    exact ⟨by simpa using hin, by rw [hget]; rfl⟩
  · intro k hk
    obtain ⟨i, x, hx, hp, rfl⟩ := exists_passed (show k < (kept pred xs).length by simpa using hk)
    have hlt : i < xs.length := (List.getElem?_eq_some_iff.mp hx).1
    exact ⟨i, horder.mem_iff.mpr (List.mem_range.mpr hlt), x, by rw [filterWrite_eq hx, if_pos hp]⟩

/-- What an iteration of `append` writes. -/
theorem appendWrite_eq {xs ys : List T} {i : ℕ} {x : T} (hx : (xs ++ ys)[i]? = some x) :
    appendWrite xs ys i = some (some (i, x)) := by
  unfold appendWrite
  by_cases hlt : i < xs.length
  · rw [List.getElem?_append_left hlt] at hx
    rw [if_pos hlt, hx]
    rfl
  · rw [List.getElem?_append_right (by omega)] at hx
    rw [if_neg hlt, hx]
    rfl

/-- **`append` puts the two arrays one behind the other.** -/
theorem append_eq (choice : Choice T) (xs ys : List T)
    (horder : choice.order.Perm (List.range (xs.length + ys.length))) :
    append choice xs ys = some (xs ++ ys) := by
  have hmalloc : myMalloc choice.cells ((xs.length : ℤ) + ys.length)
      = some ((List.range (xs ++ ys).length).map choice.cells) := by
    rw [myMalloc, if_pos (by omega), List.length_append]
    rfl
  unfold append
  rw [hmalloc, Option.bind_eq_bind, Option.bind_some]
  rw [scatter_eq _ (fun k => ((xs ++ ys)[k]?).getD (choice.cells k))]
  · rw [List.length_map, List.length_range, range_map_getD]
  · intro i hi
    have hlt : i < (xs ++ ys).length := by
      rw [List.length_append]
      exact List.mem_range.mp (horder.mem_iff.mp hi)
    have hx := List.getElem?_eq_getElem hlt
    refine ⟨_, appendWrite_eq hx, ?_⟩
    intro k y hky
    obtain ⟨rfl, rfl⟩ := Prod.mk.inj (Option.some.inj hky)
    exact ⟨by simpa using hlt, by rw [hx]; rfl⟩
  · intro k hk
    have hlt : k < (xs ++ ys).length := by simpa using hk
    refine ⟨k, horder.mem_iff.mpr (List.mem_range.mpr ?_), _,
      appendWrite_eq (List.getElem?_eq_getElem hlt)⟩
    rwa [List.length_append] at hlt

end PwsaStar.ArrayUtil
