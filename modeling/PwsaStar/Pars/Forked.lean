/-
# PwsaStar.Pars.Forked — the sweeps of `plus_scan` and the loop of `filter`, in parallel.

`ArrayUtil` runs the two halves of a sweep one after the other.  Here they run at the same time, as
`fork2` has it, and so do the halves of a `parallel_for`: the three functions are fork-join programs over
the cells of the arrays they write.  The arrays that are only read are arguments.  Where granularity
control runs a part sequentially, that is one of the executions.

The right half of a sweep starts in the tree where the left half ends (`plusUpSweep_touches`), and the
running sums give every iteration of `filter` its own cell.  So the programs are separated, and every
execution ends as the sequential one does.
-/
import PwsaStar.Lib.ForkJoin
import PwsaStar.Pars.ArrayUtil

namespace PwsaStar.ArrayUtil.Forked

open PwsaStar.Lib

variable {T M : Type}

/-! ## The programs -/

/-- A cell of one of the two arrays of `plus_scan`. -/
inductive Slot
  | tree (i : ℕ)
  | out (i : ℕ)
  deriving DecidableEq

section Scan

variable [Add M]

/-- `plus_up_sweep` -/
def plusUpSweep (lift : ℕ → T → M) (xs : List T) (lo hi treeIdx : ℕ) : Prog Slot M :=
  if hi - lo = 0 then .done
  else if hi - lo = 1 then
    match xs[lo]? with
    | some x => .write (.tree treeIdx) (lift lo x) .done
    | none => .fault
  else
    let half := (hi - lo) / 2
    let leftIdx := treeIdx + 1
    let rightIdx := treeIdx + 2 * half
    .fork (plusUpSweep lift xs lo (lo + half) leftIdx) (plusUpSweep lift xs (lo + half) hi rightIdx)
      (.read (.tree leftIdx) fun left => .read (.tree rightIdx) fun right =>
        .write (.tree treeIdx) (left + right) .done)
termination_by hi - lo

/-- `plus_down_sweep` -/
def plusDownSweep (leftVal : M) (treeIdx lo hi : ℕ) : Prog Slot M :=
  if hi - lo = 0 then .done
  else if hi - lo = 1 then
    .read (.tree treeIdx) fun x => .write (.out (lo + 1)) (leftVal + x) .done
  else
    let half := (hi - lo) / 2
    let leftIdx := treeIdx + 1
    let rightIdx := treeIdx + 2 * half
    .read (.tree leftIdx) fun left =>
      .fork (plusDownSweep leftVal leftIdx lo (lo + half))
        (plusDownSweep (leftVal + left) rightIdx (lo + half) hi) .done
termination_by hi - lo

end Scan

/-- `plus_scan`, on the two arrays it has allocated. -/
def plusScan {M : Type} [Add M] [Zero M] (lift : ℕ → T → M) (xs : List T) : Prog Slot M :=
  (plusUpSweep lift xs 0 xs.length 0).seq
    ((plusDownSweep 0 0 0 xs.length).seq (.write (.out 0) 0 .done))

/-- `parallel_for`: the halves of the range at the same time. -/
def parallelFor {I : Type} (body : ℕ → Prog I T) (lo hi : ℕ) : Prog I T :=
  if hi - lo = 0 then .done
  else if hi - lo = 1 then body lo
  else
    let mid := (lo + hi) / 2
    .fork (parallelFor body lo mid) (parallelFor body mid hi) .done
termination_by hi - lo

/-- An iteration that writes at most one cell. -/
def writeBody (write : ℕ → Option (Option (ℕ × T))) (i : ℕ) : Prog ℕ T :=
  match write i with
  | none => .fault
  | some none => .done
  | some (some (k, x)) => .write k x .done

/-- An iteration of `filter`. -/
def filterBody (offsets : List ℕ) (xs : List T) : ℕ → Prog ℕ T := writeBody (filterWrite offsets xs)

/-! ## What they touch -/

/-- The part of `tree` for a range of `n` cells. -/
def treePart (treeIdx n : ℕ) : Set Slot := {c | ∃ k, c = .tree k ∧ treeIdx ≤ k ∧ k + 1 < treeIdx + 2 * n}

theorem treePart_mono {treeIdx treeIdx' n n' : ℕ} (h : treeIdx' ≤ treeIdx)
    (hn : treeIdx + 2 * n ≤ treeIdx' + 2 * n') : treePart treeIdx n ⊆ treePart treeIdx' n' := by
  rintro c ⟨k, rfl, hlow, hhigh⟩
  exact ⟨k, rfl, by omega, by omega⟩

theorem tree_mem_treePart {treeIdx n k : ℕ} (hlow : treeIdx ≤ k) (hhigh : k + 1 < treeIdx + 2 * n) :
    Slot.tree k ∈ treePart treeIdx n := ⟨k, rfl, hlow, hhigh⟩

/-- A part ends before one that starts where its cells end. -/
theorem treePart_disjoint {leftIdx rightIdx n m : ℕ} (h : leftIdx + 2 * n ≤ rightIdx + 1) :
    Disjoint (treePart leftIdx n) (treePart rightIdx m) := by
  apply Set.disjoint_left.mpr
  rintro c ⟨k, rfl, hlow, hhigh⟩ ⟨k', heq, hlow', -⟩
  obtain rfl := Slot.tree.inj heq
  omega

section Touches

variable [Add M]

theorem plusUpSweep_touches (lift : ℕ → T → M) (xs : List T) (lo hi treeIdx : ℕ) :
    (plusUpSweep lift xs lo hi treeIdx).touches ⊆ treePart treeIdx (hi - lo) ∧
      (plusUpSweep lift xs lo hi treeIdx).Separated := by
  induction lo, hi, treeIdx using plusUpSweep.induct xs with
  | case1 lo hi treeIdx h0 =>
    rw [plusUpSweep, if_pos h0]
    exact ⟨Prog.touches_done_subset, trivial⟩
  | case2 lo hi treeIdx h0 h1 x hx =>
    rw [plusUpSweep, if_neg h0, if_pos h1, hx]
    refine ⟨Prog.touches_write_subset.mpr ⟨?_, Prog.touches_done_subset⟩, trivial⟩
    exact tree_mem_treePart le_rfl (by omega)
  | case3 lo hi treeIdx h0 h1 hx =>
    rw [plusUpSweep, if_neg h0, if_pos h1, hx]
    exact ⟨Prog.touches_fault_subset, trivial⟩
  | case4 lo hi treeIdx h0 h1 half leftIdx rightIdx ihl ihr =>
    obtain ⟨htouchesL, hsepL⟩ := ihl
    obtain ⟨htouchesR, hsepR⟩ := ihr
    rw [plusUpSweep, if_neg h0, if_neg h1]
    constructor
    · simp only [Prog.touches_fork_subset, Prog.touches_read_subset, Prog.touches_write_subset]
      refine ⟨⟨?_, ?_⟩, ?_, fun _ => ⟨?_, fun _ => ⟨?_, Prog.touches_done_subset⟩⟩⟩
      · exact htouchesL.trans (treePart_mono (by omega) (by omega))
      · exact htouchesR.trans (treePart_mono (by omega) (by omega))
      · exact tree_mem_treePart (by omega) (by omega)
      · exact tree_mem_treePart (by omega) (by omega)
      · exact tree_mem_treePart le_rfl (by omega)
    · -- the left half uses `2 * half - 1` cells from `leftIdx` on
      refine ⟨?_, hsepL, hsepR, fun _ _ => trivial⟩
      exact (treePart_disjoint (by omega)).mono htouchesL htouchesR

/-- The part of `out` for a range. -/
def outPart (lo hi : ℕ) : Set Slot := {c | ∃ k, c = .out k ∧ lo < k ∧ k ≤ hi}

theorem outPart_mono {lo lo' hi hi' : ℕ} (hlo : lo' ≤ lo) (hhi : hi ≤ hi') :
    outPart lo hi ⊆ outPart lo' hi' := by
  rintro c ⟨k, rfl, hlow, hhigh⟩
  exact ⟨k, rfl, by omega, by omega⟩

/-- The two parts of a half have nothing to do with those of the other one. -/
theorem parts_disjoint {leftIdx rightIdx n m lo mid hi : ℕ} (h : leftIdx + 2 * n ≤ rightIdx + 1) :
    Disjoint (treePart leftIdx n ∪ outPart lo mid) (treePart rightIdx m ∪ outPart mid hi) := by
  apply Set.disjoint_left.mpr
  rintro c (hc | ⟨k, rfl, -, hhigh⟩) (hc' | ⟨k', heq, hlow, -⟩)
  · exact Set.disjoint_left.mp (treePart_disjoint h) hc hc'
  · obtain ⟨j, rfl, -, -⟩ := hc
    cases heq
  · obtain ⟨j, heq, -, -⟩ := hc'
    cases heq
  · obtain rfl := Slot.out.inj heq
    omega

theorem plusDownSweep_touches (leftVal : M) (treeIdx lo hi : ℕ) :
    (plusDownSweep leftVal treeIdx lo hi).touches ⊆ treePart treeIdx (hi - lo) ∪ outPart lo hi ∧
      (plusDownSweep leftVal treeIdx lo hi).Separated := by
  induction leftVal, treeIdx, lo, hi using plusDownSweep.induct with
  | case1 leftVal treeIdx lo hi h0 =>
    rw [plusDownSweep, if_pos h0]
    exact ⟨Prog.touches_done_subset, trivial⟩
  | case2 leftVal treeIdx lo hi h0 h1 =>
    rw [plusDownSweep, if_neg h0, if_pos h1]
    simp only [Prog.touches_read_subset, Prog.touches_write_subset]
    refine ⟨⟨Or.inl ?_, fun _ => ⟨Or.inr ?_, Prog.touches_done_subset⟩⟩, fun _ => trivial⟩
    · exact tree_mem_treePart le_rfl (by omega)
    · exact ⟨lo + 1, rfl, by omega, by omega⟩
  | case3 leftVal treeIdx lo hi h0 h1 half leftIdx rightIdx ihl ihr =>
    rw [plusDownSweep, if_neg h0, if_neg h1]
    constructor
    · simp only [Prog.touches_fork_subset, Prog.touches_read_subset]
      refine ⟨Or.inl ?_, fun left => ⟨⟨?_, ?_⟩, Prog.touches_done_subset⟩⟩
      · exact tree_mem_treePart (by omega) (by omega)
      · apply ihl.1.trans
        exact Set.union_subset_union (treePart_mono (by omega) (by omega))
          (outPart_mono le_rfl (by omega))
      · apply (ihr left).1.trans
        exact Set.union_subset_union (treePart_mono (by omega) (by omega))
          (outPart_mono (by omega) le_rfl)
    · intro left
      refine ⟨?_, ihl.2, (ihr left).2, trivial⟩
      exact Set.disjoint_of_subset ihl.1 (ihr left).1 (parts_disjoint (by omega))

end Touches

/-! ## What they compute -/

/-- The cells of the two arrays. -/
def arrays (tree out : List M) : Cells Slot M
  | .tree i => tree[i]?
  | .out i => out[i]?

/-- The cells of one array. -/
def cells (a : List T) : Cells ℕ T := fun i => a[i]?

theorem cells_set {a : List T} {i : ℕ} (hi : i < a.length) (x : T) :
    Function.update (cells a) i (some x) = cells (a.set i x) := by
  funext k
  by_cases hk : k = i
  · subst hk
    rw [Function.update_self]
    exact (List.getElem?_set_self hi).symm
  · rw [Function.update_of_ne hk]
    exact (List.getElem?_set_ne (Ne.symm hk)).symm

theorem arrays_setTree {tree : List M} (out : List M) {i : ℕ} (hi : i < tree.length) (x : M) :
    Function.update (arrays tree out) (.tree i) (some x) = arrays (tree.set i x) out := by
  funext c
  cases c with
  | tree k =>
    show _ = cells (tree.set i x) k
    rw [← cells_set hi x]
    simp only [Function.update_apply, Slot.tree.injEq]
    rfl
  | out k =>
    rw [Function.update_of_ne (show Slot.out k ≠ .tree i from nofun)]
    rfl

theorem arrays_setOut (tree : List M) {out : List M} {i : ℕ} (hi : i < out.length) (x : M) :
    Function.update (arrays tree out) (.out i) (some x) = arrays tree (out.set i x) := by
  funext c
  cases c with
  | tree k =>
    rw [Function.update_of_ne (show Slot.tree k ≠ .out i from nofun)]
    rfl
  | out k =>
    show _ = cells (out.set i x) k
    rw [← cells_set hi x]
    simp only [Function.update_apply, Slot.out.injEq]
    rfl

/-- One write into `tree`, and nothing else. -/
theorem run_writeTree (tree out : List M) (i : ℕ) (x : M) :
    (Prog.write (.tree i) x .done).run (arrays tree out) = (store tree i x).map (arrays · out) := by
  rw [Prog.run, show arrays tree out (.tree i) = tree[i]? from rfl, store]
  split_ifs with hi
  · rw [List.getElem?_eq_getElem hi, Option.bind_some, arrays_setTree out hi]
    rfl
  · rw [List.getElem?_eq_none (not_lt.mp hi)]
    rfl

theorem run_writeOut (tree out : List M) (i : ℕ) (x : M) :
    (Prog.write (.out i) x .done).run (arrays tree out) = (store out i x).map (arrays tree) := by
  rw [Prog.run, show arrays tree out (.out i) = out[i]? from rfl, store]
  split_ifs with hi
  · rw [List.getElem?_eq_getElem hi, Option.bind_some, arrays_setOut tree hi]
    rfl
  · rw [List.getElem?_eq_none (not_lt.mp hi)]
    rfl

section Run

variable [Add M]

/-- **Run sequentially, the forked up sweep is the sequential one.** -/
theorem run_plusUpSweep (lift : ℕ → T → M) (xs : List T) (out : List M) (lo hi : ℕ) (tree : List M)
    (treeIdx : ℕ) : (plusUpSweep lift xs lo hi treeIdx).run (arrays tree out) =
      (ArrayUtil.plusUpSweep lift xs lo hi tree treeIdx).map (arrays · out) := by
  induction lo, hi, tree, treeIdx using ArrayUtil.plusUpSweep.induct with
  | case1 lo hi tree treeIdx h0 =>
    rw [plusUpSweep, ArrayUtil.plusUpSweep, if_pos h0, if_pos h0]
    rfl
  | case2 lo hi tree treeIdx h0 h1 =>
    rw [plusUpSweep, ArrayUtil.plusUpSweep, if_neg h0, if_neg h0, if_pos h1, if_pos h1]
    cases xs[lo]? with
    | none => rfl
    | some x => exact run_writeTree tree out treeIdx (lift lo x)
  | case3 lo hi tree treeIdx h0 h1 half leftIdx rightIdx ihl ihr =>
    rw [plusUpSweep, ArrayUtil.plusUpSweep, if_neg h0, if_neg h0, if_neg h1, if_neg h1]
    show Option.bind ((plusUpSweep lift xs lo (lo + half) leftIdx).run _) _ = _
    rw [ihl]
    show _ = Option.map _ (Option.bind (ArrayUtil.plusUpSweep lift xs lo (lo + half) tree leftIdx) _)
    cases ArrayUtil.plusUpSweep lift xs lo (lo + half) tree leftIdx with
    | none => rfl
    | some tree₁ =>
      show Option.bind ((plusUpSweep lift xs (lo + half) hi rightIdx).run _) _ =
        Option.map _ (Option.bind (ArrayUtil.plusUpSweep lift xs (lo + half) hi tree₁ rightIdx) _)
      rw [ihr tree₁]
      cases ArrayUtil.plusUpSweep lift xs (lo + half) hi tree₁ rightIdx with
      | none => rfl
      | some tree₂ =>
        show Option.bind tree₂[leftIdx]? _ = Option.map _ (Option.bind tree₂[leftIdx]? _)
        cases tree₂[leftIdx]? with
        | none => rfl
        | some left =>
          show Option.bind tree₂[rightIdx]? _ = Option.map _ (Option.bind tree₂[rightIdx]? _)
          cases tree₂[rightIdx]? with
          | none => rfl
          | some right => exact run_writeTree tree₂ out treeIdx (left + right)

/-- **And so is the forked down sweep.** -/
theorem run_plusDownSweep (tree : List M) (leftVal : M) (treeIdx : ℕ) (out : List M) (lo hi : ℕ) :
    (plusDownSweep leftVal treeIdx lo hi).run (arrays tree out) =
      (ArrayUtil.plusDownSweep leftVal tree treeIdx out lo hi).map (arrays tree) := by
  induction leftVal, treeIdx, out, lo, hi using ArrayUtil.plusDownSweep.induct with
  | case1 leftVal treeIdx out lo hi h0 =>
    rw [plusDownSweep, ArrayUtil.plusDownSweep, if_pos h0, if_pos h0]
    rfl
  | case2 leftVal treeIdx out lo hi h0 h1 =>
    rw [plusDownSweep, ArrayUtil.plusDownSweep, if_neg h0, if_neg h0, if_pos h1, if_pos h1]
    show Option.bind tree[treeIdx]? _ = Option.map _ (Option.bind tree[treeIdx]? _)
    cases tree[treeIdx]? with
    | none => rfl
    | some x => exact run_writeOut tree out (lo + 1) (leftVal + x)
  | case3 leftVal treeIdx out lo hi h0 h1 half leftIdx rightIdx ihl ihr =>
    rw [plusDownSweep, ArrayUtil.plusDownSweep, if_neg h0, if_neg h0, if_neg h1, if_neg h1]
    show Option.bind tree[leftIdx]? _ = Option.map _ (Option.bind tree[leftIdx]? _)
    cases tree[leftIdx]? with
    | none => rfl
    | some left =>
      show Option.bind ((plusDownSweep leftVal leftIdx lo (lo + half)).run _) _ = Option.map _
        (Option.bind (ArrayUtil.plusDownSweep leftVal tree leftIdx out lo (lo + half)) _)
      rw [ihl]
      cases ArrayUtil.plusDownSweep leftVal tree leftIdx out lo (lo + half) with
      | none => rfl
      | some out₁ =>
        show Option.bind ((plusDownSweep (leftVal + left) rightIdx (lo + half) hi).run _) some = _
        rw [ihr left out₁]
        exact Option.bind_fun_some _

end Run

/-! ## The loop of `filter` -/

/-- The cells that the iterations of a range touch. -/
def loopPart {I : Type} (body : ℕ → Prog I T) (lo hi : ℕ) : Set I :=
  {c | ∃ i, c ∈ (body i).touches ∧ lo ≤ i ∧ i < hi}

theorem loopPart_mono {I : Type} {body : ℕ → Prog I T} {lo lo' hi hi' : ℕ} (hlo : lo' ≤ lo)
    (hhi : hi ≤ hi') : loopPart body lo hi ⊆ loopPart body lo' hi' := by
  rintro c ⟨i, hc, hlow, hhigh⟩
  exact ⟨i, hc, by omega, by omega⟩

/-- A loop is separated if its iterations are, and touch different cells. -/
theorem parallelFor_touches {I : Type} {body : ℕ → Prog I T} (lo hi : ℕ)
    (hsep : ∀ i, lo ≤ i → i < hi → (body i).Separated)
    (hdisjoint : ∀ i j, lo ≤ i → i < j → j < hi → Disjoint (body i).touches (body j).touches) :
    (parallelFor body lo hi).touches ⊆ loopPart body lo hi ∧ (parallelFor body lo hi).Separated := by
  induction lo, hi using parallelFor.induct with
  | case1 lo hi h0 =>
    rw [parallelFor, if_pos h0]
    exact ⟨Prog.touches_done_subset, trivial⟩
  | case2 lo hi h0 h1 =>
    rw [parallelFor, if_neg h0, if_pos h1]
    exact ⟨fun c hc => ⟨lo, hc, le_rfl, by omega⟩, hsep lo le_rfl (by omega)⟩
  | case3 lo hi h0 h1 mid ihl ihr =>
    obtain ⟨htouchesL, hsepL⟩ := ihl (fun i h₁ h₂ => hsep i h₁ (by omega))
      fun i j h₁ h₂ h₃ => hdisjoint i j h₁ h₂ (by omega)
    obtain ⟨htouchesR, hsepR⟩ := ihr (fun i h₁ h₂ => hsep i (by omega) h₂)
      fun i j h₁ h₂ h₃ => hdisjoint i j (by omega) h₂ h₃
    rw [parallelFor, if_neg h0, if_neg h1]
    constructor
    · apply Prog.touches_fork_subset.mpr
      refine ⟨⟨?_, ?_⟩, Prog.touches_done_subset⟩
      · exact htouchesL.trans (loopPart_mono le_rfl (by omega))
      · exact htouchesR.trans (loopPart_mono (by omega) le_rfl)
    · refine ⟨?_, hsepL, hsepR, trivial⟩
      apply Set.disjoint_of_subset htouchesL htouchesR
      apply Set.disjoint_left.mpr
      rintro c ⟨i, hi', h₁, h₂⟩ ⟨j, hj', h₃, h₄⟩
      exact Set.disjoint_left.mp (hdisjoint i j h₁ (by omega) h₄) hi' hj'

theorem run_writeBody (write : ℕ → Option (Option (ℕ × T))) (i : ℕ) (a : List T) :
    (writeBody write i).run (cells a) = (scatter write [i] a).map cells := by
  rw [writeBody, scatter]
  cases write i with
  | none => rfl
  | some w =>
    cases w with
    | none => rfl
    | some kx =>
      obtain ⟨k, x⟩ := kx
      show Option.bind a[k]? _ = Option.map cells (Option.bind (store a k x) _)
      rw [store]
      split_ifs with hk
      · rw [List.getElem?_eq_getElem hk, Option.bind_some, cells_set hk]
        rfl
      · rw [List.getElem?_eq_none (not_lt.mp hk)]
        rfl

/-- **Run sequentially, the loop makes its writes in order.** -/
theorem run_parallelFor (write : ℕ → Option (Option (ℕ × T))) (lo hi : ℕ) : ∀ a : List T,
    (parallelFor (writeBody write) lo hi).run (cells a) =
      (scatter write (List.range' lo (hi - lo)) a).map cells := by
  induction lo, hi using parallelFor.induct with
  | case1 lo hi h0 =>
    intro a
    rw [parallelFor, if_pos h0, h0]
    rfl
  | case2 lo hi h0 h1 =>
    intro a
    rw [parallelFor, if_neg h0, if_pos h1, h1]
    exact run_writeBody write lo a
  | case3 lo hi h0 h1 mid ihl ihr =>
    intro a
    have hsplit : List.range' lo (hi - lo) =
        List.range' lo (mid - lo) ++ List.range' mid (hi - mid) := by
      rw [show hi - lo = (mid - lo) + (hi - mid) by omega, ← List.range'_append_1,
        show lo + (mid - lo) = mid by omega]
    rw [parallelFor, if_neg h0, if_neg h1, hsplit, scatter_append]
    show Option.bind ((parallelFor (writeBody write) lo mid).run _) _ = _
    rw [ihl a]
    cases scatter write (List.range' lo (mid - lo)) a with
    | none => rfl
    | some a' =>
      show Option.bind ((parallelFor (writeBody write) mid hi).run _) some = _
      rw [ihr a']
      exact Option.bind_fun_some _

/-! ## What the functions return -/

/-- **`plus_scan` returns `result`**: whatever its two allocations held, every execution ends, and with
`result` in `out`. -/
def ScanReturns [Add M] [Zero M] (treeMemory outMemory : ℕ → M) (lift : ℕ → T → M) (xs : List T)
    (result : List M) : Prop :=
  ∃ tree out tree', myMalloc treeMemory (2 * xs.length - 1) = some tree ∧
    myMalloc outMemory (xs.length + 1) = some out ∧
    (plusScan lift xs).Computes (arrays tree out) (arrays tree' result)

/-- **`filter` returns `result`** and its length, with these `offsets`. -/
structure FilterReturns (treeMemory offsetsMemory : ℕ → ℕ) (outMemory : ℕ → T) (pred : ℕ → T → Bool)
    (xs : List T) (offsets : List ℕ) (result : List T) : Prop where
  scan : ScanReturns treeMemory offsetsMemory (fun i x => (pred i x).toNat) xs offsets
  finalLen : offsets[xs.length]? = some result.length
  loop : ∃ out, myMalloc outMemory result.length = some out ∧
    (parallelFor (filterBody offsets xs) 0 xs.length).Computes (cells out) (cells result)

theorem plusScan_separated [Add M] [Zero M] (lift : ℕ → T → M) (xs : List T) :
    (plusScan lift xs).Separated := by
  apply Prog.Separated.seq (plusUpSweep_touches lift xs 0 _ 0).2
  exact Prog.Separated.seq (plusDownSweep_touches _ 0 0 _).2 trivial

/-- What the sequential `plus_scan` returns, the forked one does. -/
theorem scanReturns_of_plusScan [Add M] [Zero M] {treeMemory outMemory : ℕ → M} {lift : ℕ → T → M}
    {xs : List T} {result : List M}
    (h : ArrayUtil.plusScan treeMemory outMemory lift xs = some result) :
    ScanReturns treeMemory outMemory lift xs result := by
  obtain ⟨tree, htree, h⟩ := Option.bind_eq_some_iff.mp h
  obtain ⟨tree', hup, h⟩ := Option.bind_eq_some_iff.mp h
  obtain ⟨out, hout, h⟩ := Option.bind_eq_some_iff.mp h
  obtain ⟨out', hdown, hstore⟩ := Option.bind_eq_some_iff.mp h
  refine ⟨tree, out, tree', htree, hout, (plusScan_separated lift xs).computes ?_⟩
  rw [plusScan, Prog.run_seq, run_plusUpSweep lift xs out 0 _ tree 0, hup, Option.map_some,
    Option.bind_some, Prog.run_seq, run_plusDownSweep tree' 0 0 out 0 _, hdown, Option.map_some,
    Option.bind_some, run_writeOut, hstore, Option.map_some]

section Filter

variable {pred : ℕ → T → Bool} {xs : List T}

/-- The running sums of `filter`. -/
def offsetsOf (pred : ℕ → T → Bool) (xs : List T) : List ℕ :=
  (List.range (xs.length + 1)).map (passed pred xs)

/-- An iteration writes the cell of its element if that passes, and nothing else. -/
theorem filterBody_eq {i : ℕ} {x : T} (hx : xs[i]? = some x) :
    filterBody (offsetsOf pred xs) xs i =
      if pred i x then .write (passed pred xs i) x .done else .done := by
  rw [filterBody, writeBody, show filterWrite (offsetsOf pred xs) xs i = _ from filterWrite_eq hx]
  cases pred i x with
  | false => rfl
  | true => rfl

theorem mem_filterBody {i k : ℕ} (hi : i < xs.length) :
    k ∈ (filterBody (offsetsOf pred xs) xs i).touches ↔
      pred i xs[i] = true ∧ k = passed pred xs i := by
  rw [filterBody_eq (List.getElem?_eq_getElem hi)]
  split_ifs with hp
  · show k ∈ insert _ ∅ ↔ _
    simp [hp]
  · show k ∈ (∅ : Set ℕ) ↔ _
    simp [hp]

/-- Each element that passes has a cell of its own. -/
theorem passed_lt {i j : ℕ} (hi : i < xs.length) (hij : i < j) (hp : pred i xs[i] = true) :
    passed pred xs i < passed pred xs j := by
  have hx : xs[i]? = some xs[i] := List.getElem?_eq_getElem hi
  have hsucc : passed pred xs (i + 1) = passed pred xs i + 1 := by
    rw [passed, total_succ (Nat.zero_le i), term, hx, Option.elim_some, hp]
    rfl
  have hadd : passed pred xs (i + 1) + total (fun i x => (pred i x).toNat) xs (i + 1) j =
      passed pred xs j := total_add (Nat.zero_le _) hij
  omega

theorem filterBody_disjoint {i j : ℕ} (hij : i < j) (hj : j < xs.length) :
    Disjoint (filterBody (offsetsOf pred xs) xs i).touches
      (filterBody (offsetsOf pred xs) xs j).touches := by
  apply Set.disjoint_left.mpr
  intro k hki hkj
  obtain ⟨hp, rfl⟩ := (mem_filterBody (hij.trans hj)).mp hki
  obtain ⟨-, heq⟩ := (mem_filterBody hj).mp hkj
  exact absurd heq (passed_lt _ hij hp).ne

/-- The iterations of `filter` write different cells, whatever runs at the same time. -/
theorem filterLoop_separated (pred : ℕ → T → Bool) (xs : List T) :
    (parallelFor (filterBody (offsetsOf pred xs) xs) 0 xs.length).Separated := by
  refine (parallelFor_touches 0 xs.length ?_ ?_).2
  · intro i _ hi
    rw [filterBody_eq (List.getElem?_eq_getElem hi)]
    split_ifs
    · trivial
    · trivial
  · intro i j _ hij hj
    exact filterBody_disjoint hij hj

/-- **Each cell of the result is written by one iteration.** -/
theorem filterBody_unique {k : ℕ} (hk : k < (kept pred xs).length) :
    ∃! i, i < xs.length ∧ k ∈ (filterBody (offsetsOf pred xs) xs i).touches := by
  obtain ⟨i, x, hx, hp, hpassed⟩ := exists_passed hk
  obtain ⟨hi, rfl⟩ := List.getElem?_eq_some_iff.mp hx
  have hki := (mem_filterBody hi).mpr ⟨hp, hpassed.symm⟩
  refine ⟨i, ⟨hi, hki⟩, ?_⟩
  rintro j ⟨hj, hkj⟩
  rcases Nat.lt_trichotomy i j with hlt | heq | hlt
  · exact absurd hkj (Set.disjoint_left.mp (filterBody_disjoint hlt hj) hki)
  · exact heq.symm
  · exact absurd hki (Set.disjoint_left.mp (filterBody_disjoint hlt hi) hkj)

/-- What the sequential `filter` returns, the forked one does. -/
theorem filterReturns_kept (treeMemory offsetsMemory : ℕ → ℕ) (outMemory : ℕ → T)
    (pred : ℕ → T → Bool) (hxs : xs ≠ []) :
    FilterReturns treeMemory offsetsMemory outMemory pred xs (offsetsOf pred xs) (kept pred xs) := by
  have hscan : ArrayUtil.plusScan treeMemory offsetsMemory (fun i x => (pred i x).toNat) xs =
      some (offsetsOf pred xs) := plusScan_eq _ _ _ hxs
  have hlast : (offsetsOf pred xs)[xs.length]? = some (kept pred xs).length := by
    rw [length_kept, offsetsOf]
    simp
  have hfilter : filter ⟨treeMemory, offsetsMemory, outMemory, List.range xs.length⟩ pred xs =
      some (kept pred xs) := filter_eq _ _ hxs (List.Perm.refl _)
  rw [filter, hscan, Option.bind_eq_bind, Option.bind_some, hlast, Option.bind_eq_bind,
    Option.bind_some] at hfilter
  obtain ⟨out, hout, hscatter⟩ := Option.bind_eq_some_iff.mp hfilter
  refine ⟨scanReturns_of_plusScan hscan, hlast, out, hout, ?_⟩
  apply (filterLoop_separated pred xs).computes
  rw [filterBody, run_parallelFor _ 0 xs.length out, Nat.sub_zero, ← List.range_eq_range', hscatter,
    Option.map_some]

end Filter

/-! ## The main result -/

/-- The first `n` cells of `tree`. -/
def treeCells (n : ℕ) : Set Slot := {c | ∃ k, c = .tree k ∧ k < n}

/-- The cells of `out` behind the first, up to `n`. -/
def outCells (n : ℕ) : Set Slot := {c | ∃ k, c = .out k ∧ 0 < k ∧ k ≤ n}

/-- **In parallel, `plus_scan` and `filter` do what they do sequentially.** The sweeps touch the `2n - 1`
cells of the tree, the down sweep the cells of `out` as well, and the two halves of a fork touch
different ones.  Whatever is allocated and however the accesses interleave, `plus_scan` returns the
running sums, and `filter` the cells that pass with each cell of its result written once. -/
theorem parallel_eq_sequential [AddMonoid M] {xs : List T} (hxs : xs ≠ []) :
    (∀ lift : ℕ → T → M,
      (plusUpSweep lift xs 0 xs.length 0).touches ⊆ treeCells (2 * xs.length - 1) ∧
      (plusUpSweep lift xs 0 xs.length 0).Separated ∧
      (plusDownSweep (0 : M) 0 0 xs.length).touches ⊆
        treeCells (2 * xs.length - 1) ∪ outCells xs.length ∧
      (plusDownSweep (0 : M) 0 0 xs.length).Separated ∧
      ∀ treeMemory outMemory, ScanReturns treeMemory outMemory lift xs
        ((List.range (xs.length + 1)).map fun i => total lift xs 0 i)) ∧
    ∀ pred : ℕ → T → Bool, ∀ treeMemory offsetsMemory outMemory, ∃ offsets,
      FilterReturns treeMemory offsetsMemory outMemory pred xs offsets (kept pred xs) ∧
      (parallelFor (filterBody offsets xs) 0 xs.length).Separated ∧
      ∀ k < (kept pred xs).length,
        ∃! i, i < xs.length ∧ k ∈ (filterBody offsets xs i).touches := by
  have htree : treePart 0 xs.length ⊆ treeCells (2 * xs.length - 1) := by
    rintro c ⟨k, rfl, -, hhigh⟩
    exact ⟨k, rfl, by omega⟩
  constructor
  · intro lift
    obtain ⟨hup, hupSep⟩ := plusUpSweep_touches lift xs 0 xs.length 0
    obtain ⟨hdown, hdownSep⟩ := plusDownSweep_touches (0 : M) 0 0 xs.length
    refine ⟨hup.trans htree, hupSep, hdown.trans (Set.union_subset_union_left _ htree), hdownSep, ?_⟩
    intro treeMemory outMemory
    exact scanReturns_of_plusScan (plusScan_eq treeMemory outMemory lift hxs)
  · intro pred treeMemory offsetsMemory outMemory
    refine ⟨offsetsOf pred xs, filterReturns_kept _ _ _ pred hxs, filterLoop_separated pred xs, ?_⟩
    exact fun k hk => filterBody_unique hk

theorem parallel_eq_sequential_three :
    ∃ offsets, FilterReturns (fun _ => 7) (fun _ => 7) (fun _ => 7) (fun _ x => 2 ≤ x) [3, 1, 2]
        offsets [3, 2] ∧
      ∀ k < 2, ∃! i, i < 3 ∧ k ∈ (filterBody offsets [3, 1, 2] i).touches := by
  obtain ⟨-, hfilter⟩ := parallel_eq_sequential (M := ℕ) (List.cons_ne_nil 3 [1, 2])
  obtain ⟨offsets, hreturns, -, honce⟩ := hfilter (fun _ x => 2 ≤ x) (fun _ => 7) (fun _ => 7) fun _ => 7
  exact ⟨offsets, hreturns, honce⟩

end PwsaStar.ArrayUtil.Forked
