/-
# PwsaStar.Pbnf.PriorityQueue — `util/priority_queue.h`.

A binary heap in an array, whose elements carry their own position.  An element's key may change while
it is in the queue; `see_update` then moves it.  What the rest of the development uses is `Holds`: which
elements the queue has, that each knows its position, and that no child comes before its parent.
-/
import PwsaStar.Lib.Transition
import Mathlib.Logic.Function.Basic
import Mathlib.Data.Set.Insert
import Mathlib.Tactic.Push

namespace PwsaStar.Pbnf

/-- `index` is the field that `PQOps` sets in the elements; it is `-1` outside the queue.  What the
cells from `fill` on have is never read. -/
structure PriorityQueue (E : Type) where
  heap : ℕ → E
  fill : ℕ
  size : ℕ
  index : E → ℤ

namespace PriorityQueue

open PwsaStar.Lib

variable {E : Type}

/-! ## The program -/

def left_of (i : ℕ) : ℕ := 2 * i + 1

def right_of (i : ℕ) : ℕ := 2 * i + 2

def parent_of (i : ℕ) : ℕ := (i - 1) / 2

/-- The constructor: no memory yet, so `reset` sets no index. -/
def new [Inhabited E] : PriorityQueue E :=
  { heap := fun _ => default, fill := 0, size := 100, index := fun _ => -1 }

def empty (q : PriorityQueue E) : Bool := q.fill = 0

/-- `none` is the null pointer. -/
def front (q : PriorityQueue E) : Option E := if q.fill = 0 then none else some (q.heap 0)

/-- The check `heap_holds(0, fill - 1)` of `PQ_DEBUG`. -/
def heap_holds (pred : E → E → Bool) (q : PriorityQueue E) : Bool :=
  (List.range q.fill).all fun i =>
    !(decide (right_of i < q.fill) && pred (q.heap (right_of i)) (q.heap i))
      && !(decide (left_of i < q.fill) && pred (q.heap (left_of i)) (q.heap i))

/-- The other check of `PQ_DEBUG`. -/
def indexes_match (q : PriorityQueue E) : Bool :=
  (List.range q.fill).all fun i => q.index (q.heap i) = i

section Program

variable [DecidableEq E]

def set_index (q : PriorityQueue E) (e : E) (i : ℤ) : PriorityQueue E :=
  { q with index := Function.update q.index e i }

/-- `heap[i] = e`. -/
def write (q : PriorityQueue E) (i : ℕ) (e : E) : PriorityQueue E :=
  { q with heap := Function.update q.heap i e }

/-- The loop of `sift_up`, for the element `e` that was at the first `i`. -/
def sift_up_loop (pred : E → E → Bool) (e : E) (q : PriorityQueue E) (i : ℕ) : PriorityQueue E × ℕ :=
  if _h : 0 < i ∧ pred e (q.heap (parent_of i)) then
    let parent := q.heap (parent_of i)
    sift_up_loop pred e ((q.write i parent).set_index parent i) (parent_of i)
  else (q, i)
termination_by i
decreasing_by
  show (i - 1) / 2 < i
  omega

/-- The index of the element itself is left to the caller. -/
def sift_up (pred : E → E → Bool) (q : PriorityQueue E) (i : ℕ) : PriorityQueue E × ℕ :=
  let e := q.heap i
  let r := sift_up_loop pred e q i
  (r.1.write r.2 e, r.2)

/-- The child that `try_push` looks at: the right one if there is one and it comes first. -/
def first_child (pred : E → E → Bool) (q : PriorityQueue E) (i : ℕ) : ℕ :=
  if right_of i < q.fill ∧ pred (q.heap (right_of i)) (q.heap (left_of i)) then right_of i
  else left_of i

def try_push (pred : E → E → Bool) (e : E) (q : PriorityQueue E) (i : ℕ) : PriorityQueue E × ℕ :=
  if _h : left_of i < q.fill then
    let child_i := first_child pred q i
    let child := q.heap child_i
    if pred e child then (q, i)
    else try_push pred e ((q.write i child).set_index child i) child_i
  else (q, i)
termination_by q.fill - i
decreasing_by
  have : i < first_child pred q i := by
    rw [first_child, right_of, left_of]
    split <;> omega
  show q.fill - first_child pred q i < q.fill - i
  rw [left_of] at _h
  omega

def sift_down (pred : E → E → Bool) (e : E) (q : PriorityQueue E) (i : ℕ) : PriorityQueue E :=
  let r := try_push pred e q i
  (r.1.write r.2 e).set_index e r.2

/-- The copy into a larger array keeps the cells. -/
def add (pred : E → E → Bool) (q : PriorityQueue E) (e : E) : PriorityQueue E :=
  let q : PriorityQueue E := if q.size ≤ q.fill then { q with size := q.size * 2 } else q
  let q : PriorityQueue E := { q.write q.fill e with fill := q.fill + 1 }
  let r := sift_up pred q (q.fill - 1)
  r.1.set_index e r.2

/-- `none` is the null pointer. -/
def take (pred : E → E → Bool) (q : PriorityQueue E) : Option (E × PriorityQueue E) :=
  if q.fill = 0 then none
  else
    let e := q.heap 0
    let q := q.set_index e (-1)
    let q : PriorityQueue E := { q.write 0 (q.heap (q.fill - 1)) with fill := q.fill - 1 }
    some (e, if 0 < q.fill then sift_down pred (q.heap 0) q 0 else q)

/-- `none` is a failed assertion, or a read in front of the array. -/
def remove (pred : E → E → Bool) (q : PriorityQueue E) (i : ℤ) : Option (PriorityQueue E) :=
  if ¬ (0 ≤ i ∧ i < q.fill) then none
  else
    let i := i.toNat
    let q := q.set_index (q.heap i) (-1)
    let q : PriorityQueue E := { q.write i (q.heap (q.fill - 1)) with fill := q.fill - 1 }
    if i < q.fill then
      let e := q.heap i
      let r := sift_up pred (q.set_index e i) i
      some (sift_down pred e r.1 r.2)
    else some q

/-- `none` is a failed assertion. -/
def see_update (pred : E → E → Bool) (q : PriorityQueue E) (i : ℤ) : Option (PriorityQueue E) :=
  if ¬ (0 ≤ i ∧ i < q.fill) then none
  else
    let i := i.toNat
    let r := sift_up pred q i
    some (sift_down pred (q.heap i) r.1 r.2)

/-- The loop over the elements, and the new array. -/
def reset [Inhabited E] (q : PriorityQueue E) : PriorityQueue E :=
  { heap := fun _ => default, fill := 0, size := 100,
    index := (List.range q.fill).foldl (fun index i => Function.update index (q.heap i) (-1)) q.index }

/-! ### The number of elements -/

variable {pred : E → E → Bool} {q q' : PriorityQueue E} {e : E}

theorem sift_up_loop_fill (q : PriorityQueue E) (i : ℕ) : (sift_up_loop pred e q i).1.fill = q.fill := by
  fun_induction sift_up_loop pred e q i with
  | case1 q i h parent ih => exact ih
  | case2 q i h => rfl

theorem try_push_fill (q : PriorityQueue E) (i : ℕ) : (try_push pred e q i).1.fill = q.fill := by
  fun_induction try_push pred e q i with
  | case1 q i h child_i child hfirst => rfl
  | case2 q i h child_i child hfirst ih => exact ih
  | case3 q i h => rfl

theorem sift_up_fill (q : PriorityQueue E) (i : ℕ) : (sift_up pred q i).1.fill = q.fill :=
  sift_up_loop_fill q i

theorem sift_down_fill (q : PriorityQueue E) (i : ℕ) : (sift_down pred e q i).fill = q.fill :=
  try_push_fill q i

theorem add_fill (q : PriorityQueue E) : (q.add pred e).fill = q.fill + 1 := by
  refine (sift_up_fill _ _).trans (congrArg (· + 1) ?_)
  split_ifs <;> rfl

theorem take_fill (h : q.take pred = some (e, q')) : q'.fill + 1 = q.fill := by
  rw [take] at h
  split_ifs at h with hzero
  obtain ⟨-, rfl⟩ := Prod.mk.inj (Option.some.inj h)
  have hfill : q.fill - 1 + 1 = q.fill := Nat.succ_pred hzero
  split_ifs
  · exact (congrArg (· + 1) (sift_down_fill _ _)).trans hfill
  · exact hfill

theorem remove_fill {i : ℤ} (h : q.remove pred i = some q') : q'.fill + 1 = q.fill := by
  rw [remove] at h
  split_ifs at h with hrange
  have hfill : q.fill - 1 + 1 = q.fill := by omega
  dsimp only at h
  split_ifs at h
  · obtain rfl := Option.some.inj h
    exact (congrArg (· + 1) ((sift_down_fill _ _).trans (sift_up_fill _ _))).trans hfill
  · obtain rfl := Option.some.inj h
    exact hfill

omit [DecidableEq E] in
theorem front_eq_none : q.front = none ↔ q.fill = 0 := by
  rw [front]
  split_ifs with h <;> simp [h]

end Program

/-! ## Positions -/

/-- The queue has the elements of `S`, and every element knows where it is. -/
structure Contents (q : PriorityQueue E) (S : Set E) : Prop where
  mem_iff : ∀ x, x ∈ S ↔ ∃ i < q.fill, q.heap i = x
  index_heap : ∀ i < q.fill, q.index (q.heap i) = i
  index_out : ∀ x, x ∉ S → q.index x = -1

/-- The same in the middle of a sift: the cell `i` is open, and `e`, whose index is still to be set, will
go into some cell. -/
structure Hole (q : PriorityQueue E) (e : E) (S : Set E) (i : ℕ) : Prop where
  lt : i < q.fill
  mem_iff : ∀ x, x ∈ S ↔ x = e ∨ ∃ j < q.fill, j ≠ i ∧ q.heap j = x
  index_heap : ∀ j < q.fill, j ≠ i → q.index (q.heap j) = j
  ne : ∀ j < q.fill, j ≠ i → q.heap j ≠ e
  index_out : ∀ x, x ∉ S → q.index x = -1

section Positions

variable {q : PriorityQueue E} {e : E} {S : Set E} {i j : ℕ}

theorem Contents.injective (h : Contents q S) (hi : i < q.fill) (hj : j < q.fill)
    (heq : q.heap i = q.heap j) : i = j := by
  have hi' := h.index_heap i hi
  rw [heq, h.index_heap j hj] at hi'
  exact_mod_cast hi'.symm

/-- An element's index is the cell it is in. -/
theorem Contents.index_spec (h : Contents q S) (he : e ∈ S) :
    ∃ i < q.fill, q.index e = i ∧ q.heap i = e := by
  obtain ⟨i, hi, rfl⟩ := (h.mem_iff e).mp he
  exact ⟨i, hi, h.index_heap i hi, rfl⟩

/-- The test of the callers, `pq_index != -1`. -/
theorem Contents.index_ne (h : Contents q S) : q.index e ≠ -1 ↔ e ∈ S := by
  constructor
  · intro hne
    by_contra hmem
    exact hne (h.index_out e hmem)
  · intro hmem
    obtain ⟨i, -, hi, -⟩ := h.index_spec hmem
    omega

theorem Contents.heap_mem (h : Contents q S) (hi : i < q.fill) : q.heap i ∈ S :=
  (h.mem_iff _).mpr ⟨i, hi, rfl⟩

theorem Contents.fill_eq_zero (h : Contents q S) : q.fill = 0 ↔ S = ∅ := by
  constructor
  · intro h0
    ext x
    simp [h.mem_iff, h0]
  · rintro rfl
    by_contra hne
    exact h.heap_mem (Nat.pos_of_ne_zero hne)

/-- Taking an element up opens its cell. -/
theorem Contents.hole (h : Contents q S) (hi : i < q.fill) : Hole q (q.heap i) S i where
  lt := hi
  mem_iff x := by
    rw [h.mem_iff]
    constructor
    · rintro ⟨j, hj, rfl⟩
      by_cases hji : j = i
      · exact Or.inl (hji ▸ rfl)
      · exact Or.inr ⟨j, hj, hji, rfl⟩
    · rintro (rfl | ⟨j, hj, -, rfl⟩)
      · exact ⟨i, hi, rfl⟩
      · exact ⟨j, hj, rfl⟩
  index_heap j hj _ := h.index_heap j hj
  ne j hj hji heq := hji (h.injective hj hi heq)
  index_out := h.index_out

theorem Hole.heap_mem (h : Hole q e S i) (hj : j < q.fill) (hji : j ≠ i) : q.heap j ∈ S :=
  (h.mem_iff _).mpr (Or.inr ⟨j, hj, hji, rfl⟩)

theorem Hole.injective (h : Hole q e S i) {k : ℕ} (hj : j < q.fill) (hji : j ≠ i) (hk : k < q.fill)
    (hki : k ≠ i) (heq : q.heap j = q.heap k) : j = k := by
  have hj' := h.index_heap j hj hji
  rw [heq, h.index_heap k hk hki] at hj'
  exact_mod_cast hj'.symm

variable [DecidableEq E]

/-- Element `j` is moved to cell `i`: what one turn of either sift does. -/
def move (q : PriorityQueue E) (i j : ℕ) : PriorityQueue E :=
  (q.write i (q.heap j)).set_index (q.heap j) i

theorem move_heap_self (q : PriorityQueue E) (i j : ℕ) : (q.move i j).heap i = q.heap j :=
  Function.update_self ..

theorem move_heap_of_ne (q : PriorityQueue E) (j : ℕ) {k : ℕ} (h : k ≠ i) :
    (q.move i j).heap k = q.heap k := Function.update_of_ne h ..

theorem move_index (q : PriorityQueue E) (i j : ℕ) :
    (q.move i j).index = Function.update q.index (q.heap j) i := rfl

@[simp] theorem move_fill (q : PriorityQueue E) (i j : ℕ) : (q.move i j).fill = q.fill := rfl

@[simp] theorem move_size (q : PriorityQueue E) (i j : ℕ) : (q.move i j).size = q.size := rfl

/-- One turn of a sift moves the hole. -/
theorem Hole.move (h : Hole q e S i) (hj : j < q.fill) (hji : j ≠ i) : Hole (q.move i j) e S j := by
  refine { lt := hj, mem_iff := ?_, index_heap := ?_, ne := ?_, index_out := ?_ }
  · intro x
    rw [h.mem_iff]
    apply or_congr_right
    constructor
    · rintro ⟨k, hk, hki, rfl⟩
      by_cases hkj : k = j
      · subst hkj
        exact ⟨i, h.lt, Ne.symm hji, q.move_heap_self i k⟩
      · exact ⟨k, hk, hkj, q.move_heap_of_ne j hki⟩
    · rintro ⟨k, hk, hkj, rfl⟩
      by_cases hki : k = i
      · subst hki
        exact ⟨j, hj, hji, (q.move_heap_self k j).symm⟩
      · exact ⟨k, hk, hki, (q.move_heap_of_ne j hki).symm⟩
  · intro k hk hkj
    by_cases hki : k = i
    · subst hki
      rw [q.move_heap_self, move_index, Function.update_self]
    · rw [q.move_heap_of_ne j hki, move_index, Function.update_of_ne]
      · exact h.index_heap k hk hki
      · intro heq
        exact hkj (h.injective hk hki hj hji heq)
  · intro k hk hkj
    by_cases hki : k = i
    · subst hki
      rw [q.move_heap_self]
      exact h.ne j hj hji
    · rw [q.move_heap_of_ne j hki]
      exact h.ne k hk hki
  · intro x hx
    rw [move_index, Function.update_of_ne]
    · exact h.index_out x hx
    · rintro rfl
      exact hx (h.heap_mem hj hji)

/-- The element goes into the hole. -/
theorem Hole.put (h : Hole q e S i) : Contents ((q.write i e).set_index e i) S := by
  refine { mem_iff := ?_, index_heap := ?_, index_out := ?_ }
  · intro x
    rw [h.mem_iff]
    constructor
    · rintro (rfl | ⟨j, hj, hji, rfl⟩)
      · exact ⟨i, h.lt, Function.update_self ..⟩
      · exact ⟨j, hj, Function.update_of_ne hji ..⟩
    · rintro ⟨j, hj, rfl⟩
      by_cases hji : j = i
      · subst hji
        exact Or.inl (Function.update_self ..)
      · exact Or.inr ⟨j, hj, hji, (Function.update_of_ne hji ..).symm⟩
  · intro j hj
    show Function.update q.index e i (Function.update q.heap i e j) = j
    by_cases hji : j = i
    · subst hji
      rw [Function.update_self, Function.update_self]
    · rw [Function.update_of_ne hji, Function.update_of_ne (h.ne j hj hji)]
      exact h.index_heap j hj hji
  · intro x hx
    have hxe : x ≠ e := fun h' => hx ((h.mem_iff x).mpr (Or.inl h'))
    show Function.update q.index e i x = -1
    rw [Function.update_of_ne hxe]
    exact h.index_out x hx

end Positions

/-! ## Order -/

/-- What the queue asks of `pred`: to come before is asymmetric, and not to come before is transitive. -/
structure IsOrder (pred : E → E → Bool) : Prop where
  asymm : ∀ a b, pred a b → pred b a = false
  trans : ∀ a b c, pred b a = false → pred c b = false → pred c a = false

/-- No child comes before its parent. -/
def Ordered (pred : E → E → Bool) (q : PriorityQueue E) : Prop :=
  ∀ i, 0 < i → i < q.fill → pred (q.heap i) (q.heap (parent_of i)) = false

/-- `c` is a child of `p`. -/
def IsChild (c p : ℕ) : Prop := 0 < c ∧ parent_of c = p

/-- The order around the hole `i`: away from the hole it is whole, and the hole's children do not come
before its parent. -/
structure Ready (pred : E → E → Bool) (q : PriorityQueue E) (i : ℕ) : Prop where
  except : ∀ j, 0 < j → j < q.fill → j ≠ i → parent_of j ≠ i →
    pred (q.heap j) (q.heap (parent_of j)) = false
  across : 0 < i → ∀ c, IsChild c i → c < q.fill → pred (q.heap c) (q.heap (parent_of i)) = false

/-- In the hole `i`, `e` would not come before its parent. -/
def Above (pred : E → E → Bool) (q : PriorityQueue E) (e : E) (i : ℕ) : Prop :=
  0 < i → pred e (q.heap (parent_of i)) = false

/-- Nor would a child of the hole come before `e`. -/
def Below (pred : E → E → Bool) (q : PriorityQueue E) (e : E) (i : ℕ) : Prop :=
  ∀ c, IsChild c i → c < q.fill → pred (q.heap c) e = false

section Order

variable {pred : E → E → Bool} {q : PriorityQueue E} {e : E} {S : Set E} {i j : ℕ}

theorem parent_lt (h : 0 < i) : parent_of i < i := by
  rw [parent_of]
  omega

theorem isChild_iff {c p : ℕ} : IsChild c p ↔ c = left_of p ∨ c = right_of p := by
  rw [IsChild, parent_of, left_of, right_of]
  omega

theorem IsChild.lt {c p : ℕ} (h : IsChild c p) : p < c := by
  rw [isChild_iff, left_of, right_of] at h
  omega

theorem IsOrder.irrefl (ho : IsOrder pred) (a : E) : pred a a = false := by
  by_contra h
  have h' := ho.asymm a a (by simpa using h)
  exact h h'

/-- The root comes first. -/
theorem Ordered.root (ho : IsOrder pred) (h : Ordered pred q) (hi : i < q.fill) :
    pred (q.heap i) (q.heap 0) = false := by
  induction i using Nat.strongRecOn with
  | ind i ih =>
    by_cases h0 : i = 0
    · subst h0
      exact ho.irrefl _
    · have hp := parent_lt (Nat.pos_of_ne_zero h0)
      exact ho.trans _ _ _ (ih (parent_of i) hp (by omega)) (h i (by omega) hi)

theorem Ordered.ready (h : Ordered pred q) (ho : IsOrder pred) : Ready pred q i where
  except j hj hlt _ _ := h j hj hlt
  across hi c hc hlt := by
    have hci := hc.lt
    have hpar : pred (q.heap c) (q.heap i) = false := hc.2 ▸ h c hc.1 hlt
    exact ho.trans _ _ _ (h i hi (by omega)) hpar

/-- Between its neighbours, `e` closes the hole. -/
theorem Ready.put (h : Ready pred q i) (habove : Above pred q e i) (hbelow : Below pred q e i) :
    Ordered pred (q.write i e) := by
  intro j hj hlt
  show pred (Function.update q.heap i e j) (Function.update q.heap i e (parent_of j)) = false
  have hp := parent_lt hj
  by_cases hji : j = i
  · subst hji
    rw [Function.update_self, Function.update_of_ne hp.ne]
    exact habove hj
  · rw [Function.update_of_ne hji]
    by_cases hpi : parent_of j = i
    · rw [hpi, Function.update_self]
      exact hbelow j ⟨hj, hpi⟩ hlt
    · rw [Function.update_of_ne hpi]
      exact h.except j hj hlt hji hpi

variable [DecidableEq E]

/-- `sift_up` moves the parent down when `e` comes before it. -/
theorem Ready.up (ho : IsOrder pred) (h : Ready pred q i) (hi : 0 < i) (hlt : i < q.fill)
    (hpred : pred e (q.heap (parent_of i))) :
    Ready pred (q.move i (parent_of i)) (parent_of i)
      ∧ Below pred (q.move i (parent_of i)) e (parent_of i) := by
  have hp := parent_lt hi
  have hpi : parent_of i ≠ i := hp.ne
  -- a sibling of the hole does not come before the parent
  have hsib : ∀ c, IsChild c (parent_of i) → c < q.fill → c ≠ i →
      pred (q.heap c) (q.heap (parent_of i)) = false := by
    intro c hc hclt hci
    have := h.except c hc.1 hclt hci (by rw [hc.2]; exact hpi)
    rwa [hc.2] at this
  -- nor does the parent come before its own
  have hgrand : 0 < parent_of i →
      pred (q.heap (parent_of i)) (q.heap (parent_of (parent_of i))) = false := by
    intro h0
    have hpp := parent_lt h0
    exact h.except _ h0 (by omega) hpi (by omega)
  refine ⟨{ except := ?_, across := ?_ }, ?_⟩
  · intro j hj hjlt hjp hpj
    by_cases hji : j = i
    · exact absurd (congrArg parent_of hji) hpj
    · rw [q.move_heap_of_ne _ hji]
      by_cases hpar : parent_of j = i
      · rw [hpar, q.move_heap_self]
        exact h.across hi j ⟨hj, hpar⟩ hjlt
      · rw [q.move_heap_of_ne _ hpar]
        exact h.except j hj hjlt hji hpar
  · intro h0 c hc hclt
    have hpp := parent_lt h0
    rw [q.move_heap_of_ne _ (show parent_of (parent_of i) ≠ i by omega)]
    by_cases hci : c = i
    · subst hci
      rw [q.move_heap_self]
      exact hgrand h0
    · rw [q.move_heap_of_ne _ hci]
      exact ho.trans _ _ _ (hgrand h0) (hsib c hc hclt hci)
  · intro c hc hclt
    have hle := ho.asymm _ _ hpred
    by_cases hci : c = i
    · subst hci
      rw [q.move_heap_self]
      exact hle
    · rw [q.move_heap_of_ne _ hci]
      exact ho.trans _ _ _ hle (hsib c hc hclt hci)

/-- `try_push` moves a child up that `e` does not come before, and that its sibling does not either. -/
theorem Ready.down (h : Ready pred q i) (hj : IsChild j i) (hlt : j < q.fill)
    (hfirst : ∀ c, IsChild c i → c < q.fill → pred (q.heap c) (q.heap j) = false)
    (hpred : pred e (q.heap j) = false) :
    Ready pred (q.move i j) j ∧ Above pred (q.move i j) e j := by
  have hij := hj.lt
  have hpar := hj.2
  refine ⟨{ except := ?_, across := ?_ }, ?_⟩
  · intro k hk hklt hkj hpk
    by_cases hki : k = i
    · subst hki
      have hpk' := parent_lt hk
      rw [q.move_heap_self, q.move_heap_of_ne _ hpk'.ne]
      exact h.across hk j hj hlt
    · rw [q.move_heap_of_ne _ hki]
      by_cases hpi : parent_of k = i
      · rw [hpi, q.move_heap_self]
        exact hfirst k ⟨hk, hpi⟩ hklt
      · rw [q.move_heap_of_ne _ hpi]
        exact h.except k hk hklt hki hpi
  · intro h0 c hc hclt
    have hcj := hc.lt
    rw [hpar, q.move_heap_self, q.move_heap_of_ne _ (show c ≠ i by omega)]
    have := h.except c hc.1 hclt (by omega) (by rw [hc.2]; omega)
    rwa [hc.2] at this
  · intro _
    rw [hpar, q.move_heap_self]
    exact hpred

end Order

/-! ## The sifts -/

/-- In the middle of a sift of `e`: `q` with the hole `i`. -/
structure Sifting (pred : E → E → Bool) (e : E) (S : Set E) (q : PriorityQueue E) (i : ℕ) : Prop where
  hole : Hole q e S i
  ready : Ready pred q i
  room : q.fill ≤ q.size

/-- **What the queue promises**: it has the elements of `S`, each at its index, none in front of its
parent, and all of them in the array. -/
structure Holds (pred : E → E → Bool) (q : PriorityQueue E) (S : Set E) : Prop extends Contents q S where
  ordered : Ordered pred q
  room : q.fill ≤ q.size
  size_pos : 0 < q.size

section Sifts

variable {pred : E → E → Bool} {q : PriorityQueue E} {e : E} {S : Set E} {i : ℕ}

theorem isChild_left : IsChild (left_of i) i := isChild_iff.mpr (Or.inl rfl)

theorem isChild_right : IsChild (right_of i) i := isChild_iff.mpr (Or.inr rfl)

theorem first_child_isChild : IsChild (first_child pred q i) i := by
  rw [first_child]
  split_ifs
  · exact isChild_right
  · exact isChild_left

theorem first_child_lt (h : left_of i < q.fill) : first_child pred q i < q.fill := by
  rw [first_child]
  split_ifs with hr
  · exact hr.1
  · exact h

/-- No child comes before the one that `try_push` takes. -/
theorem first_child_first (ho : IsOrder pred) {c : ℕ} (hc : IsChild c i) (hlt : c < q.fill) :
    pred (q.heap c) (q.heap (first_child pred q i)) = false := by
  rw [first_child]
  split_ifs with hr
  · rcases isChild_iff.mp hc with rfl | rfl
    · exact ho.asymm _ _ hr.2
    · exact ho.irrefl _
  · rcases isChild_iff.mp hc with rfl | rfl
    · exact ho.irrefl _
    · simpa [hlt] using hr

/-- `sift_up` writes `e` into the cell it ends at; that cell is still the hole for `sift_down`. -/
theorem Sifting.write (h : Sifting pred e S q i) (x : E) : Sifting pred e S (q.write i x) i := by
  have hne : ∀ {j}, j ≠ i → (q.write i x).heap j = q.heap j := fun hj => Function.update_of_ne hj ..
  refine { hole := { h.hole with mem_iff := ?_, index_heap := ?_, ne := ?_ }, ready := ?_, room := h.room }
  · intro y
    rw [h.hole.mem_iff]
    apply or_congr_right
    constructor
    · rintro ⟨j, hj, hji, rfl⟩
      exact ⟨j, hj, hji, hne hji⟩
    · rintro ⟨j, hj, hji, rfl⟩
      exact ⟨j, hj, hji, (hne hji).symm⟩
  · intro j hj hji
    rw [hne hji]
    exact h.hole.index_heap j hj hji
  · intro j hj hji
    rw [hne hji]
    exact h.hole.ne j hj hji
  · refine { except := ?_, across := ?_ }
    · intro j hj hlt hji hpi
      rw [hne hji, hne hpi]
      exact h.ready.except j hj hlt hji hpi
    · intro hi c hc hlt
      rw [hne hc.lt.ne', hne (parent_lt hi).ne]
      exact h.ready.across hi c hc hlt

theorem Above.write (h : Above pred q e i) (x : E) : Above pred (q.write i x) e i := by
  intro hi
  show pred e (Function.update q.heap i x (parent_of i)) = false
  rw [Function.update_of_ne (parent_lt hi).ne]
  exact h hi

variable [DecidableEq E]

theorem sift_up_loop_spec (ho : IsOrder pred) (h : Sifting pred e S q i) :
    Sifting pred e S (sift_up_loop pred e q i).1 (sift_up_loop pred e q i).2
      ∧ Above pred (sift_up_loop pred e q i).1 e (sift_up_loop pred e q i).2
      ∧ (Below pred q e i → Below pred (sift_up_loop pred e q i).1 e (sift_up_loop pred e q i).2)
      ∧ (sift_up_loop pred e q i).1.fill = q.fill ∧ (sift_up_loop pred e q i).1.size = q.size := by
  fun_induction sift_up_loop pred e q i with
  | case1 q i hcond parent ih =>
    have hlt := parent_lt hcond.1
    obtain ⟨hready, hbelow⟩ := h.ready.up ho hcond.1 h.hole.lt hcond.2
    have hhole := h.hole.move (j := parent_of i) (lt_trans hlt h.hole.lt) hlt.ne
    obtain ⟨hs, habove, hb, hfill, hsize⟩ := ih { hole := hhole, ready := hready, room := h.room }
    exact ⟨hs, habove, fun _ => hb hbelow, hfill, hsize⟩
  | case2 q i hcond =>
    refine ⟨h, ?_, fun hb => hb, rfl, rfl⟩
    intro hi
    simpa [hi] using hcond

theorem try_push_spec (ho : IsOrder pred) (h : Sifting pred e S q i) (ha : Above pred q e i) :
    Sifting pred e S (try_push pred e q i).1 (try_push pred e q i).2
      ∧ Above pred (try_push pred e q i).1 e (try_push pred e q i).2
      ∧ Below pred (try_push pred e q i).1 e (try_push pred e q i).2
      ∧ (try_push pred e q i).1.fill = q.fill ∧ (try_push pred e q i).1.size = q.size := by
  fun_induction try_push pred e q i with
  | case1 q i hcond child_i child hpred =>
    refine ⟨h, ha, ?_, rfl, rfl⟩
    intro c hc hlt
    exact ho.trans _ _ _ (ho.asymm _ _ hpred) (first_child_first ho hc hlt)
  | case2 q i hcond child_i child hpred ih =>
    have hchild : IsChild child_i i := first_child_isChild
    have hlt : child_i < q.fill := first_child_lt hcond
    obtain ⟨hready, habove⟩ := h.ready.down hchild hlt (fun c hc hclt => first_child_first ho hc hclt)
      (by simpa using hpred)
    have hhole := h.hole.move hlt hchild.lt.ne'
    exact ih { hole := hhole, ready := hready, room := h.room } habove
  | case3 q i hcond =>
    refine ⟨h, ha, ?_, rfl, rfl⟩
    intro c hc hlt
    replace hlt : c < q.fill := hlt
    rw [isChild_iff, right_of] at hc
    rw [left_of] at hcond hc
    omega

/-- A sift that ends between its neighbours leaves the queue as promised. -/
theorem Sifting.put (h : Sifting pred e S q i) (ha : Above pred q e i) (hb : Below pred q e i) :
    Holds pred ((q.write i e).set_index e i) S where
  toContents := h.hole.put
  ordered := h.ready.put ha hb
  room := h.room
  size_pos := lt_of_lt_of_le (Nat.zero_lt_of_lt h.hole.lt) h.room

theorem sift_down_spec (ho : IsOrder pred) (h : Sifting pred e S q i) (ha : Above pred q e i) :
    Holds pred (sift_down pred e q i) S := by
  obtain ⟨hs, ha', hb', -, -⟩ := try_push_spec ho h ha
  exact hs.put ha' hb'

/-- The index of the element in hand does not matter. -/
theorem Sifting.set_index (h : Sifting pred e S q i) (k : ℤ) : Sifting pred e S (q.set_index e k) i := by
  have hready : Ready pred (q.set_index e k) i := ⟨h.ready.except, h.ready.across⟩
  refine { hole := { h.hole with index_heap := ?_, index_out := ?_ }, ready := hready, room := h.room }
  · intro j hj hji
    show Function.update q.index e k (q.heap j) = j
    rw [Function.update_of_ne (h.hole.ne j hj hji)]
    exact h.hole.index_heap j hj hji
  · intro x hx
    show Function.update q.index e k x = -1
    rw [Function.update_of_ne]
    · exact h.hole.index_out x hx
    · rintro rfl
      exact hx ((h.hole.mem_iff x).mpr (Or.inl rfl))

/-- Up and then down, from wherever `e` is: what `remove` and `see_update` do. -/
theorem sift_both_spec (ho : IsOrder pred) (h : Sifting pred e S q i) (he : q.heap i = e) :
    Holds pred (sift_down pred e (sift_up pred q i).1 (sift_up pred q i).2) S := by
  obtain ⟨hs, ha, -, -, -⟩ := sift_up_loop_spec ho h
  rw [sift_up, he]
  exact sift_down_spec ho (hs.write e) (ha.write e)

end Sifts

/-! ## The operations -/

section Operations

variable {pred : E → E → Bool} {q : PriorityQueue E} {e : E} {S : Set E} {i : ℕ}

theorem holds_new [Inhabited E] : Holds pred (new : PriorityQueue E) ∅ where
  mem_iff x := by simp [new]
  index_heap i hi := absurd hi (Nat.not_lt_zero i)
  index_out _ _ := rfl
  ordered i _ hi := absurd hi (Nat.not_lt_zero i)
  room := Nat.zero_le _
  size_pos := by simp [new]

theorem Holds.empty_iff (h : Holds pred q S) : q.empty = true ↔ S = ∅ := by
  rw [← h.fill_eq_zero, PriorityQueue.empty, decide_eq_true_iff]

/-- The keys may change as long as the order on the elements of the queue does not. -/
theorem Holds.congr (h : Holds pred q S) {pred' : E → E → Bool}
    (heq : ∀ x ∈ S, ∀ y ∈ S, pred' x y = pred x y) : Holds pred' q S := by
  refine { h with ordered := ?_ }
  intro i hi hlt
  have hp := parent_lt hi
  rw [heq _ (h.heap_mem hlt) _ (h.heap_mem (lt_trans hp hlt))]
  exact h.ordered i hi hlt

theorem Holds.front_none (h : Holds pred q S) : q.front = none ↔ S = ∅ := by
  rw [← h.fill_eq_zero, front_eq_none]

/-- `front` is an element that no other comes before. -/
theorem Holds.front_some (ho : IsOrder pred) (h : Holds pred q S) (hf : q.front = some e) :
    e ∈ S ∧ ∀ x ∈ S, pred x e = false := by
  rw [front] at hf
  split_ifs at hf with h0
  obtain rfl := Option.some.inj hf
  refine ⟨h.heap_mem (Nat.pos_of_ne_zero h0), ?_⟩
  intro x hx
  obtain ⟨i, hi, rfl⟩ := (h.mem_iff x).mp hx
  exact h.ordered.root ho hi

/-- `e` behind the last cell, in an array of `size` cells. -/
def appended (q : PriorityQueue E) (size : ℕ) (e : E) : PriorityQueue E :=
  { q.write q.fill e with fill := q.fill + 1, size := size }

theorem Holds.appended (h : Holds pred q S) {size : ℕ} (hsize : q.fill < size) (he : e ∉ S) :
    Sifting pred e (insert e S) (q.appended size e) q.fill := by
  have hold : ∀ {j}, j ≠ q.fill → (q.appended size e).heap j = q.heap j :=
    fun hj => Function.update_of_ne hj ..
  have hlt_of : ∀ {j}, j < (q.appended size e).fill → j ≠ q.fill → j < q.fill :=
    fun hj hne => lt_of_le_of_ne (Nat.le_of_lt_succ hj) hne
  refine { hole := ?_, ready := ?_, room := hsize }
  · refine { lt := Nat.lt_succ_self _, mem_iff := ?_, index_heap := ?_, ne := ?_, index_out := ?_ }
    · intro x
      rw [Set.mem_insert_iff, h.mem_iff]
      apply or_congr_right
      constructor
      · rintro ⟨j, hj, rfl⟩
        exact ⟨j, Nat.lt_succ_of_lt hj, hj.ne, hold hj.ne⟩
      · rintro ⟨j, hj, hne, rfl⟩
        exact ⟨j, hlt_of hj hne, (hold hne).symm⟩
    · intro j hj hne
      rw [hold hne]
      exact h.index_heap j (hlt_of hj hne)
    · intro j hj hne heq
      rw [hold hne] at heq
      exact he (heq ▸ h.heap_mem (hlt_of hj hne))
    · intro x hx
      exact h.index_out x (fun hmem => hx (Set.mem_insert_of_mem e hmem))
  · refine { except := ?_, across := ?_ }
    · intro j hj hlt hne hpar
      rw [hold hne, hold hpar]
      exact h.ordered j hj (hlt_of hlt hne)
    · intro _ c hc hlt
      exact absurd (hlt_of hlt hc.lt.ne') (by have := hc.lt; omega)

/-- An element is still in the queue if it is in a cell in front of the last one, or is the last. -/
theorem Holds.mem_vacated (h : Holds pred q S) (hi : i < q.fill) (x : E) :
    x ∈ S \ {q.heap i} ↔ ∃ j < q.fill, j ≠ i ∧ q.heap j = x := by
  rw [Set.mem_sdiff, Set.mem_singleton_iff, h.mem_iff]
  constructor
  · rintro ⟨⟨j, hj, rfl⟩, hne⟩
    exact ⟨j, hj, fun hji => hne (hji ▸ rfl), rfl⟩
  · rintro ⟨j, hj, hji, rfl⟩
    exact ⟨⟨j, hj, rfl⟩, fun heq => hji (h.injective hj hi heq)⟩

/-- The indices that the loop of `reset` leaves. -/
theorem reset_index [DecidableEq E] (heap : ℕ → E) (index : E → ℤ) (n : ℕ) (x : E) :
    (List.range n).foldl (fun index i => Function.update index (heap i) (-1)) index x
      = if ∃ i < n, heap i = x then -1 else index x := by
  induction n with
  | zero => simp
  | succ n ih =>
    rw [List.range_succ, List.foldl_append, List.foldl_cons, List.foldl_nil]
    by_cases hx : heap n = x
    · rw [← hx, Function.update_self, if_pos ⟨n, Nat.lt_succ_self n, rfl⟩]
    · rw [Function.update_of_ne (Ne.symm hx), ih]
      refine if_congr ?_ rfl rfl
      constructor
      · rintro ⟨i, hi, hix⟩
        exact ⟨i, Nat.lt_succ_of_lt hi, hix⟩
      · rintro ⟨i, hi, hix⟩
        refine ⟨i, lt_of_le_of_ne (Nat.le_of_lt_succ hi) ?_, hix⟩
        rintro rfl
        exact hx hix

/-- Both checks of `PQ_DEBUG` succeed. -/
theorem Holds.checks (h : Holds pred q S) : q.heap_holds pred = true ∧ q.indexes_match = true := by
  have hchild : ∀ {c p}, IsChild c p → c < q.fill → pred (q.heap c) (q.heap p) = false := by
    intro c p hc hlt
    have := h.ordered c hc.1 hlt
    rwa [hc.2] at this
  constructor
  · rw [PriorityQueue.heap_holds, List.all_eq_true]
    intro i _
    simp only [Bool.and_eq_true, Bool.not_eq_true', Bool.and_eq_false_iff, decide_eq_false_iff_not]
    constructor
    · by_cases hlt : right_of i < q.fill
      · exact Or.inr (hchild isChild_right hlt)
      · exact Or.inl hlt
    · by_cases hlt : left_of i < q.fill
      · exact Or.inr (hchild isChild_left hlt)
      · exact Or.inl hlt
  · rw [PriorityQueue.indexes_match, List.all_eq_true]
    intro i hi
    exact decide_eq_true (h.index_heap i (List.mem_range.mp hi))

variable [DecidableEq E]

theorem Holds.reset [Inhabited E] (h : Holds pred q S) : Holds pred q.reset ∅ where
  mem_iff x := by simp [PriorityQueue.reset]
  index_heap i hi := absurd hi (Nat.not_lt_zero i)
  index_out x _ := by
    show (List.range q.fill).foldl (fun index i => Function.update index (q.heap i) (-1)) q.index x = -1
    rw [reset_index]
    split_ifs with hx
    · rfl
    · exact h.index_out x (fun hmem => hx ((h.mem_iff x).mp hmem))
  ordered i _ hi := absurd hi (Nat.not_lt_zero i)
  room := Nat.zero_le _
  size_pos := by simp [PriorityQueue.reset]

theorem Holds.add (ho : IsOrder pred) (h : Holds pred q S) (he : e ∉ S) :
    Holds pred (q.add pred e) (insert e S) := by
  -- the array grows when it is full
  obtain ⟨size, hsize, hq⟩ : ∃ size, q.fill < size ∧
      (if q.size ≤ q.fill then { q with size := q.size * 2 } else q) = { q with size := size } := by
    have hroom := h.room
    have hpos := h.size_pos
    split_ifs with hfull
    · exact ⟨q.size * 2, by omega, rfl⟩
    · exact ⟨q.size, by omega, rfl⟩
  obtain ⟨hs, ha, hb, -, -⟩ := sift_up_loop_spec ho (h.appended hsize he)
  have hbelow : Below pred (q.appended size e) e q.fill := by
    intro c hc hlt
    exact absurd (Nat.le_of_lt_succ hlt) (not_le.mpr hc.lt)
  have hput := hs.put ha (hb hbelow)
  have heq : q.add pred e = ((sift_up_loop pred e (q.appended size e) q.fill).1.write
      (sift_up_loop pred e (q.appended size e) q.fill).2 e).set_index e
      (sift_up_loop pred e (q.appended size e) q.fill).2 := by
    rw [PriorityQueue.add, hq]
    simp [sift_up, PriorityQueue.appended, PriorityQueue.write]
  rw [heq]
  exact hput

/-- What `take` and `remove` do first: the element at `i` is out, and the last one is in its cell. -/
def vacated (q : PriorityQueue E) (i : ℕ) : PriorityQueue E :=
  { (q.set_index (q.heap i) (-1)).write i (q.heap (q.fill - 1)) with fill := q.fill - 1 }

theorem vacated_heap_of_ne (q : PriorityQueue E) {j : ℕ} (hj : j ≠ i) :
    (q.vacated i).heap j = q.heap j := Function.update_of_ne hj ..

theorem vacated_heap_self (q : PriorityQueue E) (i : ℕ) :
    (q.vacated i).heap i = q.heap (q.fill - 1) := Function.update_self ..

theorem Holds.vacated_index (h : Holds pred q S) (hi : i < q.fill) {j : ℕ} (hj : j < q.fill)
    (hji : j ≠ i) : (q.vacated i).index (q.heap j) = j := by
  show Function.update q.index (q.heap i) (-1) (q.heap j) = j
  rw [Function.update_of_ne]
  · exact h.index_heap j hj
  · intro heq
    exact hji (h.injective hj hi heq)

theorem Holds.vacated_index_out (h : Holds pred q S) {x : E}
    (hx : x ∉ S \ {q.heap i}) : (q.vacated i).index x = -1 := by
  show Function.update q.index (q.heap i) (-1) x = -1
  by_cases heq : x = q.heap i
  · rw [heq, Function.update_self]
  · rw [Function.update_of_ne heq]
    exact h.index_out x (fun hmem => hx ⟨hmem, heq⟩)

theorem Holds.vacated_ordered (h : Holds pred q S) : ∀ j, 0 < j → j < q.fill - 1 → j ≠ i →
    parent_of j ≠ i → pred ((q.vacated i).heap j) ((q.vacated i).heap (parent_of j)) = false := by
  intro j hj hlt hji hpi
  rw [q.vacated_heap_of_ne hji, q.vacated_heap_of_ne hpi]
  exact h.ordered j hj (by omega)

/-- The last element is to be sifted from the cell it was put in. -/
theorem Holds.vacated (ho : IsOrder pred) (h : Holds pred q S) (hi : i < q.fill - 1) :
    Sifting pred (q.heap (q.fill - 1)) (S \ {q.heap i}) (q.vacated i) i := by
  have hlt : i < q.fill := by omega
  have hroom := h.room
  refine { hole := ?_, ready := { except := h.vacated_ordered, across := ?_ }, room := ?_ }
  · refine { lt := hi, mem_iff := ?_, index_heap := ?_, ne := ?_, index_out := ?_ }
    · intro x
      rw [h.mem_vacated hlt]
      constructor
      · rintro ⟨j, hj, hji, rfl⟩
        by_cases hlast : j = q.fill - 1
        · exact Or.inl (hlast ▸ rfl)
        · exact Or.inr ⟨j, show j < q.fill - 1 by omega, hji, q.vacated_heap_of_ne hji⟩
      · rintro (rfl | ⟨j, hj, hji, rfl⟩)
        · exact ⟨q.fill - 1, by omega, by omega, rfl⟩
        · exact ⟨j, lt_of_lt_of_le hj (Nat.sub_le ..), hji, (q.vacated_heap_of_ne hji).symm⟩
    · intro j hj hji
      rw [q.vacated_heap_of_ne hji]
      exact h.vacated_index hlt (lt_of_lt_of_le hj (Nat.sub_le ..)) hji
    · intro j hj hji heq
      replace hj : j < q.fill - 1 := hj
      rw [q.vacated_heap_of_ne hji] at heq
      have := h.injective (by omega) (by omega) heq
      omega
    · exact fun x hx => h.vacated_index_out hx
  · intro hpos c hc hclt
    have hci := hc.lt
    replace hclt : c < q.fill - 1 := hclt
    rw [q.vacated_heap_of_ne hci.ne', q.vacated_heap_of_ne (parent_lt hpos).ne]
    exact (h.ordered.ready ho).across hpos c hc (by omega)
  · show q.fill - 1 ≤ q.size
    omega

/-- If it was the last one that went, nothing is to be done. -/
theorem Holds.vacated_last (h : Holds pred q S) (hi : i + 1 = q.fill) :
    Holds pred (q.vacated i) (S \ {q.heap i}) := by
  have hlt : i < q.fill := by omega
  have hroom := h.room
  refine { mem_iff := ?_, index_heap := ?_, index_out := ?_, ordered := ?_, room := ?_, size_pos := h.size_pos }
  · intro x
    rw [h.mem_vacated hlt]
    constructor
    · rintro ⟨j, hj, hji, rfl⟩
      exact ⟨j, show j < q.fill - 1 by omega, q.vacated_heap_of_ne hji⟩
    · rintro ⟨j, hj, rfl⟩
      replace hj : j < q.fill - 1 := hj
      have hji : j ≠ i := by omega
      exact ⟨j, by omega, hji, (q.vacated_heap_of_ne hji).symm⟩
  · intro j hj
    replace hj : j < q.fill - 1 := hj
    have hji : j ≠ i := by omega
    rw [q.vacated_heap_of_ne hji]
    exact h.vacated_index hlt (by omega) hji
  · exact fun x hx => h.vacated_index_out hx
  · intro j hj hjlt
    replace hjlt : j < q.fill - 1 := hjlt
    have hp := parent_lt hj
    exact h.vacated_ordered j hj hjlt (by omega) (by omega)
  · show q.fill - 1 ≤ q.size
    omega

theorem Holds.take_none (h : Holds pred q S) : q.take pred = none ↔ S = ∅ := by
  rw [← h.fill_eq_zero, PriorityQueue.take]
  split_ifs with h0 <;> simp [h0]

/-- `take` returns an element that no other comes before, and takes only that one out. -/
theorem Holds.take (ho : IsOrder pred) (h : Holds pred q S) {q' : PriorityQueue E}
    (ht : q.take pred = some (e, q')) :
    e ∈ S ∧ (∀ x ∈ S, pred x e = false) ∧ Holds pred q' (S \ {e}) := by
  rw [PriorityQueue.take] at ht
  split_ifs at ht with h0
  obtain ⟨rfl, rfl⟩ := Prod.mk.inj (Option.some.inj ht)
  have hfront : q.front = some (q.heap 0) := by rw [PriorityQueue.front, if_neg h0]
  obtain ⟨hmem, hfirst⟩ := h.front_some ho hfront
  refine ⟨hmem, hfirst, ?_⟩
  show Holds pred (if 0 < (q.vacated 0).fill then
    sift_down pred ((q.vacated 0).heap 0) (q.vacated 0) 0 else q.vacated 0) (S \ {q.heap 0})
  split_ifs with hpos
  · rw [vacated_heap_self]
    exact sift_down_spec ho (h.vacated ho hpos) (fun hlt => absurd hlt (Nat.lt_irrefl 0))
  · have hlast : 0 + 1 = q.fill := by
      replace hpos : ¬ 0 < q.fill - 1 := hpos
      omega
    exact h.vacated_last hlast

/-- An element that is in the queue can be taken out by its index. -/
theorem Holds.remove (ho : IsOrder pred) (h : Holds pred q S) (he : e ∈ S) :
    ∃ q', q.remove pred (q.index e) = some q' ∧ Holds pred q' (S \ {e}) := by
  obtain ⟨i, hi, hindex, rfl⟩ := h.index_spec he
  have hcond : ¬ ¬ (0 ≤ (i : ℤ) ∧ (i : ℤ) < q.fill) := by omega
  rw [hindex, PriorityQueue.remove, if_neg hcond]
  simp only [Int.toNat_natCast]
  by_cases hlt : i < q.fill - 1
  · have hs := h.vacated ho hlt
    have hself := q.vacated_heap_self i
    refine ⟨_, if_pos hlt, ?_⟩
    show Holds pred (sift_down pred ((q.vacated i).heap i)
      (sift_up pred ((q.vacated i).set_index ((q.vacated i).heap i) i) i).1
      (sift_up pred ((q.vacated i).set_index ((q.vacated i).heap i) i) i).2) (S \ {q.heap i})
    rw [hself]
    exact sift_both_spec ho (hs.set_index i) hself
  · exact ⟨_, if_neg hlt, h.vacated_last (by omega)⟩

/-- `pred` and `pred₀` agree away from `e`: at most the key of `e` has changed. -/
def AgreeOff (e : E) (S : Set E) (pred pred₀ : E → E → Bool) : Prop :=
  ∀ x ∈ S, ∀ y ∈ S, x ≠ e → y ≠ e → pred x y = pred₀ x y

/-- After the key of one element has changed, `see_update` brings it to its place. -/
theorem Holds.see_update {pred₀ : E → E → Bool} (h₀ : IsOrder pred₀) (ho : IsOrder pred)
    (h : Holds pred₀ q S) (he : e ∈ S) (heq : AgreeOff e S pred pred₀) :
    ∃ q', q.see_update pred (q.index e) = some q' ∧ Holds pred q' S := by
  obtain ⟨i, hi, hindex, rfl⟩ := h.index_spec he
  have hcond : ¬ ¬ (0 ≤ (i : ℤ) ∧ (i : ℤ) < q.fill) := by omega
  rw [hindex, PriorityQueue.see_update, if_neg hcond]
  refine ⟨_, rfl, ?_⟩
  simp only [Int.toNat_natCast]
  have heq' : ∀ {j k}, j < q.fill → k < q.fill → j ≠ i → k ≠ i →
      pred (q.heap j) (q.heap k) = pred₀ (q.heap j) (q.heap k) := by
    intro j k hj hk hji hki
    exact heq _ (h.heap_mem hj) _ (h.heap_mem hk) (fun h' => hji (h.injective hj hi h'))
      (fun h' => hki (h.injective hk hi h'))
  have hready := h.ordered.ready h₀ (i := i)
  refine sift_both_spec ho { hole := h.hole hi, ready := { except := ?_, across := ?_ }, room := h.room } rfl
  · intro j hj hlt hji hpi
    have hp := parent_lt hj
    rw [heq' hlt (by omega) hji hpi]
    exact hready.except j hj hlt hji hpi
  · intro hpos c hc hlt
    have hp := parent_lt hpos
    rw [heq' hlt (by omega) hc.lt.ne' hp.ne]
    exact hready.across hpos c hc hlt

end Operations

/-! ## Runs -/

/-- The order at the moment, the queue, and a record of what is in it that no operation reads. -/
structure Session (E : Type) where
  pred : E → E → Bool
  queue : PriorityQueue E
  elems : Set E

section Runs

variable [DecidableEq E] [Inhabited E]

/-- One call, and what its callers keep to: an element is added once, `remove` and `see_update` are called
for elements that are in the queue, and a key that changes is followed by `see_update`. -/
inductive Step : Session E → Session E → Prop
  | add {pred q S e} : e ∉ S → Step ⟨pred, q, S⟩ ⟨pred, q.add pred e, insert e S⟩
  | take {pred q S e q'} : q.take pred = some (e, q') → Step ⟨pred, q, S⟩ ⟨pred, q', S \ {e}⟩
  | remove {pred q S e q'} : e ∈ S → q.remove pred (q.index e) = some q' →
      Step ⟨pred, q, S⟩ ⟨pred, q', S \ {e}⟩
  | see_update {pred q S e pred' q'} : e ∈ S → IsOrder pred' → AgreeOff e S pred' pred →
      q.see_update pred' (q.index e) = some q' → Step ⟨pred, q, S⟩ ⟨pred', q', S⟩
  | elsewhere {pred q S pred'} : IsOrder pred' → (∀ x ∈ S, ∀ y ∈ S, pred' x y = pred x y) →
      Step ⟨pred, q, S⟩ ⟨pred', q, S⟩
  | reset {pred q S} : Step ⟨pred, q, S⟩ ⟨pred, q.reset, ∅⟩

def sessions (E : Type) [DecidableEq E] [Inhabited E] : System (Session E) where
  init s := IsOrder s.pred ∧ s.queue = new ∧ s.elems = ∅
  step := Step

theorem sessions_holds {s : Session E} (hs : (sessions E).Reachable s) :
    IsOrder s.pred ∧ Holds s.pred s.queue s.elems := by
  apply hs.invariant (I := fun s => IsOrder s.pred ∧ Holds s.pred s.queue s.elems)
  · rintro ⟨pred, q, S⟩ ⟨ho, rfl, rfl⟩
    exact ⟨ho, holds_new⟩
  · rintro s t - ⟨ho, h⟩ hstep
    cases hstep with
    | add he => exact ⟨ho, h.add ho he⟩
    | take ht => exact ⟨ho, (h.take ho ht).2.2⟩
    | remove he hr =>
      obtain ⟨q', hq', hholds⟩ := h.remove ho he
      obtain rfl := Option.some.inj (hq'.symm.trans hr)
      exact ⟨ho, hholds⟩
    | see_update he ho' heq hr =>
      obtain ⟨q', hq', hholds⟩ := h.see_update ho ho' he heq
      obtain rfl := Option.some.inj (hq'.symm.trans hr)
      exact ⟨ho', hholds⟩
    | elsewhere ho' heq => exact ⟨ho', h.congr heq⟩
    | reset => exact ⟨ho, h.reset⟩

/-- **The queue over whole runs.**  Whatever is called, in any order and with any keys: the checks of
`PQ_DEBUG` succeed, `empty` and the null pointers say that nothing is in the queue, `front` and `take`
return an element that no other comes before, and no `remove` or `see_update` fails its assertion. -/
theorem queue_run {s : Session E} (hs : (sessions E).Reachable s) :
    s.queue.heap_holds s.pred = true ∧ s.queue.indexes_match = true
      ∧ (s.queue.empty = true ↔ s.elems = ∅)
      ∧ (s.queue.front = none ↔ s.elems = ∅) ∧ (s.queue.take s.pred = none ↔ s.elems = ∅)
      ∧ (∀ e, s.queue.front = some e → e ∈ s.elems ∧ ∀ x ∈ s.elems, s.pred x e = false)
      ∧ (∀ e q', s.queue.take s.pred = some (e, q') → s.queue.front = some e)
      ∧ ∀ e ∈ s.elems, (s.queue.remove s.pred (s.queue.index e)).isSome
        ∧ ∀ pred', IsOrder pred' → AgreeOff e s.elems pred' s.pred →
          (s.queue.see_update pred' (s.queue.index e)).isSome := by
  obtain ⟨ho, h⟩ := sessions_holds hs
  refine ⟨h.checks.1, h.checks.2, h.empty_iff, h.front_none, h.take_none, ?_, ?_, ?_⟩
  · intro e he
    exact h.front_some ho he
  · intro e q' ht
    rw [PriorityQueue.take] at ht
    split_ifs at ht with h0
    rw [PriorityQueue.front, if_neg h0, (Prod.mk.inj (Option.some.inj ht)).1]
  · intro e he
    obtain ⟨q', hq', -⟩ := h.remove ho he
    refine ⟨hq' ▸ rfl, ?_⟩
    intro pred' ho' heq
    obtain ⟨q'', hq'', -⟩ := h.see_update ho ho' he heq
    exact hq'' ▸ rfl

/-- 5 is added, then 3, and 3 is at the front. -/
theorem queue_run_two : ∃ q : PriorityQueue ℕ, q.front = some 3
    ∧ (∀ x ∈ ({3, 5} : Set ℕ), decide (x < 3) = false) ∧ (q.remove (fun a b => a < b) (q.index 5)).isSome := by
  let pred : ℕ → ℕ → Bool := fun a b => a < b
  have hpred : IsOrder pred := ⟨fun a b h => by simp [pred] at h ⊢; omega, fun a b c h₁ h₂ => by
    simp [pred] at h₁ h₂ ⊢; omega⟩
  let q : PriorityQueue ℕ := (new.add pred 5).add pred 3
  have hrun : (sessions ℕ).Reachable ⟨pred, q, insert 3 (insert 5 ∅)⟩ := by
    refine System.Reachable.step (System.Reachable.step (System.Reachable.of_init
      (show (sessions ℕ).init ⟨pred, new, ∅⟩ from ⟨hpred, rfl, rfl⟩)) (.add (Set.notMem_empty 5))) (.add ?_)
    simp
  have hfront : q.front = some 3 := by decide +kernel
  obtain ⟨-, -, -, -, -, hfirst, -, hrest⟩ := queue_run hrun
  rw [insert_empty_eq] at hfirst hrest
  exact ⟨q, hfront, (hfirst 3 hfront).2, (hrest 5 (by simp)).1⟩

end Runs

end PriorityQueue

end PwsaStar.Pbnf
