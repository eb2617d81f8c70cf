/-
# PwsaStar.Heap.Basic — the array `Heap` of `shared/bin_heap.hpp`, operation by operation.

A heap is a block of `capacity` cells of which the first `n` are live.  The block is a function on
indices; cells that were never written hold arbitrary values, as after `mynew_array`.

Operations return `none` where the C++ code has no defined behaviour: a write outside the block, a
swap that touches a cell that is not live, a failed `assert`, a loop that does not end within the
iterations it is given.  That an operation returns `some` is therefore a statement, proved in
`PwsaStar.Heap.Order` and `PwsaStar.Heap.Split`, never an assumption.

The priority type `P` is any linear order with a greatest element: `⊤` is `LONG_MAX`, the value that
stands for a missing child.  `Long` is the instance the source has; the searches, whose arithmetic
is exact, use the integers with a top.
-/
import Mathlib.Data.Multiset.Range
import Mathlib.Order.BoundedOrder.Basic
import Mathlib.Data.Int.Order.Basic
import Mathlib.Algebra.Group.Nat.Defs
import Mathlib.Algebra.Group.Int.Defs
import Mathlib.Logic.Function.Basic

namespace PwsaStar

/-! ## The priority type of the source -/

/-- `LONG_MAX` on the 64-bit targets the project is built for. -/
def LONG_MAX : ℤ := 2 ^ 63 - 1

/-- `LONG_MIN`. -/
def LONG_MIN : ℤ := -2 ^ 63

/-- The C++ type `long`. -/
def Long : Type := {x : ℤ // LONG_MIN ≤ x ∧ x ≤ LONG_MAX}

instance : LinearOrder Long := inferInstanceAs (LinearOrder {x : ℤ // LONG_MIN ≤ x ∧ x ≤ LONG_MAX})

instance : OrderTop Long where
  top := ⟨LONG_MAX, by decide, le_rfl⟩
  le_top x := x.2.2

/-! ## Cells, blocks and indices -/

/-- One cell: `struct KV`. -/
structure KV (P V : Type*) where
  priority : P
  value : V

/-- The heap object: the number of live cells, the size of the block, and the block. -/
structure Heap (P V : Type*) where
  n : ℕ
  capacity : ℕ
  values : ℕ → KV P V

namespace Heap

def parent (i : ℕ) : ℕ := (i - 1) / 2

def leftChild (i : ℕ) : ℕ := 2 * i + 1

def rightChild (i : ℕ) : ℕ := 2 * i + 2

variable {P V : Type*}

/-- `Heap()`: no live cell, 4096 allocated ones with whatever the allocator left in them. -/
def new (block : ℕ → KV P V) : Heap P V where
  n := 0
  capacity := 4096
  values := block

def size (h : Heap P V) : ℕ := h.n

/-- A store into the block, undefined outside it. -/
def write (h : Heap P V) (i : ℕ) (kv : KV P V) : Option (Heap P V) :=
  if i < h.capacity then some { h with values := Function.update h.values i kv } else none

/-- `std::swap(values[i], values[j])`, undefined unless both cells are live. -/
def swapCells (h : Heap P V) (i j : ℕ) : Option (Heap P V) :=
  if i < h.n ∧ j < h.n then
    some { h with
      values := Function.update (Function.update h.values i (h.values j)) j (h.values i) }
  else none

/-- `resize_bigger`: a new block with the live cells copied.  What the remaining cells of a fresh
block hold is unspecified; here they keep their old contents. -/
def resizeBigger (h : Heap P V) (newCap : ℕ) : Option (Heap P V) :=
  if h.n ≤ newCap then some { h with capacity := newCap } else none

/-- The first line of `insert`: a full block is doubled. -/
def makeRoom (h : Heap P V) : Option (Heap P V) :=
  if h.n = h.capacity then h.resizeBigger (h.capacity * 2) else some h

section Priorities

variable [LinearOrder P] [OrderTop P]

/-- The priority of a cell; a cell that is not live counts as `LONG_MAX` and is not read. -/
def priority (h : Heap P V) (i : ℕ) : P :=
  if h.n ≤ i then ⊤ else (h.values i).priority

/-- The child to descend to; ties go to the right child. -/
def minChild (h : Heap P V) (i : ℕ) : ℕ :=
  if h.priority (leftChild i) < h.priority (rightChild i) then leftChild i else rightChild i

/-- The loop of `heapify_down_from`; the first argument bounds the iterations. -/
def heapifyDownFrom : ℕ → Heap P V → ℕ → Option (Heap P V)
  | fuel, h, curr =>
    if h.priority (leftChild curr) < h.priority curr ∨
        h.priority (rightChild curr) < h.priority curr then
      match fuel with
      | 0 => none
      | fuel + 1 =>
        (h.swapCells curr (h.minChild curr)).bind fun h' =>
          heapifyDownFrom fuel h' (h.minChild curr)
    else some h

/-- The loop of `heapify_up_from`; the first argument bounds the iterations. -/
def heapifyUpFrom : ℕ → Heap P V → ℕ → Option (Heap P V)
  | fuel, h, curr =>
    if 0 < curr ∧ h.priority curr < h.priority (parent curr) then
      match fuel with
      | 0 => none
      | fuel + 1 =>
        (h.swapCells curr (parent curr)).bind fun h' => heapifyUpFrom fuel h' (parent curr)
    else some h

def insert (h : Heap P V) (priority : P) (value : V) : Option (Heap P V) := do
  let h₁ ← h.makeRoom
  let h₂ ← h₁.write h₁.n ⟨priority, value⟩
  heapifyUpFrom h₂.n { h₂ with n := h₂.n + 1 } h₂.n

/-- `discard_min`, undefined on the empty heap (`assert(n > 0)`). -/
def discardMin (h : Heap P V) : Option (Heap P V) :=
  if 0 < h.n then do
    let h₁ ← h.write 0 (h.values (h.n - 1))
    heapifyDownFrom h.n { h₁ with n := h₁.n - 1 } 0
  else none

/-- `delete_min`: the root's value is read before the root is discarded. -/
def deleteMin (h : Heap P V) : Option (V × Heap P V) :=
  if 0 < h.n then
    let result := (h.values 0).value
    do
      let h₁ ← h.write 0 (h.values (h.n - 1))
      let h₂ ← heapifyDownFrom h.n { h₁ with n := h₁.n - 1 } 0
      return (result, h₂)
  else none

end Priorities

/-! ## Splitting -/

/-- The locals of `split`'s copy loops. -/
structure SplitState (P V : Type*) where
  this : Heap P V
  other : Heap P V
  writeThisIdx : ℕ
  writeOtherIdx : ℕ
  readIdx : ℕ

/-- The first inner loop, for the iterations that are left of `level / 2`. -/
def copyToThis (m : ℕ) : ℕ → SplitState P V → Option (SplitState P V)
  | 0, s => some s
  | k + 1, s =>
    if s.readIdx < m then
      (s.this.write s.writeThisIdx (s.this.values s.readIdx)).bind fun this =>
        copyToThis m k
          { s with
            this := { this with n := this.n + 1 }
            writeThisIdx := s.writeThisIdx + 1
            readIdx := s.readIdx + 1 }
    else some s

/-- The second inner loop, for the iterations that are left of `level / 2`. -/
def copyToOther (m : ℕ) : ℕ → SplitState P V → Option (SplitState P V)
  | 0, s => some s
  | k + 1, s =>
    if s.readIdx < m then
      (s.other.write s.writeOtherIdx (s.this.values s.readIdx)).bind fun other =>
        copyToOther m k
          { s with
            other := { other with n := other.n + 1 }
            writeOtherIdx := s.writeOtherIdx + 1
            readIdx := s.readIdx + 1 }
    else some s

/-- The loop over the levels of the tree; the second argument bounds the iterations. -/
def copyLevels (m : ℕ) : ℕ → ℕ → SplitState P V → Option (SplitState P V)
  | fuel, level, s =>
    if s.readIdx < m then
      match fuel with
      | 0 => none
      | fuel + 1 => do
        let s₁ ← copyToThis m (level / 2) s
        let s₂ ← copyToOther m (level / 2) s₁
        copyLevels m fuel (level * 2) s₂
    else some s

/-- `this.split(other)`: the left subtree stays, the right subtree and then the root move.  What
`other` held before is dropped. -/
def split [LinearOrder P] [OrderTop P] (this other : Heap P V) :
    Option (Heap P V × Heap P V) :=
  if this.n < 2 then some (this, other)
  else do
    let m := this.n
    let root := this.values 0
    let other₁ ← other.resizeBigger (m / 2)
    let s ← copyLevels m m 2
      { this := { this with n := 0 }
        other := { other₁ with n := 0 }
        writeThisIdx := 0
        writeOtherIdx := 0
        readIdx := 1 }
    let other₂ ← s.other.insert root.priority root.value
    return (s.this, other₂)

/-- `this.swap(other)` exchanges all three fields. -/
def swap (this other : Heap P V) : Heap P V × Heap P V := (other, this)

/-! ## What a heap holds -/

/-- The entries of a heap, as a multiset. -/
def entries (h : Heap P V) : Multiset (KV P V) := (Multiset.range h.n).map h.values

/-- Min-heap order on the live cells. -/
def Ordered [LE P] (h : Heap P V) : Prop :=
  ∀ i, 0 < i → i < h.n → (h.values (parent i)).priority ≤ (h.values i).priority

/-- The representation invariant. -/
structure Valid [LE P] (h : Heap P V) : Prop where
  ordered : h.Ordered
  bounded : h.n ≤ h.capacity
  allocated : 0 < h.capacity

@[simp] theorem entries_zero {h : Heap P V} (hn : h.n = 0) : h.entries = 0 := by
  simp [entries, hn]

@[simp] theorem card_entries (h : Heap P V) : h.entries.card = h.n := by simp [entries]

theorem entries_eq_zero_iff (h : Heap P V) : h.entries = 0 ↔ h.n = 0 := by
  rw [← Multiset.card_eq_zero, card_entries]

theorem new_valid [LE P] (block : ℕ → KV P V) : (new block).Valid where
  ordered i _ hi := absurd hi (Nat.not_lt_zero i)
  bounded := Nat.zero_le _
  allocated := by simp [new]

end Heap

end PwsaStar
