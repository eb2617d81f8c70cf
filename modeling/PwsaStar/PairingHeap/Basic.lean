/-
# PwsaStar.PairingHeap.Basic — the pairing heap of `other/pairing-heap.hpp`, pointer by pointer.

A node points to its first child and to its next sibling, so the children of a node are an intrusive
list.  `A` are the addresses, a null pointer is `none`, and the memory holds the nodes that are allocated.
An operation has no result where an `assert` fails, where a null pointer or a freed node is read, or where
a recursion goes deeper than `fuel`.
-/
import Mathlib.Order.Lattice
import Mathlib.Logic.Function.Basic
import Mathlib.Data.Nat.Notation

namespace PwsaStar.PairingHeap

/-- `Node` -/
structure Node (A K V : Type) where
  key : K
  value : V
  sibling : Option A
  child : Option A
  deriving DecidableEq

abbrev Memory (A K V : Type) := A → Option (Node A K V)

variable {A K V : Type} [DecidableEq A]

/-- `X->sibling = p` -/
def setSibling (m : Memory A K V) (X : A) (p : Option A) : Option (Memory A K V) :=
  (m X).map fun node => Function.update m X (some { node with sibling := p })

/-- `X->child = p` -/
def setChild (m : Memory A K V) (X : A) (p : Option A) : Option (Memory A K V) :=
  (m X).map fun node => Function.update m X (some { node with child := p })

omit [DecidableEq A] in
/-- `X == nullptr || X->sibling == nullptr` -/
def assertNoSibling (m : Memory A K V) : Option A → Option Unit
  | none => some ()
  | some X => (m X).bind fun node => if node.sibling = none then some () else none

section Merge

variable [LinearOrder K]

/-- `merge_node`, with its two assertions. -/
def mergeNode (m : Memory A K V) (X Y : Option A) : Option (Memory A K V × Option A) := do
  assertNoSibling m X
  assertNoSibling m Y
  match X, Y with
  | none, Y => return (m, Y)
  | X, none => return (m, X)
  | some X, some Y =>
    let nodeX ← m X
    let nodeY ← m Y
    if nodeX.key ≤ nodeY.key then
      let m ← setSibling m Y nodeX.child
      let m ← setChild m X (some Y)
      return (m, some X)
    else
      let m ← setSibling m X nodeY.child
      let m ← setChild m Y (some X)
      return (m, some Y)

/-- `merge_pairs_node`.  The language leaves open which of the two arguments of the last call is
evaluated first. -/
def mergePairsNode (rightFirst : Bool) :
    ℕ → Memory A K V → Option A → Option (Memory A K V × Option A)
  | _, m, none => some (m, none)
  | 0, _, some _ => none
  | fuel + 1, m, some X => do
    let nodeX ← m X
    match nodeX.sibling with
    | none => return (m, some X)
    | some Y =>
      let nodeY ← m Y
      let rest := nodeY.sibling
      let m ← setSibling m X none
      let m ← setSibling m Y none
      let (m, left, right) ← (if rightFirst then do
          let (m, right) ← mergePairsNode rightFirst fuel m rest
          let (m, left) ← mergeNode m (some X) (some Y)
          return (m, left, right)
        else do
          let (m, left) ← mergeNode m (some X) (some Y)
          let (m, right) ← mergePairsNode rightFirst fuel m rest
          return (m, left, right))
      mergeNode m left right

end Merge

/-! ## The recursive checks -/

mutual

/-- `check_node` -/
def checkNode [LinearOrder K] (m : Memory A K V) : ℕ → Option A → Option K → Option Unit
  | _, none, _ => some ()
  | 0, some _, _ => none
  | fuel + 1, some X, upperBound => do
    let node ← m X
    if ∀ bound ∈ upperBound, bound ≤ node.key then checkChildren m fuel node.child node.key
    else none

/-- Its loop, from `child` on. -/
def checkChildren [LinearOrder K] (m : Memory A K V) : ℕ → Option A → K → Option Unit
  | _, none, _ => some ()
  | 0, some _, _ => none
  | fuel + 1, some child, key => do
    checkNode m fuel (some child) (some key)
    let node ← m child
    checkChildren m fuel node.sibling key

end

mutual

/-- `size_node` -/
def sizeNode (m : Memory A K V) : ℕ → Option A → Option ℕ
  | _, none => some 0
  | 0, some _ => none
  | fuel + 1, some X => do
    let node ← m X
    sizeChildren m fuel node.child 1

/-- Its loop, from `child` on. -/
def sizeChildren (m : Memory A K V) : ℕ → Option A → ℕ → Option ℕ
  | _, none, size => some size
  | 0, some _, _ => none
  | fuel + 1, some child, size => do
    let more ← sizeNode m fuel (some child)
    let node ← m child
    sizeChildren m fuel node.sibling (size + more)

end

/-! ## The public operations -/

/-- What `my_malloc` and the assignments behind it make of the cell `X`. -/
def newNode (m : Memory A K V) (X : A) (k : K) (v : V) : Memory A K V :=
  Function.update m X (some ⟨k, v, none, none⟩)

/-- `Heap(k, v)` -/
def construct (m : Memory A K V) (X : A) (k : K) (v : V) : Memory A K V × Option A :=
  (newNode m X k v, some X)

/-- `insert` -/
def insert [LinearOrder K] (m : Memory A K V) (root : Option A) (X : A) (k : K) (v : V) :
    Option (Memory A K V × Option A) :=
  mergeNode (newNode m X k v) root (some X)

/-- `merge_with`: the two roots after it. -/
def mergeWith [LinearOrder K] (m : Memory A K V) (root otherRoot : Option A) :
    Option (Memory A K V × Option A × Option A) := do
  let (m, root) ← mergeNode m root otherRoot
  return (m, root, none)

/-- `delete_min` -/
def deleteMin [LinearOrder K] (rightFirst : Bool) (fuel : ℕ) (m : Memory A K V) :
    Option A → Option ((K × V) × Memory A K V × Option A)
  | none => none
  | some oldroot => do
    let node ← m oldroot
    let (m, root) ← mergePairsNode rightFirst fuel m node.child
    let old ← m oldroot
    return ((old.key, old.value), Function.update m oldroot none, root)

/-- `check` -/
def check [LinearOrder K] (fuel : ℕ) (m : Memory A K V) (root : Option A) : Option Unit :=
  checkNode m fuel root none

/-- `size` -/
def size (fuel : ℕ) (m : Memory A K V) (root : Option A) : Option ℕ := sizeNode m fuel root

end PwsaStar.PairingHeap
