/-
# PwsaStar.Treap.Basic — the weighted `Treap` of `other/treap-frontier.hpp`, operation by operation.

A treap is a search tree on the keys and a heap on the priorities.  A node is owned by the one pointer
that leads to it, so trees are values here and an assignment to a child builds a new node.  Operations
return `none` where an `assert` fails or a null pointer is followed.

Every node keeps the weight of its subtree in `totalWeight`.  `fix_weights` recomputes it from the
children; the two rotations move it from node to node by additions and subtractions instead.
Weights and priorities are exact integers.
-/
import Mathlib.Data.Int.Order.Basic
import Mathlib.Algebra.BigOperators.Group.List.Basic
import Mathlib.Algebra.Order.Group.Int
import Mathlib.Tactic.Ring

namespace PwsaStar.Treap

/-- What the template asks of its `VALUE`: the weight, the flag `mustProcess`, and
`src.split_at(w, dst)` as the pair of `src` and `dst` after the call. -/
structure ValueOps (V : Type*) where
  weight : V → ℤ
  mustProcess : V → Bool
  splitAt : ℤ → V → V × V

/-- The contract of `split_at` in the header comment, for the amounts the treap asks for: `w` stays in
`src`, and together the two weigh what `src` weighed. -/
def ValueOps.Contract {V : Type*} (ops : ValueOps V) : Prop :=
  ∀ v w, 0 < w → w < ops.weight v →
    ops.weight (ops.splitAt w v).1 = w ∧
      ops.weight (ops.splitAt w v).1 + ops.weight (ops.splitAt w v).2 = ops.weight v

/-- `Node*`. -/
inductive Tree (K V : Type*)
  | nil
  | node (key : K) (value : V) (priority totalWeight : ℤ) (left right : Tree K V)

variable {K V : Type*}

namespace Tree

def nodeTotalWeight : Tree K V → ℤ
  | nil => 0
  | node _ _ _ totalWeight _ _ => totalWeight

@[simp] theorem nodeTotalWeight_nil : (nil : Tree K V).nodeTotalWeight = 0 := rfl

@[simp] theorem nodeTotalWeight_node (k : K) (v : V) (p tw : ℤ) (l r : Tree K V) :
    (node k v p tw l r).nodeTotalWeight = tw := rfl

/-- The node with these fields after `fix_weights`. -/
def fixWeights (ops : ValueOps V) (key : K) (value : V) (priority : ℤ) (left right : Tree K V) :
    Tree K V :=
  node key value priority (left.nodeTotalWeight + ops.weight value + right.nodeTotalWeight) left right

/-- Lift the left child over its parent if its priority is the higher one.  A child with its parent's
key changes places with it instead: a rotation would put an equal key on the right. -/
def maybeRotateRight [DecidableEq K] (ops : ValueOps V) : Tree K V → Option (Tree K V)
  | nil => none
  | node _ _ _ _ nil _ => none
  | node k v p tw (node kl vl pl twl ll rl) r =>
    if p < pl then
      if kl = k then
        some (node kl vl pl tw (node k v p (twl + (ops.weight v - ops.weight vl)) ll rl) r)
      else
        let tw₁ := tw - twl
        let twl₁ := twl + tw₁
        some (node kl vl pl twl₁ ll (node k v p (tw₁ + rl.nodeTotalWeight) rl r))
    else some (node k v p tw (node kl vl pl twl ll rl) r)

def maybeRotateLeft : Tree K V → Option (Tree K V)
  | nil => none
  | node _ _ _ _ _ nil => none
  | node k v p tw l (node kr vr pr twr lr rr) =>
    if p < pr then
      let tw₁ := tw - twr
      let twr₁ := twr + tw₁
      some (node kr vr pr twr₁ (node k v p (tw₁ + lr.nodeTotalWeight) l lr) rr)
    else some (node k v p tw l (node kr vr pr twr lr rr))

/-- `hash` is `hash_signed((long) key)`, the priority of a node. -/
def nodeInsert [LinearOrder K] (ops : ValueOps V) (hash : K → ℤ) (key : K) (value : V) :
    Tree K V → Option (Tree K V)
  | nil => some (node key value (hash key) (ops.weight value) nil nil)
  | node k v p _ l r =>
    if key ≤ k then do
      let l' ← nodeInsert ops hash key value l
      maybeRotateRight ops (fixWeights ops k v p l' r)
    else do
      let r' ← nodeInsert ops hash key value r
      maybeRotateLeft (fixWeights ops k v p l r')

def nodeDeleteMin (ops : ValueOps V) : Tree K V → Option ((K × V) × Tree K V)
  | nil => none
  | node k v _ _ nil r => some ((k, v), r)
  | node k v p _ (node kl vl pl twl ll rl) r => do
    let (result, l') ← nodeDeleteMin ops (node kl vl pl twl ll rl)
    return (result, fixWeights ops k v p l' r)

/-- The two trees `node_split_at` returns. -/
def nodeSplitAt (ops : ValueOps V) : Tree K V → ℤ → Tree K V × Tree K V
  | nil, _ => (nil, nil)
  | node k v p _ l r, w =>
    if w ≤ l.nodeTotalWeight then
      let pair := nodeSplitAt ops l w
      (pair.1, fixWeights ops k v p pair.2 r)
    else if w < l.nodeTotalWeight + ops.weight v then
      if ops.mustProcess v = true then
        let parts := ops.splitAt (w - l.nodeTotalWeight) v
        (fixWeights ops k parts.1 p l nil, fixWeights ops k parts.2 p nil r)
      else (fixWeights ops k v p l nil, r)
    else if w = l.nodeTotalWeight + ops.weight v then (fixWeights ops k v p l nil, r)
    else
      let pair := nodeSplitAt ops r (w - l.nodeTotalWeight - ops.weight v)
      (fixWeights ops k v p l pair.1, pair.2)

/-- `node_check` runs through without a failed `assert`. -/
def nodeCheck [LinearOrder K] (ops : ValueOps V) :
    Tree K V → Option K → Option K → Option ℤ → Prop
  | nil, _, _, _ => True
  | node k v p tw l r, leftBound, rightBound, pBound =>
    (∀ b ∈ leftBound, b < k) ∧ (∀ b ∈ rightBound, k ≤ b) ∧ (∀ b ∈ pBound, p ≤ b) ∧
      tw = l.nodeTotalWeight + ops.weight v + r.nodeTotalWeight ∧
      nodeCheck ops l leftBound (some k) (some p) ∧ nodeCheck ops r (some k) rightBound (some p)

instance decidableNodeCheck [LinearOrder K] (ops : ValueOps V) :
    ∀ (t : Tree K V) (leftBound rightBound : Option K) (pBound : Option ℤ),
      Decidable (nodeCheck ops t leftBound rightBound pBound)
  | nil, _, _, _ => inferInstanceAs (Decidable True)
  | node k _ p _ l r, leftBound, rightBound, _ =>
    have := decidableNodeCheck ops l leftBound (some k) (some p)
    have := decidableNodeCheck ops r (some k) rightBound (some p)
    inferInstanceAs (Decidable (_ ∧ _ ∧ _ ∧ _ ∧ _ ∧ _))

/-- The entries from left to right. -/
def inorder : Tree K V → List (K × V)
  | nil => []
  | node k v _ _ l r => inorder l ++ (k, v) :: inorder r

/-! ## The parts of the check -/

/-- The order of the keys. -/
def Within [LinearOrder K] : Option K → Option K → Tree K V → Prop
  | _, _, nil => True
  | lo, hi, node k _ _ _ l r =>
    (∀ b ∈ lo, b < k) ∧ (∀ b ∈ hi, k ≤ b) ∧ Within lo (some k) l ∧ Within (some k) hi r

/-- The root's priority is at most `b`. -/
def Below (b : ℤ) : Tree K V → Prop
  | nil => True
  | node _ _ p _ _ _ => p ≤ b

/-- The order of the priorities. -/
def HeapOrdered : Tree K V → Prop
  | nil => True
  | node _ _ p _ l r => Below p l ∧ Below p r ∧ HeapOrdered l ∧ HeapOrdered r

/-- Every node has the weight of its subtree. -/
def Weighed (ops : ValueOps V) : Tree K V → Prop
  | nil => True
  | node _ v _ tw l r =>
    tw = l.nodeTotalWeight + ops.weight v + r.nodeTotalWeight ∧ Weighed ops l ∧ Weighed ops r

/-- Every priority is the hash of its key.  This is what keeps the exchange in `maybeRotateRight` from
ever being made. -/
def Hashed (hash : K → ℤ) : Tree K V → Prop
  | nil => True
  | node k _ p _ l r => p = hash k ∧ Hashed hash l ∧ Hashed hash r

theorem nodeCheck_iff [LinearOrder K] {ops : ValueOps V} {t : Tree K V} {lo hi : Option K}
    {pb : Option ℤ} :
    nodeCheck ops t lo hi pb ↔
      Within lo hi t ∧ (∀ b ∈ pb, Below b t) ∧ HeapOrdered t ∧ Weighed ops t := by
  induction t generalizing lo hi pb with
  | nil => simp [nodeCheck, Within, Below, HeapOrdered, Weighed]
  | node k v p tw l r ihl ihr =>
    simp only [nodeCheck, Within, Below, HeapOrdered, Weighed, ihl, ihr, Option.mem_some_iff,
      forall_eq']
    tauto

/-- What every subtree is at every moment, between the keys `lo` and `hi`. -/
structure Sound [LinearOrder K] (ops : ValueOps V) (hash : K → ℤ) (lo hi : Option K) (t : Tree K V) :
    Prop where
  within : Within lo hi t
  heap : HeapOrdered t
  weighed : Weighed ops t
  hashed : Hashed hash t

/-- What every treap is at every moment. -/
structure Valid [LinearOrder K] (ops : ValueOps V) (hash : K → ℤ) (t : Tree K V) : Prop where
  sound : Sound ops hash none none t
  positive : ∀ e ∈ inorder t, 0 < ops.weight e.2

theorem nil_sound [LinearOrder K] (ops : ValueOps V) (hash : K → ℤ) (lo hi : Option K) :
    Sound ops hash lo hi (nil : Tree K V) :=
  ⟨trivial, trivial, trivial, trivial⟩

theorem sound_node_iff [LinearOrder K] {ops : ValueOps V} {hash : K → ℤ} {lo hi : Option K} {k : K}
    {v : V} {p tw : ℤ} {l r : Tree K V} :
    Sound ops hash lo hi (node k v p tw l r) ↔
      ((∀ b ∈ lo, b < k) ∧ (∀ b ∈ hi, k ≤ b)) ∧ p = hash k ∧
        tw = l.nodeTotalWeight + ops.weight v + r.nodeTotalWeight ∧ (Below p l ∧ Below p r) ∧
        Sound ops hash lo (some k) l ∧ Sound ops hash (some k) hi r := by
  constructor
  · rintro ⟨⟨hlo, hhi, hwl, hwr⟩, ⟨hbl, hbr, hol, hor⟩, ⟨htw, hel, her⟩, hp, hhl, hhr⟩
    exact ⟨⟨hlo, hhi⟩, hp, htw, ⟨hbl, hbr⟩, ⟨hwl, hol, hel, hhl⟩, hwr, hor, her, hhr⟩
  · rintro ⟨⟨hlo, hhi⟩, hp, htw, ⟨hbl, hbr⟩, ⟨hwl, hol, hel, hhl⟩, hwr, hor, her, hhr⟩
    exact ⟨⟨hlo, hhi, hwl, hwr⟩, ⟨hbl, hbr, hol, hor⟩, ⟨htw, hel, her⟩, hp, hhl, hhr⟩

theorem Sound.check [LinearOrder K] {ops : ValueOps V} {hash : K → ℤ} {lo hi : Option K}
    {t : Tree K V} (h : Sound ops hash lo hi t) : nodeCheck ops t lo hi none :=
  nodeCheck_iff.mpr ⟨h.within, by simp, h.heap, h.weighed⟩

theorem nil_valid [LinearOrder K] (ops : ValueOps V) (hash : K → ℤ) :
    Valid ops hash (nil : Tree K V) where
  sound := nil_sound ops hash none none
  positive := by simp [inorder]

theorem Below.mono {b c : ℤ} {t : Tree K V} (h : Below b t) (hbc : b ≤ c) : Below c t := by
  cases t with
  | nil => trivial
  | node => exact le_trans h hbc

/-- The bounds of a subtree may be moved outwards. -/
theorem Within.mono [LinearOrder K] {lo hi lo' hi' : Option K} {t : Tree K V} (h : Within lo hi t)
    (hlo : ∀ k, (∀ b ∈ lo, b < k) → ∀ b ∈ lo', b < k)
    (hhi : ∀ k, (∀ b ∈ hi, k ≤ b) → ∀ b ∈ hi', k ≤ b) : Within lo' hi' t := by
  induction t generalizing lo hi lo' hi' with
  | nil => trivial
  | node k v p tw l r ihl ihr =>
    obtain ⟨h₁, h₂, hl, hr⟩ := h
    exact ⟨hlo k h₁, hhi k h₂, ihl hl hlo fun _ h => h, ihr hr (fun _ h => h) hhi⟩

theorem Sound.mono [LinearOrder K] {ops : ValueOps V} {hash : K → ℤ} {lo hi lo' hi' : Option K}
    {t : Tree K V} (h : Sound ops hash lo hi t)
    (hlo : ∀ k, (∀ b ∈ lo, b < k) → ∀ b ∈ lo', b < k)
    (hhi : ∀ k, (∀ b ∈ hi, k ≤ b) → ∀ b ∈ hi', k ≤ b) : Sound ops hash lo' hi' t :=
  ⟨h.within.mono hlo hhi, h.heap, h.weighed, h.hashed⟩

/-! ## The weight of a sequence of entries -/

/-- The sum of the weights of the entries. -/
def weightOf (ops : ValueOps V) (es : List (K × V)) : ℤ := (es.map fun e => ops.weight e.2).sum

@[simp] theorem weightOf_nil (ops : ValueOps V) : weightOf ops ([] : List (K × V)) = 0 := rfl

@[simp] theorem weightOf_cons (ops : ValueOps V) (e : K × V) (es : List (K × V)) :
    weightOf ops (e :: es) = ops.weight e.2 + weightOf ops es := by
  simp [weightOf]

@[simp] theorem weightOf_append (ops : ValueOps V) (es fs : List (K × V)) :
    weightOf ops (es ++ fs) = weightOf ops es + weightOf ops fs := by
  simp [weightOf]

theorem weightOf_nonneg {ops : ValueOps V} {es : List (K × V)}
    (h : ∀ e ∈ es, 0 < ops.weight e.2) : 0 ≤ weightOf ops es := by
  induction es with
  | nil => exact le_rfl
  | cons e es ih =>
    rw [weightOf_cons]
    have he := h e List.mem_cons_self
    have hes := ih fun e' he' => h e' (List.mem_cons_of_mem e he')
    omega

/-- The root of a weighed tree carries the weight of all its entries. -/
theorem Weighed.total {ops : ValueOps V} {t : Tree K V} (h : Weighed ops t) :
    t.nodeTotalWeight = weightOf ops (inorder t) := by
  induction t with
  | nil => rfl
  | node k v p tw l r ihl ihr =>
    obtain ⟨htw, hl, hr⟩ := h
    show tw = _
    rw [htw, ihl hl, ihr hr, inorder, weightOf_append, weightOf_cons]
    ring

@[simp] theorem inorder_fixWeights (ops : ValueOps V) (k : K) (v : V) (p : ℤ) (l r : Tree K V) :
    inorder (fixWeights ops k v p l r) = inorder l ++ (k, v) :: inorder r := rfl

end Tree

end PwsaStar.Treap
