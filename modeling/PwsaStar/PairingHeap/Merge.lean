/-
# PwsaStar.PairingHeap.Merge — what the operations of the pairing heap do to the forest of nodes.

Read as a left and a right pointer, `child` and `sibling` make a binary tree of what hangs together in
memory.  `merge` and `mergePairs` are the operations on such trees.  They keep the cells and the heap
order (`cells_merge`, `cells_mergePairs`, `HeapOrdered.merge`, `HeapOrdered.mergePairs`), and the
operations on pointers do to the memory what they do to the trees (`mergeNode_spec`,
`mergePairsNode_spec`): no assertion fails, and no other node is touched.
-/
import PwsaStar.Lib.LinkedTree
import PwsaStar.PairingHeap.Basic

namespace PwsaStar.PairingHeap

open PwsaStar.Lib LinkedTree

variable {A K V : Type}

/-! ## On trees -/

/-- A node with its children on the left and the siblings behind it on the right. -/
abbrev Tree (A K V : Type) := LinkedTree A (K × V)

/-- The node of an entry. -/
def nodeOf (e : K × V) (child sibling : Option A) : Node A K V := ⟨e.1, e.2, sibling, child⟩

theorem nodeOf_readable : Readable (nodeOf : K × V → Option A → Option A → Node A K V) := by
  rintro ⟨k, v⟩ c s ⟨k', v'⟩ c' s' h
  obtain ⟨rfl, rfl, rfl, rfl⟩ := Node.mk.inj h
  exact ⟨rfl, rfl, rfl⟩

/-- The root has no sibling. -/
def Alone : Tree A K V → Prop
  | nil => True
  | node _ _ _ sibling => sibling = nil

section Order

variable [LinearOrder K]

/-- The roots of a list of siblings have keys from `k` on. -/
def AtLeast (k : K) : Tree A K V → Prop
  | nil => True
  | node _ e _ sibling => k ≤ e.1 ∧ AtLeast k sibling

/-- **The key of a child is at least that of its parent.** -/
def HeapOrdered : Tree A K V → Prop
  | nil => True
  | node _ e child sibling => AtLeast e.1 child ∧ HeapOrdered child ∧ HeapOrdered sibling

/-- `merge_node`, on trees. -/
def merge : Tree A K V → Tree A K V → Tree A K V
  | nil, u => u
  | t, nil => t
  | node x e c s, node y f d r =>
    if e.1 ≤ f.1 then node x e (node y f d c) s else node y f (node x e c d) r

/-- `merge_pairs_node`, on trees. -/
def mergePairs : Tree A K V → Tree A K V
  | nil => nil
  | node x e c nil => node x e c nil
  | node x e c (node y f d rest) =>
    merge (merge (node x e c nil) (node y f d nil)) (mergePairs rest)

/-- Nothing in the tree is below its roots. -/
theorem HeapOrdered.le_key {k : K} {t : Tree A K V} (ht : HeapOrdered t) (hk : AtLeast k t) :
    ∀ p ∈ t.cells, k ≤ p.2.1 := by
  induction t generalizing k with
  | nil => exact nofun
  | node x e c s ihc ihs =>
    obtain ⟨hc, hco, hso⟩ := ht
    obtain ⟨hke, hks⟩ := hk
    intro p hp
    rcases List.mem_cons.mp hp with rfl | hp
    · exact hke
    rcases List.mem_append.mp hp with hp | hp
    · exact le_trans hke (ihc hco hc p hp)
    · exact ihs hso hks p hp

@[simp] theorem merge_nil (t : Tree A K V) : merge t nil = t := by
  cases t with
  | nil => rfl
  | node x e c s => rfl

theorem Alone.merge {t u : Tree A K V} (ht : Alone t) (hu : Alone u) : Alone (merge t u) := by
  cases t with
  | nil => exact hu
  | node x e c s =>
    cases u with
    | nil => exact ht
    | node y f d r =>
      rw [PairingHeap.merge]
      split_ifs
      · exact ht
      · exact hu

theorem HeapOrdered.merge {t u : Tree A K V} (ht : HeapOrdered t) (hu : HeapOrdered u) :
    HeapOrdered (merge t u) := by
  cases t with
  | nil => exact hu
  | node x e c s =>
    cases u with
    | nil => exact ht
    | node y f d r =>
      obtain ⟨hc, hco, hso⟩ := ht
      obtain ⟨hd, hdo, hro⟩ := hu
      rw [PairingHeap.merge]
      split_ifs with hle
      · exact ⟨⟨hle, hc⟩, ⟨hd, hdo, hco⟩, hso⟩
      · exact ⟨⟨le_of_lt (not_le.mp hle), hd⟩, ⟨hc, hco, hdo⟩, hro⟩

/-- **Merging two trees keeps the cells.** -/
theorem cells_merge {t u : Tree A K V} (ht : Alone t) (hu : Alone u) :
    (merge t u).cells.Perm (t.cells ++ u.cells) := by
  cases t with
  | nil => exact List.Perm.refl _
  | node x e c s =>
    cases u with
    | nil => simp
    | node y f d r =>
      obtain rfl : s = nil := ht
      obtain rfl : r = nil := hu
      rw [merge]
      split_ifs
      · simp only [cells_node, cells_nil, List.append_nil, List.cons_append]
        apply List.Perm.cons
        show ((y, f) :: d.cells ++ c.cells).Perm _
        exact List.perm_append_comm
      · simp only [cells_node, cells_nil, List.append_nil, List.cons_append]
        have hmiddle : ((y, f) :: (c.cells ++ d.cells)).Perm (c.cells ++ (y, f) :: d.cells) :=
          List.perm_middle.symm
        exact (List.Perm.swap _ _ _).trans (hmiddle.cons _)

theorem addrs_merge {t u : Tree A K V} (ht : Alone t) (hu : Alone u) :
    (merge t u).addrs.Perm (t.addrs ++ u.addrs) := by
  have h := (cells_merge ht hu).map Prod.fst
  rwa [List.map_append] at h

theorem mergePairs_alone (t : Tree A K V) : Alone (mergePairs t) := by
  induction t using mergePairs.induct with
  | case1 => trivial
  | case2 x e c => exact rfl
  | case3 x e c y f d rest ih =>
    rw [mergePairs]
    exact Alone.merge (Alone.merge rfl rfl) ih

theorem HeapOrdered.mergePairs {t : Tree A K V} (ht : HeapOrdered t) : HeapOrdered (mergePairs t) := by
  induction t using mergePairs.induct with
  | case1 => trivial
  | case2 x e c => exact ht
  | case3 x e c y f d rest ih =>
    obtain ⟨hc, hco, hd, hdo, hro⟩ := ht
    rw [PairingHeap.mergePairs]
    exact HeapOrdered.merge (HeapOrdered.merge ⟨hc, hco, trivial⟩ ⟨hd, hdo, trivial⟩) (ih hro)

/-- **Merging the children keeps the cells.** -/
theorem cells_mergePairs (t : Tree A K V) : (mergePairs t).cells.Perm t.cells := by
  induction t using mergePairs.induct with
  | case1 => exact List.Perm.refl _
  | case2 x e c => exact List.Perm.refl _
  | case3 x e c y f d rest ih =>
    rw [mergePairs]
    have hpair : (merge (node x e c nil) (node y f d nil)).cells.Perm
        ((node x e c nil).cells ++ (node y f d nil).cells) := cells_merge rfl rfl
    have hall := cells_merge (Alone.merge (t := node x e c nil) (u := node y f d nil) rfl rfl)
      (mergePairs_alone rest)
    apply hall.trans
    apply (hpair.append ih).trans
    simp

theorem addrs_mergePairs (t : Tree A K V) : (mergePairs t).addrs.Perm t.addrs :=
  (cells_mergePairs t).map Prod.fst

end Order

/-! ## On pointers -/

section Memory

variable {m : Memory A K V}

theorem assertNoSibling_eq {t : Tree A K V} (ht : t.Stored nodeOf m) (halone : Alone t) :
    assertNoSibling m t.root = some () := by
  cases t with
  | nil => rfl
  | node x e c s =>
    obtain rfl : s = nil := halone
    rw [root_node, assertNoSibling, ht.1]
    rfl

variable [DecidableEq A]

theorem setSibling_eq {x : A} {e : K × V} {c s : Option A} (hx : m x = some (nodeOf e c s))
    (p : Option A) : setSibling m x p = some (Function.update m x (some (nodeOf e c p))) := by
  rw [setSibling, hx]
  rfl

theorem setChild_eq {x : A} {e : K × V} {c s : Option A} (hx : m x = some (nodeOf e c s))
    (p : Option A) : setChild m x p = some (Function.update m x (some (nodeOf e p s))) := by
  rw [setChild, hx]
  rfl

/-- **`y` becomes the first child of `x`**, and nothing else changes. -/
theorem link_spec {x y : A} {e f : K × V} {c d : Tree A K V}
    (ht : (node x e c nil).Stored nodeOf m) (hu : (node y f d nil).Stored nodeOf m)
    (hnodup : ((node x e c nil).addrs ++ (node y f d nil).addrs).Nodup) :
    ∃ m', (do
        let m ← setSibling m y c.root
        let m ← setChild m x (some y)
        return (m, some x)) = some (m', some x) ∧
      (node x e (node y f d c) nil).Stored nodeOf m' ∧
      ∀ a, a ∉ (node x e c nil).addrs → a ∉ (node y f d nil).addrs → m' a = m a := by
  obtain ⟨hx, hc, -⟩ := ht
  obtain ⟨hy, hd, -⟩ := hu
  simp only [addrs_node, addrs_nil, List.append_nil, List.cons_append, List.nodup_cons,
    List.nodup_append, List.mem_append, List.mem_cons, not_or] at hnodup
  obtain ⟨⟨hxc, hxy, hxd⟩, -, ⟨hyd, -⟩, hdisjoint⟩ := hnodup
  have hyc : y ∉ c.addrs := fun h => hdisjoint y h y (Or.inl rfl) rfl
  -- `y->sibling` first, then `x->child`
  let m₁ := Function.update m y (some (nodeOf f d.root c.root))
  let m₂ := Function.update m₁ x (some (nodeOf e (some y) none))
  have hx₁ : m₁ x = some (nodeOf e c.root none) := (Function.update_of_ne hxy _ _).trans hx
  have hy₂ : m₂ y = some (nodeOf f d.root c.root) :=
    (Function.update_of_ne (Ne.symm hxy) _ _).trans (Function.update_self _ _ _)
  have hc₂ : c.Stored nodeOf m₂ := (hc.update hyc _).update hxc _
  have hd₂ : d.Stored nodeOf m₂ := (hd.update hyd _).update hxd _
  refine ⟨m₂, ?_, ⟨Function.update_self _ _ _, ⟨hy₂, hd₂, hc₂⟩, trivial⟩, ?_⟩
  · rw [setSibling_eq hy, Option.bind_eq_bind, Option.bind_some, setChild_eq hx₁]
    rfl
  · intro a hat hau
    simp only [addrs_node, List.mem_cons, not_or] at hat hau
    exact (Function.update_of_ne hat.1 _ _).trans (Function.update_of_ne hau.1 _ _)

/-- **The first two siblings are cut off**, from each other and from the rest. -/
theorem cut_spec {x y : A} {e f : K × V} {c d rest : Tree A K V}
    (ht : (node x e c (node y f d rest)).Stored nodeOf m)
    (hnodup : (node x e c (node y f d rest)).addrs.Nodup) :
    ∃ m₁ m₂, setSibling m x none = some m₁ ∧ setSibling m₁ y none = some m₂ ∧
      (node x e c nil).Stored nodeOf m₂ ∧ (node y f d nil).Stored nodeOf m₂ ∧ rest.Stored nodeOf m₂ ∧
      ∀ a, a ≠ x → a ≠ y → m₂ a = m a := by
  obtain ⟨hx, hc, hy, hd, hrest⟩ := ht
  simp only [addrs_node, List.nodup_cons, List.nodup_append, List.mem_append, List.mem_cons,
    not_or] at hnodup
  obtain ⟨⟨hxc, hxy, hxd, hxrest⟩, -, ⟨⟨hyd, hyrest⟩, -⟩, hdisjoint⟩ := hnodup
  have hyc : y ∉ c.addrs := fun h => hdisjoint y h y (Or.inl rfl) rfl
  let m₁ := Function.update m x (some (nodeOf e c.root none))
  let m₂ := Function.update m₁ y (some (nodeOf f d.root none))
  have hy₁ : m₁ y = some (nodeOf f d.root rest.root) :=
    (Function.update_of_ne (Ne.symm hxy) _ _).trans hy
  have hx₂ : m₂ x = some (nodeOf e c.root none) :=
    (Function.update_of_ne hxy _ _).trans (Function.update_self _ _ _)
  refine ⟨m₁, m₂, setSibling_eq hx none, setSibling_eq hy₁ none, ⟨hx₂, ?_, trivial⟩,
    ⟨Function.update_self _ _ _, ?_, trivial⟩, ?_, ?_⟩
  · exact (hc.update hxc _).update hyc _
  · exact (hd.update hxd _).update hyd _
  · exact (hrest.update hxrest _).update hyrest _
  · intro a hax hay
    exact (Function.update_of_ne hay _ _).trans (Function.update_of_ne hax _ _)

variable [LinearOrder K]

/-- **`merge_node` merges the trees**: its assertions hold, and no other node is touched. -/
theorem mergeNode_spec {t u : Tree A K V} (ht : t.Stored nodeOf m) (hu : u.Stored nodeOf m)
    (htalone : Alone t) (hualone : Alone u) (hnodup : (t.addrs ++ u.addrs).Nodup) :
    ∃ m', mergeNode m t.root u.root = some (m', (merge t u).root) ∧ (merge t u).Stored nodeOf m' ∧
      ∀ a, a ∉ t.addrs → a ∉ u.addrs → m' a = m a := by
  unfold mergeNode
  rw [assertNoSibling_eq ht htalone, assertNoSibling_eq hu hualone, Option.bind_eq_bind,
    Option.bind_some, Option.bind_eq_bind, Option.bind_some]
  cases t with
  | nil => exact ⟨m, rfl, hu, fun _ _ _ => rfl⟩
  | node x e c s =>
    cases u with
    | nil => exact ⟨m, rfl, ht, fun _ _ _ => rfl⟩
    | node y f d r =>
      obtain rfl : s = nil := htalone
      obtain rfl : r = nil := hualone
      simp only [root_node, root_nil, ht.1, hu.1, Option.bind_eq_bind, Option.bind_some]
      rw [merge]
      by_cases hle : e.1 ≤ f.1
      · have hkey : (nodeOf e c.root none).key ≤ (nodeOf f d.root none).key := hle
        rw [if_pos hle, if_pos hkey]
        exact link_spec ht hu hnodup
      · have hkey : ¬ (nodeOf e c.root none).key ≤ (nodeOf f d.root none).key := hle
        rw [if_neg hle, if_neg hkey]
        obtain ⟨m', hrun, hstored, hframe⟩ := link_spec hu ht (List.perm_append_comm.nodup_iff.mp hnodup)
        exact ⟨m', hrun, hstored, fun a hat hau => hframe a hau hat⟩

/-- What is to be shown of `merge_pairs_node` for a list of siblings. -/
def MergesPairs (rightFirst : Bool) (t : Tree A K V) : Prop :=
  ∀ m : Memory A K V, t.Stored nodeOf m → t.addrs.Nodup →
    ∃ m', (∀ fuel, t.size ≤ fuel →
        mergePairsNode rightFirst fuel m t.root = some (m', (mergePairs t).root)) ∧
      (mergePairs t).Stored nodeOf m' ∧ ∀ a, a ∉ t.addrs → m' a = m a

/-- The two arguments of the last call, in either order. -/
theorem arguments_spec {rightFirst : Bool} {t u rest : Tree A K V} (hpairs : MergesPairs rightFirst rest)
    (ht : t.Stored nodeOf m) (hu : u.Stored nodeOf m) (hrest : rest.Stored nodeOf m)
    (htalone : Alone t) (hualone : Alone u) (hnodup : (t.addrs ++ u.addrs ++ rest.addrs).Nodup) :
    ∃ m', (∀ fuel, rest.size ≤ fuel → (if rightFirst then do
          let (m, right) ← mergePairsNode rightFirst fuel m rest.root
          let (m, left) ← mergeNode m t.root u.root
          return (m, left, right)
        else do
          let (m, left) ← mergeNode m t.root u.root
          let (m, right) ← mergePairsNode rightFirst fuel m rest.root
          return (m, left, right)) = some (m', (merge t u).root, (mergePairs rest).root)) ∧
      (merge t u).Stored nodeOf m' ∧ (mergePairs rest).Stored nodeOf m' ∧
      ∀ a, a ∉ t.addrs → a ∉ u.addrs → a ∉ rest.addrs → m' a = m a := by
  obtain ⟨hpair, hrestNodup, hdisjoint⟩ := List.nodup_append.mp hnodup
  have hrest_of : ∀ a ∈ rest.addrs, a ∉ t.addrs ∧ a ∉ u.addrs := fun a ha =>
    ⟨fun h => hdisjoint a (List.mem_append_left _ h) a ha rfl,
      fun h => hdisjoint a (List.mem_append_right _ h) a ha rfl⟩
  -- whichever is evaluated first leaves the nodes of the other as they are
  cases rightFirst with
  | true =>
    obtain ⟨m₁, hrun₁, hright, hframe₁⟩ := hpairs m hrest hrestNodup
    obtain ⟨m₂, hrun₂, hleft, hframe₂⟩ := mergeNode_spec
      (ht.frame fun a ha => hframe₁ a fun h => (hrest_of a h).1 ha)
      (hu.frame fun a ha => hframe₁ a fun h => (hrest_of a h).2 ha) htalone hualone hpair
    refine ⟨m₂, ?_, hleft, hright.frame fun a ha => ?_, fun a hat hau harest => ?_⟩
    · intro fuel hfuel
      rw [if_pos rfl, hrun₁ fuel hfuel, Option.bind_eq_bind, Option.bind_some]
      dsimp only
      rw [hrun₂]
      rfl
    · have ha' := hrest_of a ((addrs_mergePairs rest).mem_iff.mp ha)
      exact hframe₂ a ha'.1 ha'.2
    · exact (hframe₂ a hat hau).trans (hframe₁ a harest)
  | false =>
    obtain ⟨m₁, hrun₁, hleft, hframe₁⟩ := mergeNode_spec ht hu htalone hualone hpair
    obtain ⟨m₂, hrun₂, hright, hframe₂⟩ := hpairs m₁
      (hrest.frame fun a ha => hframe₁ a (hrest_of a ha).1 (hrest_of a ha).2) hrestNodup
    refine ⟨m₂, ?_, hleft.frame fun a ha => ?_, hright, fun a hat hau harest => ?_⟩
    · intro fuel hfuel
      rw [if_neg Bool.false_ne_true, hrun₁, Option.bind_eq_bind, Option.bind_some]
      dsimp only
      rw [hrun₂ fuel hfuel]
      rfl
    · have ha' := (addrs_merge htalone hualone).mem_iff.mp ha
      exact hframe₂ a fun h => hdisjoint a ha' a h rfl
    · exact (hframe₂ a harest).trans (hframe₁ a hat hau)

/-- **`merge_pairs_node` merges the trees of a list of siblings in pairs**, as deep as the list is
long at most, and in whichever order the arguments are evaluated. -/
theorem mergePairsNode_spec (rightFirst : Bool) (t : Tree A K V) : MergesPairs rightFirst t := by
  induction t using mergePairs.induct with
  | case1 =>
    intro m _ _
    refine ⟨m, ?_, trivial, fun _ _ => rfl⟩
    intro fuel _
    cases fuel with
    | zero => rfl
    | succ fuel => rfl
  | case2 x e c =>
    intro m ht _
    refine ⟨m, ?_, ht, fun _ _ => rfl⟩
    intro fuel hfuel
    obtain ⟨fuel, rfl⟩ : ∃ f, fuel = f + 1 := Nat.exists_eq_add_one.mpr (by simp at hfuel; omega)
    rw [root_node, mergePairsNode, ht.1]
    rfl
  | case3 x e c y f d rest ih =>
    intro m ht hnodup
    have hsplit : ((node x e c nil).addrs ++ (node y f d nil).addrs ++ rest.addrs).Nodup := by
      simpa using hnodup
    obtain ⟨m₁, m₂, hset₁, hset₂, hfirst, hsecond, hrest, hframe₂⟩ := cut_spec ht hnodup
    obtain ⟨m₃, hargs, hleft, hright, hframe₃⟩ :=
      arguments_spec ih hfirst hsecond hrest rfl rfl hsplit
    have hperm : ((merge (node x e c nil) (node y f d nil)).addrs ++ (mergePairs rest).addrs).Perm
        ((node x e c nil).addrs ++ (node y f d nil).addrs ++ rest.addrs) :=
      (addrs_merge (t := node x e c nil) (u := node y f d nil) rfl rfl).append (addrs_mergePairs rest)
    obtain ⟨m₄, hrun, hall, hframe₄⟩ := mergeNode_spec hleft hright (Alone.merge rfl rfl)
      (mergePairs_alone rest) (hperm.nodup_iff.mpr hsplit)
    refine ⟨m₄, ?_, hall, ?_⟩
    · intro fuel hfuel
      obtain ⟨fuel, rfl⟩ : ∃ f, fuel = f + 1 := Nat.exists_eq_add_one.mpr (by simp at hfuel; omega)
      have hfuel' : rest.size ≤ fuel := by
        simp only [size_node] at hfuel
        omega
      rw [root_node, mergePairsNode, ht.1, Option.bind_eq_bind, Option.bind_some]
      show Option.bind (m y) _ = _
      rw [ht.2.2.1, Option.bind_some]
      show Option.bind (setSibling m x none) _ = _
      rw [hset₁, Option.bind_some, hset₂, Option.bind_eq_bind, Option.bind_some, Option.bind_eq_bind]
      exact (congrArg (Option.bind · _) (hargs fuel hfuel')).trans hrun
    · intro a ha
      have hout : a ∉ (node x e c nil).addrs ++ (node y f d nil).addrs ++ rest.addrs := by
        simpa using ha
      have hout₄ := mt hperm.mem_iff.mp hout
      simp only [List.mem_append, not_or] at hout hout₄
      rw [hframe₄ a hout₄.1 hout₄.2, hframe₃ a hout.1.1 hout.1.2 hout.2]
      simp only [addrs_node, List.mem_cons, not_or] at hout
      exact hframe₂ a hout.1.1.1 hout.1.2.1

/-! ## The checks -/

omit [DecidableEq A]

theorem checkNode_succ {x : A} {e : K × V} {c s : Option A} {upperBound : Option K}
    (hx : m x = some (nodeOf e c s)) (hbound : ∀ bound ∈ upperBound, bound ≤ e.1) (fuel : ℕ) :
    checkNode m (fuel + 1) (some x) upperBound = checkChildren m fuel c e.1 := by
  rw [checkNode, hx, Option.bind_eq_bind, Option.bind_some]
  exact if_pos hbound

/-- The loop of `check_node` goes through on children in heap order. -/
theorem checkChildren_eq {t : Tree A K V} (ht : t.Stored nodeOf m) (hordered : HeapOrdered t) :
    ∀ {key : K}, AtLeast key t → ∀ fuel, 2 * t.size ≤ fuel →
      checkChildren m fuel t.root key = some () := by
  induction t with
  | nil =>
    intro key _ fuel _
    rw [root_nil, checkChildren]
  | node x e c s ihc ihs =>
    intro key hkey fuel hfuel
    obtain ⟨hx, hc, hs⟩ := ht
    obtain ⟨hce, hco, hso⟩ := hordered
    rw [size_node] at hfuel
    obtain ⟨fuel, rfl⟩ : ∃ f, fuel = f + 2 := Nat.exists_eq_add_of_le' (by omega)
    have hbound : ∀ bound ∈ some key, bound ≤ e.1 := by
      rintro bound ⟨⟩
      exact hkey.1
    rw [root_node, checkChildren, checkNode_succ hx hbound, ihc hc hco hce fuel (by omega), hx]
    exact ihs hs hso hkey.2 (fuel + 1) (by omega)

/-- **`check` goes through on a tree in heap order.** -/
theorem check_eq {t : Tree A K V} (ht : t.Stored nodeOf m) (hordered : HeapOrdered t) {fuel : ℕ}
    (hfuel : 2 * t.size ≤ fuel) : check fuel m t.root = some () := by
  cases t with
  | nil => rw [check, root_nil, checkNode]
  | node x e c s =>
    obtain ⟨hx, hc, -⟩ := ht
    obtain ⟨hce, hco, -⟩ := hordered
    rw [size_node] at hfuel
    obtain ⟨fuel, rfl⟩ : ∃ f, fuel = f + 1 := Nat.exists_eq_add_one.mpr (by omega)
    have hnone : ∀ bound ∈ (none : Option K), bound ≤ e.1 := by
      rintro bound ⟨⟩
    rw [check, root_node, checkNode_succ hx hnone]
    exact checkChildren_eq hc hco hce fuel (by omega)

omit [LinearOrder K]

theorem sizeNode_succ {x : A} {e : K × V} {c s : Option A} (hx : m x = some (nodeOf e c s)) (fuel : ℕ) :
    sizeNode m (fuel + 1) (some x) = sizeChildren m fuel c 1 := by
  rw [sizeNode, hx]
  rfl

/-- The loop of `size_node` counts the nodes below it. -/
theorem sizeChildren_eq {t : Tree A K V} (ht : t.Stored nodeOf m) : ∀ n fuel, 2 * t.size ≤ fuel →
    sizeChildren m fuel t.root n = some (n + t.size) := by
  induction t with
  | nil =>
    intro n fuel _
    rw [root_nil, sizeChildren]
    rfl
  | node x e c s ihc ihs =>
    intro n fuel hfuel
    obtain ⟨hx, hc, hs⟩ := ht
    rw [size_node] at hfuel ⊢
    obtain ⟨fuel, rfl⟩ : ∃ f, fuel = f + 2 := Nat.exists_eq_add_of_le' (by omega)
    rw [root_node, sizeChildren, sizeNode_succ hx, ihc hc 1 fuel (by omega), hx]
    have hsum : n + (1 + c.size) + s.size = n + (c.size + s.size + 1) := by omega
    rw [← hsum]
    exact ihs hs _ (fuel + 1) (by omega)

/-- **`size` counts the nodes.** -/
theorem size_eq {t : Tree A K V} (ht : t.Stored nodeOf m) (halone : Alone t) {fuel : ℕ}
    (hfuel : 2 * t.size ≤ fuel) : PairingHeap.size fuel m t.root = some t.size := by
  cases t with
  | nil => rw [PairingHeap.size, root_nil, sizeNode, size_nil]
  | node x e c s =>
    obtain rfl : s = nil := halone
    obtain ⟨hx, hc, -⟩ := ht
    rw [size_node] at hfuel ⊢
    obtain ⟨fuel, rfl⟩ : ∃ f, fuel = f + 1 := Nat.exists_eq_add_one.mpr (by omega)
    rw [PairingHeap.size, root_node, sizeNode_succ hx, sizeChildren_eq hc 1 fuel (by omega), size_nil]
    congr 1
    omega

end Memory

end PwsaStar.PairingHeap
