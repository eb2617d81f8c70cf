/-
# PwsaStar.PairingHeap.Forest — several pairing heaps in one memory.

`Parts` says that every node in memory belongs to exactly one heap, or to one tree that is in no heap at
the moment.  Each operation is put together from steps between such memories: a new node is allocated
(`Parts.new`), a heap is taken out (`Parts.detach`), a root gives way to its children (`Parts.pairs`), and
what is in no heap goes into one (`Parts.attach`, `Parts.settle`).
-/
import PwsaStar.PairingHeap.Merge

namespace PwsaStar.PairingHeap

open PwsaStar.Lib LinkedTree

variable {ι A K V : Type} [LinearOrder K]

/-- The entry of the node at an address. -/
def entryAt (m : Memory A K V) (a : A) : Option (K × V) := (m a).map fun node => (node.key, node.value)

omit [LinearOrder K] in
theorem entryAt_isSome {m : Memory A K V} {a : A} : (entryAt m a).isSome ↔ (m a).isSome := by
  rw [entryAt, Option.isSome_map]

/-- The tree of a heap. -/
structure Good (m : Memory A K V) (t : Tree A K V) : Prop where
  stored : t.Stored nodeOf m
  alone : Alone t
  ordered : HeapOrdered t
  nodup : t.addrs.Nodup

theorem good_nil (m : Memory A K V) : Good m nil := ⟨trivial, trivial, trivial, List.nodup_nil⟩

/-- **Every node is in one place**: in one of the heaps, or in a tree that is in none of them. -/
structure Parts (m : Memory A K V) (t : ι → Tree A K V) (u : Tree A K V) : Prop where
  heap : ∀ i, Good m (t i)
  loose : Good m u
  disjoint : ∀ i j a, a ∈ (t i).addrs → a ∈ (t j).addrs → i = j
  apart : ∀ i, ∀ a ∈ (t i).addrs, a ∉ u.addrs
  owned : ∀ a, (m a).isSome → (∃ i, a ∈ (t i).addrs) ∨ a ∈ u.addrs

variable {m m' : Memory A K V} {t : ι → Tree A K V} {u t₀ : Tree A K V}

theorem Good.frame (h : Good m u) (hsame : ∀ a ∈ u.addrs, m' a = m a) : Good m' u :=
  ⟨h.stored.frame hsame, h.alone, h.ordered, h.nodup⟩

theorem Good.entry (h : Good m u) {p : A × (K × V)} (hp : p ∈ u.cells) : entryAt m p.1 = some p.2 := by
  obtain ⟨l, r, hm⟩ := h.stored.get hp
  rw [entryAt, hm]
  rfl

/-- **No key in a heap is below that of its root.** -/
theorem Good.least {X : A} {e : K × V} {c : Tree A K V} (h : Good m (node X e c nil)) {a : A}
    (ha : a ∈ (node X e c nil).addrs) {f : K × V} (hf : entryAt m a = some f) : e.1 ≤ f.1 := by
  obtain ⟨p, hp, rfl⟩ := List.mem_map.mp ha
  rw [h.entry hp] at hf
  obtain rfl := Option.some.inj hf
  have hroot : AtLeast e.1 (node X e c nil) := ⟨le_rfl, trivial⟩
  exact h.ordered.le_key hroot p hp

/-- A memory with the same cells in place of others has the same entries. -/
theorem Parts.entryAt_eq (h : Parts m t u) {i : ι} (hgood : Good m' t₀)
    (hcells : t₀.cells.Perm ((t i).cells ++ u.cells))
    (hframe : ∀ a, a ∉ (t i).addrs → a ∉ u.addrs → m' a = m a) (a : A) :
    entryAt m' a = entryAt m a := by
  by_cases ha : a ∈ (t i).addrs ∨ a ∈ u.addrs
  · obtain ⟨p, hp, rfl⟩ : ∃ p ∈ (t i).cells ++ u.cells, p.1 = a := by
      rw [← List.mem_map, List.map_append]
      exact List.mem_append.mpr ha
    rw [hgood.entry (hcells.mem_iff.mpr hp)]
    rcases List.mem_append.mp hp with hp | hp
    · exact ((h.heap i).entry hp).symm
    · exact (h.loose.entry hp).symm
  · rw [not_or] at ha
    rw [entryAt, entryAt, hframe a ha.1 ha.2]

section Steps

variable [DecidableEq ι]

/-- A heap is taken out. -/
theorem Parts.detach (h : Parts m t nil) (i : ι) : Parts m (Function.update t i nil) (t i) where
  heap j := by
    by_cases hj : j = i
    · subst hj
      rw [Function.update_self]
      exact good_nil m
    · rw [Function.update_of_ne hj]
      exact h.heap j
  loose := h.heap i
  disjoint j k a hj hk := by
    by_cases hji : j = i
    · subst hji
      simp at hj
    by_cases hki : k = i
    · subst hki
      simp at hk
    rw [Function.update_of_ne hji] at hj
    rw [Function.update_of_ne hki] at hk
    exact h.disjoint j k a hj hk
  apart j a hj hi := by
    by_cases hji : j = i
    · subst hji
      simp at hj
    rw [Function.update_of_ne hji] at hj
    exact hji (h.disjoint j i a hj hi)
  owned a ha := by
    rcases h.owned a ha with ⟨j, hj⟩ | hnil
    · by_cases hji : j = i
      · subst hji
        exact Or.inr hj
      · exact Or.inl ⟨j, by rwa [Function.update_of_ne hji]⟩
    · simp at hnil

/-- **The tree that is in no heap goes into one**, with what is there. -/
theorem Parts.settle (h : Parts m t u) {i : ι} (hgood : Good m' t₀)
    (hcells : t₀.cells.Perm ((t i).cells ++ u.cells))
    (hframe : ∀ a, a ∉ (t i).addrs → a ∉ u.addrs → m' a = m a) :
    Parts m' (Function.update t i t₀) nil := by
  have hmem : ∀ a, a ∈ t₀.addrs ↔ a ∈ (t i).addrs ∨ a ∈ u.addrs := by
    intro a
    rw [addrs, (hcells.map Prod.fst).mem_iff, List.map_append, List.mem_append]
    rfl
  have hother : ∀ j, j ≠ i → ∀ a ∈ (t j).addrs, a ∉ t₀.addrs := by
    intro j hji a hj ha
    rcases (hmem a).mp ha with hi | hu
    · exact hji (h.disjoint j i a hj hi)
    · exact h.apart j a hj hu
  refine
    { heap := ?_
      loose := good_nil m'
      disjoint := ?_
      apart := fun _ _ _ => List.not_mem_nil
      owned := ?_ }
  · -- the other heaps have none of the nodes that changed
    intro j
    by_cases hji : j = i
    · subst hji
      rwa [Function.update_self]
    rw [Function.update_of_ne hji]
    apply (h.heap j).frame
    intro a hj
    exact hframe a (fun hi => hji (h.disjoint j i a hj hi)) (h.apart j a hj)
  · intro j k a hj hk
    by_cases hji : j = i
    · subst hji
      by_cases hki : k = j
      · exact hki.symm
      rw [Function.update_self] at hj
      rw [Function.update_of_ne hki] at hk
      exact absurd hj (hother k hki a hk)
    rw [Function.update_of_ne hji] at hj
    by_cases hki : k = i
    · subst hki
      rw [Function.update_self] at hk
      exact absurd hk (hother j hji a hj)
    rw [Function.update_of_ne hki] at hk
    exact h.disjoint j k a hj hk
  · -- what is allocated and not in the new tree has not been touched
    intro a ha
    left
    by_cases hin : a ∈ t₀.addrs
    · exact ⟨i, by rwa [Function.update_self]⟩
    have hout := mt (hmem a).mpr hin
    rw [not_or] at hout
    rw [hframe a hout.1 hout.2] at ha
    rcases h.owned a ha with ⟨j, hj⟩ | hu
    · have hji : j ≠ i := by
        rintro rfl
        exact hout.1 hj
      exact ⟨j, by rwa [Function.update_of_ne hji]⟩
    · exact absurd hu hout.2

variable [DecidableEq A]

/-- **`merge_node` puts it under the root of the heap, or above.** -/
theorem Parts.attach (h : Parts m t u) (i : ι) :
    ∃ m', mergeNode m (t i).root u.root = some (m', (merge (t i) u).root) ∧
      Parts m' (Function.update t i (merge (t i) u)) nil ∧ ∀ a, entryAt m' a = entryAt m a := by
  have hi := h.heap i
  have hnodup : ((t i).addrs ++ u.addrs).Nodup :=
    List.nodup_append.mpr ⟨hi.nodup, h.loose.nodup, fun a ha b hb heq => h.apart i a ha (heq ▸ hb)⟩
  obtain ⟨m', hrun, hstored, hframe⟩ :=
    mergeNode_spec hi.stored h.loose.stored hi.alone h.loose.alone hnodup
  have hcells := cells_merge hi.alone h.loose.alone
  have hgood : Good m' (merge (t i) u) :=
    ⟨hstored, hi.alone.merge h.loose.alone, hi.ordered.merge h.loose.ordered,
      (addrs_merge hi.alone h.loose.alone).nodup_iff.mpr hnodup⟩
  exact ⟨m', hrun, h.settle hgood hcells hframe, h.entryAt_eq hgood hcells hframe⟩

end Steps

variable [DecidableEq A]

/-- A node is allocated. -/
theorem Parts.new (h : Parts m t nil) {X : A} (hX : m X = none) (k : K) (v : V) :
    Parts (newNode m X k v) t (node X (k, v) nil nil) := by
  have hfresh : ∀ i, X ∉ (t i).addrs := by
    intro i hi
    have := (h.heap i).stored.isSome hi
    rw [hX] at this
    exact absurd this Bool.false_ne_true
  refine { h with
    heap := ?_
    loose :=
      { stored := ⟨Function.update_self _ _ _, trivial, trivial⟩
        alone := rfl
        ordered := ⟨trivial, trivial, trivial⟩
        nodup := ?_ }
    apart := ?_
    owned := ?_ }
  · intro i
    have hi := h.heap i
    exact ⟨hi.stored.update (hfresh i) _, hi.alone, hi.ordered, hi.nodup⟩
  · simp
  · intro i a ha haX
    obtain rfl : a = X := by simpa using haX
    exact hfresh i ha
  · intro a ha
    by_cases haX : a = X
    · right
      simp [haX]
    rw [newNode, Function.update_of_ne haX] at ha
    rcases h.owned a ha with hi | hnil
    · exact Or.inl hi
    · simp at hnil

omit [LinearOrder K] in
theorem entryAt_newNode (m : Memory A K V) (X : A) (k : K) (v : V) :
    entryAt (newNode m X k v) = Function.update (entryAt m) X (some (k, v)) := by
  funext a
  by_cases ha : a = X
  · subst ha
    rw [entryAt, newNode, Function.update_self, Function.update_self]
    rfl
  · rw [entryAt, newNode, Function.update_of_ne ha, Function.update_of_ne ha]
    rfl

/-- A memory in which a root was freed and its children have other links has the other entries. -/
theorem entryAt_freed {X : A} {e : K × V} {c c' : Tree A K V} (h : Good m (node X e c nil))
    (hgood : Good (Function.update m' X none) c') (hcells : c'.cells.Perm c.cells)
    (hframe : ∀ a, a ∉ c.addrs → m' a = m a) :
    entryAt (Function.update m' X none) = Function.update (entryAt m) X none := by
  funext a
  by_cases haX : a = X
  · rw [haX, entryAt, Function.update_self, Function.update_self]
    rfl
  rw [Function.update_of_ne haX]
  by_cases hac : a ∈ c.addrs
  · obtain ⟨p, hp, rfl⟩ := List.mem_map.mp hac
    have hp' : p ∈ (node X e c nil).cells := by
      rw [cells_node]
      exact List.mem_cons_of_mem _ (List.mem_append_left _ hp)
    rw [hgood.entry (hcells.mem_iff.mpr hp), h.entry hp']
  · rw [entryAt, Function.update_of_ne haX, hframe a hac]
    rfl

/-- **The children take the place of the root**, which is freed. -/
theorem Parts.pairs {X : A} {e : K × V} {c : Tree A K V} (h : Parts m t (node X e c nil))
    (rightFirst : Bool) :
    ∃ m', (∀ fuel, c.size ≤ fuel →
        mergePairsNode rightFirst fuel m c.root = some (m', (mergePairs c).root)) ∧
      m' X = m X ∧ Parts (Function.update m' X none) t (mergePairs c) ∧
      entryAt (Function.update m' X none) = Function.update (entryAt m) X none := by
  obtain ⟨-, hc, -⟩ := h.loose.stored
  obtain ⟨-, hco, -⟩ := h.loose.ordered
  have hnodup := h.loose.nodup
  rw [addrs_node, addrs_nil, List.append_nil, List.nodup_cons] at hnodup
  obtain ⟨hXc, hcNodup⟩ := hnodup
  obtain ⟨m', hrun, hstored, hframe⟩ := mergePairsNode_spec rightFirst c m hc hcNodup
  have hperm := addrs_mergePairs c
  have hXpairs : X ∉ (mergePairs c).addrs := fun hX => hXc (hperm.mem_iff.mp hX)
  have hloose : ∀ a, a ∈ (node X e c nil).addrs ↔ a = X ∨ a ∈ c.addrs := by
    intro a
    simp
  have hgood : Good (Function.update m' X none) (mergePairs c) :=
    ⟨hstored.update hXpairs _, mergePairs_alone c, hco.mergePairs, hperm.nodup_iff.mpr hcNodup⟩
  refine ⟨m', hrun, hframe X hXc, { h with heap := ?_, loose := hgood, apart := ?_, owned := ?_ },
    entryAt_freed h.loose hgood (cells_mergePairs c) hframe⟩
  · -- the heaps have neither the root nor its children
    intro i
    apply (h.heap i).frame
    intro a ha
    have hout := h.apart i a ha
    rw [hloose, not_or] at hout
    rw [Function.update_of_ne hout.1, hframe a hout.2]
  · intro i a ha hpairs
    exact h.apart i a ha ((hloose a).mpr (Or.inr (hperm.mem_iff.mp hpairs)))
  · intro a ha
    by_cases haX : a = X
    · rw [haX, Function.update_self] at ha
      exact absurd ha Bool.false_ne_true
    by_cases hac : a ∈ c.addrs
    · exact Or.inr (hperm.mem_iff.mpr hac)
    rw [Function.update_of_ne haX, hframe a hac] at ha
    rcases h.owned a ha with hi | hau
    · exact Or.inl hi
    · rcases (hloose a).mp hau with heq | hmem
      · exact absurd heq haX
      · exact absurd hmem hac

end PwsaStar.PairingHeap
