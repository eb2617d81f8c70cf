/-
# PwsaStar.Heap.Refine — the array heap refines a multiset priority queue.

`QueueStep` is the abstract object: a family of multisets of entries under `insert`, `delete_min`,
`discard_min`, `split` and `swap`, where the minimum that is removed may be any entry of least
priority.  `exec` runs the same operations on a family of array heaps.  `store_refines_queue` is the
refinement: from heaps that start empty, however the operations are sequenced, no operation that its
caller may make faults, every heap stays valid, and every operation is a step of the abstract queue.

The second half packages a heap with its invariant (`ValidHeap`), which is the frontier type of the
searches: its operations are total.
-/
import PwsaStar.Heap.Split
import PwsaStar.Lib.Transition

namespace PwsaStar.Heap

open PwsaStar.Lib

/-! ## Operations over a family of heaps -/

section Store

variable {ι P V : Type*} [DecidableEq ι]

/-- One call on a family of heaps named by `ι`. -/
inductive Op (ι P V : Type*) where
  | insert (i : ι) (priority : P) (value : V)
  | deleteMin (i : ι)
  | discardMin (i : ι)
  | split (i j : ι)
  | swap (i j : ι)

/-- What the callers promise: no minimum of an empty heap, and splits only into another, empty
heap. -/
def Op.Legal (s : ι → Heap P V) : Op ι P V → Prop
  | .insert _ _ _ => True
  | .deleteMin i => 0 < (s i).n
  | .discardMin i => 0 < (s i).n
  | .split i j => i ≠ j ∧ (s j).n = 0
  | .swap _ _ => True

instance (s : ι → Heap P V) (op : Op ι P V) : Decidable (op.Legal s) :=
  match op with
  | .insert _ _ _ | .swap _ _ => inferInstanceAs (Decidable True)
  | .deleteMin i | .discardMin i => inferInstanceAs (Decidable (0 < (s i).n))
  | .split i j => inferInstanceAs (Decidable (i ≠ j ∧ (s j).n = 0))

/-- Run one call; the second component is what it returns. -/
def exec [LinearOrder P] [OrderTop P] (s : ι → Heap P V) :
    Op ι P V → Option ((ι → Heap P V) × Option V)
  | .insert i p v => ((s i).insert p v).map fun h => (Function.update s i h, none)
  | .deleteMin i => (s i).deleteMin.map fun r => (Function.update s i r.2, some r.1)
  | .discardMin i => (s i).discardMin.map fun h => (Function.update s i h, none)
  | .split i j =>
    ((s i).split (s j)).map fun r => (Function.update (Function.update s i r.1) j r.2, none)
  | .swap i j =>
    some (Function.update (Function.update s i ((s i).swap (s j)).1) j ((s i).swap (s j)).2, none)

/-- **The multiset priority queue**: the abstract effect and answer of one call. -/
inductive QueueStep [LE P] : Op ι P V → (ι → Multiset (KV P V)) → Option V →
    (ι → Multiset (KV P V)) → Prop
  | insert {A : ι → Multiset (KV P V)} (i : ι) (p : P) (v : V) :
      QueueStep (.insert i p v) A none (Function.update A i (⟨p, v⟩ ::ₘ A i))
  | deleteMin {A : ι → Multiset (KV P V)} (i : ι) (kv : KV P V) (rest : Multiset (KV P V)) :
      A i = kv ::ₘ rest → (∀ e ∈ A i, kv.priority ≤ e.priority) →
      QueueStep (.deleteMin i) A (some kv.value) (Function.update A i rest)
  | discardMin {A : ι → Multiset (KV P V)} (i : ι) (kv : KV P V) (rest : Multiset (KV P V)) :
      A i = kv ::ₘ rest → (∀ e ∈ A i, kv.priority ≤ e.priority) →
      QueueStep (.discardMin i) A none (Function.update A i rest)
  | split {A : ι → Multiset (KV P V)} (i j : ι) (left right : Multiset (KV P V)) :
      A j = 0 → left + right = A i →
      QueueStep (.split i j) A none (Function.update (Function.update A i left) j right)
  | swap {A : ι → Multiset (KV P V)} (i j : ι) :
      QueueStep (.swap i j) A none (Function.update (Function.update A i (A j)) j (A i))

/-- The abstraction: forget the order of the cells. -/
def queueOf (s : ι → Heap P V) : ι → Multiset (KV P V) := fun i => (s i).entries

@[simp] theorem queueOf_update (s : ι → Heap P V) (i : ι) (h : Heap P V) :
    queueOf (Function.update s i h) = Function.update (queueOf s) i h.entries := by
  funext k
  by_cases hk : k = i
  · subst hk; simp [queueOf]
  · simp [queueOf, Function.update_of_ne hk]

theorem valid_update [LE P] {s : ι → Heap P V} (hs : ∀ i, (s i).Valid) {i : ι} {h : Heap P V}
    (hh : h.Valid) : ∀ k, (Function.update s i h k).Valid := by
  intro k
  by_cases hk : k = i
  · subst hk; simpa using hh
  · simpa [Function.update_of_ne hk] using hs k

variable [LinearOrder P] [OrderTop P]

/-- The step lemma: one legal call on valid heaps. -/
theorem exec_refines {s : ι → Heap P V} (hs : ∀ i, (s i).Valid) (op : Op ι P V)
    (hop : op.Legal s) :
    ∃ s' out, exec s op = some (s', out) ∧ (∀ i, (s' i).Valid) ∧
      QueueStep op (queueOf s) out (queueOf s') := by
  cases op with
  | insert i p v =>
      obtain ⟨h', hrun, hv, hent⟩ := insert_spec (hs i) p v
      refine ⟨_, _, by simp only [exec, hrun]; rfl, valid_update hs hv, ?_⟩
      rw [queueOf_update, hent]
      exact QueueStep.insert i p v
  | deleteMin i =>
      obtain ⟨kv, h', hrun, hv, hent, hmin⟩ := deleteMin_spec (hs i) hop
      refine ⟨_, _, by simp only [exec, hrun]; rfl, valid_update hs hv, ?_⟩
      rw [queueOf_update]
      exact QueueStep.deleteMin i kv h'.entries hent hmin
  | discardMin i =>
      obtain ⟨h', hrun, hv, hent⟩ := discardMin_spec (hs i) hop
      refine ⟨_, _, by simp only [exec, hrun]; rfl, valid_update hs hv, ?_⟩
      rw [queueOf_update]
      exact QueueStep.discardMin i ((s i).values 0) h'.entries hent (root_min (hs i).ordered)
  | split i j =>
      obtain ⟨hij, hempty⟩ := hop
      obtain ⟨this', other', hrun, hv, hvo, hent⟩ := split_spec (hs i) (hs j) hempty
      refine ⟨_, _, by simp only [exec, hrun]; rfl, valid_update (valid_update hs hv) hvo, ?_⟩
      rw [queueOf_update, queueOf_update]
      exact QueueStep.split i j this'.entries other'.entries (entries_zero hempty) hent
  | swap i j =>
      refine ⟨_, _, rfl, valid_update (valid_update hs (hs j)) (hs i), ?_⟩
      rw [queueOf_update, queueOf_update]
      exact QueueStep.swap i j

/-- The runs: heaps fresh from their constructor, then any sequence of legal calls. -/
def storeSystem (ι P V : Type*) [DecidableEq ι] [LinearOrder P] [OrderTop P] :
    System (ι → Heap P V) where
  init s := ∃ blocks : ι → ℕ → KV P V, s = fun i => Heap.new (blocks i)
  step s s' := ∃ op out, Op.Legal s op ∧ exec s op = some (s', out)

/-- In every run every heap stays valid. -/
theorem store_valid {s : ι → Heap P V} (hs : (storeSystem ι P V).Reachable s) :
    ∀ i, (s i).Valid := by
  apply hs.invariant (I := fun s => ∀ i, (s i).Valid)
  · rintro s ⟨blocks, rfl⟩ i
    exact new_valid (blocks i)
  · rintro s t - hv ⟨op, out, hop, hrun⟩
    obtain ⟨s', out', hrun', hv', -⟩ := exec_refines hv op hop
    rw [hrun'] at hrun
    obtain ⟨rfl, -⟩ := Prod.mk.inj (Option.some.inj hrun)
    exact hv'

end Store

/-- **The array `Heap` refines a multiset priority queue.**  After every finite sequence of legal
calls on heaps that start empty, each heap is in min-heap order on its live cells with
`n ≤ capacity`, and the next legal call returns (no access or swap outside the live cells, both sift
loops end) with exactly the effect and answer of the abstract queue. -/
theorem store_refines_queue {ι V : Type*} [DecidableEq ι] {s : ι → Heap Long V}
    (hs : (storeSystem ι Long V).Reachable s) :
    (∀ i, (s i).Ordered ∧ (s i).n ≤ (s i).capacity) ∧
      ∀ op : Op ι Long V, op.Legal s → ∃ s' out, exec s op = some (s', out) ∧
        QueueStep op (queueOf s) out (queueOf s') := by
  have hv := store_valid hs
  refine ⟨fun i => ⟨(hv i).ordered, (hv i).bounded⟩, ?_⟩
  intro op hop
  obtain ⟨s', out, hrun, -, hstep⟩ := exec_refines hv op hop
  exact ⟨s', out, hrun, hstep⟩

/-- A legal call of `exec`, without its answer. -/
def execLegal (op : Op Bool Long ℕ) (s : Bool → Heap Long ℕ) : Option (Bool → Heap Long ℕ) :=
  if op.Legal s then (exec s op).map Prod.fst else none

/-- The priorities in the live cells. -/
def priorities (h : Heap Long ℕ) : List ℤ := (List.range h.n).map fun i => (h.values i).priority.1

theorem length_priorities (h : Heap Long ℕ) : (priorities h).length = h.n := by simp [priorities]

/-- Two entries of priority 3 and three of priority `LONG_MAX` in one heap, and a split: the first heap
keeps those of priority `LONG_MAX`, the second one gets the two others.  The next `delete_min` of either
takes one of several minima. -/
theorem store_refines_queue_longMax :
    ∃ s s₁ s₂ : Bool → Heap Long ℕ, ∃ out₁ out₂ : Option ℕ, (storeSystem Bool Long ℕ).Reachable s ∧
      (priorities (s false) = [LONG_MAX, LONG_MAX, LONG_MAX] ∧ priorities (s true) = [3, 3]) ∧
      (exec s (.deleteMin false) = some (s₁, out₁) ∧
        QueueStep (.deleteMin false) (queueOf s) out₁ (queueOf s₁)) ∧
      exec s (.deleteMin true) = some (s₂, out₂) ∧
        QueueStep (.deleteMin true) (queueOf s) out₂ (queueOf s₂) := by
  have hnext : ∀ op s t, execLegal op s = some t → (storeSystem Bool Long ℕ).step s t := by
    intro op s t h
    rw [execLegal] at h
    split_ifs at h with hop
    obtain ⟨⟨t', out⟩, hrun, rfl⟩ := Option.map_eq_some_iff.mp h
    exact ⟨op, out, hop, hrun⟩
  obtain ⟨s, hs, hfalse, htrue⟩ := exists_reachable (storeSystem Bool Long ℕ) execLegal hnext
    ⟨fun _ _ => ⟨⊤, 0⟩, rfl⟩
    [.insert false ⟨3, by decide⟩ 1, .insert false ⊤ 2, .insert false ⟨3, by decide⟩ 3,
      .insert false ⊤ 4, .insert false ⊤ 5, .split false true]
    (fun s => priorities (s false) = [LONG_MAX, LONG_MAX, LONG_MAX] ∧ priorities (s true) = [3, 3])
    (by decide +kernel)
  have hleft : 0 < (s false).n := by simp [← length_priorities, hfalse]
  have hright : 0 < (s true).n := by simp [← length_priorities, htrue]
  obtain ⟨s₁, out₁, hrun₁, hstep₁⟩ := (store_refines_queue hs).2 (.deleteMin false) hleft
  obtain ⟨s₂, out₂, hrun₂, hstep₂⟩ := (store_refines_queue hs).2 (.deleteMin true) hright
  exact ⟨s, s₁, s₂, out₁, out₂, hs, ⟨hfalse, htrue⟩, ⟨hrun₁, hstep₁⟩, hrun₂, hstep₂⟩

/-! ## Heaps that carry their invariant -/

/-- A heap together with its representation invariant. -/
def ValidHeap (P V : Type*) [LE P] : Type _ := {h : Heap P V // h.Valid}

namespace ValidHeap

variable {P V : Type*} [LinearOrder P]

/-- `HEAP()`. -/
def new (block : ℕ → KV P V) : ValidHeap P V := ⟨Heap.new block, new_valid block⟩

def size (h : ValidHeap P V) : ℕ := h.1.size

/-- The entries of the heap. -/
def entries (h : ValidHeap P V) : Multiset (KV P V) := h.1.entries

@[simp] theorem card_entries (h : ValidHeap P V) : h.entries.card = h.size := Heap.card_entries h.1

theorem entries_eq_zero_iff (h : ValidHeap P V) : h.entries = 0 ↔ h.size = 0 :=
  Heap.entries_eq_zero_iff h.1

theorem size_pos_of_mem {h : ValidHeap P V} {e : KV P V} (he : e ∈ h.entries) : 0 < h.size := by
  rw [← card_entries]
  exact Multiset.card_pos_iff_exists_mem.mpr ⟨e, he⟩

@[simp] theorem entries_new (block : ℕ → KV P V) : (new block).entries = 0 :=
  (entries_eq_zero_iff _).mpr rfl

variable [OrderTop P]

def insert (h : ValidHeap P V) (p : P) (v : V) : ValidHeap P V :=
  ⟨(h.1.insert p v).get (by obtain ⟨h', hrun, -⟩ := insert_spec h.2 p v; simp [hrun]), by
    obtain ⟨h', hrun, hv, -⟩ := insert_spec h.2 p v
    simp only [hrun, Option.get_some]
    exact hv⟩

@[simp] theorem entries_insert (h : ValidHeap P V) (p : P) (v : V) :
    (h.insert p v).entries = ⟨p, v⟩ ::ₘ h.entries := by
  obtain ⟨h', hrun, -, hent⟩ := insert_spec h.2 p v
  show ((h.1.insert p v).get _).entries = _
  simp only [hrun, Option.get_some]
  exact hent

theorem size_insert (h : ValidHeap P V) (p : P) (v : V) : (h.insert p v).size = h.size + 1 := by
  rw [← card_entries, entries_insert, Multiset.card_cons, card_entries]

/-- `delete_min`; `none` on the empty heap. -/
def deleteMin (h : ValidHeap P V) : Option (V × ValidHeap P V) :=
  if hn : 0 < h.1.n then
    some ⟨(h.1.deleteMin.get (by obtain ⟨kv, h', hrun, -⟩ := deleteMin_spec h.2 hn; simp [hrun])).1,
      (h.1.deleteMin.get (by obtain ⟨kv, h', hrun, -⟩ := deleteMin_spec h.2 hn; simp [hrun])).2, by
        obtain ⟨kv, h', hrun, hv, -⟩ := deleteMin_spec h.2 hn
        simp only [hrun, Option.get_some]
        exact hv⟩
  else none

theorem deleteMin_eq_none_iff (h : ValidHeap P V) : h.deleteMin = none ↔ h.size = 0 := by
  unfold deleteMin
  split_ifs with hn
  · simp only [false_iff]
    exact Nat.pos_iff_ne_zero.mp hn
  · simp only [true_iff]
    exact Nat.eq_zero_of_not_pos hn

theorem exists_deleteMin {h : ValidHeap P V} (hpos : 0 < h.size) :
    ∃ v h', h.deleteMin = some (v, h') := by
  obtain ⟨⟨v, h'⟩, hrun⟩ := Option.ne_none_iff_exists'.mp fun hnone =>
    hpos.ne' (h.deleteMin_eq_none_iff.mp hnone)
  exact ⟨v, h', hrun⟩

/-- The minimum that `delete_min` removes. -/
theorem entries_deleteMin {h h' : ValidHeap P V} {v : V} (hrun : h.deleteMin = some (v, h')) :
    ∃ p, h.entries = ⟨p, v⟩ ::ₘ h'.entries ∧ ∀ e ∈ h.entries, p ≤ e.priority := by
  unfold deleteMin at hrun
  split_ifs at hrun with hn
  obtain ⟨kv, h₁, hrun₁, hv₁, hent, hmin⟩ := deleteMin_spec h.2 hn
  simp only [hrun₁, Option.get_some, Option.some.injEq] at hrun
  obtain ⟨rfl, rfl⟩ := hrun
  exact ⟨kv.priority, hent, hmin⟩

theorem size_deleteMin {h h' : ValidHeap P V} {v : V} (hrun : h.deleteMin = some (v, h')) :
    h.size = h'.size + 1 := by
  obtain ⟨p, hent, -⟩ := entries_deleteMin hrun
  rw [← card_entries, hent, Multiset.card_cons, card_entries]

/-- `this.split(other)`; `none` where the C++ call is undefined, i.e. where the entries of `other`
do not fit the block it is resized to. -/
def split (this other : ValidHeap P V) : Option (ValidHeap P V × ValidHeap P V) :=
  match hrun : this.1.split other.1 with
  | none => none
  | some (this', other') =>
    some (⟨this', (split_valid this.2 other.2 hrun).1⟩, ⟨other', (split_valid this.2 other.2 hrun).2⟩)

theorem split_eq_some {this other : ValidHeap P V} {this' other' : Heap P V}
    (hrun : this.1.split other.1 = some (this', other')) :
    this.split other = some (⟨this', (split_valid this.2 other.2 hrun).1⟩,
      ⟨other', (split_valid this.2 other.2 hrun).2⟩) := by
  unfold split
  split
  · rename_i hnone
    rw [hnone] at hrun
    exact absurd hrun (by simp)
  · rename_i a b hab
    have heq := hab.symm.trans hrun
    obtain ⟨rfl, rfl⟩ := Prod.mk.inj (Option.some.inj heq)
    rfl

/-- Splitting into an empty heap: defined, conserving, and fair enough to leave neither part empty
when there are two entries to share. -/
theorem split_empty (this other : ValidHeap P V) (hempty : other.size = 0) :
    ∃ this' other', this.split other = some (this', other') ∧
      this'.entries + other'.entries = this.entries ∧
      (0 < this.size → 0 < this'.size) ∧ (2 ≤ this.size → 0 < other'.size) := by
  have hother : other.1.n = 0 := hempty
  by_cases hsmall : this.1.n < 2
  · refine ⟨_, _, split_eq_some (split_small hsmall), ?_, fun h => h, fun h => absurd h ?_⟩
    · show this.1.entries + other.1.entries = this.1.entries
      rw [Heap.entries_zero hother, Multiset.add_zero]
    · exact Nat.not_le.mpr hsmall
  · obtain ⟨this', other', hrun, hv, hvo, hent, hpos, hpos'⟩ :=
      split_large other.1 this.2 (by omega) (by omega)
    exact ⟨_, _, split_eq_some hrun, hent, fun _ => hpos, fun _ => hpos'⟩

end ValidHeap

end PwsaStar.Heap
