/-
# PwsaStar.Heap.Share — how `split` divides the work, and what its copy loops touch.

`SplitInv` says what the copy loops have written.  Here it is read off what that amounts to when they
end: `this` has the left subtree of the root, cell by cell, and `other` the right one and the old
minimum (`Divided`).  The last level of the tree fills up from the left, so the left subtree is at
most about twice as large as the right one; hence the bounds on the sizes.

The loops run in place: they write into the array they read.  `copyLevelsLog` lists their accesses in
the order they are made, and carried out one after the other these leave what the loops leave
(`copyLevelsLog_run`).  `ReadsFresh` says of such a list that no cell is read after it was overwritten.
-/
import PwsaStar.Heap.Split
import Mathlib.Order.Interval.Finset.Nat

namespace PwsaStar.Heap

variable {P V : Type*}

/-! ## The two subtrees of the root -/

/-- The indices of the subtree that hangs at `r`. -/
inductive Below (r : ℕ) : ℕ → Prop
  | root : Below r r
  | left {i : ℕ} : Below r i → Below r (leftChild i)
  | right {i : ℕ} : Below r i → Below r (rightChild i)

open Classical in
/-- The cells of the subtree at `r` in a heap of `m` entries. -/
noncomputable def subtree (r m : ℕ) : Finset ℕ := (Finset.range m).filter (Below r)

/-- The two children of an index are one level further down. -/
theorem log_child {j c : ℕ} (hc : c = leftChild j ∨ c = rightChild j) :
    Nat.log 2 (c + 1) = Nat.log 2 (j + 1) + 1 := by
  have hpos : 0 < c := by
    rcases hc with rfl | rfl
    · exact Nat.succ_pos _
    · exact Nat.succ_pos _
  have hparent : parent c = j := by
    rcases hc with rfl | rfl
    · exact parent_leftChild j
    · exact parent_rightChild j
  rw [← hparent]
  exact (log_parent hpos).symm

theorem leftIdx_leftChild (j : ℕ) : leftIdx (leftChild j) = leftChild (leftIdx j) := by
  rw [leftIdx, log_child (Or.inl rfl), Nat.pow_succ, leftIdx]
  unfold leftChild
  omega

theorem leftIdx_rightChild (j : ℕ) : leftIdx (rightChild j) = rightChild (leftIdx j) := by
  rw [leftIdx, log_child (Or.inr rfl), Nat.pow_succ, leftIdx]
  unfold rightChild
  omega

theorem rightIdx_leftChild (j : ℕ) : rightIdx (leftChild j) = leftChild (rightIdx j) := by
  rw [rightIdx, log_child (Or.inl rfl), Nat.pow_succ, rightIdx]
  unfold leftChild
  omega

theorem rightIdx_rightChild (j : ℕ) : rightIdx (rightChild j) = rightChild (rightIdx j) := by
  rw [rightIdx, log_child (Or.inr rfl), Nat.pow_succ, rightIdx]
  unfold rightChild
  omega

/-- An index is the first one, a left child or a right child. -/
theorem exists_child {j : ℕ} (hj : 0 < j) : ∃ i < j, j = leftChild i ∨ j = rightChild i :=
  ⟨parent j, parent_lt hj, by unfold parent leftChild rightChild; omega⟩

/-- A numbering that starts at `r` and maps children to children runs through the subtree at `r`. -/
theorem below_iff {r : ℕ} {f : ℕ → ℕ} (hroot : f 0 = r)
    (hleft : ∀ j, f (leftChild j) = leftChild (f j))
    (hright : ∀ j, f (rightChild j) = rightChild (f j)) {x : ℕ} : Below r x ↔ ∃ j, f j = x := by
  constructor
  · intro h
    induction h with
    | root => exact ⟨0, hroot⟩
    | left _ ih =>
      obtain ⟨j, rfl⟩ := ih
      exact ⟨leftChild j, hleft j⟩
    | right _ ih =>
      obtain ⟨j, rfl⟩ := ih
      exact ⟨rightChild j, hright j⟩
  · rintro ⟨j, rfl⟩
    induction j using Nat.strongRecOn with
    | ind j ih =>
      rcases Nat.eq_zero_or_pos j with rfl | hpos
      · rw [hroot]
        exact Below.root
      · obtain ⟨i, hlt, rfl | rfl⟩ := exists_child hpos
        · rw [hleft]
          exact (ih i hlt).left
        · rw [hright]
          exact (ih i hlt).right

theorem below_one_iff {x : ℕ} : Below 1 x ↔ ∃ j, leftIdx j = x :=
  below_iff (by decide) leftIdx_leftChild leftIdx_rightChild

theorem below_two_iff {x : ℕ} : Below 2 x ↔ ∃ j, rightIdx j = x :=
  below_iff (by decide) rightIdx_leftChild rightIdx_rightChild

theorem leftIdx_strictMono : StrictMono leftIdx := by
  intro i j hij
  have hlog : Nat.log 2 (i + 1) ≤ Nat.log 2 (j + 1) := Nat.log_mono_right (by omega)
  have hpow := Nat.pow_le_pow_right (n := 2) (by decide) hlog
  unfold leftIdx
  omega

theorem rightIdx_strictMono : StrictMono rightIdx := by
  intro i j hij
  have hlog : Nat.log 2 (i + 1) ≤ Nat.log 2 (j + 1) := Nat.log_mono_right (by omega)
  have hpow := Nat.pow_le_pow_right (n := 2) (by decide) (Nat.succ_le_succ hlog)
  unfold rightIdx
  simp only [Nat.succ_eq_add_one] at hpow
  omega

/-- The two numberings never meet: on a level the left half comes first. -/
theorem leftIdx_ne_rightIdx (i j : ℕ) : leftIdx i ≠ rightIdx j := by
  intro h
  have hi := Nat.lt_pow_succ_log_self (b := 2) (by decide) (i + 1)
  have hi' := Nat.pow_log_le_self 2 (x := i + 1) (by omega)
  have hj := Nat.lt_pow_succ_log_self (b := 2) (by decide) (j + 1)
  have hj' := Nat.pow_log_le_self 2 (x := j + 1) (by omega)
  unfold leftIdx rightIdx at h
  rcases Nat.lt_trichotomy (Nat.log 2 (i + 1)) (Nat.log 2 (j + 1)) with hlt | heq | hgt
  · have hpow := Nat.pow_le_pow_right (n := 2) (by decide) hlt
    simp only [Nat.succ_eq_add_one, Nat.pow_succ] at hpow hi h
    omega
  · rw [heq] at hi h
    simp only [Nat.succ_eq_add_one, Nat.pow_succ] at hi h
    omega
  · have hpow := Nat.pow_le_pow_right (n := 2) (by decide) hgt
    simp only [Nat.succ_eq_add_one, Nat.pow_succ] at hpow hj h
    omega

/-! ## What the loops have copied when they end -/

section Ended

variable {old : ℕ → KV P V} {m : ℕ} {s : SplitState P V}

/-- Every index but the root has been copied to one of the two sides. -/
theorem SplitInv.copied (hinv : SplitInv old m s) (hend : s.readIdx = m) {x : ℕ} (hx : 0 < x)
    (hlt : x < m) :
    (∃ j < s.writeThisIdx, leftIdx j = x) ∨ ∃ j < s.writeOtherIdx, rightIdx j = x := by
  set lefts := (Finset.range s.writeThisIdx).map ⟨leftIdx, leftIdx_strictMono.injective⟩ with hlefts
  set rights := (Finset.range s.writeOtherIdx).map ⟨rightIdx, rightIdx_strictMono.injective⟩
    with hrights
  have hdisjoint : Disjoint lefts rights := by
    rw [Finset.disjoint_left]
    intro y hy hy'
    obtain ⟨i, -, rfl⟩ := Finset.mem_map.mp hy
    obtain ⟨j, -, hj⟩ := Finset.mem_map.mp hy'
    exact leftIdx_ne_rightIdx i j hj.symm
  have hsub : lefts ∪ rights ⊆ Finset.Ico 1 m := by
    intro y hy
    rw [Finset.mem_Ico]
    rcases Finset.mem_union.mp hy with hy | hy
    · obtain ⟨i, hi, rfl⟩ := Finset.mem_map.mp hy
      exact ⟨Nat.le_trans Nat.one_le_two_pow (Nat.le_add_left _ _),
        (hinv.left i (Finset.mem_range.mp hi)).1⟩
    · obtain ⟨i, hi, rfl⟩ := Finset.mem_map.mp hy
      exact ⟨Nat.le_trans Nat.one_le_two_pow (Nat.le_add_left _ _),
        (hinv.right i (Finset.mem_range.mp hi)).1⟩
  -- there are as many copies as indices, and no two copies of one index
  have hall : lefts ∪ rights = Finset.Ico 1 m := by
    apply Finset.eq_of_subset_of_card_le hsub
    rw [Finset.card_union_of_disjoint hdisjoint, hlefts, hrights, Finset.card_map, Finset.card_map,
      Finset.card_range, Finset.card_range, Nat.card_Ico]
    have := hinv.count
    omega
  have hmem : x ∈ lefts ∪ rights := by
    rw [hall, Finset.mem_Ico]
    exact ⟨hx, hlt⟩
  rcases Finset.mem_union.mp hmem with h | h
  · obtain ⟨j, hj, rfl⟩ := Finset.mem_map.mp h
    exact Or.inl ⟨j, Finset.mem_range.mp hj, rfl⟩
  · obtain ⟨j, hj, rfl⟩ := Finset.mem_map.mp h
    exact Or.inr ⟨j, Finset.mem_range.mp hj, rfl⟩

theorem SplitInv.lt_writeThisIdx (hinv : SplitInv old m s) (hend : s.readIdx = m) {j : ℕ}
    (hlt : leftIdx j < m) : j < s.writeThisIdx := by
  have hpos : 0 < leftIdx j := Nat.lt_of_lt_of_le Nat.one_pos
    (Nat.le_trans Nat.one_le_two_pow (Nat.le_add_left _ _))
  rcases hinv.copied hend hpos hlt with ⟨i, hi, heq⟩ | ⟨i, -, heq⟩
  · rwa [leftIdx_strictMono.injective heq] at hi
  · exact absurd heq.symm (leftIdx_ne_rightIdx j i)

theorem SplitInv.lt_writeOtherIdx (hinv : SplitInv old m s) (hend : s.readIdx = m) {j : ℕ}
    (hlt : rightIdx j < m) : j < s.writeOtherIdx := by
  have hpos : 0 < rightIdx j := Nat.lt_of_lt_of_le Nat.one_pos
    (Nat.le_trans Nat.one_le_two_pow (Nat.le_add_left _ _))
  rcases hinv.copied hend hpos hlt with ⟨i, -, heq⟩ | ⟨i, hi, heq⟩
  · exact absurd heq (leftIdx_ne_rightIdx i j)
  · rwa [rightIdx_strictMono.injective heq] at hi

/-- `this` holds the left subtree. -/
theorem SplitInv.entries_this (hinv : SplitInv old m s) (hend : s.readIdx = m) :
    s.this.entries = (subtree 1 m).val.map old := by
  have hcells : subtree 1 m =
      (Finset.range s.writeThisIdx).map ⟨leftIdx, leftIdx_strictMono.injective⟩ := by
    ext x
    simp only [subtree, Finset.mem_filter, Finset.mem_range, Finset.mem_map, below_one_iff,
      Function.Embedding.coeFn_mk]
    constructor
    · rintro ⟨hx, j, rfl⟩
      exact ⟨j, hinv.lt_writeThisIdx hend hx, rfl⟩
    · rintro ⟨j, hj, rfl⟩
      exact ⟨(hinv.left j hj).1, j, rfl⟩
  rw [hcells, Finset.map_val, Multiset.map_map, Finset.range_val, entries, hinv.thisN]
  exact Multiset.map_congr rfl fun j hj => (hinv.left j (Multiset.mem_range.mp hj)).2

/-- `other` holds the right subtree, before the old minimum is added. -/
theorem SplitInv.entries_other (hinv : SplitInv old m s) (hend : s.readIdx = m) :
    s.other.entries = (subtree 2 m).val.map old := by
  have hcells : subtree 2 m =
      (Finset.range s.writeOtherIdx).map ⟨rightIdx, rightIdx_strictMono.injective⟩ := by
    ext x
    simp only [subtree, Finset.mem_filter, Finset.mem_range, Finset.mem_map, below_two_iff,
      Function.Embedding.coeFn_mk]
    constructor
    · rintro ⟨hx, j, rfl⟩
      exact ⟨j, hinv.lt_writeOtherIdx hend hx, rfl⟩
    · rintro ⟨j, hj, rfl⟩
      exact ⟨(hinv.right j hj).1, j, rfl⟩
  rw [hcells, Finset.map_val, Multiset.map_map, Finset.range_val, entries, hinv.otherN]
  exact Multiset.map_congr rfl fun j hj => (hinv.right j (Multiset.mem_range.mp hj)).2

/-- **The left side is at most twice as large, and one.**  Its last level is preceded by a full level
on the right. -/
theorem SplitInv.balanced (hinv : SplitInv old m s) (hend : s.readIdx = m) :
    s.writeThisIdx ≤ 2 * s.writeOtherIdx + 1 := by
  rcases Nat.eq_zero_or_pos s.writeThisIdx with hzero | hpos
  · omega
  · set level := Nat.log 2 s.writeThisIdx with hlevel
    have hlow := Nat.pow_log_le_self 2 (x := s.writeThisIdx) (by omega)
    have hhigh := Nat.lt_pow_succ_log_self (b := 2) (by decide) s.writeThisIdx
    rw [← hlevel] at hlow hhigh
    rw [Nat.succ_eq_add_one, Nat.pow_succ] at hhigh
    have hlast := (hinv.left (s.writeThisIdx - 1) (by omega)).1
    rw [leftIdx, Nat.sub_add_cancel hpos, ← hlevel] at hlast
    rcases Nat.eq_zero_or_pos level with hzero | hlpos
    · rw [hzero] at hhigh
      omega
    · obtain ⟨k, hk⟩ : ∃ k, level = k + 1 := ⟨level - 1, by omega⟩
      have hk1 : 1 ≤ 2 ^ k := Nat.one_le_two_pow
      have hpow : 2 ^ level = 2 * 2 ^ k := by rw [hk, Nat.pow_succ]; omega
      -- the last cell of the level before on the right
      have hlog : Nat.log 2 (2 ^ level - 2 + 1) = k :=
        log_level (i := 2 ^ k - 1) (by omega) (by omega)
      have hidx : rightIdx (2 ^ level - 2) < m := by
        rw [rightIdx, hlog, ← hk]
        omega
      have := hinv.lt_writeOtherIdx hend hidx
      omega

end Ended

/-! ## What the loops touch -/

/-- An access of the copy loops: a read from `this`, a write to `this` or a write to `other`. -/
inductive Access where
  | read (i : ℕ)
  | writeThis (i : ℕ)
  | writeOther (i : ℕ)
  deriving DecidableEq

/-- The accesses of the first inner loop, which writes from `w` and reads from `r` on. -/
def copyToThisLog (m : ℕ) : ℕ → ℕ → ℕ → List Access
  | 0, _, _ => []
  | k + 1, w, r =>
    if r < m then .read r :: .writeThis w :: copyToThisLog m k (w + 1) (r + 1) else []

/-- The accesses of the second inner loop. -/
def copyToOtherLog (m : ℕ) : ℕ → ℕ → ℕ → List Access
  | 0, _, _ => []
  | k + 1, w, r =>
    if r < m then .read r :: .writeOther w :: copyToOtherLog m k (w + 1) (r + 1) else []

/-- The accesses of the loop over the levels; the loops themselves say from which state the next one
goes on. -/
def copyLevelsLog (m : ℕ) : ℕ → ℕ → SplitState P V → List Access
  | fuel, level, s =>
    if s.readIdx < m then
      match fuel with
      | 0 => []
      | fuel + 1 =>
        copyToThisLog m (level / 2) s.writeThisIdx s.readIdx ++
          match copyToThis m (level / 2) s with
          | none => []
          | some s₁ =>
            copyToOtherLog m (level / 2) s₁.writeOtherIdx s₁.readIdx ++
              match copyToOther m (level / 2) s₁ with
              | none => []
              | some s₂ => copyLevelsLog m fuel (level * 2) s₂
    else []

/-- What an access does to the entry read last, to the cells of `this` and to those of `other`. -/
def Access.run : KV P V × (ℕ → KV P V) × (ℕ → KV P V) → Access →
    KV P V × (ℕ → KV P V) × (ℕ → KV P V)
  | (_, this, other), .read i => (this i, this, other)
  | (kv, this, other), .writeThis i => (kv, Function.update this i kv, other)
  | (kv, this, other), .writeOther i => (kv, this, Function.update other i kv)

/-- The accesses of the first inner loop are the loop: one after the other they do to the cells what it
does. -/
theorem copyToThisLog_run {m : ℕ} : ∀ (k : ℕ) {s s' : SplitState P V}, copyToThis m k s = some s' →
    ∀ kv, ∃ kv', (copyToThisLog m k s.writeThisIdx s.readIdx).foldl Access.run
      (kv, s.this.values, s.other.values) = (kv', s'.this.values, s'.other.values) := by
  intro k
  induction k with
  | zero =>
    intro s s' h kv
    obtain rfl := Option.some.inj h
    exact ⟨kv, rfl⟩
  | succ k ih =>
    intro s s' h kv
    unfold copyToThis at h
    unfold copyToThisLog
    split_ifs at h ⊢ with hlt
    · obtain ⟨this, hwrite, hrest⟩ := Option.bind_eq_some_iff.mp h
      unfold write at hwrite
      split_ifs at hwrite
      obtain rfl := Option.some.inj hwrite
      exact ih hrest (s.this.values s.readIdx)
    · obtain rfl := Option.some.inj h
      exact ⟨kv, rfl⟩

/-- So are those of the second one. -/
theorem copyToOtherLog_run {m : ℕ} : ∀ (k : ℕ) {s s' : SplitState P V}, copyToOther m k s = some s' →
    ∀ kv, ∃ kv', (copyToOtherLog m k s.writeOtherIdx s.readIdx).foldl Access.run
      (kv, s.this.values, s.other.values) = (kv', s'.this.values, s'.other.values) := by
  intro k
  induction k with
  | zero =>
    intro s s' h kv
    obtain rfl := Option.some.inj h
    exact ⟨kv, rfl⟩
  | succ k ih =>
    intro s s' h kv
    unfold copyToOther at h
    unfold copyToOtherLog
    split_ifs at h ⊢ with hlt
    · obtain ⟨other, hwrite, hrest⟩ := Option.bind_eq_some_iff.mp h
      unfold write at hwrite
      split_ifs at hwrite
      obtain rfl := Option.some.inj hwrite
      exact ih hrest (s.this.values s.readIdx)
    · obtain rfl := Option.some.inj h
      exact ⟨kv, rfl⟩

/-- **The log is a log of `copyLevels`**: replayed access by access it leaves the cells as the loops
do. -/
theorem copyLevelsLog_run {m : ℕ} : ∀ (fuel level : ℕ) {s s' : SplitState P V},
    copyLevels m fuel level s = some s' →
    ∀ kv, ∃ kv', (copyLevelsLog m fuel level s).foldl Access.run
      (kv, s.this.values, s.other.values) = (kv', s'.this.values, s'.other.values) := by
  intro fuel
  induction fuel with
  | zero =>
    intro level s s' h kv
    unfold copyLevels at h
    unfold copyLevelsLog
    split_ifs at h ⊢
    obtain rfl := Option.some.inj h
    exact ⟨kv, rfl⟩
  | succ fuel ih =>
    intro level s s' h kv
    unfold copyLevels at h
    unfold copyLevelsLog
    split_ifs at h ⊢
    · obtain ⟨s₁, hthis, h⟩ := Option.bind_eq_some_iff.mp h
      obtain ⟨s₂, hother, hrest⟩ := Option.bind_eq_some_iff.mp h
      obtain ⟨kv₁, hrun₁⟩ := copyToThisLog_run _ hthis kv
      obtain ⟨kv₂, hrun₂⟩ := copyToOtherLog_run _ hother kv₁
      obtain ⟨kv₃, hrun₃⟩ := ih _ hrest kv₂
      refine ⟨kv₃, ?_⟩
      simp only [hthis, hother]
      rw [List.foldl_append, hrun₁, List.foldl_append, hrun₂, hrun₃]
    · obtain rfl := Option.some.inj h
      exact ⟨kv, rfl⟩

/-- No cell is read that is in `overwritten` or was written earlier in the list. -/
def ReadsFresh : List ℕ → List Access → Prop
  | _, [] => True
  | overwritten, .read i :: log => i ∉ overwritten ∧ ReadsFresh overwritten log
  | overwritten, .writeThis i :: log => ReadsFresh (i :: overwritten) log
  | overwritten, .writeOther _ :: log => ReadsFresh overwritten log

/-- What the accesses from a state on are like, if only cells in front of the write index have been
overwritten so far. -/
structure LogOk (m : ℕ) (w : ℕ) (log : List Access) : Prop where
  fresh : ∀ overwritten : List ℕ, (∀ i ∈ overwritten, i < w) → ReadsFresh overwritten log
  reads : ∀ i, .read i ∈ log → i < m
  writes : ∀ i, .writeThis i ∈ log → i < m
  inRange : ∀ i, .writeOther i ∈ log → i < m / 2

theorem logOk_nil (m w : ℕ) : LogOk m w [] where
  fresh _ _ := trivial
  reads _ h := absurd h List.not_mem_nil
  writes _ h := absurd h List.not_mem_nil
  inRange _ h := absurd h List.not_mem_nil

/-- An iteration of the first inner loop in front of `log`. -/
theorem LogOk.toThis {m w r : ℕ} {log : List Access} (h : LogOk m (w + 1) log) (hwr : w < r)
    (hr : r < m) : LogOk m w (.read r :: .writeThis w :: log) where
  fresh overwritten hover := by
    refine ⟨fun hmem => ?_, h.fresh (w :: overwritten) ?_⟩
    · have := hover r hmem
      omega
    · intro i hi
      rcases List.mem_cons.mp hi with rfl | hi
      · exact Nat.lt_succ_self i
      · exact Nat.lt_succ_of_lt (hover i hi)
  reads i hi := by
    rcases List.mem_cons.mp hi with heq | hi
    · cases heq
      exact hr
    · exact h.reads i (by simpa using hi)
  writes i hi := by
    rcases List.mem_cons.mp hi with heq | hi
    · cases heq
    · rcases List.mem_cons.mp hi with heq | hi
      · cases heq
        omega
      · exact h.writes i hi
  inRange i hi := h.inRange i (by simpa using hi)

/-- An iteration of the second inner loop in front of `log`. -/
theorem LogOk.toOther {m w r k : ℕ} {log : List Access} (h : LogOk m w log) (hwr : w < r)
    (hr : r < m) (hk : k < m / 2) : LogOk m w (.read r :: .writeOther k :: log) where
  fresh overwritten hover := by
    refine ⟨fun hmem => ?_, h.fresh overwritten hover⟩
    have := hover r hmem
    omega
  reads i hi := by
    rcases List.mem_cons.mp hi with heq | hi
    · cases heq
      exact hr
    · exact h.reads i (by simpa using hi)
  writes i hi := h.writes i (by simpa using hi)
  inRange i hi := by
    rcases List.mem_cons.mp hi with heq | hi
    · cases heq
    · rcases List.mem_cons.mp hi with heq | hi
      · cases heq
        exact hk
      · exact h.inRange i hi

/-- The first inner loop in front of `rest`. -/
theorem copyToThisLog_ok {old : ℕ → KV P V} {m k : ℕ} {rest : List Access} :
    ∀ (r i : ℕ) {s s' : SplitState P V}, SplitInv old m s → i + r = 2 ^ k →
      s.writeThisIdx + 1 = 2 ^ k + i → s.readIdx + 1 = 2 ^ (k + 1) + i →
      copyToThis m r s = some s' → LogOk m s'.writeThisIdx rest →
      LogOk m s.writeThisIdx (copyToThisLog m r s.writeThisIdx s.readIdx ++ rest) := by
  intro r
  induction r with
  | zero =>
    intro i s s' _ _ _ _ hrun hrest
    obtain rfl := Option.some.inj hrun
    exact hrest
  | succ r ih =>
    intro i s s' hinv hir hw hr hrun hrest
    unfold copyToThis at hrun
    unfold copyToThisLog
    split_ifs at hrun ⊢ with hlt
    · obtain ⟨this, hwrite, hnext⟩ := hinv.stepThis (k := k) (i := i) (by omega) hw hr hlt
      rw [hwrite, Option.bind_some] at hrun
      have hcount := hinv.count
      have hlog := ih (i + 1) hnext (by omega) (by show s.writeThisIdx + 1 + 1 = _; omega)
        (by show s.readIdx + 1 + 1 = _; omega) hrun hrest
      exact LogOk.toThis hlog (by omega) hlt
    · obtain rfl := Option.some.inj hrun
      exact hrest

/-- The second inner loop in front of `rest`. -/
theorem copyToOtherLog_ok {old : ℕ → KV P V} {m k : ℕ} {rest : List Access} :
    ∀ (r i : ℕ) {s s' : SplitState P V}, SplitInv old m s → i + r = 2 ^ k →
      s.writeOtherIdx + 1 = 2 ^ k + i → (s.readIdx < m → s.writeThisIdx + 1 = 2 ^ (k + 1)) →
      copyToOther m r s = some s' → LogOk m s'.writeThisIdx rest →
      LogOk m s.writeThisIdx (copyToOtherLog m r s.writeOtherIdx s.readIdx ++ rest) := by
  intro r
  induction r with
  | zero =>
    intro i s s' _ _ _ _ hrun hrest
    obtain rfl := Option.some.inj hrun
    exact hrest
  | succ r ih =>
    intro i s s' hinv hir hw hfull hrun hrest
    unfold copyToOther at hrun
    unfold copyToOtherLog
    split_ifs at hrun ⊢ with hlt
    · obtain ⟨other, hwrite, hnext⟩ :=
        hinv.stepOther (k := k) (i := i) (by omega) hw (hfull hlt) hlt
      rw [hwrite, Option.bind_some] at hrun
      have hcount := hinv.count
      have hroom : s.writeOtherIdx < m / 2 := by
        have hlead : s.writeOtherIdx + 1 ≤ s.writeThisIdx := hnext.lead
        omega
      have hlog := ih (i + 1) hnext (by omega) (by show s.writeOtherIdx + 1 + 1 = _; omega)
        (fun _ => hfull hlt) hrun hrest
      exact LogOk.toOther hlog (by omega) hlt hroom
    · obtain rfl := Option.some.inj hrun
      exact hrest

/-- The loop over the levels, entered at level `k`. -/
theorem copyLevelsLog_ok {old : ℕ → KV P V} {m : ℕ} :
    ∀ (fuel k : ℕ) {s : SplitState P V}, SplitInv old m s →
      (s.readIdx < m → s.writeThisIdx + 1 = 2 ^ k ∧ s.writeOtherIdx + 1 = 2 ^ k) →
      LogOk m s.writeThisIdx (copyLevelsLog m fuel (2 ^ (k + 1)) s) := by
  intro fuel
  induction fuel with
  | zero =>
    intro k s _ _
    unfold copyLevelsLog
    split_ifs <;> exact logOk_nil m _
  | succ fuel ih =>
    intro k s hinv hfull
    have hhalf : 2 ^ (k + 1) / 2 = 2 ^ k := by rw [Nat.pow_succ]; omega
    have hpow : 2 ^ (k + 1) = 2 * 2 ^ k := by rw [Nat.pow_succ]; omega
    unfold copyLevelsLog
    split_ifs with hlt
    · obtain ⟨hthis, hother⟩ := hfull hlt
      have hcount := hinv.count
      obtain ⟨s₁, hrun₁, hinv₁, -, hother₁, hfull₁⟩ :=
        copyToThis_spec (k := k) (2 ^ k) 0 hinv (by omega) (by omega) (by omega)
      obtain ⟨s₂, hrun₂, hinv₂, -, hfull₂⟩ :=
        copyToOther_spec (k := k) (2 ^ k) 0 hinv₁ (by omega) (by omega) hfull₁
      have hlog₂ := ih (k + 1) hinv₂ hfull₂
      have hlog₁ := copyToOtherLog_ok (k := k) (2 ^ k) 0 hinv₁ (by omega) (by omega) hfull₁ hrun₂
        hlog₂
      rw [hhalf]
      simp only [hrun₁, hrun₂]
      rw [← Nat.pow_succ]
      exact copyToThisLog_ok (k := k) (2 ^ k) 0 hinv (by omega) (by omega) (by omega) hrun₁ hlog₁
    · exact logOk_nil m _

/-! ## The operation -/

variable [LinearOrder P]

/-- **How `split` divides a heap of `m` entries `old 0, …, old (m - 1)`.** -/
structure Divided (old : ℕ → KV P V) (m : ℕ) (this other : Heap P V) : Prop where
  validThis : this.Valid
  validOther : other.Valid
  left : this.entries = (subtree 1 m).val.map old
  right : other.entries = old 0 ::ₘ (subtree 2 m).val.map old
  nonempty : 0 < this.n ∧ 0 < other.n
  sizeThis : m - 1 ≤ 2 * this.n
  sizeOther : m + 1 ≤ 3 * other.n

variable [OrderTop P]

/-- **`split` shares fairly and stays in bounds**, whatever the capacity of the empty `other`.  The
copy loops read and write `this` below `m`, write `other` below its new capacity `m / 2`, and read no
cell that they have overwritten; the accesses of which this is said are theirs, as replaying them shows. -/
theorem split_shares {this other : Heap P V} (hv : this.Valid) (hempty : other.n = 0) :
    (this.n < 2 → this.split other = some (this, other)) ∧
    (2 ≤ this.n → ∃ this' other', this.split other = some (this', other') ∧
      Divided this.values this.n this' other' ∧
      (∃ s, copyLevels this.n this.n 2 (splitStart this other) = some s ∧ s.this = this' ∧
        s.other.capacity = this.n / 2 ∧
        ∀ kv, ∃ kv', (copyLevelsLog this.n this.n 2 (splitStart this other)).foldl Access.run
          (kv, this.values, other.values) = (kv', s.this.values, s.other.values)) ∧
      ∀ log, log = copyLevelsLog this.n this.n 2 (splitStart this other) →
        ReadsFresh [] log ∧ (∀ i, .read i ∈ log → i < this.n) ∧
        (∀ i, .writeThis i ∈ log → i < this.n) ∧ ∀ i, .writeOther i ∈ log → i < this.n / 2) := by
  refine ⟨split_small, fun hlarge => ?_⟩
  obtain ⟨s, other', hcopy, hinv, hend, hv', hent, hrun⟩ :=
    split_run other hv hlarge (by omega)
  have hcount := hinv.count
  have hlead := hinv.lead
  have hbalanced := hinv.balanced hend
  have hroom := hinv.room
  have hthis := hinv.thisN
  have hsize : other'.n = s.writeOtherIdx + 1 := by
    rw [← card_entries, hent, Multiset.card_cons, card_entries, hinv.otherN]
  refine ⟨s.this, other', hrun, ?_, ⟨s, hcopy, rfl, hinv.otherRoom, copyLevelsLog_run _ _ hcopy⟩, ?_⟩
  · refine ⟨⟨hinv.ordered_this hv.ordered rfl, by omega, by omega⟩, hv', hinv.entries_this hend,
      ?_, by omega, by omega, by omega⟩
    rw [hent, hinv.entries_other hend]
  · rintro log rfl
    have hlog := copyLevelsLog_ok this.n 0 (splitStart_inv other hv hlarge) fun _ => ⟨rfl, rfl⟩
    exact ⟨hlog.fresh [] fun i hi => absurd hi List.not_mem_nil, hlog.reads, hlog.writes,
      hlog.inRange⟩

/-- Five entries in order, and an empty heap whose block has no cell. -/
theorem split_shares_five : ∃ this' other' : Heap (WithTop ℕ) ℕ,
    (⟨5, 8, fun i => ⟨WithTop.some i, i⟩⟩ : Heap (WithTop ℕ) ℕ).split ⟨0, 0, fun i => ⟨⊤, i⟩⟩ =
      some (this', other') ∧ 2 ≤ this'.n ∧ 2 ≤ other'.n := by
  have hv : (⟨5, 8, fun i => ⟨WithTop.some i, i⟩⟩ : Heap (WithTop ℕ) ℕ).Valid := by
    refine ⟨fun i hi _ => ?_, by decide, by decide⟩
    exact WithTop.coe_le_coe.mpr (parent_lt hi).le
  obtain ⟨this', other', hrun, hdivided, -⟩ :=
    (split_shares hv (show (⟨0, 0, fun i => ⟨⊤, i⟩⟩ : Heap (WithTop ℕ) ℕ).n = 0 from rfl)).2
      (by decide)
  have hthis : 5 - 1 ≤ 2 * this'.n := hdivided.sizeThis
  have hother : 5 + 1 ≤ 3 * other'.n := hdivided.sizeOther
  exact ⟨this', other', hrun, by omega, by omega⟩

end PwsaStar.Heap
