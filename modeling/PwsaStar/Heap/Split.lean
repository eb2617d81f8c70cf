/-
# PwsaStar.Heap.Split — `split` cuts the tree at the root and loses nothing.

Index `j` of the left subtree of the root sits at index `leftIdx j` of the whole tree, and index `j`
of the right subtree at `rightIdx j`: on level `k` (where `2^k ≤ j + 1 < 2^(k+1)`) the two subtrees
occupy the two halves of level `k + 1`.  The copy loops walk the levels and write both subtrees from
their first cell on; `SplitInv` is what holds between any two iterations:

* the cells of `this` from the write index on are still the old ones, so no cell is read after it was
  overwritten,
* what has been written is the prefix of the two subtrees,
* what has been written and what is still to be read make up the old entries without the root.

Edges of a subtree are edges of the tree (`leftIdx_parent`, `rightIdx_parent`), so both parts are
ordered.
-/
import PwsaStar.Heap.Order
import Mathlib.Data.Nat.Log

namespace PwsaStar.Heap

variable {P V : Type*}

/-! ## Indices of the two subtrees -/

/-- The index in the whole tree of index `j` of the root's left subtree. -/
def leftIdx (j : ℕ) : ℕ := j + 2 ^ Nat.log 2 (j + 1)

/-- The index in the whole tree of index `j` of the root's right subtree. -/
def rightIdx (j : ℕ) : ℕ := j + 2 ^ (Nat.log 2 (j + 1) + 1)

/-- The level of an index: `j` is entry `i` of level `k`. -/
theorem log_level {j k i : ℕ} (hj : j + 1 = 2 ^ k + i) (hi : i < 2 ^ k) : Nat.log 2 (j + 1) = k := by
  refine (Nat.log_eq_iff (Or.inr ⟨by decide, by omega⟩)).mpr ⟨by omega, ?_⟩
  rw [Nat.pow_succ]
  omega

theorem log_parent {j : ℕ} (hj : 0 < j) : Nat.log 2 (parent j + 1) + 1 = Nat.log 2 (j + 1) := by
  have hhalf : parent j + 1 = (j + 1) / 2 := by
    unfold parent
    omega
  have hpos : 1 ≤ Nat.log 2 (j + 1) := Nat.log_pos (by decide) (by omega)
  rw [hhalf, Nat.log_div_base]
  omega

theorem leftIdx_parent {j : ℕ} (hj : 0 < j) : leftIdx (parent j) = parent (leftIdx j) := by
  have hlog := log_parent hj
  unfold leftIdx
  rw [← hlog, Nat.pow_succ]
  unfold parent
  omega

theorem rightIdx_parent {j : ℕ} (hj : 0 < j) : rightIdx (parent j) = parent (rightIdx j) := by
  have hlog := log_parent hj
  unfold rightIdx
  rw [← hlog, Nat.pow_succ 2 (Nat.log 2 (parent j + 1) + 1)]
  unfold parent
  omega

/-! ## The invariant of the copy loops -/

/-- The entries at `r, …, m - 1`, the ones the loops have not read yet. -/
def unread (old : ℕ → KV P V) (r m : ℕ) : Multiset (KV P V) := ((List.range' r (m - r)).map old : _)

theorem unread_step (old : ℕ → KV P V) {r m : ℕ} (h : r < m) :
    unread old r m = old r ::ₘ unread old (r + 1) m := by
  unfold unread
  rw [show m - r = (m - (r + 1)) + 1 by omega, List.range'_succ]
  rfl

theorem unread_end (old : ℕ → KV P V) {r m : ℕ} (h : m ≤ r) : unread old r m = 0 := by
  unfold unread
  rw [Nat.sub_eq_zero_of_le h]
  rfl

/-- All entries are the root and the unread rest. -/
theorem map_range_eq (old : ℕ → KV P V) {m : ℕ} (h : 0 < m) :
    (Multiset.range m).map old = old 0 ::ₘ unread old 1 m := by
  have hall : (Multiset.range m).map old = unread old 0 m := by
    unfold unread
    rw [Nat.sub_zero, ← List.range_eq_range']
    rfl
  rw [hall, unread_step old h]

/-- **What holds between two iterations of the copy loops** of `split` on a heap that held `m`
entries `old 0, …, old (m - 1)`. -/
structure SplitInv (old : ℕ → KV P V) (m : ℕ) (s : SplitState P V) : Prop where
  thisN : s.this.n = s.writeThisIdx
  otherN : s.other.n = s.writeOtherIdx
  room : m ≤ s.this.capacity
  otherRoom : s.other.capacity = m / 2
  count : s.writeThisIdx + s.writeOtherIdx + 1 = s.readIdx
  lead : s.writeOtherIdx ≤ s.writeThisIdx
  bound : s.readIdx ≤ m
  kept : ∀ x, s.writeThisIdx ≤ x → s.this.values x = old x
  left : ∀ j < s.writeThisIdx, leftIdx j < m ∧ s.this.values j = old (leftIdx j)
  right : ∀ j < s.writeOtherIdx, rightIdx j < m ∧ s.other.values j = old (rightIdx j)
  conserved : s.this.entries + s.other.entries + unread old s.readIdx m = unread old 1 m

/-- Writing one more cell behind the live ones adds one entry. -/
theorem entries_snoc (vals : ℕ → KV P V) (k : ℕ) (kv : KV P V) :
    (Multiset.range (k + 1)).map (Function.update vals k kv) =
      kv ::ₘ (Multiset.range k).map vals := by
  rw [Multiset.range_succ, Multiset.map_cons, Function.update_self]
  congr 1
  apply Multiset.map_congr rfl
  intro j hj
  rw [Function.update_of_ne (Multiset.mem_range.mp hj).ne]

/-- One iteration of the first inner loop, on entry `i` of level `k`. -/
theorem SplitInv.stepThis {old : ℕ → KV P V} {m k i : ℕ} {s : SplitState P V}
    (hinv : SplitInv old m s) (hi : i < 2 ^ k) (hw : s.writeThisIdx + 1 = 2 ^ k + i)
    (hr : s.readIdx + 1 = 2 ^ (k + 1) + i) (hlt : s.readIdx < m) :
    ∃ this, s.this.write s.writeThisIdx (s.this.values s.readIdx) = some this ∧
      SplitInv old m
        { s with
          this := { this with n := this.n + 1 }
          writeThisIdx := s.writeThisIdx + 1
          readIdx := s.readIdx + 1 } := by
  have hcount := hinv.count
  -- the cell that is read has not been overwritten: writing stays behind reading
  have hidx : leftIdx s.writeThisIdx = s.readIdx := by
    unfold leftIdx
    rw [log_level hw hi]
    rw [Nat.pow_succ] at hr
    omega
  have hread : s.this.values s.readIdx = old s.readIdx := hinv.kept _ (by omega)
  refine ⟨_, if_pos (by have := hinv.room; omega), ?_⟩
  refine { hinv with
    bound := hlt
    thisN := ?_, count := ?_, lead := ?_, kept := ?_, left := ?_, conserved := ?_ }
  · show s.this.n + 1 = s.writeThisIdx + 1
    rw [hinv.thisN]
  · show s.writeThisIdx + 1 + s.writeOtherIdx + 1 = s.readIdx + 1
    omega
  · show s.writeOtherIdx ≤ s.writeThisIdx + 1
    have := hinv.lead
    omega
  · intro x hx
    have hx' : s.writeThisIdx + 1 ≤ x := hx
    show Function.update s.this.values s.writeThisIdx (s.this.values s.readIdx) x = old x
    rw [Function.update_of_ne (by omega)]
    exact hinv.kept x (by omega)
  · intro j hj
    have hj' : j < s.writeThisIdx + 1 := hj
    show leftIdx j < m ∧
      Function.update s.this.values s.writeThisIdx (s.this.values s.readIdx) j = old (leftIdx j)
    by_cases hjw : j = s.writeThisIdx
    · subst hjw
      rw [Function.update_self, hidx]
      exact ⟨hlt, hread⟩
    · rw [Function.update_of_ne hjw]
      exact hinv.left j (by omega)
  · have hsnoc := entries_snoc s.this.values s.this.n (s.this.values s.readIdx)
    have hcons := hinv.conserved
    rw [unread_step old hlt] at hcons
    show (Multiset.range (s.this.n + 1)).map
        (Function.update s.this.values s.writeThisIdx (s.this.values s.readIdx)) +
        s.other.entries + unread old (s.readIdx + 1) m = unread old 1 m
    rw [← hinv.thisN, hsnoc, hread, ← hcons]
    simp [entries]

/-- One iteration of the second inner loop, on entry `i` of level `k`. -/
theorem SplitInv.stepOther {old : ℕ → KV P V} {m k i : ℕ} {s : SplitState P V}
    (hinv : SplitInv old m s) (hi : i < 2 ^ k) (hw : s.writeOtherIdx + 1 = 2 ^ k + i)
    (hfull : s.writeThisIdx + 1 = 2 ^ (k + 1)) (hlt : s.readIdx < m) :
    ∃ other, s.other.write s.writeOtherIdx (s.this.values s.readIdx) = some other ∧
      SplitInv old m
        { s with
          other := { other with n := other.n + 1 }
          writeOtherIdx := s.writeOtherIdx + 1
          readIdx := s.readIdx + 1 } := by
  have hcount := hinv.count
  have hpow : 2 ^ (k + 1) = 2 * 2 ^ k := by rw [Nat.pow_succ]; omega
  have hidx : rightIdx s.writeOtherIdx = s.readIdx := by
    unfold rightIdx
    rw [log_level hw hi]
    omega
  have hread : s.this.values s.readIdx = old s.readIdx := hinv.kept _ (by omega)
  have hroom : s.writeOtherIdx < s.other.capacity := by
    rw [hinv.otherRoom]
    omega
  refine ⟨_, if_pos hroom, ?_⟩
  refine { hinv with
    bound := hlt
    otherN := ?_, count := ?_, lead := ?_, right := ?_, conserved := ?_ }
  · show s.other.n + 1 = s.writeOtherIdx + 1
    rw [hinv.otherN]
  · show s.writeThisIdx + (s.writeOtherIdx + 1) + 1 = s.readIdx + 1
    omega
  · show s.writeOtherIdx + 1 ≤ s.writeThisIdx
    omega
  · intro j hj
    have hj' : j < s.writeOtherIdx + 1 := hj
    show rightIdx j < m ∧
      Function.update s.other.values s.writeOtherIdx (s.this.values s.readIdx) j = old (rightIdx j)
    by_cases hjw : j = s.writeOtherIdx
    · subst hjw
      rw [Function.update_self, hidx]
      exact ⟨hlt, hread⟩
    · rw [Function.update_of_ne hjw]
      exact hinv.right j (by omega)
  · have hsnoc := entries_snoc s.other.values s.other.n (s.this.values s.readIdx)
    have hcons := hinv.conserved
    rw [unread_step old hlt] at hcons
    show s.this.entries + (Multiset.range (s.other.n + 1)).map
        (Function.update s.other.values s.writeOtherIdx (s.this.values s.readIdx)) +
        unread old (s.readIdx + 1) m = unread old 1 m
    rw [← hinv.otherN, hsnoc, hread, ← hcons]
    simp [entries]

/-! ## The loops -/

/-- The first inner loop from entry `i` of level `k` on: it copies the rest of the left half of the
level, or stops because everything has been read. -/
theorem copyToThis_spec {old : ℕ → KV P V} {m k : ℕ} :
    ∀ (r i : ℕ) {s : SplitState P V}, SplitInv old m s → i + r = 2 ^ k →
      s.writeThisIdx + 1 = 2 ^ k + i → s.readIdx + 1 = 2 ^ (k + 1) + i →
      ∃ s', copyToThis m r s = some s' ∧ SplitInv old m s' ∧ s.readIdx ≤ s'.readIdx ∧
        s'.writeOtherIdx = s.writeOtherIdx ∧
        (s'.readIdx < m → s'.writeThisIdx + 1 = 2 ^ (k + 1))
  | 0, i, s, hinv, hir, hw, _ => by
      refine ⟨s, rfl, hinv, le_rfl, rfl, fun _ => ?_⟩
      rw [hw, Nat.pow_succ]
      omega
  | r + 1, i, s, hinv, hir, hw, hr => by
      unfold copyToThis
      split_ifs with hlt
      · obtain ⟨this, hwrite, hnext⟩ := hinv.stepThis (k := k) (i := i) (by omega) hw hr hlt
        obtain ⟨s', hrun, hinv', hmono, hother, hdone⟩ :=
          copyToThis_spec (k := k) r (i + 1) hnext (by omega)
            (by show s.writeThisIdx + 1 + 1 = _; omega)
            (by show s.readIdx + 1 + 1 = _; omega)
        refine ⟨s', ?_, hinv', ?_, hother, hdone⟩
        · rw [hwrite]
          exact hrun
        · have : s.readIdx + 1 ≤ s'.readIdx := hmono
          omega
      · exact ⟨s, rfl, hinv, le_rfl, rfl, fun h => absurd h hlt⟩

/-- The second inner loop, likewise for the right half of the level. -/
theorem copyToOther_spec {old : ℕ → KV P V} {m k : ℕ} :
    ∀ (r i : ℕ) {s : SplitState P V}, SplitInv old m s → i + r = 2 ^ k →
      s.writeOtherIdx + 1 = 2 ^ k + i → (s.readIdx < m → s.writeThisIdx + 1 = 2 ^ (k + 1)) →
      ∃ s', copyToOther m r s = some s' ∧ SplitInv old m s' ∧ s.readIdx ≤ s'.readIdx ∧
        (s'.readIdx < m → s'.writeThisIdx + 1 = 2 ^ (k + 1) ∧ s'.writeOtherIdx + 1 = 2 ^ (k + 1))
  | 0, i, s, hinv, hir, hw, hfull => by
      refine ⟨s, rfl, hinv, le_rfl, fun hlt => ⟨hfull hlt, ?_⟩⟩
      rw [hw, Nat.pow_succ]
      omega
  | r + 1, i, s, hinv, hir, hw, hfull => by
      unfold copyToOther
      split_ifs with hlt
      · obtain ⟨other, hwrite, hnext⟩ := hinv.stepOther (k := k) (i := i) (by omega) hw (hfull hlt) hlt
        obtain ⟨s', hrun, hinv', hmono, hdone⟩ :=
          copyToOther_spec (k := k) r (i + 1) hnext (by omega)
            (by show s.writeOtherIdx + 1 + 1 = _; omega)
            (fun _ => hfull hlt)
        refine ⟨s', ?_, hinv', ?_, hdone⟩
        · rw [hwrite]
          exact hrun
        · have : s.readIdx + 1 ≤ s'.readIdx := hmono
          omega
      · exact ⟨s, rfl, hinv, le_rfl, fun h => absurd h hlt⟩

/-- The loop over the levels, entered at level `k`, reads everything. -/
theorem copyLevels_spec {old : ℕ → KV P V} {m : ℕ} :
    ∀ (fuel k : ℕ) {s : SplitState P V}, SplitInv old m s → m ≤ s.readIdx + fuel →
      (s.readIdx < m → s.writeThisIdx + 1 = 2 ^ k ∧ s.writeOtherIdx + 1 = 2 ^ k) →
      ∃ s', copyLevels m fuel (2 ^ (k + 1)) s = some s' ∧ SplitInv old m s' ∧ s'.readIdx = m := by
  intro fuel
  induction fuel with
  | zero =>
    intro k s hinv hfuel _
    have hend : ¬ s.readIdx < m := by omega
    refine ⟨s, ?_, hinv, by have := hinv.bound; omega⟩
    unfold copyLevels
    rw [if_neg hend]
  | succ fuel ih =>
    intro k s hinv hfuel hfull
    have hhalf : 2 ^ (k + 1) / 2 = 2 ^ k := by rw [Nat.pow_succ]; omega
    have hpow : 2 ^ (k + 1) = 2 * 2 ^ k := by rw [Nat.pow_succ]; omega
    have hpos : 0 < 2 ^ k := Nat.two_pow_pos k
    unfold copyLevels
    split_ifs with hlt
    · obtain ⟨hthis, hother⟩ := hfull hlt
      have hcount := hinv.count
      obtain ⟨s₁, hrun₁, hinv₁, hmono₁, hother₁, hfull₁⟩ :=
        copyToThis_spec (k := k) (2 ^ k) 0 hinv (by omega) (by omega) (by omega)
      obtain ⟨s₂, hrun₂, hinv₂, hmono₂, hfull₂⟩ :=
        copyToOther_spec (k := k) (2 ^ k) 0 hinv₁ (by omega) (by omega) hfull₁
      -- a level that was entered reads at least one cell, so the iterations suffice
      have hprog : s₂.readIdx < m → s.readIdx < s₂.readIdx := by
        intro h2
        have := hfull₂ h2
        have := hinv₂.count
        omega
      have hfuel₂ : m ≤ s₂.readIdx + fuel := by
        by_cases h2 : s₂.readIdx < m
        · have := hprog h2
          omega
        · omega
      obtain ⟨s₃, hrun₃, hinv₃, hend⟩ := ih (k + 1) hinv₂ hfuel₂ hfull₂
      refine ⟨s₃, ?_, hinv₃, hend⟩
      rw [hhalf]
      simp only [Option.bind_eq_bind, hrun₁, Option.bind_some, hrun₂]
      rw [← Nat.pow_succ]
      exact hrun₃
    · exact ⟨s, rfl, hinv, by have := hinv.bound; omega⟩

/-! ## The operation -/

variable [LinearOrder P]

theorem SplitInv.ordered_this {h : Heap P V} {m : ℕ} {s : SplitState P V}
    (hinv : SplitInv h.values m s) (ho : h.Ordered) (hm : m = h.n) : s.this.Ordered := by
  intro j hj hjn
  rw [hinv.thisN] at hjn
  have hp := parent_lt hj
  obtain ⟨hlt, hval⟩ := hinv.left j hjn
  rw [hval, (hinv.left (parent j) (by omega)).2, leftIdx_parent hj]
  exact ho (leftIdx j) (Nat.lt_of_lt_of_le hj (Nat.le_add_right _ _)) (by omega)

theorem SplitInv.ordered_other {h : Heap P V} {m : ℕ} {s : SplitState P V}
    (hinv : SplitInv h.values m s) (ho : h.Ordered) (hm : m = h.n) : s.other.Ordered := by
  intro j hj hjn
  rw [hinv.otherN] at hjn
  have hp := parent_lt hj
  obtain ⟨hlt, hval⟩ := hinv.right j hjn
  rw [hval, (hinv.right (parent j) (by omega)).2, rightIdx_parent hj]
  exact ho (rightIdx j) (Nat.lt_of_lt_of_le hj (Nat.le_add_right _ _)) (by omega)

variable [OrderTop P]

/-- Where the copy loops of `split` start. -/
def splitStart (this other : Heap P V) : SplitState P V where
  this := { this with n := 0 }
  other := { other with capacity := this.n / 2, n := 0 }
  writeThisIdx := 0
  writeOtherIdx := 0
  readIdx := 1

omit [OrderTop P] in
theorem splitStart_inv {this : Heap P V} (other : Heap P V) (hv : this.Valid) (hlarge : 2 ≤ this.n) :
    SplitInv this.values this.n (splitStart this other) := by
  refine ⟨rfl, rfl, hv.bounded, rfl, rfl, le_rfl, ?_, fun _ _ => rfl, ?_, ?_, ?_⟩
  · show 1 ≤ this.n
    omega
  · exact fun j hj => absurd hj (Nat.not_lt_zero j)
  · exact fun j hj => absurd hj (Nat.not_lt_zero j)
  · simp [splitStart]

/-- **The run of `split`** on a valid heap with at least two entries: the copy loops end with
everything read, and then the old minimum goes into `other` by an ordinary insertion. -/
theorem split_run {this : Heap P V} (other : Heap P V) (hv : this.Valid) (hlarge : 2 ≤ this.n)
    (hfit : other.n ≤ this.n / 2) :
    ∃ s other', copyLevels this.n this.n 2 (splitStart this other) = some s ∧
      SplitInv this.values this.n s ∧ s.readIdx = this.n ∧ other'.Valid ∧
      other'.entries = this.values 0 ::ₘ s.other.entries ∧
      this.split other = some (s.this, other') := by
  have hsmall : ¬ this.n < 2 := by omega
  have hresize : other.resizeBigger (this.n / 2) = some { other with capacity := this.n / 2 } :=
    if_pos hfit
  obtain ⟨s, hrun, hinv, hend⟩ :=
    copyLevels_spec this.n 0 (splitStart_inv other hv hlarge) (by show this.n ≤ 1 + this.n; omega) (fun _ => ⟨rfl, rfl⟩)
  have hcount := hinv.count
  have hlead := hinv.lead
  have hvother : s.other.Valid := by
    refine ⟨hinv.ordered_other hv.ordered rfl, ?_, ?_⟩
    · rw [hinv.otherN, hinv.otherRoom]
      omega
    · rw [hinv.otherRoom]
      omega
  obtain ⟨other', hins, hv', hent⟩ :=
    insert_spec hvother (this.values 0).priority (this.values 0).value
  have hcopy : copyLevels this.n this.n 2 (splitStart this other) = some s := hrun
  refine ⟨s, other', hcopy, hinv, hend, hv', hent, ?_⟩
  unfold split
  rw [if_neg hsmall]
  simp only [Option.bind_eq_bind, hresize, Option.bind_some]
  unfold splitStart at hcopy
  rw [hcopy]
  simp only [Option.bind_some, hins]
  rfl

/-- **`split`** of a valid heap with at least two entries into a valid one whose entries fit the
resized block: no fault, both parts are valid and non-empty, and together they hold the entries of
`this`.  What `other` held is gone. -/
theorem split_large {this : Heap P V} (other : Heap P V) (hv : this.Valid) (hlarge : 2 ≤ this.n)
    (hfit : other.n ≤ this.n / 2) :
    ∃ this' other', this.split other = some (this', other') ∧ this'.Valid ∧ other'.Valid ∧
      this'.entries + other'.entries = this.entries ∧ 0 < this'.n ∧ 0 < other'.n := by
  obtain ⟨s, other', -, hinv, hend, hv', hent, hrun⟩ := split_run other hv hlarge hfit
  have hcount := hinv.count
  have hlead := hinv.lead
  have hroom := hinv.room
  have hcons := hinv.conserved
  rw [hend, unread_end _ le_rfl, Multiset.add_zero] at hcons
  refine ⟨s.this, other', hrun, ?_, hv', ?_, ?_, ?_⟩
  · refine ⟨hinv.ordered_this hv.ordered rfl, ?_, by omega⟩
    rw [hinv.thisN]
    omega
  · rw [hent, Multiset.add_cons, hcons]
    exact (map_range_eq this.values (by omega)).symm
  · rw [hinv.thisN]
    omega
  · rw [← card_entries, hent, Multiset.card_cons]
    exact Nat.succ_pos _

/-- Below two entries `split` does nothing. -/
theorem split_small {this other : Heap P V} (hsmall : this.n < 2) :
    this.split other = some (this, other) := if_pos hsmall

/-- **`split`** into an empty heap of any capacity never faults, leaves two valid heaps and loses
nothing. -/
theorem split_spec {this other : Heap P V} (hv : this.Valid) (hvo : other.Valid)
    (hempty : other.n = 0) :
    ∃ this' other', this.split other = some (this', other') ∧ this'.Valid ∧ other'.Valid ∧
      this'.entries + other'.entries = this.entries := by
  by_cases hsmall : this.n < 2
  · exact ⟨this, other, split_small hsmall, hv, hvo, by simp [hempty]⟩
  · obtain ⟨this', other', hrun, hv', hvo', hent, -⟩ :=
      split_large other hv (by omega) (by omega)
    exact ⟨this', other', hrun, hv', hvo', hent⟩

/-- Whenever `split` is defined, both results are valid. -/
theorem split_valid {this other this' other' : Heap P V} (hv : this.Valid) (hvo : other.Valid)
    (hrun : this.split other = some (this', other')) : this'.Valid ∧ other'.Valid := by
  by_cases hsmall : this.n < 2
  · rw [split_small hsmall] at hrun
    obtain ⟨rfl, rfl⟩ := Prod.mk.inj (Option.some.inj hrun)
    exact ⟨hv, hvo⟩
  · by_cases hfit : other.n ≤ this.n / 2
    · obtain ⟨this₁, other₁, hrun₁, hv₁, hvo₁, -⟩ := split_large other hv (by omega) hfit
      rw [hrun₁] at hrun
      obtain ⟨rfl, rfl⟩ := Prod.mk.inj (Option.some.inj hrun)
      exact ⟨hv₁, hvo₁⟩
    · unfold split at hrun
      rw [if_neg hsmall] at hrun
      simp [resizeBigger, hfit] at hrun

end PwsaStar.Heap
