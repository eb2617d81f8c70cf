/-
# PwsaStar.Heap.Order — the sifts, `insert`, `delete_min` and `discard_min` are fault free and correct.

`UpReady h i` and `DownReady h i` say which order the loops start from: every edge of the tree except
those at `i` is in order, and the edges that skip `i` are in order too.  Each loop moves `i` along the
tree, keeps the entries, and ends with an ordered heap.

A missing child has priority `⊤`.  It is never descended to: the descent only happens below a cell
that is strictly larger than one of its children, and nothing is strictly larger than `⊤`, so the
smaller child is live (`minChild_lt`) even where it ties with a real priority `⊤`.
-/
import PwsaStar.Heap.Basic
import Mathlib.Logic.Equiv.Basic
import Mathlib.Data.Finset.Range

namespace PwsaStar.Heap

variable {P V : Type*}

/-! ## Index arithmetic -/

theorem parent_lt {i : ℕ} (hi : 0 < i) : parent i < i := by
  unfold parent
  omega

theorem parent_leftChild (i : ℕ) : parent (leftChild i) = i := by
  unfold parent leftChild
  omega

theorem parent_rightChild (i : ℕ) : parent (rightChild i) = i := by
  unfold parent rightChild
  omega

theorem eq_child_of_parent {i j : ℕ} (hi : 0 < i) (h : parent i = j) :
    i = leftChild j ∨ i = rightChild j := by
  unfold parent at h
  unfold leftChild rightChild
  omega

/-! ## Swapping two live cells -/

/-- Swapping two live cells keeps the entries: the block is read through a transposition of the
live indices. -/
theorem entries_swapCells {h h' : Heap P V} {i j : ℕ} (hs : h.swapCells i j = some h') :
    h'.entries = h.entries := by
  unfold swapCells at hs
  split at hs
  case isTrue hij =>
    obtain rfl := Option.some.inj hs
    have hvals : Function.update (Function.update h.values i (h.values j)) j (h.values i)
        = h.values ∘ Equiv.swap j i := Equiv.comp_swap_eq_update j i h.values |>.symm
    have hperm : (Multiset.range h.n).map (Equiv.swap j i) = Multiset.range h.n := by
      refine Multiset.Nodup.ext ?_ (Multiset.nodup_range h.n) |>.mpr ?_
      · exact (Multiset.nodup_range h.n).map (Equiv.swap j i).injective
      · intro k
        simp only [Multiset.mem_map, Multiset.mem_range]
        constructor
        · rintro ⟨x, hx, rfl⟩
          rw [Equiv.swap_apply_def]
          split_ifs <;> omega
        · intro hk
          refine ⟨Equiv.swap j i k, ?_, by simp⟩
          rw [Equiv.swap_apply_def]
          split_ifs <;> omega
    show (Multiset.range h.n).map _ = (Multiset.range h.n).map h.values
    rw [hvals, ← Multiset.map_map, hperm]
  case isFalse => exact absurd hs (by simp)

/-- What a swap of live cells does to the three fields. -/
theorem swapCells_eq {h : Heap P V} {i j : ℕ} (hi : i < h.n) (hj : j < h.n) :
    ∃ h', h.swapCells i j = some h' ∧ h'.n = h.n ∧ h'.capacity = h.capacity ∧
      h'.values j = h.values i ∧ h'.values i = h.values j ∧
      ∀ k, k ≠ i → k ≠ j → h'.values k = h.values k := by
  refine ⟨_, if_pos ⟨hi, hj⟩, rfl, rfl, by simp, ?_, ?_⟩
  · by_cases hij : i = j
    · subst hij; simp
    · simp [Function.update_of_ne hij]
  · intro k hki hkj
    simp [Function.update_of_ne hki, Function.update_of_ne hkj]

/-- Moving the last entry to the root and dropping the last cell removes the root entry. -/
theorem entries_replace_root (vals : ℕ → KV P V) (k : ℕ) :
    (Multiset.range (k + 1)).map vals =
      vals 0 ::ₘ (Multiset.range k).map (Function.update vals 0 (vals k)) := by
  cases k with
  | zero => simp
  | succ k =>
    have hshift : ∀ m : ℕ, Multiset.range (m + 1) = 0 ::ₘ (Multiset.range m).map (· + 1) := by
      intro m
      show ((List.range (m + 1) : List ℕ) : Multiset ℕ) = _
      rw [List.range_succ_eq_map]
      rfl
    have hlast : (Multiset.range (k + 1)).map (fun j => vals (j + 1))
        = vals (k + 1) ::ₘ (Multiset.range k).map (fun j => vals (j + 1)) := by
      rw [Multiset.range_succ, Multiset.map_cons]
    have hroot : (Multiset.range (k + 1)).map (Function.update vals 0 (vals (k + 1)))
        = vals (k + 1) ::ₘ (Multiset.range k).map (fun j => vals (j + 1)) := by
      rw [hshift k]
      simp
    rw [hroot, ← hlast, hshift (k + 1), Multiset.map_cons, Multiset.map_map]
    rfl

section Sifts

variable [LinearOrder P]

/-- The key of a cell. -/
def key (h : Heap P V) (i : ℕ) : P := (h.values i).priority

/-- Every edge but the one above `i` is in order, and the children of `i` are not below its
parent. -/
structure UpReady (h : Heap P V) (i : ℕ) : Prop where
  live : i < h.n
  except : ∀ k, 0 < k → k < h.n → k ≠ i → h.key (parent k) ≤ h.key k
  skip : ∀ k, 0 < k → k < h.n → parent k = i → 0 < i → h.key (parent i) ≤ h.key k

/-- Every edge but those below `i` is in order, and the children of `i` are not below its parent. -/
structure DownReady (h : Heap P V) (i : ℕ) : Prop where
  except : ∀ k, 0 < k → k < h.n → parent k ≠ i → h.key (parent k) ≤ h.key k
  skip : ∀ k, 0 < k → k < h.n → parent k = i → 0 < i → h.key (parent i) ≤ h.key k

theorem UpReady.step {h h' : Heap P V} {i : ℕ} (hr : UpReady h i) (hi : 0 < i)
    (hlt : h.key i < h.key (parent i)) (hs : h.swapCells i (parent i) = some h') :
    UpReady h' (parent i) := by
  have hp := parent_lt hi
  obtain ⟨h₁, hs₁, hn, -, hnew, hold, hrest⟩ := swapCells_eq hr.live (hp.trans hr.live)
  obtain rfl : h₁ = h' := Option.some.inj (hs₁.symm.trans hs)
  have kp : h₁.key (parent i) = h.key i := by simp only [key, hnew]
  have ki : h₁.key i = h.key (parent i) := by simp only [key, hold]
  have kr : ∀ k, k ≠ i → k ≠ parent i → h₁.key k = h.key k := by
    intro k h1 h2
    simp only [key, hrest k h1 h2]
  -- the edges that change are those at `i` and those at its parent
  refine ⟨by rw [hn]; exact hp.trans hr.live, ?_, ?_⟩
  · intro k hk hkn hne
    rw [hn] at hkn
    by_cases hki : k = i
    · subst hki
      rw [kp, ki]
      exact hlt.le
    · rw [kr k hki hne]
      by_cases hpk : parent k = parent i
      · rw [hpk, kp]
        exact hlt.le.trans (hpk ▸ hr.except k hk hkn hki)
      · by_cases hpi : parent k = i
        · rw [hpi, ki]
          exact hr.skip k hk hkn hpi hi
        · rw [kr _ hpi hpk]
          exact hr.except k hk hkn hki
  · intro k hk hkn hpk hpos
    rw [hn] at hkn
    have hpp := parent_lt hpos
    have hup : h.key (parent (parent i)) ≤ h.key (parent i) :=
      hr.except (parent i) hpos (hp.trans hr.live) hp.ne
    rw [kr (parent (parent i)) (by omega) hpp.ne]
    by_cases hki : k = i
    · rw [hki, ki]
      exact hup
    · rw [kr k hki (by have := parent_lt hk; omega)]
      exact hup.trans (hpk ▸ hr.except k hk hkn hki)

theorem UpReady.finish {h : Heap P V} {i : ℕ} (hr : UpReady h i)
    (hstop : 0 < i → h.key (parent i) ≤ h.key i) : h.Ordered := by
  intro k hk hkn
  by_cases hki : k = i
  · exact hki ▸ hstop (hki ▸ hk)
  · exact hr.except k hk hkn hki

/-- The root of an ordered heap has the least priority. -/
theorem root_le {h : Heap P V} (ho : h.Ordered) {i : ℕ} (hi : i < h.n) :
    (h.values 0).priority ≤ (h.values i).priority := by
  induction i using Nat.strongRecOn with
  | ind i ih =>
    by_cases h0 : i = 0
    · rw [h0]
    · have hp := parent_lt (Nat.pos_of_ne_zero h0)
      exact (ih (parent i) hp (by omega)).trans (ho i (Nat.pos_of_ne_zero h0) hi)

theorem root_min {h : Heap P V} (ho : h.Ordered) :
    ∀ e ∈ h.entries, (h.values 0).priority ≤ e.priority := by
  intro e he
  obtain ⟨i, hi, rfl⟩ := Multiset.mem_map.mp he
  exact root_le ho (Multiset.mem_range.mp hi)

theorem makeRoom_spec {h : Heap P V} (hv : h.Valid) :
    ∃ h₁, h.makeRoom = some h₁ ∧ h₁.n = h.n ∧ h₁.values = h.values ∧ h₁.n < h₁.capacity := by
  have hb := hv.bounded
  have ha := hv.allocated
  unfold makeRoom
  split_ifs with hfull
  · refine ⟨{ h with capacity := h.capacity * 2 }, if_pos (by omega), rfl, rfl, ?_⟩
    show h.n < h.capacity * 2
    omega
  · exact ⟨h, rfl, rfl, rfl, by omega⟩

variable [OrderTop P]

theorem priority_of_live {h : Heap P V} {i : ℕ} (hi : i < h.n) : h.priority i = h.key i := by
  simp [priority, key, Nat.not_le.mpr hi]

theorem priority_of_dead {h : Heap P V} {i : ℕ} (hi : h.n ≤ i) : h.priority i = ⊤ := by
  simp [priority, hi]

theorem live_of_priority_lt {h : Heap P V} {i : ℕ} {p : P} (hlt : h.priority i < p) : i < h.n := by
  by_contra hn
  rw [priority_of_dead (Nat.not_lt.mp hn)] at hlt
  exact not_top_lt hlt

/-- **`heapify_up_from` restores the order** and keeps the entries and the block. -/
theorem heapifyUpFrom_spec {h : Heap P V} {i : ℕ} (hr : UpReady h i) :
    ∀ fuel, i ≤ fuel → ∃ h', heapifyUpFrom fuel h i = some h' ∧ h'.Ordered ∧
      h'.entries = h.entries ∧ h'.n = h.n ∧ h'.capacity = h.capacity := by
  intro fuel
  induction fuel generalizing h i with
  | zero =>
    intro hfuel
    obtain rfl : i = 0 := by omega
    refine ⟨h, by simp [heapifyUpFrom], hr.finish (fun h0 => absurd h0 (lt_irrefl 0)), rfl, rfl, rfl⟩
  | succ fuel ih =>
    intro hfuel
    unfold heapifyUpFrom
    split_ifs with hcond
    · obtain ⟨hi, hlt⟩ := hcond
      have hp := parent_lt hi
      rw [priority_of_live hr.live, priority_of_live (hp.trans hr.live)] at hlt
      obtain ⟨h₁, hs, hn, hcap, -⟩ := swapCells_eq hr.live (hp.trans hr.live)
      obtain ⟨h₂, hrun, hord, hent, hn₂, hcap₂⟩ := ih (hr.step hi hlt hs) (by omega)
      refine ⟨h₂, ?_, hord, hent.trans (entries_swapCells hs), hn₂.trans hn, hcap₂.trans hcap⟩
      rw [hs]
      exact hrun
    · refine ⟨h, rfl, hr.finish ?_, rfl, rfl, rfl⟩
      intro hi
      rw [priority_of_live hr.live, priority_of_live ((parent_lt hi).trans hr.live)] at hcond
      exact not_lt.mp fun hlt => hcond ⟨hi, hlt⟩

/-- The smaller child of a cell that is out of order with some child is a live cell, strictly
smaller than the cell and not larger than any child. -/
theorem minChild_lt {h : Heap P V} {i : ℕ}
    (hcond : h.priority (leftChild i) < h.priority i ∨ h.priority (rightChild i) < h.priority i) :
    h.priority (h.minChild i) < h.priority i ∧ h.minChild i < h.n ∧ i < h.minChild i ∧
      parent (h.minChild i) = i ∧
      ∀ k, 0 < k → parent k = i → h.priority (h.minChild i) ≤ h.priority k := by
  have hle : h.priority (h.minChild i) ≤ h.priority (leftChild i) ∧
      h.priority (h.minChild i) ≤ h.priority (rightChild i) := by
    unfold minChild
    split_ifs with hlt
    · exact ⟨le_rfl, hlt.le⟩
    · exact ⟨not_lt.mp hlt, le_rfl⟩
  have hlt : h.priority (h.minChild i) < h.priority i := by
    rcases hcond with hc | hc
    · exact hle.1.trans_lt hc
    · exact hle.2.trans_lt hc
  refine ⟨hlt, live_of_priority_lt hlt, ?_, ?_, ?_⟩
  · unfold minChild leftChild rightChild
    split_ifs <;> omega
  · unfold minChild
    split_ifs
    · exact parent_leftChild i
    · exact parent_rightChild i
  · intro k hk hpk
    rcases eq_child_of_parent hk hpk with rfl | rfl
    · exact hle.1
    · exact hle.2

theorem DownReady.step {h h' : Heap P V} {i : ℕ} (hr : DownReady h i) (hi : i < h.n)
    (hcond : h.priority (leftChild i) < h.priority i ∨ h.priority (rightChild i) < h.priority i)
    (hs : h.swapCells i (h.minChild i) = some h') : DownReady h' (h.minChild i) := by
  obtain ⟨hlt, hcn, hic, hpc, hmin⟩ := minChild_lt hcond
  obtain ⟨h₁, hs₁, hn, -, hnew, hold, hrest⟩ := swapCells_eq hi hcn
  obtain rfl : h₁ = h' := Option.some.inj (hs₁.symm.trans hs)
  -- from here on `c` is the child that moves up
  generalize h.minChild i = c at *
  have kc : h₁.key c = h.key i := by simp only [key, hnew]
  have ki : h₁.key i = h.key c := by simp only [key, hold]
  have kr : ∀ k, k ≠ i → k ≠ c → h₁.key k = h.key k := by
    intro k h1 h2
    simp only [key, hrest k h1 h2]
  rw [priority_of_live hcn, priority_of_live hi] at hlt
  refine ⟨?_, ?_⟩
  · intro k hk hkn hpk
    rw [hn] at hkn
    have hpklt := parent_lt hk
    by_cases hkc : k = c
    · rw [hkc, hpc, ki, kc]
      exact hlt.le
    · by_cases hki : k = i
      · rw [hki] at hk hpk ⊢
        rw [ki, kr (parent i) (parent_lt hk).ne hpk]
        exact hr.skip c (by omega) hcn hpc hk
      · rw [kr k hki hkc]
        by_cases hpi : parent k = i
        · rw [hpi, ki]
          have := hmin k hk hpi
          rwa [priority_of_live hcn, priority_of_live hkn] at this
        · rw [kr _ hpi hpk]
          exact hr.except k hk hkn hpi
  · intro k hk hkn hpk _
    rw [hn] at hkn
    have hpklt := parent_lt hk
    rw [hpc, ki, kr k (by omega) (by omega)]
    exact hpk ▸ hr.except k hk hkn (by omega)

theorem DownReady.finish {h : Heap P V} {i : ℕ} (hr : DownReady h i)
    (hstop : ¬ (h.priority (leftChild i) < h.priority i ∨
      h.priority (rightChild i) < h.priority i)) : h.Ordered := by
  intro k hk hkn
  by_cases hpk : parent k = i
  · have hi : i < h.n := by have := parent_lt hk; omega
    rw [hpk]
    show h.key i ≤ h.key k
    rw [← priority_of_live hi, ← priority_of_live hkn]
    rw [not_or, not_lt, not_lt] at hstop
    rcases eq_child_of_parent hk hpk with rfl | rfl
    · exact hstop.1
    · exact hstop.2
  · exact hr.except k hk hkn hpk

/-- **`heapify_down_from` restores the order** and keeps the entries and the block. -/
theorem heapifyDownFrom_spec {h : Heap P V} {i : ℕ} (hr : DownReady h i) :
    ∀ fuel, h.n ≤ i + fuel → ∃ h', heapifyDownFrom fuel h i = some h' ∧ h'.Ordered ∧
      h'.entries = h.entries ∧ h'.n = h.n ∧ h'.capacity = h.capacity := by
  intro fuel
  induction fuel generalizing h i with
  | zero =>
    intro hfuel
    -- a smaller child would be a live cell, and there is none behind `i`
    have hstop : ¬ (h.priority (leftChild i) < h.priority i ∨
        h.priority (rightChild i) < h.priority i) := by
      intro hcond
      obtain ⟨-, hcn, hic, -⟩ := minChild_lt hcond
      omega
    refine ⟨h, ?_, hr.finish hstop, rfl, rfl, rfl⟩
    unfold heapifyDownFrom
    rw [if_neg hstop]
  | succ fuel ih =>
    intro hfuel
    unfold heapifyDownFrom
    split_ifs with hcond
    · obtain ⟨-, hcn, hic, -⟩ := minChild_lt hcond
      have hi : i < h.n := hic.trans hcn
      obtain ⟨h₁, hs, hn, hcap, -⟩ := swapCells_eq hi hcn
      obtain ⟨h₂, hrun, hord, hent, hn₂, hcap₂⟩ := ih (hr.step hi hcond hs) (by omega)
      refine ⟨h₂, ?_, hord, hent.trans (entries_swapCells hs), hn₂.trans hn, hcap₂.trans hcap⟩
      rw [hs]
      exact hrun
    · exact ⟨h, rfl, hr.finish hcond, rfl, rfl, rfl⟩

/-! ## The operations -/

/-- **`insert`** never faults, keeps the heap valid and adds exactly one entry. -/
theorem insert_spec {h : Heap P V} (hv : h.Valid) (p : P) (v : V) :
    ∃ h', h.insert p v = some h' ∧ h'.Valid ∧ h'.entries = ⟨p, v⟩ ::ₘ h.entries := by
  obtain ⟨h₁, hgrow, hn₁, hvals₁, hroom⟩ := makeRoom_spec hv
  set h₂ : Heap P V := { h₁ with values := Function.update h₁.values h₁.n ⟨p, v⟩ } with hh₂
  have hwrite : h₁.write h₁.n ⟨p, v⟩ = some h₂ := if_pos hroom
  set h₃ : Heap P V := { h₂ with n := h₂.n + 1 } with hh₃
  have hsame : ∀ k, k < h.n → h₃.values k = h.values k := by
    intro k hk
    show Function.update h₁.values h₁.n ⟨p, v⟩ k = h.values k
    rw [Function.update_of_ne (by omega), hvals₁]
  have hn₃ : h₃.n = h.n + 1 := by simp [hh₃, hh₂, hn₁]
  -- the new cell is a leaf, so only the edge above it can be out of order
  have hready : UpReady h₃ h₂.n := by
    refine ⟨by simp [hh₃], ?_, ?_⟩
    · intro k hk hkn hne
      have hlt : k < h.n := by
        have : k ≠ h.n := by rw [← hn₁]; exact hne
        omega
      have hp := parent_lt hk
      simp only [key, hsame k hlt, hsame (parent k) (by omega)]
      exact hv.ordered k hk hlt
    · intro k hk hkn hpk _
      have hp := parent_lt hk
      have : h₂.n = h.n := hn₁
      omega
  obtain ⟨h', hrun, hord, hent, hn', hcap'⟩ := heapifyUpFrom_spec hready h₂.n le_rfl
  refine ⟨h', ?_, ⟨hord, ?_, ?_⟩, ?_⟩
  · unfold insert
    simp only [Option.bind_eq_bind, hgrow, Option.bind_some, hwrite]
    exact hrun
  · have : h₃.capacity = h₁.capacity := rfl
    omega
  · have : h₃.capacity = h₁.capacity := rfl
    omega
  · rw [hent]
    unfold entries
    rw [hn₃, Multiset.range_succ, Multiset.map_cons]
    congr 1
    · show Function.update h₁.values h₁.n ⟨p, v⟩ h.n = ⟨p, v⟩
      rw [hn₁, Function.update_self]
    · exact Multiset.map_congr rfl fun k hk => hsame k (Multiset.mem_range.mp hk)

/-- **`discard_min`** on a non-empty heap never faults, keeps the heap valid and removes exactly the
root entry. -/
theorem discardMin_spec {h : Heap P V} (hv : h.Valid) (hn : 0 < h.n) :
    ∃ h', h.discardMin = some h' ∧ h'.Valid ∧ h.entries = h.values 0 ::ₘ h'.entries := by
  have hb := hv.bounded
  have hwrite : h.write 0 (h.values (h.n - 1))
      = some { h with values := Function.update h.values 0 (h.values (h.n - 1)) } :=
    if_pos (by omega)
  set h₁ : Heap P V :=
    { h with n := h.n - 1, values := Function.update h.values 0 (h.values (h.n - 1)) } with hh₁
  -- only the root was replaced, so only the edges below it can be out of order
  have hready : DownReady h₁ 0 := by
    refine ⟨?_, fun k _ _ _ h0 => absurd h0 (lt_irrefl 0)⟩
    intro k hk hkn hpk
    have hkn' : k < h.n - 1 := hkn
    have hkeep : ∀ j, j ≠ 0 → h₁.key j = h.key j := by
      intro j hj
      show (Function.update h.values 0 (h.values (h.n - 1)) j).priority = (h.values j).priority
      rw [Function.update_of_ne hj]
    rw [hkeep k (by omega), hkeep _ hpk]
    exact hv.ordered k hk (by omega)
  obtain ⟨h', hrun, hord, hent, hn', hcap'⟩ :=
    heapifyDownFrom_spec hready h.n (by show h.n - 1 ≤ 0 + h.n; omega)
  have hn₁ : h₁.n = h.n - 1 := rfl
  have hcap₁ : h₁.capacity = h.capacity := rfl
  refine ⟨h', ?_, ⟨hord, by omega, by have := hv.allocated; omega⟩, ?_⟩
  · unfold discardMin
    rw [if_pos hn]
    simp only [Option.bind_eq_bind, hwrite, Option.bind_some]
    exact hrun
  · rw [hent]
    obtain ⟨k, hk⟩ : ∃ k, h.n = k + 1 := ⟨h.n - 1, by omega⟩
    have hroot := entries_replace_root h.values k
    simp only [entries, hh₁, hk, Nat.add_sub_cancel]
    exact hroot

/-- `delete_min` is `discard_min` together with the value of the root. -/
theorem deleteMin_eq (h : Heap P V) :
    h.deleteMin = h.discardMin.map fun h' => ((h.values 0).value, h') := by
  unfold deleteMin discardMin
  split_ifs
  · cases h.write 0 (h.values (h.n - 1)) <;> simp [Option.map_eq_bind]
  · rfl

/-- **`delete_min`** on a non-empty heap returns the value of an entry of least priority and removes
exactly that entry. -/
theorem deleteMin_spec {h : Heap P V} (hv : h.Valid) (hn : 0 < h.n) :
    ∃ kv h', h.deleteMin = some (kv.value, h') ∧ h'.Valid ∧ h.entries = kv ::ₘ h'.entries ∧
      ∀ e ∈ h.entries, kv.priority ≤ e.priority := by
  obtain ⟨h', hrun, hv', hent⟩ := discardMin_spec hv hn
  refine ⟨h.values 0, h', ?_, hv', hent, root_min hv.ordered⟩
  rw [deleteMin_eq, hrun]
  rfl

end Sifts

end PwsaStar.Heap
