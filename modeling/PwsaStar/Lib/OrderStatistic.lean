/-
# PwsaStar.Lib.OrderStatistic — elements of a given rank in a list with equal elements.

`cmp a b` is negative if `a` comes before `b`, positive if it comes behind, and zero if neither; different
elements may compare as equal.  An element has rank `k` if at most `k` elements come before it and more
than `k` do not come behind it.

A pivot splits a list into what comes before it and what comes behind it.  An element that has a rank in
one side has it in the list, shifted by what is not in that side, and the pivot has the ranks in between.
-/
import Mathlib.Algebra.Order.Group.Int
import Mathlib.Data.List.Basic
import Mathlib.Data.List.Count

namespace PwsaStar.Lib

universe u

variable {α : Type u} {cmp : α → α → ℤ}

/-- A three-way comparison that orders all elements, some of them equally. -/
structure TotalPreorder (cmp : α → α → ℤ) : Prop where
  swap : ∀ a b, cmp a b < 0 ↔ 0 < cmp b a
  trans : ∀ a b c, cmp a b ≤ 0 → cmp b c ≤ 0 → cmp a c ≤ 0

namespace TotalPreorder

theorem self (h : TotalPreorder cmp) (a : α) : cmp a a = 0 := by
  have := h.swap a a
  omega

theorem le_iff (h : TotalPreorder cmp) {a b : α} : cmp a b ≤ 0 ↔ 0 ≤ cmp b a := by
  have := h.swap b a
  omega

theorem lt_of_lt_of_le (h : TotalPreorder cmp) {a b c : α} (hab : cmp a b < 0) (hbc : cmp b c ≤ 0) :
    cmp a c < 0 := by
  by_contra hac
  have hca : cmp c a ≤ 0 := h.le_iff.mpr (not_lt.mp hac)
  have hba : cmp b a ≤ 0 := h.trans b c a hbc hca
  have := (h.swap a b).mp hab
  omega

theorem lt_of_le_of_lt (h : TotalPreorder cmp) {a b c : α} (hab : cmp a b ≤ 0) (hbc : cmp b c < 0) :
    cmp a c < 0 := by
  by_contra hac
  have hca : cmp c a ≤ 0 := h.le_iff.mpr (not_lt.mp hac)
  have hcb : cmp c b ≤ 0 := h.trans c a b hca hab
  have := (h.swap b c).mp hbc
  omega

end TotalPreorder

/-- `x` is an element of rank `k`. -/
structure HasRank (cmp : α → α → ℤ) (xs : List α) (k : ℤ) (x : α) : Prop where
  mem : x ∈ xs
  low : (xs.countP fun y => cmp y x < 0) ≤ k
  high : k < xs.countP fun y => cmp y x ≤ 0

/-- What comes before the pivot. -/
def lesser (cmp : α → α → ℤ) (pivot : α) (xs : List α) : List α := xs.filter fun y => cmp y pivot < 0

/-- What comes behind the pivot. -/
def greater (cmp : α → α → ℤ) (pivot : α) (xs : List α) : List α := xs.filter fun y => 0 < cmp y pivot

theorem length_lesser (cmp : α → α → ℤ) (pivot : α) (xs : List α) :
    (lesser cmp pivot xs).length = xs.countP fun y => cmp y pivot < 0 :=
  List.countP_eq_length_filter.symm

theorem countP_add_length_greater (cmp : α → α → ℤ) (pivot : α) (xs : List α) :
    (xs.countP fun y => cmp y pivot ≤ 0) + (greater cmp pivot xs).length = xs.length := by
  rw [greater, ← List.countP_eq_length_filter,
    List.length_eq_countP_add_countP (fun y => decide (cmp y pivot ≤ 0)) (l := xs)]
  congr 2
  funext y
  simp

/-- Neither side has the pivot. -/
theorem length_lesser_lt (h : TotalPreorder cmp) {pivot : α} {xs : List α} (hpivot : pivot ∈ xs) :
    (lesser cmp pivot xs).length < xs.length := by
  apply List.length_filter_lt_length_iff_exists.mpr
  exact ⟨pivot, hpivot, by simp [h.self]⟩

theorem length_greater_lt (h : TotalPreorder cmp) {pivot : α} {xs : List α} (hpivot : pivot ∈ xs) :
    (greater cmp pivot xs).length < xs.length := by
  apply List.length_filter_lt_length_iff_exists.mpr
  exact ⟨pivot, hpivot, by simp [h.self]⟩

/-- The pivot has the ranks between the two sides. -/
theorem HasRank.pivot {pivot : α} {xs : List α} {k : ℤ} (hpivot : pivot ∈ xs)
    (hlow : (lesser cmp pivot xs).length ≤ k) (hhigh : k < xs.length - (greater cmp pivot xs).length) :
    HasRank cmp xs k pivot := by
  have hlen := length_lesser cmp pivot xs
  have hsum := countP_add_length_greater cmp pivot xs
  exact ⟨hpivot, by omega, by omega⟩

/-- **A rank in the lesser side is the rank in the list.** -/
theorem HasRank.of_lesser (h : TotalPreorder cmp) {pivot x : α} {xs : List α} {k : ℤ}
    (hx : HasRank cmp (lesser cmp pivot xs) k x) : HasRank cmp xs k x := by
  obtain ⟨hmem, hlt⟩ := List.mem_filter.mp hx.mem
  have hxp : cmp x pivot < 0 := of_decide_eq_true hlt
  have hlow := hx.low
  have hhigh := hx.high
  rw [lesser, List.countP_filter] at hlow hhigh
  refine ⟨hmem, ?_, ?_⟩
  · rwa [show (fun y => decide (cmp y x < 0)) =
      fun y => decide (cmp y x < 0) && decide (cmp y pivot < 0) from ?_]
    funext y
    have : cmp y x < 0 → cmp y pivot < 0 := fun hyx => h.lt_of_lt_of_le hyx hxp.le
    simpa using this
  · rwa [show (fun y => decide (cmp y x ≤ 0)) =
      fun y => decide (cmp y x ≤ 0) && decide (cmp y pivot < 0) from ?_]
    funext y
    have : cmp y x ≤ 0 → cmp y pivot < 0 := fun hyx => h.lt_of_le_of_lt hyx hxp
    simpa using this

/-- What all elements outside the greater side satisfy is counted there, and in the greater side. -/
theorem countP_greater (cmp : α → α → ℤ) (pivot : α) {xs : List α} {p : α → Bool}
    (hp : ∀ y ∈ xs, cmp y pivot ≤ 0 → p y = true) :
    (xs.countP p : ℤ) = (xs.length - (greater cmp pivot xs).length) + (greater cmp pivot xs).countP p := by
  have hrest : (xs.filter fun y => !decide (0 < cmp y pivot)).countP p =
      (xs.filter fun y => !decide (0 < cmp y pivot)).length := by
    apply List.countP_eq_length.mpr
    intro y hy
    obtain ⟨hmem, hle⟩ := List.mem_filter.mp hy
    exact hp y hmem (by simpa using hle)
  have hsplit := List.countP_eq_countP_filter_add xs p fun y => decide (0 < cmp y pivot)
  have hlen := List.length_eq_length_filter_add (l := xs) fun y => decide (0 < cmp y pivot)
  rw [greater]
  omega

/-- **A rank in the greater side is shifted by what is not in it.** -/
theorem HasRank.of_greater (h : TotalPreorder cmp) {pivot x : α} {xs : List α} {k : ℤ}
    (hx : HasRank cmp (greater cmp pivot xs) (k - (xs.length - (greater cmp pivot xs).length)) x) :
    HasRank cmp xs k x := by
  obtain ⟨hmem, hlt⟩ := List.mem_filter.mp hx.mem
  have hpx : cmp pivot x < 0 := (h.swap _ _).mpr (of_decide_eq_true hlt)
  have hlow := hx.low
  have hhigh := hx.high
  refine ⟨hmem, ?_, ?_⟩
  · rw [countP_greater cmp pivot fun y _ hy => decide_eq_true (h.lt_of_le_of_lt hy hpx)]
    omega
  · rw [countP_greater cmp pivot fun y _ hy => decide_eq_true (h.lt_of_le_of_lt hy hpx).le]
    omega

end PwsaStar.Lib
