/-
# PwsaStar.Lib.CheckedArray — arrays with checked accesses, and loops that scatter into them.

An array is a list; reading is `a[i]?` and writing is `store`, both undefined outside the array.
`scatter` is a loop each iteration of which writes at most one cell.  Its iterations may run in any
order: as long as every cell is only ever given one value, the order does not show in the result
(`scatter_spec`), and if every cell is written nothing is left of the old contents (`scatter_eq`).
-/
import Mathlib.Data.List.Basic
import Mathlib.Data.List.OfFn

namespace PwsaStar.Lib

universe u

variable {α : Type u}

/-- `a[i] = x` -/
def store (a : List α) (i : ℕ) (x : α) : Option (List α) :=
  if i < a.length then some (a.set i x) else none

theorem store_eq {a : List α} {i : ℕ} (hi : i < a.length) (x : α) :
    store a i x = some (a.set i x) := if_pos hi

/-- One iteration: the write it makes, if any. -/
def put (a : List α) : Option (ℕ × α) → Option (List α)
  | none => some a
  | some (k, x) => store a k x

/-- The loop over the iterations in `order`; `write i` is what iteration `i` writes, undefined if the
iteration reads outside its arrays. -/
def scatter (write : ℕ → Option (Option (ℕ × α))) : List ℕ → List α → Option (List α)
  | [], a => some a
  | i :: order, a => (write i).bind fun w => (put a w).bind (scatter write order)

theorem scatter_append (write : ℕ → Option (Option (ℕ × α))) : ∀ (order order' : List ℕ) (a : List α),
    scatter write (order ++ order') a = (scatter write order a).bind (scatter write order') := by
  intro order
  induction order with
  | nil => exact fun _ _ => rfl
  | cons i order ih =>
    intro order' a
    rw [List.cons_append, scatter, scatter]
    cases write i with
    | none => rfl
    | some w =>
      rw [Option.bind_some, Option.bind_some]
      cases put a w with
      | none => rfl
      | some a' => exact ih order' a'

/-- **The order of the iterations does not matter** when cell `k` is never given anything but
`value k`. -/
theorem scatter_spec {write : ℕ → Option (Option (ℕ × α))} {value : ℕ → α} :
    ∀ (order : List ℕ) (a : List α),
      (∀ i ∈ order, ∃ w, write i = some w ∧ ∀ k x, w = some (k, x) → k < a.length ∧ x = value k) →
      ∃ b, scatter write order a = some b ∧ b.length = a.length ∧
        (∀ i ∈ order, ∀ k x, write i = some (some (k, x)) → b[k]? = some (value k)) ∧
        ∀ k, (∀ i ∈ order, ∀ x, write i ≠ some (some (k, x))) → b[k]? = a[k]? := by
  intro order
  induction order with
  | nil =>
    intro a _
    exact ⟨a, rfl, rfl, by simp, by simp⟩
  | cons i order ih =>
    intro a h
    obtain ⟨w, hw, hfit⟩ := h i List.mem_cons_self
    obtain ⟨a', ha', hlen, hset⟩ : ∃ a', put a w = some a' ∧ a'.length = a.length ∧
        ∀ k, (∃ x, w = some (k, x) ∧ a'[k]? = some (value k)) ∨
          (∀ x, w ≠ some (k, x)) ∧ a'[k]? = a[k]? := by
      cases w with
      | none => exact ⟨a, rfl, rfl, fun k => Or.inr ⟨by simp, rfl⟩⟩
      | some r =>
        obtain ⟨k, x⟩ := r
        obtain ⟨hk, rfl⟩ := hfit k x rfl
        refine ⟨a.set k (value k), store_eq hk _, List.length_set, fun k' => ?_⟩
        by_cases hkk : k' = k
        · subst hkk
          exact Or.inl ⟨value k', rfl, List.getElem?_set_self hk⟩
        · refine Or.inr ⟨?_, List.getElem?_set_ne (Ne.symm hkk)⟩
          rintro x hx
          exact hkk (Prod.mk.inj (Option.some.inj hx)).1.symm
    obtain ⟨b, hb, hblen, hwritten, hkept⟩ := ih a' fun j hj => by
      obtain ⟨w', hw', hfit'⟩ := h j (List.mem_cons_of_mem i hj)
      exact ⟨w', hw', fun k x hx => by rw [hlen]; exact hfit' k x hx⟩
    refine ⟨b, ?_, hblen.trans hlen, ?_, ?_⟩
    · rw [scatter, hw, Option.bind_some, ha', Option.bind_some, hb]
    · intro j hj k x hx
      rcases List.mem_cons.mp hj with rfl | hj
      · -- written now, and either again later or not at all
        by_cases hlater : ∃ j ∈ order, ∃ x, write j = some (some (k, x))
        · obtain ⟨j', hj', x', hx'⟩ := hlater
          exact hwritten j' hj' k x' hx'
        · rw [hkept k fun j' hj' x' hx' => hlater ⟨j', hj', x', hx'⟩]
          rw [hw] at hx
          rcases hset k with ⟨-, -, hval⟩ | ⟨hne, -⟩
          · exact hval
          · exact absurd (Option.some.inj hx) (hne x)
      · exact hwritten j hj k x hx
    · intro k hk
      rw [hkept k fun j hj x => hk j (List.mem_cons_of_mem i hj) x]
      rcases hset k with ⟨x, hx, -⟩ | ⟨-, hsame⟩
      · exact absurd (hw.trans (congrArg some hx)) (hk i List.mem_cons_self x)
      · exact hsame

/-- A loop that writes every cell leaves exactly the values written. -/
theorem scatter_eq (write : ℕ → Option (Option (ℕ × α))) (value : ℕ → α) (order : List ℕ)
    (a : List α)
    (hfit : ∀ i ∈ order, ∃ w, write i = some w ∧
      ∀ k x, w = some (k, x) → k < a.length ∧ x = value k)
    (hall : ∀ k < a.length, ∃ i ∈ order, ∃ x, write i = some (some (k, x))) :
    scatter write order a = some ((List.range a.length).map value) := by
  obtain ⟨b, hb, hlen, hwritten, -⟩ := scatter_spec order a hfit
  rw [hb]
  congr 1
  refine List.ext_getElem? fun k => ?_
  by_cases hk : k < a.length
  · obtain ⟨i, hi, x, hx⟩ := hall k hk
    rw [hwritten i hi k x hx]
    simp [hk]
  · rw [List.getElem?_eq_none (by omega), List.getElem?_eq_none (by simpa using hk)]

end PwsaStar.Lib
