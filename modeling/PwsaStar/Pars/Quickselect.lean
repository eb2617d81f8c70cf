/-
# PwsaStar.Pars.Quickselect — `quickselect` of `array_util.hpp`.

`quickselect` takes a random pivot, and goes on in what comes before it, or behind it, or returns it.
What `rand` returns, and what the two calls of `filter` are given by the allocator and the scheduler, is
arbitrary in every call.  A failed assertion in a call is the outcome of the whole, so an outcome that
is a value says that the assertion held in every recursive call.
-/
import PwsaStar.Lib.OrderStatistic
import PwsaStar.Pars.ArrayUtil

namespace PwsaStar.ArrayUtil

open PwsaStar.Lib

variable {T : Type}

/-! ## The program -/

/-- What is decided outside in one call: the value of `rand`, and for either call of `filter` its
`Choice`, which depends on the number of iterations. -/
structure Turn (T : Type) where
  rand : ℕ
  left : ℕ → Choice T
  right : ℕ → Choice T
  left_order : ∀ n, (left n).order.Perm (List.range n)
  right_order : ∀ n, (right n).order.Perm (List.range n)

/-- What a call comes to. -/
inductive Outcome (T : Type)
  | value (x : T)
  | assertionFailed
  | invalidAccess
  | outOfFuel
  deriving DecidableEq

/-- `quickselect`, at most `fuel` calls deep; `turns` has what is decided in this call and those below. -/
def quickselect (cmp : T → T → ℤ) : ℕ → (ℕ → Turn T) → ℤ → List T → Outcome T
  | 0, _, _, _ => .outOfFuel
  | fuel + 1, turns, k, xs =>
    if ¬ (0 ≤ k ∧ k < xs.length) then .assertionFailed
    else if xs.length = 1 then (xs[0]?).elim .invalidAccess .value
    else
      let turn := turns 0
      let below := fun i => turns (i + 1)
      match xs[turn.rand % xs.length]? with
      | none => .invalidAccess
      | some pivot =>
        match filter (turn.left xs.length) (fun _ other => cmp other pivot < 0) xs,
            filter (turn.right xs.length) (fun _ other => 0 < cmp other pivot) xs with
        | some L, some G =>
          if k < L.length then quickselect cmp fuel below k L
          else if k < xs.length - G.length then .value pivot
          else quickselect cmp fuel below (k - (xs.length - G.length)) G
        | _, _ => .invalidAccess

/-! ## The sides of the pivot -/

/-- A test that does not look at the index. -/
theorem kept_eq_filter (p : T → Bool) (xs : List T) : kept (fun _ x => p x) xs = xs.filter p := by
  have h : xs.filter p = (xs.zipIdx.filter (p ∘ Prod.fst)).map Prod.fst := by
    rw [← List.filter_map, List.zipIdx_map_fst]
  exact h.symm

theorem filter_eq_lesser {turn : Turn T} {cmp : T → T → ℤ} {pivot : T} {xs : List T} (hxs : xs ≠ []) :
    filter (turn.left xs.length) (fun _ other => cmp other pivot < 0) xs =
      some (lesser cmp pivot xs) := by
  rw [filter_eq _ _ hxs (turn.left_order _), kept_eq_filter, lesser]

theorem filter_eq_greater {turn : Turn T} {cmp : T → T → ℤ} {pivot : T} {xs : List T} (hxs : xs ≠ []) :
    filter (turn.right xs.length) (fun _ other => 0 < cmp other pivot) xs =
      some (greater cmp pivot xs) := by
  rw [filter_eq _ _ hxs (turn.right_order _), kept_eq_filter, greater]

/-- **One call**: its assertion holds, it returns an element of the array, and otherwise goes on with one
of the sides. -/
theorem quickselect_succ (cmp : T → T → ℤ) (fuel : ℕ) (turns : ℕ → Turn T) {k : ℤ} {xs : List T}
    (hk : 0 ≤ k) (hlen : k < xs.length) :
    (∃ x, xs = [x] ∧ quickselect cmp (fuel + 1) turns k xs = .value x) ∨
    ∃ pivot ∈ xs, quickselect cmp (fuel + 1) turns k xs =
      if k < (lesser cmp pivot xs).length then
        quickselect cmp fuel (fun i => turns (i + 1)) k (lesser cmp pivot xs)
      else if k < xs.length - (greater cmp pivot xs).length then .value pivot
      else quickselect cmp fuel (fun i => turns (i + 1)) (k - (xs.length - (greater cmp pivot xs).length))
        (greater cmp pivot xs) := by
  have hxs : xs ≠ [] := by
    rintro rfl
    simp at hlen
    omega
  rw [quickselect, if_neg (not_not.mpr ⟨hk, hlen⟩)]
  by_cases hone : xs.length = 1
  · obtain ⟨x, rfl⟩ := List.length_eq_one_iff.mp hone
    exact Or.inl ⟨x, rfl, rfl⟩
  · have hlt : (turns 0).rand % xs.length < xs.length :=
      Nat.mod_lt _ (List.length_pos_iff.mpr hxs)
    refine Or.inr ⟨xs[(turns 0).rand % xs.length], List.getElem_mem hlt, ?_⟩
    rw [if_neg hone]
    dsimp only
    rw [List.getElem?_eq_getElem hlt]
    dsimp only
    rw [filter_eq_lesser hxs, filter_eq_greater hxs]

/-- **`quickselect` returns an element of rank `k`**, whatever is decided outside: the recursion ends at
most as deep as the array is long, and the assertion holds in every call. -/
theorem quickselect_hasRank {cmp : T → T → ℤ} (hcmp : TotalPreorder cmp) {fuel : ℕ} {turns : ℕ → Turn T}
    {k : ℤ} {xs : List T} (hk : 0 ≤ k) (hlen : k < xs.length) (hfuel : xs.length ≤ fuel) :
    ∃ x, quickselect cmp fuel turns k xs = .value x ∧ HasRank cmp xs k x := by
  induction fuel generalizing turns k xs with
  | zero => omega
  | succ fuel ih =>
    rcases quickselect_succ cmp fuel turns hk hlen with ⟨x, rfl, hvalue⟩ | ⟨pivot, hpivot, hcall⟩
    · obtain rfl : k = 0 := by
        rw [List.length_singleton] at hlen
        omega
      exact ⟨x, hvalue, List.mem_singleton.mpr rfl, by simp [hcmp.self], by simp [hcmp.self]⟩
    · have hltL := length_lesser_lt hcmp hpivot
      have hltG := length_greater_lt hcmp hpivot
      rw [hcall]
      split_ifs with hlow hmid
      · obtain ⟨x, hvalue, hrank⟩ := ih hk hlow (by omega)
        exact ⟨x, hvalue, hrank.of_lesser hcmp⟩
      · exact ⟨pivot, rfl, .pivot hpivot (not_lt.mp hlow) hmid⟩
      · have hshift : 0 ≤ k - (xs.length - (greater cmp pivot xs).length) := by omega
        have hlenG : k - (xs.length - (greater cmp pivot xs).length) < (greater cmp pivot xs).length := by
          omega
        obtain ⟨x, hvalue, hrank⟩ := ih hshift hlenG (by omega)
        exact ⟨x, hvalue, hrank.of_greater hcmp⟩

/-- The iterations in order, and `x` in all fresh cells. -/
def Turn.inOrder (rand : ℕ) (x : T) : Turn T where
  rand := rand
  left n := ⟨fun _ => rand, fun _ => rand, fun _ => x, List.range n⟩
  right n := ⟨fun _ => rand, fun _ => rand, fun _ => x, List.range n⟩
  left_order _ := .refl _
  right_order _ := .refl _

/-- The elements are pairs, compared by the first part: two of them compare as equal. -/
theorem quickselect_hasRank_pairs :
    ∃ x, quickselect (fun a b : ℕ × ℕ => (a.1 : ℤ) - b.1) 3 (fun i => .inOrder i (0, 0)) 1
        [(5, 0), (4, 1), (5, 2)] = .value x ∧
      HasRank (fun a b : ℕ × ℕ => (a.1 : ℤ) - b.1) [(5, 0), (4, 1), (5, 2)] 1 x := by
  have hcmp : TotalPreorder fun a b : ℕ × ℕ => (a.1 : ℤ) - b.1 := by
    constructor
    · intro a b
      omega
    · intro a b c hab hbc
      omega
  exact quickselect_hasRank hcmp (by decide) (by decide) (by decide)

end PwsaStar.ArrayUtil
