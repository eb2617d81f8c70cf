/-
# PwsaStar.Sbpl.Ubvec — `ubvec` of `ubvec.h`: blocks that are created when they are first needed.

The states of the SBPL planners live in blocks of growing size.  `speclog` says which block an id
belongs to and `getIndex` where in the block it stands; block `k > 0` has room for `2 ^ (k + 11)`
states and is used by the ids from `2 ^ (k + 10)` on, so that the upper half of it stays empty.
`slots_distinct` says that no two ids below `2 ^ 30` share a slot.

`getState` creates a missing block under a flag of its own, `init[k]`.  The second half of the module
is that protocol, one shared access a step: the worker whose exchange turns the flag from -1 to 0 owns
the block until it stores 1 (`Pc.Owns`), and everything follows from there being one owner at most.
-/
import PwsaStar.Lib.Transition
import Mathlib.Data.Nat.Log
import Mathlib.Data.Int.Order.Basic
import Mathlib.Algebra.Ring.Int.Defs
import Mathlib.Algebra.Ring.Nat
import Mathlib.Data.List.Nodup
import Mathlib.Logic.Function.Basic

namespace PwsaStar.Sbpl.Ubvec

open PwsaStar.Lib

/-! ## Where an id stands -/

def NUM_INNER_VECS : ℤ := 32

def MIN_VEC_SIZE : ℤ := 2048

def LOG_MIN_VEC_SIZE : ℤ := 11

/-- The macro `S(k)`, on `i` and `n`. -/
def shiftStep (s : ℤ × ℕ) (k : ℕ) : ℤ × ℕ :=
  if 2 ^ k ≤ s.2 then (s.1 + k, s.2 >>> k) else s

/-- `uint64_log2` -/
def uint64Log2 (n : ℕ) : ℤ :=
  ([32, 16, 8, 4, 2, 1].foldl shiftStep (if n = 0 then -1 else 0, n)).1

/-- `speclog`; the argument of `uint64_log2` is converted to an unsigned 64-bit number. -/
def speclog (i : ℤ) : ℤ :=
  if i = 0 then 0 else max (uint64Log2 (i % 2 ^ 64).toNat - LOG_MIN_VEC_SIZE + 1) 0

/-- `1 << k` in the 32 bits of an `int`. -/
def shiftOne (k : ℤ) : ℤ := (2 ^ k.toNat : ℤ).bmod (2 ^ 32)

/-- `get_index` -/
def getIndex (logI i : ℤ) : ℤ :=
  let nb := shiftOne logI - 1
  if MIN_VEC_SIZE ≤ i then i - nb - (MIN_VEC_SIZE - 1) else i

/-- `vecSize` in `createVec` -/
def vecSize (logI : ℤ) : ℤ := shiftOne (logI + LOG_MIN_VEC_SIZE)

/-- One step of the cascade halves the number of bits and keeps the sum. -/
theorem shiftStep_spec (i : ℤ) {n k : ℕ} (hn : 0 < n) (hlt : n < 2 ^ (k + k)) :
    ∃ i' n', shiftStep (i, n) k = (i', n') ∧ 0 < n' ∧ n' < 2 ^ k ∧
      i' + (Nat.log 2 n' : ℤ) = i + (Nat.log 2 n : ℤ) := by
  unfold shiftStep
  split
  · rename_i hle
    have hle' : 2 ^ k ≤ n := hle
    refine ⟨_, _, rfl, ?_, ?_, ?_⟩
    · rw [Nat.shiftRight_eq_div_pow]
      exact Nat.div_pos hle' (Nat.two_pow_pos k)
    · rw [Nat.shiftRight_eq_div_pow]
      exact Nat.div_lt_of_lt_mul (by rwa [← Nat.pow_add])
    · have hlog : k ≤ Nat.log 2 n := Nat.le_log_of_pow_le (by decide) hle'
      dsimp only
      rw [Nat.shiftRight_eq_div_pow, Nat.log_div_base_pow]
      omega
  · rename_i hgt
    exact ⟨i, n, rfl, hn, not_le.mp hgt, rfl⟩

/-- **The cascade is the binary logarithm.** -/
theorem uint64Log2_eq {n : ℕ} (hn : 0 < n) (hlt : n < 2 ^ 64) : uint64Log2 n = Nat.log 2 n := by
  unfold uint64Log2
  rw [if_neg hn.ne']
  simp only [List.foldl_cons, List.foldl_nil]
  obtain ⟨i₁, n₁, h₁, hpos₁, hlt₁, hsum₁⟩ := shiftStep_spec 0 (k := 32) hn hlt
  obtain ⟨i₂, n₂, h₂, hpos₂, hlt₂, hsum₂⟩ := shiftStep_spec i₁ (k := 16) hpos₁ hlt₁
  obtain ⟨i₃, n₃, h₃, hpos₃, hlt₃, hsum₃⟩ := shiftStep_spec i₂ (k := 8) hpos₂ hlt₂
  obtain ⟨i₄, n₄, h₄, hpos₄, hlt₄, hsum₄⟩ := shiftStep_spec i₃ (k := 4) hpos₃ hlt₃
  obtain ⟨i₅, n₅, h₅, hpos₅, hlt₅, hsum₅⟩ := shiftStep_spec i₄ (k := 2) hpos₄ hlt₄
  obtain ⟨i₆, n₆, h₆, hpos₆, hlt₆, hsum₆⟩ := shiftStep_spec i₅ (k := 1) hpos₅ hlt₅
  rw [h₁, h₂, h₃, h₄, h₅, h₆]
  -- one bit is left
  have hone : n₆ = 1 := by omega
  rw [hone, Nat.log_one_right] at hsum₆
  omega

theorem shiftOne_eq {k : ℕ} (hk : k < 31) : shiftOne k = 2 ^ k := by
  unfold shiftOne
  have hpow : (2 : ℤ) ^ k < 2 ^ 31 := by exact_mod_cast Nat.pow_lt_pow_right (by decide) hk
  have hpos : (0 : ℤ) < 2 ^ k := by exact_mod_cast Nat.two_pow_pos k
  rw [Int.toNat_natCast, Int.bmod_eq_of_le (by omega) (by omega)]

/-- The ids of block 0. -/
theorem speclog_small {i : ℤ} (h0 : 0 ≤ i) (hlt : i < MIN_VEC_SIZE) : speclog i = 0 := by
  unfold MIN_VEC_SIZE at hlt
  unfold speclog
  split
  · rfl
  · rename_i hne
    have hcast : (i % 2 ^ 64).toNat = i.toNat := by omega
    have hlog : Nat.log 2 i.toNat < 11 := Nat.log_lt_of_lt_pow (by omega) (by omega)
    rw [hcast, uint64Log2_eq (by omega) (by omega)]
    unfold LOG_MIN_VEC_SIZE
    omega

/-- **The ids of the other blocks**: block `k + 1` has the ids with `k + 12` binary digits. -/
theorem speclog_large {i : ℤ} (hge : MIN_VEC_SIZE ≤ i) (hlt : i < 2 ^ 31) :
    ∃ k : ℕ, k < 20 ∧ speclog i = k + 1 ∧ 2 ^ (k + 11) ≤ i ∧ i < 2 ^ (k + 12) := by
  unfold MIN_VEC_SIZE at hge
  have hne : i ≠ 0 := by omega
  have hcast : (i % 2 ^ 64).toNat = i.toNat := by omega
  have hpos : i.toNat ≠ 0 := by omega
  have hlow : 11 ≤ Nat.log 2 i.toNat := Nat.le_log_of_pow_le (by decide) (by omega)
  have hhigh : Nat.log 2 i.toNat < 31 := Nat.log_lt_of_lt_pow hpos (by omega)
  have hfirst := Nat.pow_log_le_self 2 hpos
  have hlast := Nat.lt_pow_succ_log_self (b := 2) (by decide) i.toNat
  obtain ⟨k, hk⟩ : ∃ k, Nat.log 2 i.toNat = k + 11 := ⟨Nat.log 2 i.toNat - 11, by omega⟩
  rw [hk] at hfirst hlast
  rw [show (k + 11).succ = k + 12 from rfl] at hlast
  refine ⟨k, by omega, ?_, ?_, ?_⟩
  · unfold speclog
    rw [if_neg hne, hcast, uint64Log2_eq (by omega) (by omega), hk]
    unfold LOG_MIN_VEC_SIZE
    omega
  · exact_mod_cast (show ((2 ^ (k + 11) : ℕ) : ℤ) ≤ i by omega)
  · exact_mod_cast (show i < ((2 ^ (k + 12) : ℕ) : ℤ) by omega)

/-- A block that can be allocated at all. -/
theorem vecSize_eq {k : ℕ} (hk : k < 20) : vecSize k = 2 ^ (k + 11) := by
  have h := shiftOne_eq (k := k + 11) (by omega)
  unfold vecSize LOG_MIN_VEC_SIZE
  exact_mod_cast h

/-- **Where an id stands in its block.** -/
theorem getIndex_cases {i : ℤ} (h0 : 0 ≤ i) (hlt : i < 2 ^ 30) :
    ∃ k : ℕ, k < 20 ∧ speclog i = k ∧ 0 ≤ getIndex k i ∧ getIndex k i < vecSize k ∧
      (k = 0 → getIndex k i = i ∧ i < MIN_VEC_SIZE) ∧
      (0 < k → getIndex k i = i - 2 ^ k - 2046 ∧ MIN_VEC_SIZE ≤ i) := by
  by_cases hsmall : i < MIN_VEC_SIZE
  · have hindex : getIndex (0 : ℕ) i = i := if_neg (not_le.mpr hsmall)
    refine ⟨0, by decide, speclog_small h0 hsmall, ?_, ?_, fun _ => ⟨hindex, hsmall⟩,
      fun h => absurd h (lt_irrefl 0)⟩
    · rw [hindex]
      exact h0
    · rw [hindex, vecSize_eq (by decide)]
      exact hsmall
  · have hge := not_lt.mp hsmall
    obtain ⟨k, -, hlog, hlow, hhigh⟩ := speclog_large hge (by omega)
    have hk : k < 19 := by
      by_contra hle
      have hpow : (2 : ℤ) ^ 30 ≤ 2 ^ (k + 11) := by
        exact_mod_cast Nat.pow_le_pow_right (n := 2) (by decide) (show 30 ≤ k + 11 by omega)
      omega
    have hindex : getIndex ((k + 1 : ℕ) : ℤ) i = i - 2 ^ (k + 1) - 2046 := by
      unfold getIndex
      rw [shiftOne_eq (by omega), if_pos hge]
      unfold MIN_VEC_SIZE
      omega
    have hpow : (2 : ℤ) ^ (k + 1) * 2 ^ 10 = 2 ^ (k + 11) := by rw [← Int.pow_add]
    have hone : (2 : ℤ) ≤ 2 ^ (k + 1) := by
      exact_mod_cast Nat.pow_le_pow_right (n := 2) (by decide) (show 1 ≤ k + 1 by omega)
    refine ⟨k + 1, by omega, by exact_mod_cast hlog, ?_, ?_, fun h => absurd h (Nat.succ_ne_zero k),
      fun _ => ⟨hindex, hge⟩⟩
    · rw [hindex]
      omega
    · rw [hindex, vecSize_eq (by omega), show k + 1 + 11 = k + 12 by omega]
      omega

/-- **No two ids share a slot.**  For ids below `2 ^ 30` the block exists in the table, its size is a
positive `int`, the index is inside the block, and block and index together determine the id. -/
theorem slots_distinct {i j : ℤ} (hi : 0 ≤ i ∧ i < 2 ^ 30) (hj : 0 ≤ j ∧ j < 2 ^ 30) :
    (0 ≤ speclog i ∧ speclog i < NUM_INNER_VECS) ∧
    (0 < vecSize (speclog i) ∧ vecSize (speclog i) < 2 ^ 31) ∧
    (0 ≤ getIndex (speclog i) i ∧ getIndex (speclog i) i < vecSize (speclog i)) ∧
    ((speclog i, getIndex (speclog i) i) = (speclog j, getIndex (speclog j) j) → i = j) := by
  obtain ⟨k, hk, hlog, hlow, hhigh, hzero, hpos⟩ := getIndex_cases hi.1 hi.2
  obtain ⟨l, -, hlog', -, -, hzero', hpos'⟩ := getIndex_cases hj.1 hj.2
  have hsize : vecSize k = 2 ^ (k + 11) := vecSize_eq hk
  have hfits : (2 : ℤ) ^ (k + 11) < 2 ^ 31 := by
    exact_mod_cast Nat.pow_lt_pow_right (a := 2) (by decide) (show k + 11 < 31 by omega)
  rw [hlog, hlog']
  refine ⟨⟨by omega, ?_⟩, ⟨by omega, by omega⟩, ⟨hlow, hhigh⟩, ?_⟩
  · unfold NUM_INNER_VECS
    omega
  · intro hsame
    obtain ⟨hblock, hindex⟩ := Prod.mk.inj hsame
    obtain rfl : k = l := by exact_mod_cast hblock
    rcases Nat.eq_zero_or_pos k with hk0 | hkpos
    · rw [(hzero hk0).1, (hzero' hk0).1] at hindex
      exact hindex
    · rw [(hpos hkpos).1, (hpos' hkpos).1] at hindex
      omega

/-- The last id of block 0 and the first one of block 1. -/
theorem slots_distinct_boundary : speclog 2047 = 0 ∧ speclog 2048 = 1 ∧ vecSize 1 = 4096 ∧
    (speclog 2047, getIndex (speclog 2047) 2047) ≠ (speclog 2048, getIndex (speclog 2048) 2048) :=
  ⟨by decide, by decide, by decide, fun h =>
    absurd ((slots_distinct (i := 2047) (j := 2048) (by decide) (by decide)).2.2.2 h) (by decide)⟩

/-! ## Creating the blocks: the program -/

/-- Ids are the non-negative `int`s. -/
def IsId (i : ℤ) : Prop := 0 ≤ i ∧ i < 2 ^ 31

instance (i : ℤ) : Decidable (IsId i) := inferInstanceAs (Decidable (_ ∧ _))

/-- A slot: the block, by the position of its allocation, and the place in it. -/
structure Slot where
  block : ℕ
  index : ℤ
  deriving DecidableEq

/-- Where a worker stands in `getState(i)` and the `createVec` it calls.  Tests of locals belong to
the access before them. -/
inductive Pc where
  | idle
  /-- `if (vecs[logI] == 0)` -/
  | test (i : ℤ)
  /-- `T* val = vecs[logI]` -/
  | loadVec (i : ℤ)
  /-- `while (init[logI].load() == 0)` -/
  | spin (i : ℤ)
  /-- `init[logI].compare_exchange_weak(expected, 0)` -/
  | exchange (i : ℤ)
  /-- `nv = new T[vecSize]` -/
  | alloc (i : ℤ)
  /-- `vecs[logI] = nv` -/
  | publish (i : ℤ) (nv : ℕ)
  /-- `init[logI].store(1)` -/
  | finish (i : ℤ)
  /-- `return &(vecs[logI][ind])` -/
  | result (i : ℤ)
  /-- `new` has thrown because the size is no size -/
  | thrown (i : ℤ)
  deriving DecidableEq

/-- The shared memory, the blocks in the order of their allocation (number and size), the places of
the workers and the calls that have returned; a call returns `none` if it follows a null pointer. -/
structure Config (W : Type*) where
  init : ℤ → ℤ
  vecs : ℤ → Option ℕ
  blocks : List (ℤ × ℤ)
  pc : W → Pc
  returned : List (ℤ × Option Slot)

/-- What a scheduler chooses: a worker calls `getState`, goes on, or has its exchange fail without a
reason. -/
inductive Choice where
  | call (i : ℤ)
  | go
  | spurious

section Program

variable {W : Type*} [DecidableEq W]

def Config.goto (c : Config W) (w : W) (p : Pc) : Config W :=
  { c with pc := Function.update c.pc w p }

/-- One access of worker `w` inside a call. -/
def advance (w : W) (c : Config W) : Option (Config W) :=
  match c.pc w with
  | .idle => none
  | .test i => some (c.goto w (if c.vecs (speclog i) = none then .loadVec i else .result i))
  | .loadVec i => some (c.goto w (if c.vecs (speclog i) = none then .spin i else .result i))
  | .spin i => some (c.goto w (if c.init (speclog i) = 0 then .spin i else .exchange i))
  | .exchange i =>
    if c.init (speclog i) = -1 then
      some { c.goto w (.alloc i) with init := Function.update c.init (speclog i) 0 }
    else some (c.goto w (.loadVec i))
  | .alloc i =>
    if 0 < vecSize (speclog i) then
      some { c.goto w (.publish i c.blocks.length) with
        blocks := c.blocks ++ [(speclog i, vecSize (speclog i))] }
    else some (c.goto w (.thrown i))
  | .publish i nv =>
    some { c.goto w (.finish i) with vecs := Function.update c.vecs (speclog i) (some nv) }
  | .finish i =>
    some { c.goto w (.loadVec i) with init := Function.update c.init (speclog i) 1 }
  | .result i =>
    some { c.goto w .idle with
      returned := (i, (c.vecs (speclog i)).map fun a => ⟨a, getIndex (speclog i) i⟩) :: c.returned }
  | .thrown _ => none

/-- One step of worker `w`. -/
def next (w : W) : Choice → Config W → Option (Config W)
  | .call i, c => if c.pc w = .idle ∧ IsId i then some (c.goto w (.test i)) else none
  | .go, c => advance w c
  | .spurious, c =>
    match c.pc w with
    | .exchange i => some (c.goto w (.loadVec i))
    | _ => none

/-- `ubvec()`, and any number of workers. -/
def start (W : Type*) : Config W where
  init _ := -1
  vecs _ := none
  blocks := []
  pc _ := .idle
  returned := []

def system (W : Type*) [DecidableEq W] : System (Config W) where
  init c := c = start W
  step c c' := ∃ w choice, next w choice c = some c'

end Program

/-! ## One owner -/

/-- Between its exchange and its store a worker owns the block; one whose `new` has thrown owns it for
ever. -/
def Pc.Owns (k : ℤ) : Pc → Prop
  | .alloc i | .publish i _ | .finish i | .thrown i => speclog i = k
  | _ => False

/-- The id a worker is asking for. -/
def Pc.arg : Pc → Option ℤ
  | .idle => none
  | .test i | .loadVec i | .spin i | .exchange i | .alloc i | .publish i _ | .finish i | .result i
  | .thrown i => some i

/-- What a worker knows where it stands. -/
def PcOk (vecs : ℤ → Option ℕ) (blocks : List (ℤ × ℤ)) : Pc → Prop
  | .alloc i | .thrown i => vecs (speclog i) = none ∧ speclog i ∉ blocks.map Prod.fst
  | .publish i nv => vecs (speclog i) = none ∧ 0 < vecSize (speclog i) ∧
      blocks[nv]? = some (speclog i, vecSize (speclog i))
  | .finish i | .result i => vecs (speclog i) ≠ none
  | _ => True

/-- What holds of the shared memory and of the calls that have returned. -/
structure SharedOk (init : ℤ → ℤ) (vecs : ℤ → Option ℕ) (blocks : List (ℤ × ℤ))
    (returned : List (ℤ × Option Slot)) : Prop where
  flag : ∀ k, init k = -1 ∨ init k = 0 ∨ init k = 1
  untouched : ∀ k, init k = -1 → vecs k = none ∧ k ∉ blocks.map Prod.fst
  published : ∀ k, init k = 1 → vecs k ≠ none
  stored : ∀ k a, vecs k = some a → 0 < vecSize k ∧ blocks[a]? = some (k, vecSize k)
  once : (blocks.map Prod.fst).Nodup
  returned : ∀ r ∈ returned, IsId r.1 ∧
    ∃ a, vecs (speclog r.1) = some a ∧ r.2 = some ⟨a, getIndex (speclog r.1) r.1⟩

/-- **The invariant.** -/
structure Inv {W : Type*} (c : Config W) : Prop where
  shared : SharedOk c.init c.vecs c.blocks c.returned
  owned : ∀ w k, (c.pc w).Owns k → c.init k = 0
  unique : ∀ w w' k, (c.pc w).Owns k → (c.pc w').Owns k → w = w'
  place : ∀ w, PcOk c.vecs c.blocks (c.pc w)
  args : ∀ w i, (c.pc w).arg = some i → IsId i

theorem inv_start (W : Type*) : Inv (start W) where
  shared :=
    { flag _ := Or.inl rfl
      untouched _ _ := ⟨rfl, List.not_mem_nil⟩
      published k h := by
        have h' : (-1 : ℤ) = 1 := h
        omega
      stored _ _ h := nomatch h
      once := List.nodup_nil
      returned _ h := absurd h List.not_mem_nil }
  owned _ _ h := h.elim
  unique _ _ _ h := h.elim
  place _ := trivial
  args _ _ h := nomatch h

variable {W : Type*} [DecidableEq W] {c c' : Config W} {w : W}

omit [DecidableEq W] in
/-- Nobody else owns a block that `w` owns. -/
theorem Inv.not_owned (I : Inv c) {k : ℤ} (hw : (c.pc w).Owns k) {v : W} (hv : v ≠ w) :
    ¬ (c.pc v).Owns k :=
  fun h => hv (I.unique v w k h hw)

/-- What holds of the place `w` goes to and of the places of the others holds of all. -/
theorem forall_update {Q : W → Pc → Prop} {pc : W → Pc} {p : Pc} (hp : Q w p)
    (hrest : ∀ v, v ≠ w → Q v (pc v)) (v : W) : Q v (Function.update pc w p v) := by
  by_cases hv : v = w
  · rw [hv, Function.update_self]
    exact hp
  · rw [Function.update_of_ne hv]
    exact hrest v hv

/-- **A step of `w`**: the shared memory is in order, `w` goes to a place `p` that is in order and
owns what nobody else owns, and the others are where they were. -/
theorem Inv.step (I : Inv c) {init : ℤ → ℤ} {vecs : ℤ → Option ℕ} {blocks : List (ℤ × ℤ)}
    {returned : List (ℤ × Option Slot)} {p : Pc} (hshared : SharedOk init vecs blocks returned)
    (howns : ∀ k, p.Owns k → init k = 0 ∧ ∀ v, v ≠ w → ¬ (c.pc v).Owns k)
    (hothers : ∀ v, v ≠ w → ∀ k, (c.pc v).Owns k → init k = 0)
    (hplace : PcOk vecs blocks p) (hplaces : ∀ v, v ≠ w → PcOk vecs blocks (c.pc v))
    (harg : ∀ i, p.arg = some i → IsId i) :
    Inv ⟨init, vecs, blocks, Function.update c.pc w p, returned⟩ where
  shared := hshared
  owned := forall_update (Q := fun _ p => ∀ k, p.Owns k → init k = 0) (fun k h => (howns k h).1)
    hothers
  unique := by
    refine forall_update (Q := fun v p' => ∀ v' k, p'.Owns k →
      (Function.update c.pc w p v').Owns k → v = v') ?_ ?_
    · intro v' k h
      exact forall_update (Q := fun v' p' => p'.Owns k → w = v') (fun _ => rfl)
        (fun v hv h' => absurd h' ((howns k h).2 v hv)) v'
    · intro v hv v' k h
      exact forall_update (Q := fun v' p' => p'.Owns k → v = v')
        (fun h' => absurd h ((howns k h').2 v hv)) (fun v' _ => I.unique v v' k h) v'
  place := forall_update hplace hplaces
  args := forall_update (Q := fun _ p => ∀ i, p.arg = some i → IsId i) harg
    fun v _ => I.args v

/-- The worker `w` goes to a place where it owns no more than before. -/
theorem Inv.goto (I : Inv c) {p : Pc} (howns : ∀ k, p.Owns k → (c.pc w).Owns k)
    (hplace : PcOk c.vecs c.blocks p) (harg : ∀ i, p.arg = some i → IsId i) :
    Inv (c.goto w p) :=
  I.step I.shared (fun k h => ⟨I.owned w k (howns k h), fun _ hv => I.not_owned (howns k h) hv⟩)
    (fun v _ => I.owned v) hplace (fun v _ => I.place v) harg

/-- What a worker knows survives a change to a block it does not own. -/
theorem PcOk.change {vecs vecs' : ℤ → Option ℕ} {blocks blocks' : List (ℤ × ℤ)} {p : Pc} {k : ℤ}
    (h : PcOk vecs blocks p) (hk : ¬ p.Owns k) (hvecs : ∀ l, l ≠ k → vecs' l = vecs l)
    (hmono : vecs k ≠ none → vecs' k ≠ none)
    (hfresh : ∀ l, l ≠ k → l ∉ blocks.map Prod.fst → l ∉ blocks'.map Prod.fst)
    (hget : ∀ (a : ℕ) e, blocks[a]? = some e → blocks'[a]? = some e) : PcOk vecs' blocks' p := by
  have hnonnull : ∀ l, vecs l ≠ none → vecs' l ≠ none := by
    intro l hl
    by_cases hlk : l = k
    · rw [hlk] at hl ⊢
      exact hmono hl
    · rw [hvecs l hlk]
      exact hl
  cases p with
  | alloc i | thrown i => exact ⟨(hvecs _ hk).trans h.1, hfresh _ hk h.2⟩
  | publish i nv => exact ⟨(hvecs _ hk).trans h.1, h.2.1, hget _ _ h.2.2⟩
  | finish i | result i => exact hnonnull _ h
  | idle | test i | loadVec i | spin i | exchange i => trivial

/-- The exchange that wins. -/
theorem Inv.claim (I : Inv c) {i : ℤ} (hpc : c.pc w = .exchange i)
    (hflag : c.init (speclog i) = -1) :
    Inv { c.goto w (.alloc i) with init := Function.update c.init (speclog i) 0 } := by
  have hfree : ∀ v k, (c.pc v).Owns k → k ≠ speclog i := by
    rintro v k h rfl
    have := I.owned v _ h
    omega
  have hold : ∀ k, Function.update c.init (speclog i) 0 k ≠ 0 →
      Function.update c.init (speclog i) 0 k = c.init k := by
    intro k hk
    refine Function.update_of_ne ?_ _ _
    rintro rfl
    exact hk (Function.update_self ..)
  refine I.step ⟨?_, ?_, ?_, I.shared.stored, I.shared.once, I.shared.returned⟩ ?_ ?_
    (I.shared.untouched _ hflag) (fun v _ => I.place v) ?_
  · intro k
    by_cases hk : Function.update c.init (speclog i) 0 k = 0
    · exact Or.inr (Or.inl hk)
    · rw [hold k hk]
      exact I.shared.flag k
  · intro k hk
    exact I.shared.untouched k ((hold k (by omega)).symm.trans hk)
  · intro k hk
    exact I.shared.published k ((hold k (by omega)).symm.trans hk)
  · rintro k rfl
    exact ⟨Function.update_self .., fun v _ h => hfree v _ h rfl⟩
  · intro v _ k h
    rw [Function.update_of_ne (hfree v k h)]
    exact I.owned v k h
  · rintro j ⟨rfl⟩
    exact I.args w i (by rw [hpc]; rfl)

/-- The allocation. -/
theorem Inv.alloc (I : Inv c) {i : ℤ} (hpc : c.pc w = .alloc i)
    (hsize : 0 < vecSize (speclog i)) :
    Inv { c.goto w (.publish i c.blocks.length) with
      blocks := c.blocks ++ [(speclog i, vecSize (speclog i))] } := by
  have howner : (c.pc w).Owns (speclog i) := by rw [hpc]; rfl
  have hinit := I.owned w _ howner
  have hplace := I.place w
  rw [hpc] at hplace
  obtain ⟨hnull, hfresh⟩ := hplace
  have hkeep : ∀ (a : ℕ) (e : ℤ × ℤ), c.blocks[a]? = some e →
      (c.blocks ++ [(speclog i, vecSize (speclog i))])[a]? = some e := by
    intro a e h
    rw [List.getElem?_append_left (List.getElem?_eq_some_iff.mp h).1]
    exact h
  have hnew : ∀ k, k ≠ speclog i → k ∉ c.blocks.map Prod.fst →
      k ∉ (c.blocks ++ [(speclog i, vecSize (speclog i))]).map Prod.fst := by
    intro k hk hnot hmem
    rw [List.map_append, List.mem_append] at hmem
    rcases hmem with hmem | hmem
    · exact hnot hmem
    · exact hk (by simpa using hmem)
  refine I.step ⟨I.shared.flag, ?_, I.shared.published, ?_, ?_, I.shared.returned⟩ ?_
    (fun v _ => I.owned v) ⟨hnull, hsize, by simp⟩ ?_ ?_
  · intro k hk
    obtain ⟨hnone, hnot⟩ := I.shared.untouched k hk
    refine ⟨hnone, hnew k ?_ hnot⟩
    rintro rfl
    exact absurd (hinit.symm.trans hk) (by decide)
  · intro k a h
    obtain ⟨hpos, hget⟩ := I.shared.stored k a h
    exact ⟨hpos, hkeep a _ hget⟩
  · rw [List.map_append, List.nodup_append]
    refine ⟨I.shared.once, by simp, ?_⟩
    intro a ha b hb
    obtain rfl : b = speclog i := by simpa using hb
    rintro rfl
    exact hfresh ha
  · rintro k rfl
    exact ⟨hinit, fun _ hv => I.not_owned howner hv⟩
  · intro v hv
    exact (I.place v).change (I.not_owned howner hv) (fun _ _ => rfl) id hnew hkeep
  · rintro j ⟨rfl⟩
    exact I.args w i (by rw [hpc]; rfl)

/-- The store of the pointer. -/
theorem Inv.publish (I : Inv c) {i : ℤ} {nv : ℕ} (hpc : c.pc w = .publish i nv) :
    Inv { c.goto w (.finish i) with vecs := Function.update c.vecs (speclog i) (some nv) } := by
  have howner : (c.pc w).Owns (speclog i) := by rw [hpc]; rfl
  have hinit := I.owned w _ howner
  have hplace := I.place w
  rw [hpc] at hplace
  obtain ⟨hnull, hsize, hget⟩ := hplace
  have hself : Function.update c.vecs (speclog i) (some nv) (speclog i) ≠ none := by
    rw [Function.update_self]
    exact Option.some_ne_none nv
  have hold : ∀ k, k ≠ speclog i → Function.update c.vecs (speclog i) (some nv) k = c.vecs k :=
    fun k hk => Function.update_of_ne hk _ _
  refine I.step ⟨I.shared.flag, ?_, ?_, ?_, I.shared.once, ?_⟩ ?_ (fun v _ => I.owned v) hself ?_ ?_
  · intro k hk
    obtain ⟨hnone, hnot⟩ := I.shared.untouched k hk
    have hne : k ≠ speclog i := by
      rintro rfl
      exact absurd (hinit.symm.trans hk) (by decide)
    exact ⟨(hold k hne).trans hnone, hnot⟩
  · intro k hk
    by_cases hki : k = speclog i
    · rw [hki]
      exact hself
    · rw [hold k hki]
      exact I.shared.published k hk
  · intro k a h
    by_cases hki : k = speclog i
    · rw [hki, Function.update_self] at h
      obtain rfl := Option.some.inj h
      rw [hki]
      exact ⟨hsize, hget⟩
    · rw [hold k hki] at h
      exact I.shared.stored k a h
  · intro r hr
    obtain ⟨hrange, a, hvec, hslot⟩ := I.shared.returned r hr
    refine ⟨hrange, a, ?_, hslot⟩
    rw [hold _ ?_]
    · exact hvec
    · intro heq
      rw [heq, hnull] at hvec
      cases hvec
  · rintro k rfl
    exact ⟨hinit, fun _ hv => I.not_owned howner hv⟩
  · intro v hv
    exact (I.place v).change (I.not_owned howner hv) hold (fun _ => hself) (fun _ _ h => h)
      fun _ _ h => h
  · rintro j ⟨rfl⟩
    exact I.args w i (by rw [hpc]; rfl)

/-- The store of the flag. -/
theorem Inv.finish (I : Inv c) {i : ℤ} (hpc : c.pc w = .finish i) :
    Inv { c.goto w (.loadVec i) with init := Function.update c.init (speclog i) 1 } := by
  have howner : (c.pc w).Owns (speclog i) := by rw [hpc]; rfl
  have hinit := I.owned w _ howner
  have hplace := I.place w
  rw [hpc] at hplace
  have hold : ∀ k, k ≠ speclog i → Function.update c.init (speclog i) 1 k = c.init k :=
    fun k hk => Function.update_of_ne hk _ _
  have hself : Function.update c.init (speclog i) 1 (speclog i) = 1 := Function.update_self ..
  refine I.step ⟨?_, ?_, ?_, I.shared.stored, I.shared.once, I.shared.returned⟩ (fun _ h => h.elim)
    ?_ trivial (fun v _ => I.place v) ?_
  · intro k
    by_cases hk : k = speclog i
    · rw [hk]
      exact Or.inr (Or.inr hself)
    · rw [hold k hk]
      exact I.shared.flag k
  · intro k hk
    have hne : k ≠ speclog i := by
      rintro rfl
      omega
    exact I.shared.untouched k ((hold k hne).symm.trans hk)
  · intro k hk
    by_cases hki : k = speclog i
    · rw [hki]
      exact hplace
    · exact I.shared.published k ((hold k hki).symm.trans hk)
  · intro v hv k h
    rw [hold k]
    · exact I.owned v k h
    · rintro rfl
      exact I.not_owned howner hv h
  · rintro j ⟨rfl⟩
    exact I.args w i (by rw [hpc]; rfl)

/-- The return. -/
theorem Inv.result (I : Inv c) {i : ℤ} (hpc : c.pc w = .result i) :
    Inv { c.goto w .idle with
      returned := (i, (c.vecs (speclog i)).map fun a => ⟨a, getIndex (speclog i) i⟩) ::
        c.returned } := by
  have hplace := I.place w
  rw [hpc] at hplace
  obtain ⟨a, ha⟩ := Option.ne_none_iff_exists'.mp hplace
  refine I.step ⟨I.shared.flag, I.shared.untouched, I.shared.published, I.shared.stored,
    I.shared.once, ?_⟩ (fun _ h => h.elim) (fun v _ => I.owned v) trivial (fun v _ => I.place v) nofun
  intro r hr
  rcases List.mem_cons.mp hr with rfl | hr
  · exact ⟨I.args w i (by rw [hpc]; rfl), a, ha, by dsimp only; rw [ha]; rfl⟩
  · exact I.shared.returned r hr

/-! ## Whole runs -/

/-- **What a step can do**: move on without touching the shared memory, or one of the five things
that touch it. -/
theorem next_cases {choice : Choice} (h : next w choice c = some c') :
    (∃ p : Pc, c' = c.goto w p ∧ (∀ k, p.Owns k → (c.pc w).Owns k) ∧
      (PcOk c.vecs c.blocks (c.pc w) → PcOk c.vecs c.blocks p) ∧
      ∀ i, p.arg = some i → (c.pc w).arg = some i ∨ IsId i) ∨
    (∃ i, c.pc w = .exchange i ∧ c.init (speclog i) = -1 ∧
      c' = { c.goto w (.alloc i) with init := Function.update c.init (speclog i) 0 }) ∨
    (∃ i, c.pc w = .alloc i ∧ 0 < vecSize (speclog i) ∧
      c' = { c.goto w (.publish i c.blocks.length) with
        blocks := c.blocks ++ [(speclog i, vecSize (speclog i))] }) ∨
    (∃ i nv, c.pc w = .publish i nv ∧
      c' = { c.goto w (.finish i) with
        vecs := Function.update c.vecs (speclog i) (some nv) }) ∨
    (∃ i, c.pc w = .finish i ∧
      c' = { c.goto w (.loadVec i) with init := Function.update c.init (speclog i) 1 }) ∨
    (∃ i, c.pc w = .result i ∧
      c' = { c.goto w .idle with
        returned := (i, (c.vecs (speclog i)).map fun a => ⟨a, getIndex (speclog i) i⟩) ::
          c.returned }) := by
  cases choice with
  | call i =>
    simp only [next] at h
    split at h
    · rename_i hcall
      refine Or.inl ⟨_, (Option.some.inj h).symm, fun _ h => h.elim, fun _ => trivial, ?_⟩
      intro j hj
      obtain rfl : i = j := Option.some.inj hj
      exact Or.inr hcall.2
    · exact absurd h (Option.some_ne_none c').symm
  | spurious =>
    simp only [next] at h
    split at h
    · rename_i i hpc
      refine Or.inl ⟨_, (Option.some.inj h).symm, fun _ h => h.elim, fun _ => trivial, ?_⟩
      intro j hj
      rw [hpc]
      exact Or.inl hj
    · exact absurd h (Option.some_ne_none c').symm
  | go =>
    have hgo : advance w c = some c' := h
    clear h
    cases hpc : c.pc w with
    | idle => simp [advance, hpc] at hgo
    | thrown i => simp [advance, hpc] at hgo
    | test i =>
      simp only [advance, hpc, Option.some.injEq] at hgo
      subst hgo
      split
      · exact Or.inl ⟨_, rfl, fun _ h => h.elim, fun _ => trivial, fun j hj => Or.inl hj⟩
      · rename_i hvec
        exact Or.inl ⟨_, rfl, fun _ h => h.elim, fun _ => hvec, fun j hj => Or.inl hj⟩
    | loadVec i =>
      simp only [advance, hpc, Option.some.injEq] at hgo
      subst hgo
      split
      · exact Or.inl ⟨_, rfl, fun _ h => h.elim, fun _ => trivial, fun j hj => Or.inl hj⟩
      · rename_i hvec
        exact Or.inl ⟨_, rfl, fun _ h => h.elim, fun _ => hvec, fun j hj => Or.inl hj⟩
    | spin i =>
      simp only [advance, hpc, Option.some.injEq] at hgo
      subst hgo
      split <;>
        exact Or.inl ⟨_, rfl, fun _ h => h.elim, fun _ => trivial, fun j hj => Or.inl hj⟩
    | exchange i =>
      simp only [advance, hpc] at hgo
      split at hgo
      · rename_i hflag
        exact Or.inr (Or.inl ⟨i, rfl, hflag, (Option.some.inj hgo).symm⟩)
      · obtain rfl := Option.some.inj hgo
        exact Or.inl ⟨_, rfl, fun _ h => h.elim, fun _ => trivial, fun j hj => Or.inl hj⟩
    | alloc i =>
      simp only [advance, hpc] at hgo
      split at hgo
      · rename_i hsize
        exact Or.inr (Or.inr (Or.inl ⟨i, rfl, hsize, (Option.some.inj hgo).symm⟩))
      · obtain rfl := Option.some.inj hgo
        exact Or.inl ⟨_, rfl, fun _ h => h, fun h => h, fun j hj => Or.inl hj⟩
    | publish i nv =>
      simp only [advance, hpc, Option.some.injEq] at hgo
      exact Or.inr (Or.inr (Or.inr (Or.inl ⟨i, nv, rfl, hgo.symm⟩)))
    | finish i =>
      simp only [advance, hpc, Option.some.injEq] at hgo
      exact Or.inr (Or.inr (Or.inr (Or.inr (Or.inl ⟨i, rfl, hgo.symm⟩))))
    | result i =>
      simp only [advance, hpc, Option.some.injEq] at hgo
      exact Or.inr (Or.inr (Or.inr (Or.inr (Or.inr ⟨i, rfl, hgo.symm⟩))))

theorem inv_next (I : Inv c) {choice : Choice} (h : next w choice c = some c') : Inv c' := by
  rcases next_cases h with ⟨p, rfl, howns, hplace, harg⟩ | ⟨i, hpc, hflag, rfl⟩ |
    ⟨i, hpc, hsize, rfl⟩ | ⟨i, nv, hpc, rfl⟩ | ⟨i, hpc, rfl⟩ | ⟨i, hpc, rfl⟩
  · apply I.goto howns (hplace (I.place w))
    intro i hi
    rcases harg i hi with hi | hi
    · exact I.args w i hi
    · exact hi
  · exact I.claim hpc hflag
  · exact I.alloc hpc hsize
  · exact I.publish hpc
  · exact I.finish hpc
  · exact I.result hpc

theorem reachable_inv (hc : (system W).Reachable c) : Inv c := by
  apply hc.invariant (I := Inv)
  · rintro c₀ rfl
    exact inv_start W
  · rintro c c' - I ⟨w, choice, h⟩
    exact inv_next I h

/-- How the flag and the pointer of block `k` move in a step. -/
structure Moves (c c' : Config W) (k : ℤ) : Prop where
  flag : c'.init k = c.init k ∨ (c.init k = -1 ∧ c'.init k = 0) ∨ (c.init k = 0 ∧ c'.init k = 1)
  pointer : ∀ a, c.vecs k = some a → c'.vecs k = some a

theorem moves_next (I : Inv c) {choice : Choice} (h : next w choice c = some c') (k : ℤ) :
    Moves c c' k := by
  rcases next_cases h with ⟨p, rfl, -⟩ | ⟨i, -, hflag, rfl⟩ | ⟨i, -, -, rfl⟩ | ⟨i, nv, hpc, rfl⟩ |
    ⟨i, hpc, rfl⟩ | ⟨i, -, rfl⟩
  · exact ⟨Or.inl rfl, fun _ h => h⟩
  · refine ⟨?_, fun _ h => h⟩
    by_cases hk : k = speclog i
    · rw [hk]
      exact Or.inr (Or.inl ⟨hflag, Function.update_self ..⟩)
    · exact Or.inl (Function.update_of_ne hk _ _)
  · exact ⟨Or.inl rfl, fun _ h => h⟩
  · refine ⟨Or.inl rfl, fun a ha => ?_⟩
    have hplace := I.place w
    rw [hpc] at hplace
    have hk : k ≠ speclog i := by
      rintro rfl
      rw [hplace.1] at ha
      cases ha
    exact (Function.update_of_ne hk _ _).trans ha
  · refine ⟨?_, fun _ h => h⟩
    by_cases hk : k = speclog i
    · rw [hk]
      exact Or.inr (Or.inr ⟨I.owned w _ (by rw [hpc]; rfl), Function.update_self ..⟩)
    · exact Or.inl (Function.update_of_ne hk _ _)
  · exact ⟨Or.inl rfl, fun _ h => h⟩

/-- A block that could be allocated is one of an id below `2 ^ 30`. -/
theorem lt_of_vecSize_pos {i : ℤ} (h0 : 0 ≤ i) (hlt : i < 2 ^ 31) (hsize : 0 < vecSize (speclog i)) :
    i < 2 ^ 30 := by
  by_contra hge
  obtain ⟨k, hk, hlog, -, hhigh⟩ := speclog_large (i := i) (by unfold MIN_VEC_SIZE; omega) hlt
  have hk' : k = 19 := by
    by_contra hne
    have hpow : (2 : ℤ) ^ (k + 12) ≤ 2 ^ 30 := by
      exact_mod_cast Nat.pow_le_pow_right (n := 2) (by decide) (show k + 12 ≤ 30 by omega)
    omega
  rw [hlog, hk'] at hsize
  exact absurd hsize (by decide)

/-- **What holds of the blocks in every state.** -/
structure Published (c : Config W) : Prop where
  /-- No block is allocated twice. -/
  once : (c.blocks.map Prod.fst).Nodup
  flag : ∀ k, c.init k = -1 ∨ c.init k = 0 ∨ c.init k = 1
  published : ∀ k, c.init k = 1 → c.vecs k ≠ none
  /-- A call returns a slot inside the block that is published for its id. -/
  slot : ∀ i s, (i, s) ∈ c.returned → ∃ a, c.vecs (speclog i) = some a ∧
    s = some ⟨a, getIndex (speclog i) i⟩ ∧ c.blocks[a]? = some (speclog i, vecSize (speclog i)) ∧
    0 ≤ getIndex (speclog i) i ∧ getIndex (speclog i) i < vecSize (speclog i)
  same : ∀ i s s', (i, s) ∈ c.returned → (i, s') ∈ c.returned → s = s'

/-- **Blocks are created once.**  For any number of workers and in every interleaving: the states are
as `Published` says, a flag moves from -1 to 0 and from 0 to 1 only, and a pointer that is set stays
as it is. -/
theorem blocks_created_once (W : Type*) [DecidableEq W] :
    (∀ c, (system W).Reachable c → Published c) ∧
    (∀ c c', (system W).Reachable c → (system W).step c c' → ∀ k, Moves c c' k) ∧
    (∀ c c', (system W).Reachable c → (system W).Steps c c' →
      ∀ k a, c.vecs k = some a → c'.vecs k = some a) := by
  refine ⟨?_, ?_, ?_⟩
  · intro c hc
    have I := reachable_inv hc
    have hslot : ∀ i s, (i, s) ∈ c.returned → ∃ a, c.vecs (speclog i) = some a ∧
        s = some ⟨a, getIndex (speclog i) i⟩ := fun i s h => (I.shared.returned (i, s) h).2
    refine ⟨I.shared.once, I.shared.flag, I.shared.published, ?_, ?_⟩
    · intro i s h
      obtain ⟨a, hvec, hs⟩ := hslot i s h
      obtain ⟨h0, hlt⟩ := (I.shared.returned (i, s) h).1
      obtain ⟨hsize, hblock⟩ := I.shared.stored _ a hvec
      obtain ⟨k, -, hlog, hlow, hhigh, -⟩ := getIndex_cases h0 (lt_of_vecSize_pos h0 hlt hsize)
      rw [hlog] at hvec hs hblock ⊢
      exact ⟨a, hvec, hs, hblock, hlow, hhigh⟩
    · intro i s s' h h'
      obtain ⟨a, hvec, hs⟩ := hslot i s h
      obtain ⟨a', hvec', hs'⟩ := hslot i s' h'
      obtain rfl : a = a' := Option.some.inj (hvec.symm.trans hvec')
      exact hs.trans hs'.symm
  · rintro c c' hc ⟨w, choice, h⟩ k
    exact moves_next (reachable_inv hc) h k
  · intro c c' hc hsteps
    refine hc.steps_rel (R := fun c c' => ∀ k a, c.vecs k = some a → c'.vecs k = some a)
      (fun _ _ _ h => h) ?_ ?_ hsteps
    · intro c₁ c₂ c₃ h₁ h₂ k a h
      exact h₂ k a (h₁ k a h)
    · rintro c c' hc ⟨w, choice, h⟩ k a
      exact (moves_next (reachable_inv hc) h k).pointer a

/-- Two workers ask for the same id, both see the null pointer, and the exchange of the second one
fails once without a reason and once because it comes too late. -/
def racingSchedule {W : Type*} (a b : W) : List (W × Choice) :=
  [(a, .call 5), (b, .call 5), (a, .go), (b, .go), (a, .go), (b, .go), (a, .go), (b, .go),
    (b, .spurious), (a, .go), (a, .go), (b, .go), (b, .go), (a, .go), (a, .go), (b, .go), (b, .go),
    (b, .go), (b, .go), (a, .go), (a, .go)]

theorem blocks_created_once_racing : ∃ c, (system (Fin 2)).Reachable c ∧ Published c ∧
    c.blocks = [(0, 2048)] ∧ c.init 0 = 1 ∧ c.returned = [(5, some ⟨0, 5⟩), (5, some ⟨0, 5⟩)] := by
  obtain ⟨c, hreach, hend⟩ := exists_reachable (system (Fin 2)) (fun a => next a.1 a.2)
    (fun a _ _ h => ⟨a.1, a.2, h⟩) rfl (racingSchedule 0 1)
    (fun c => c.blocks = [(0, 2048)] ∧ c.init 0 = 1 ∧ c.returned = [(5, some ⟨0, 5⟩), (5, some ⟨0, 5⟩)])
    (by decide +kernel)
  exact ⟨c, hreach, (blocks_created_once (Fin 2)).1 c hreach, hend⟩

end PwsaStar.Sbpl.Ubvec
