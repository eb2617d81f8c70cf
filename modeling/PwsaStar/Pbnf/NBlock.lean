/-
# PwsaStar.Pbnf.NBlock — `pbnf/nblock.cc`: what an nblock interferes with.

A projection sorts the states into nblocks.  Whoever searches an nblock works on the open and closed
lists of the nblock itself and of its successors: its scope.  `interferes` is the list that the
constructor of an nblock makes, and two nblocks whose scopes meet are in each other's list.
-/
import Mathlib.Algebra.GroupWithZero.Nat
import Mathlib.Data.List.FinRange
import Mathlib.Data.List.Perm.Subperm
import Mathlib.Data.Set.Basic
import Mathlib.Data.Set.Insert

namespace PwsaStar.Pbnf

/-- `project`, `get_successors` and `get_predecessors` of a `Projection` to `n` nblocks. -/
structure Projection (V : Type) (n : ℕ) where
  project : V → Fin n
  get_successors : Fin n → List (Fin n)
  get_predecessors : Fin n → List (Fin n)

namespace Projection

variable {V : Type} {n : ℕ} {P : Projection V n}

/-- `iset` without the nblock itself, in the order of `std::set`: the predecessors, the successors and
the predecessors of the successors. -/
def interferes (P : Projection V n) (id : Fin n) : List (Fin n) :=
  (List.finRange n).filter fun k => k ≠ id ∧
    (k ∈ P.get_predecessors id ∨ k ∈ P.get_successors id ∨
      ∃ i ∈ P.get_successors id, k ∈ P.get_predecessors i)

/-- The cells of the array that the constructor of an nblock allocates for `interferes`.  The predecessors of
the nblock itself are not counted. -/
def allocated (P : Projection V n) (id : Fin n) : ℕ :=
  ((P.get_successors id).map fun i => 1 + (P.get_predecessors i).length).sum

/-- No constructor writes behind its array. -/
def Allocated (P : Projection V n) : Prop := ∀ id, (P.interferes id).length ≤ P.allocated id

/-- The nblocks that the search of `b` works on. -/
def scope (P : Projection V n) (b : Fin n) : Set (Fin n) := insert b {k | k ∈ P.get_successors b}

/-- The predecessors are the nblocks that have this one as a successor. -/
def Mutual (P : Projection V n) : Prop :=
  ∀ a b, b ∈ P.get_successors a ↔ a ∈ P.get_predecessors b

theorem mem_interferes {id k : Fin n} : k ∈ P.interferes id ↔ k ≠ id ∧
    (k ∈ P.get_predecessors id ∨ k ∈ P.get_successors id ∨
      ∃ i ∈ P.get_successors id, k ∈ P.get_predecessors i) := by
  simp [interferes]

theorem interferes_nodup (id : Fin n) : (P.interferes id).Nodup :=
  (List.nodup_finRange n).filter _

/-- The assertion `b->id != b->interferes[i]`. -/
theorem self_notMem_interferes (b : Fin n) : b ∉ P.interferes b := fun h => (mem_interferes.mp h).1 rfl

theorem interferes_symm (hP : P.Mutual) {a b : Fin n} (h : a ∈ P.interferes b) : b ∈ P.interferes a := by
  rw [mem_interferes] at h ⊢
  refine ⟨Ne.symm h.1, ?_⟩
  rcases h.2 with hpred | hsucc | ⟨i, hi, hpred⟩
  · exact Or.inr (Or.inl ((hP a b).mpr hpred))
  · exact Or.inl ((hP b a).mp hsucc)
  · exact Or.inr (Or.inr ⟨i, (hP a i).mpr hpred, (hP b i).mp hi⟩)

/-- **Two nblocks whose scopes meet interfere.** -/
theorem interferes_of_scope (hP : P.Mutual) {a b k : Fin n} (hab : a ≠ b) (ha : k ∈ P.scope a)
    (hb : k ∈ P.scope b) : a ∈ P.interferes b := by
  rw [mem_interferes]
  refine ⟨hab, ?_⟩
  rcases ha with rfl | ha
  · rcases hb with rfl | hb
    · exact absurd rfl hab
    · exact Or.inr (Or.inl hb)
  · rcases hb with rfl | hb
    · exact Or.inl ((hP a k).mp ha)
    · exact Or.inr (Or.inr ⟨k, hb, (hP a k).mp ha⟩)

/-- The array is large enough where every predecessor is a successor as well. -/
theorem allocated_of_subset (h : ∀ id, ∀ k ∈ P.get_predecessors id, k ∈ P.get_successors id) :
    P.Allocated := by
  intro id
  have hsub : P.interferes id ⊆ (P.get_successors id).flatMap fun i => i :: P.get_predecessors i := by
    intro k hk
    rw [List.mem_flatMap]
    rcases (mem_interferes.mp hk).2 with hpred | hsucc | ⟨i, hi, hpred⟩
    · exact ⟨k, h id k hpred, List.mem_cons_self⟩
    · exact ⟨k, hsucc, List.mem_cons_self⟩
    · exact ⟨i, hi, List.mem_cons_of_mem i hpred⟩
  have hle := ((interferes_nodup id).subperm hsub).length_le
  rw [List.length_flatMap] at hle
  simpa only [allocated, List.length_cons, Nat.add_comm 1] using hle

end Projection

end PwsaStar.Pbnf
