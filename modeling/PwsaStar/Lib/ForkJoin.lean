/-
# PwsaStar.Lib.ForkJoin — fork-join programs over a shared memory.

A program reads and writes cells one at a time.  `fork p q next` runs `p` and `q` at the same time, their
accesses in any order, and goes on with `next` when both are done.  `run` is the sequential meaning:
first `p`, then `q`.

A program is `Separated` if whatever runs at the same time touches different cells.  Then the order of
the accesses does not show: a step leaves the sequential result as it is (`Step.run_effect`), a program
with a result is never stuck (`exists_step`), and no execution goes on for ever (`step_wellFounded`).  So
every execution ends, and it ends with the sequential result (`Separated.computes`).
-/
import PwsaStar.Lib.Transition
import Mathlib.Data.Set.Lattice
import Mathlib.Order.CompletePartialOrder
import Mathlib.Logic.Function.Basic

namespace PwsaStar.Lib

universe u v

/-- Programs over cells named by `I` that hold values of `M`.  `fault` is an access to something that is
not shared and not there. -/
inductive Prog (I : Type u) (M : Type v)
  | done
  | fault
  | read (i : I) (next : M → Prog I M)
  | write (i : I) (x : M) (next : Prog I M)
  | fork (left right next : Prog I M)

/-- One program after the other. -/
def Prog.seq {I : Type u} {M : Type v} (p next : Prog I M) : Prog I M := .fork p .done next

/-- What the cells hold; a cell that is not there holds nothing. -/
abbrev Cells (I : Type u) (M : Type v) := I → Option M

namespace Prog

variable {I : Type u} {M : Type v}

/-- The cells a program may access. -/
def touches : Prog I M → Set I
  | done | fault => ∅
  | read i next => insert i (⋃ x, (next x).touches)
  | write i _ next => insert i next.touches
  | fork left right next => left.touches ∪ right.touches ∪ next.touches

/-- **What runs at the same time touches different cells.** -/
def Separated : Prog I M → Prop
  | done | fault => True
  | read _ next => ∀ x, (next x).Separated
  | write _ _ next => next.Separated
  | fork left right next =>
    Disjoint left.touches right.touches ∧ left.Separated ∧ right.Separated ∧ next.Separated

@[simp] theorem touches_done_subset {S : Set I} : (done : Prog I M).touches ⊆ S := Set.empty_subset S

@[simp] theorem touches_fault_subset {S : Set I} : (fault : Prog I M).touches ⊆ S := Set.empty_subset S

@[simp] theorem touches_read_subset {S : Set I} {i : I} {next : M → Prog I M} :
    (read i next).touches ⊆ S ↔ i ∈ S ∧ ∀ x, (next x).touches ⊆ S :=
  Set.insert_subset_iff.trans (and_congr_right' Set.iUnion_subset_iff)

@[simp] theorem touches_write_subset {S : Set I} {i : I} {x : M} {next : Prog I M} :
    (write i x next).touches ⊆ S ↔ i ∈ S ∧ next.touches ⊆ S := Set.insert_subset_iff

@[simp] theorem touches_fork_subset {S : Set I} {left right next : Prog I M} :
    (fork left right next).touches ⊆ S ↔
      (left.touches ⊆ S ∧ right.touches ⊆ S) ∧ next.touches ⊆ S :=
  Set.union_subset_iff.trans (and_congr_left' Set.union_subset_iff)

theorem Separated.seq {p next : Prog I M} (hp : p.Separated) (hnext : next.Separated) :
    (p.seq next).Separated := ⟨Set.disjoint_empty _, hp, trivial, hnext⟩

/-- What a step does. -/
inductive Act (I : Type u) (M : Type v)
  | read (i : I) (x : M)
  | write (i : I) (x : M)
  | join

/-- One access, or the end of a fork. -/
inductive Step : Act I M → Prog I M → Prog I M → Prop
  | read (i : I) (x : M) (next : M → Prog I M) : Step (.read i x) (read i next) (next x)
  | write (i : I) (x : M) (next : Prog I M) : Step (.write i x) (write i x next) next
  | left {a : Act I M} {p p' : Prog I M} (q next : Prog I M) : Step a p p' →
      Step a (fork p q next) (fork p' q next)
  | right {a : Act I M} {q q' : Prog I M} (p next : Prog I M) : Step a q q' →
      Step a (fork p q next) (fork p q' next)
  | join (next : Prog I M) : Step .join (fork done done next) next

/-- The cell that is accessed, if there is one. -/
def Act.cell : Act I M → Option I
  | .read i _ | .write i _ => some i
  | .join => none

/-- The cell is there, and holds what is read. -/
def Act.Enabled (m : Cells I M) : Act I M → Prop
  | .read i x => m i = some x
  | .write i _ => (m i).isSome
  | .join => True

/-! ## What a step touches -/

theorem Step.touches_subset {a : Act I M} {p p' : Prog I M} (h : Step a p p') :
    p'.touches ⊆ p.touches := by
  induction h with
  | read i x next =>
    intro j hj
    exact Set.mem_insert_of_mem _ (Set.mem_iUnion.mpr ⟨x, hj⟩)
  | write i x next => exact Set.subset_insert i _
  | left q next _ ih => exact Set.union_subset_union_left _ (Set.union_subset_union_left _ ih)
  | right p next _ ih => exact Set.union_subset_union_left _ (Set.union_subset_union_right _ ih)
  | join next => exact Set.subset_union_right

theorem Step.cell_mem {a : Act I M} {p p' : Prog I M} (h : Step a p p') :
    ∀ i, a.cell = some i → i ∈ p.touches := by
  induction h with
  | read i x next =>
    rintro j ⟨⟩
    exact Set.mem_insert i _
  | write i x next =>
    rintro j ⟨⟩
    exact Set.mem_insert i _
  | left q next _ ih => exact fun i hi => Or.inl (Or.inl (ih i hi))
  | right p next _ ih => exact fun i hi => Or.inl (Or.inr (ih i hi))
  | join next => exact nofun

theorem Step.separated {a : Act I M} {p p' : Prog I M} (h : Step a p p') (hp : p.Separated) :
    p'.Separated := by
  induction h with
  | read i x next => exact hp x
  | write i x next => exact hp
  | left q next hstep ih =>
    obtain ⟨hdisjoint, hp, hq, hnext⟩ := hp
    exact ⟨hdisjoint.mono_left hstep.touches_subset, ih hp, hq, hnext⟩
  | right p next hstep ih =>
    obtain ⟨hdisjoint, hp, hq, hnext⟩ := hp
    exact ⟨hdisjoint.mono_right hstep.touches_subset, hp, ih hq, hnext⟩
  | join next => exact hp.2.2.2

/-! ## Executions are finite -/

/-- `p'` is what is left of `p` after a step. -/
def After (p' p : Prog I M) : Prop := ∃ a, Step a p p'

/-- Two programs at the same time take finitely many steps if each of them does. -/
theorem acc_fork {p q next : Prog I M} (hp : Acc After p) (hq : Acc After q) (hnext : Acc After next) :
    Acc After (fork p q next) := by
  induction hp generalizing q with
  | intro p hp ihp =>
    induction hq with
    | intro q hq ihq =>
      apply Acc.intro
      rintro r ⟨a, hstep⟩
      cases hstep with
      | left _ _ h => exact ihp _ ⟨a, h⟩ (Acc.intro q hq)
      | right _ _ h => exact ihq _ ⟨a, h⟩
      | join => exact hnext

/-- **No execution goes on for ever.** -/
theorem step_wellFounded : WellFounded (After : Prog I M → Prog I M → Prop) := by
  apply WellFounded.intro
  intro p
  induction p with
  | done | fault =>
    apply Acc.intro
    rintro q ⟨a, ⟨⟩⟩
  | read i next ih =>
    apply Acc.intro
    rintro q ⟨a, ⟨⟩⟩
    exact ih _
  | write i x next ih =>
    apply Acc.intro
    rintro q ⟨a, ⟨⟩⟩
    exact ih
  | fork p q next ihp ihq ihnext => exact acc_fork ihp ihq ihnext

/-! ## The sequential meaning -/

variable [DecidableEq I]

/-- Run the program, of two programs at the same time the left one first.  There is no result if it
accesses a cell that is not there. -/
def run : Prog I M → Cells I M → Option (Cells I M)
  | done, m => some m
  | fault, _ => none
  | read i next, m => (m i).bind fun x => (next x).run m
  | write i x next, m => (m i).bind fun _ => next.run (Function.update m i (some x))
  | fork left right next, m => (left.run m).bind fun m' => (right.run m').bind next.run

theorem run_seq (p next : Prog I M) (m : Cells I M) : (p.seq next).run m = (p.run m).bind next.run := rfl

/-- What a step does to the cells. -/
def Act.effect (m : Cells I M) : Act I M → Cells I M
  | .write i x => Function.update m i (some x)
  | .read _ _ | .join => m

/-- A cell that is not touched keeps what it holds. -/
theorem run_untouched {i : I} : ∀ (p : Prog I M), i ∉ p.touches → ∀ {m m' : Cells I M},
    p.run m = some m' → m' i = m i := by
  intro p
  induction p with
  | done =>
    intro _ m m' h
    rw [Option.some.inj h]
  | fault =>
    intro _ m m' h
    cases h
  | read j next ih =>
    intro hi m m' h
    obtain ⟨x, -, hrun⟩ := Option.bind_eq_some_iff.mp h
    exact ih x (fun hx => hi (Set.mem_insert_of_mem _ (Set.mem_iUnion.mpr ⟨x, hx⟩))) hrun
  | write j x next ih =>
    intro hi m m' h
    obtain ⟨y, -, hrun⟩ := Option.bind_eq_some_iff.mp h
    have hij : i ≠ j := by
      rintro rfl
      exact hi (Set.mem_insert i _)
    rw [ih (fun hx => hi (Set.mem_insert_of_mem _ hx)) hrun, Function.update_of_ne hij]
  | fork p q next ihp ihq ihnext =>
    intro hi m m' h
    obtain ⟨m₁, hp, h⟩ := Option.bind_eq_some_iff.mp h
    obtain ⟨m₂, hq, hnext⟩ := Option.bind_eq_some_iff.mp h
    rw [ihnext (fun h => hi (Or.inr h)) hnext, ihq (fun h => hi (Or.inl (Or.inr h))) hq,
      ihp (fun h => hi (Or.inl (Or.inl h))) hp]

/-- And what it holds makes no difference. -/
theorem run_update {i : I} (y : M) : ∀ (p : Prog I M), i ∉ p.touches → ∀ m : Cells I M,
    p.run (Function.update m i (some y)) = (p.run m).map fun m' => Function.update m' i (some y) := by
  intro p
  induction p with
  | done => exact fun _ _ => rfl
  | fault => exact fun _ _ => rfl
  | read j next ih =>
    intro hi m
    have hji : j ≠ i := by
      rintro rfl
      exact hi (Set.mem_insert j _)
    rw [run, run, Function.update_of_ne hji]
    cases m j with
    | none => rfl
    | some x => exact ih x (fun hx => hi (Set.mem_insert_of_mem _ (Set.mem_iUnion.mpr ⟨x, hx⟩))) m
  | write j x next ih =>
    intro hi m
    have hji : j ≠ i := by
      rintro rfl
      exact hi (Set.mem_insert j _)
    rw [run, run, Function.update_of_ne hji, Function.update_comm hji.symm]
    cases m j with
    | none => rfl
    | some _ => exact ih (fun hx => hi (Set.mem_insert_of_mem _ hx)) _
  | fork p q next ihp ihq ihnext =>
    intro hi m
    rw [run, run, ihp (fun h => hi (Or.inl (Or.inl h)))]
    cases p.run m with
    | none => rfl
    | some m₁ =>
      rw [Option.map_some, Option.bind_some, Option.bind_some, ihq (fun h => hi (Or.inl (Or.inr h)))]
      cases q.run m₁ with
      | none => rfl
      | some m₂ => exact ihnext (fun h => hi (Or.inr h)) m₂

/-- An act of one program and the whole of another that does not touch its cell. -/
theorem run_act {a : Act I M} {p : Prog I M} (ha : ∀ i, a.cell = some i → i ∉ p.touches)
    (m : Cells I M) : p.run (a.effect m) = (p.run m).map fun m' => a.effect m' := by
  cases a with
  | read i x => exact Option.map_id'.symm
  | write i x => exact run_update x p (ha i rfl) m
  | join => exact Option.map_id'.symm

theorem Act.Enabled.run {a : Act I M} {p : Prog I M} (ha : ∀ i, a.cell = some i → i ∉ p.touches)
    {m m' : Cells I M} (h : a.Enabled m) (hrun : p.run m = some m') : a.Enabled m' := by
  cases a with
  | read i x => exact (run_untouched p (ha i rfl) hrun).trans h
  | write i x =>
    show (m' i).isSome
    rw [run_untouched p (ha i rfl) hrun]
    exact h
  | join => trivial

/-- **A step leaves the sequential result as it is.** -/
theorem Step.run_effect {a : Act I M} {p p' : Prog I M} (h : Step a p p') (hp : p.Separated) :
    ∀ {m : Cells I M}, a.Enabled m → p'.run (a.effect m) = p.run m := by
  induction h with
  | read i x next =>
    intro m ha
    rw [run, show m i = some x from ha]
    rfl
  | write i x next =>
    intro m ha
    obtain ⟨y, hy⟩ := Option.isSome_iff_exists.mp ha
    rw [run, hy]
    rfl
  | left q next _ ih =>
    intro m ha
    rw [run, run, ih hp.2.1 ha]
  | right p next hstep ih =>
    -- the left program, run first here, does not see what the right one has done
    intro m ha
    have hcell : ∀ i, _ = some i → i ∉ p.touches := fun i hi hmem =>
      Set.disjoint_left.mp hp.1 hmem (hstep.cell_mem i hi)
    rw [run, run, run_act hcell]
    cases hrun : p.run m with
    | none => rfl
    | some m₁ =>
      show ((_ : Prog I M).run _).bind _ = _
      rw [ih hp.2.2.1 (ha.run hcell hrun), Option.bind_some]
  | join next => exact fun _ => rfl

/-- **A program with a result is done or can go on.** -/
theorem exists_step : ∀ (p : Prog I M) {m m' : Cells I M}, p.run m = some m' →
    p = done ∨ ∃ a p', Step a p p' ∧ a.Enabled m := by
  intro p
  induction p with
  | done => exact fun _ => Or.inl rfl
  | fault =>
    intro m m' h
    cases h
  | read i next ih =>
    intro m m' h
    obtain ⟨x, hx, -⟩ := Option.bind_eq_some_iff.mp h
    exact Or.inr ⟨_, _, .read i x next, hx⟩
  | write i x next ih =>
    intro m m' h
    obtain ⟨y, hy, -⟩ := Option.bind_eq_some_iff.mp h
    exact Or.inr ⟨_, _, .write i x next, Option.isSome_iff_exists.mpr ⟨y, hy⟩⟩
  | fork p q next ihp ihq ihnext =>
    intro m m' h
    obtain ⟨m₁, hp, h⟩ := Option.bind_eq_some_iff.mp h
    apply Or.inr
    rcases ihp hp with rfl | ⟨a, p', hstep, ha⟩
    · obtain rfl : m = m₁ := Option.some.inj hp
      obtain ⟨m₂, hq, -⟩ := Option.bind_eq_some_iff.mp h
      rcases ihq hq with rfl | ⟨a, q', hstep, ha⟩
      · exact ⟨.join, next, .join next, trivial⟩
      · exact ⟨a, _, .right done next hstep, ha⟩
    · exact ⟨a, _, .left q next hstep, ha⟩

/-! ## Executions -/

/-- A program on its cells. -/
def machine (p : Prog I M) (m : Cells I M) : System (Prog I M × Cells I M) where
  init c := c = (p, m)
  step c c' := ∃ a, Step a c.1 c'.1 ∧ a.Enabled c.2 ∧ c'.2 = a.effect c.2

/-- **Every execution ends, and leaves `m'`**: whatever has been done so far can be carried on to that
end, there is no other end, and no execution goes on for ever. -/
structure Computes (p : Prog I M) (m m' : Cells I M) : Prop where
  ends : ∀ c, (machine p m).Reachable c → (machine p m).Steps c (done, m')
  only : ∀ m₁, (machine p m).Reachable (done, m₁) → m₁ = m'
  finite : ∀ f : ℕ → Prog I M × Cells I M, f 0 = (p, m) →
    ¬ ∀ n, (machine p m).step (f n) (f (n + 1))

theorem reachable_run {p : Prog I M} (hp : p.Separated) {m : Cells I M} {c : Prog I M × Cells I M}
    (hc : (machine p m).Reachable c) : c.1.Separated ∧ c.1.run c.2 = p.run m := by
  apply hc.invariant
  · rintro c rfl
    exact ⟨hp, rfl⟩
  · rintro c c' - ⟨hsep, hrun⟩ ⟨a, hstep, ha, heff⟩
    refine ⟨hstep.separated hsep, ?_⟩
    rw [heff, hstep.run_effect hsep ha, hrun]

/-- **A separated program computes its sequential result.** -/
theorem Separated.computes {p : Prog I M} (hp : p.Separated) {m m' : Cells I M}
    (hrun : p.run m = some m') : Computes p m m' := by
  have hends : ∀ q : Prog I M, ∀ m₁, (machine p m).Reachable (q, m₁) →
      (machine p m).Steps (q, m₁) (done, m') := by
    intro q
    induction q using step_wellFounded.induction with
    | _ q ih =>
      intro m₁ hc
      obtain ⟨-, hq⟩ := reachable_run hp hc
      rw [hrun] at hq
      rcases exists_step q hq with rfl | ⟨a, q', hstep, ha⟩
      · rw [show m₁ = m' from Option.some.inj hq]
        exact .refl _
      · have hmove : (machine p m).step (q, m₁) (q', a.effect m₁) := ⟨a, hstep, ha, rfl⟩
        exact .head hmove (ih q' ⟨a, hstep⟩ _ (hc.step hmove))
  refine ⟨fun c hc => hends c.1 c.2 hc, ?_, ?_⟩
  · intro m₁ hc
    obtain ⟨-, hq⟩ := reachable_run hp hc
    rw [hrun] at hq
    exact Option.some.inj hq
  · intro f _ hstep
    -- there is no program from which it could go on for ever
    have hnone : ∀ q : Prog I M, ∀ n, (f n).1 ≠ q := by
      intro q
      induction q using step_wellFounded.induction with
      | _ q ih =>
        rintro n rfl
        obtain ⟨a, ha, -, -⟩ := hstep n
        exact ih _ ⟨a, ha⟩ (n + 1) rfl
    exact hnone _ 0 rfl

end Prog

end PwsaStar.Lib
