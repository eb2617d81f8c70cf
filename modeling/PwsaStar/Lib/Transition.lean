/-
# PwsaStar.Lib.Transition — transition systems, invariants, refinement and finite continuations.

A system is a set of initial states and a step relation.  Everything the development says about a
run goes through the four rules below and nothing else:

* `Reachable.invariant` — what holds initially and survives every step holds in every reachable
  state (the step may use that its source is reachable, so invariants can be stacked);
* `Refinement.reachable` — a map that sends every step of a system to finitely many steps of another
  one sends reachable states to reachable states;
* `RankedBy.infinite` — if every step lowers a rank in a well-founded order, except for steps that are
  excused, then an infinite run makes excused steps again and again;
* `exists_steps_of_measure` — if from every state that is not yet a goal some finite continuation
  lowers a natural-number measure, then from every state some finite continuation reaches a goal.

`runSchedule` executes a deterministic next-state function along a schedule; it is how concrete runs
are exhibited (`exists_reachable`).
-/
import Mathlib.Logic.Relation
import Mathlib.Order.RelClasses
import Mathlib.Tactic.Push
import Mathlib.Tactic.Choose

namespace PwsaStar.Lib

universe u v

/-- A transition system: initial states and one-step transitions. -/
structure System (σ : Type u) where
  init : σ → Prop
  step : σ → σ → Prop

namespace System

variable {σ : Type u} {τ : Type v}

/-- Finitely many steps. -/
def Steps (S : System σ) : σ → σ → Prop := Relation.ReflTransGen S.step

/-- A state some run from an initial state ends in. -/
def Reachable (S : System σ) (s : σ) : Prop := ∃ s₀, S.init s₀ ∧ S.Steps s₀ s

variable {S : System σ}

theorem Steps.refl (s : σ) : S.Steps s s := Relation.ReflTransGen.refl

theorem Steps.single {s t : σ} (h : S.step s t) : S.Steps s t := Relation.ReflTransGen.single h

theorem Steps.trans {s t r : σ} (h₁ : S.Steps s t) (h₂ : S.Steps t r) : S.Steps s r :=
  Relation.ReflTransGen.trans h₁ h₂

theorem Steps.head {s t r : σ} (h₁ : S.step s t) (h₂ : S.Steps t r) : S.Steps s r :=
  Relation.ReflTransGen.head h₁ h₂

theorem Reachable.of_init {s : σ} (h : S.init s) : S.Reachable s := ⟨s, h, Steps.refl s⟩

theorem Reachable.step {s t : σ} (hs : S.Reachable s) (h : S.step s t) : S.Reachable t := by
  obtain ⟨s₀, h₀, hrun⟩ := hs
  exact ⟨s₀, h₀, hrun.tail h⟩

theorem Reachable.steps {s t : σ} (hs : S.Reachable s) (h : S.Steps s t) : S.Reachable t := by
  obtain ⟨s₀, h₀, hrun⟩ := hs
  exact ⟨s₀, h₀, hrun.trans h⟩

/-- **The invariant rule.**  The step premise may use that its source state is reachable. -/
theorem Reachable.invariant {I : σ → Prop} (h₀ : ∀ s, S.init s → I s)
    (hstep : ∀ s t, S.Reachable s → I s → S.step s t → I t) {s : σ} (hs : S.Reachable s) : I s := by
  obtain ⟨s₀, hinit, hrun⟩ := hs
  induction hrun with
  | refl => exact h₀ s₀ hinit
  | @tail t r hpre hlast ih => exact hstep t r ⟨s₀, hinit, hpre⟩ ih hlast

/-- A relation between the two ends of a step that is reflexive, transitive and holds of every step
out of a reachable state holds between the two ends of every finite run out of one. -/
theorem Reachable.steps_rel {R : σ → σ → Prop} (hrefl : ∀ s, R s s)
    (htrans : ∀ s t r, R s t → R t r → R s r) (hstep : ∀ s t, S.Reachable s → S.step s t → R s t)
    {s t : σ} (hs : S.Reachable s) (h : S.Steps s t) : R s t := by
  induction h with
  | refl => exact hrefl s
  | @tail r q hpre hlast ih => exact htrans s r q ih (hstep r q (hs.steps hpre) hlast)

/-- **Finite continuations from a measure.**  `Inv` is any property the continuations keep. -/
theorem exists_steps_of_measure {Inv Goal : σ → Prop} (μ : σ → ℕ)
    (hprog : ∀ s, Inv s → ¬ Goal s → ∃ t, S.Steps s t ∧ Inv t ∧ (Goal t ∨ μ t < μ s))
    (s : σ) (hs : Inv s) : ∃ t, S.Steps s t ∧ Inv t ∧ Goal t := by
  induction hn : μ s using Nat.strongRecOn generalizing s with
  | ind n ih =>
    by_cases hg : Goal s
    · exact ⟨s, Steps.refl s, hs, hg⟩
    · obtain ⟨t, hst, hti, hgoal | hlt⟩ := hprog s hs hg
      · exact ⟨t, hst, hti, hgoal⟩
      · obtain ⟨r, htr, hri, hrg⟩ := ih (μ t) (hn ▸ hlt) t hti rfl
        exact ⟨r, hst.trans htr, hri, hrg⟩

/-! ## Ranked runs -/

/-- `rank s a`: the state `s` has the rank `a`.  Every step out of a ranked state leads to one of a
lower rank, unless it is excused. -/
structure RankedBy {α : Type v} [LT α] (S : System σ) (excused : σ → σ → Prop) (rank : σ → α → Prop) :
    Prop where
  init : ∀ s, S.init s → ∃ a, rank s a
  step : ∀ s t a, rank s a → S.step s t → ∃ b, rank t b ∧ (b < a ∨ excused s t)

theorem RankedBy.reachable {α : Type v} [LT α] {excused : σ → σ → Prop} {rank : σ → α → Prop}
    (R : S.RankedBy excused rank) {s : σ} (hs : S.Reachable s) : ∃ a, rank s a := by
  apply hs.invariant (I := fun s => ∃ a, rank s a) R.init
  rintro s t - ⟨a, ha⟩ hstep
  obtain ⟨b, hb, -⟩ := R.step s t a ha hstep
  exact ⟨b, hb⟩

/-- The states of an infinite run are reachable. -/
theorem reachable_of_run {f : ℕ → σ} (h₀ : S.init (f 0)) (hstep : ∀ n, S.step (f n) (f (n + 1)))
    (n : ℕ) : S.Reachable (f n) := by
  induction n with
  | zero => exact Reachable.of_init h₀
  | succ n ih => exact ih.step (hstep n)

/-- **An infinite run makes excused steps again and again.** -/
theorem RankedBy.infinite {α : Type v} [LT α] [WellFoundedLT α] {excused : σ → σ → Prop}
    {rank : σ → α → Prop} (R : S.RankedBy excused rank) {f : ℕ → σ} (h₀ : S.init (f 0))
    (hstep : ∀ n, S.step (f n) (f (n + 1))) (n : ℕ) :
    ∃ k, n ≤ k ∧ excused (f k) (f (k + 1)) := by
  by_contra hnone
  push Not at hnone
  -- from `n` on every step lowers the rank
  have key : ∀ a k, n ≤ k → ¬ rank (f k) a := by
    intro a
    induction a using WellFoundedLT.induction with
    | ind a ih =>
      intro k hk hrank
      obtain ⟨b, hb, hlt | hex⟩ := R.step _ _ a hrank (hstep k)
      · exact ih b hlt (k + 1) (by omega) hb
      · exact hnone k hk hex
  obtain ⟨a, ha⟩ := R.reachable (reachable_of_run h₀ hstep n)
  exact key a n (Nat.le_refl n) ha

/-- **Every run ends in a `final` state**: whoever is not there can go on without an excuse, and only
excused steps can keep a run from getting there. -/
structure Ends (S : System σ) (excused : σ → σ → Prop) (final : σ → Prop) : Prop where
  goesOn : ∀ s, S.Reachable s → ¬ final s → ∃ t, S.step s t ∧ ¬ excused s t
  infinite : ∀ f : ℕ → σ, S.init (f 0) → (∀ n, S.step (f n) (f (n + 1))) →
    ∀ n, ∃ k, n ≤ k ∧ excused (f k) (f (k + 1))

theorem RankedBy.ends {α : Type v} [LT α] [WellFoundedLT α] {excused : σ → σ → Prop}
    {rank : σ → α → Prop} {final : σ → Prop} (R : S.RankedBy excused rank)
    (hgo : ∀ s a, rank s a → ¬ final s → ∃ t, S.step s t ∧ ¬ excused s t) :
    S.Ends excused final where
  goesOn s hs hfinal := by
    obtain ⟨a, ha⟩ := R.reachable hs
    exact hgo s a ha hfinal
  infinite _ h₀ hstep := R.infinite h₀ hstep

/-- So some run gets there. -/
theorem Ends.exists_final {excused : σ → σ → Prop} {final : σ → Prop} (E : S.Ends excused final)
    {s₀ : σ} (h₀ : S.init s₀) : ∃ s, S.Reachable s ∧ final s := by
  by_contra hnone
  push Not at hnone
  -- otherwise a run can avoid excused steps for ever
  have hgo : ∀ s : {s // S.Reachable s}, ∃ t : {t // S.Reachable t},
      S.step s.1 t.1 ∧ ¬ excused s.1 t.1 := by
    rintro ⟨s, hs⟩
    obtain ⟨t, hstep, hex⟩ := E.goesOn s hs (hnone s hs)
    exact ⟨⟨t, hs.step hstep⟩, hstep, hex⟩
  choose next hnext using hgo
  obtain ⟨k, -, hex⟩ := E.infinite
    (fun n => (Nat.rec ⟨s₀, Reachable.of_init h₀⟩ (fun _ s => next s) n : {s // S.Reachable s}).1)
    h₀ (fun n => (hnext _).1) 0
  exact (hnext _).2 hex

/-! ## Refinement -/

/-- `f` refines `S` into `A`: initial states go to initial states and every step out of a reachable
state of `S` is matched by finitely many (possibly zero) steps of `A`. -/
structure Refinement (S : System σ) (A : System τ) (f : σ → τ) : Prop where
  init : ∀ s, S.init s → A.init (f s)
  step : ∀ s t, S.Reachable s → S.step s t → A.Steps (f s) (f t)

theorem Refinement.reachable {A : System τ} {f : σ → τ} (R : Refinement S A f) {s : σ}
    (hs : S.Reachable s) : A.Reachable (f s) := by
  apply hs.invariant (I := fun s => A.Reachable (f s))
  · intro s₀ h₀
    exact Reachable.of_init (R.init s₀ h₀)
  · intro s t hreach hA hstep
    exact hA.steps (R.step s t hreach hstep)

theorem Refinement.steps {A : System τ} {f : σ → τ} (R : Refinement S A f) {s t : σ}
    (hs : S.Reachable s) (h : S.Steps s t) : A.Steps (f s) (f t) :=
  hs.steps_rel (R := fun s t => A.Steps (f s) (f t)) (fun s => Steps.refl (f s))
    (fun _ _ _ h₁ h₂ => h₁.trans h₂) R.step h

end System

/-! ## Executing a schedule -/

/-- Run a next-state function along a schedule; `none` as soon as a scheduled action is not
enabled. -/
def runSchedule {σ : Type u} {α : Type v} (next : α → σ → Option σ) : List α → σ → Option σ
  | [], s => some s
  | a :: as, s => (next a s).bind (runSchedule next as)

theorem steps_of_runSchedule {σ : Type u} {α : Type v} {S : System σ} {next : α → σ → Option σ}
    (hnext : ∀ a s t, next a s = some t → S.step s t) :
    ∀ {as : List α} {s t : σ}, runSchedule next as s = some t → S.Steps s t := by
  intro as
  induction as with
  | nil =>
    intro s t h
    obtain rfl : s = t := by simpa [runSchedule] using h
    exact System.Steps.refl s
  | cons a as ih =>
    intro s t h
    simp only [runSchedule, Option.bind_eq_some_iff] at h
    obtain ⟨r, hr, hrest⟩ := h
    exact System.Steps.head (hnext a s r hr) (ih hrest)

/-- **A concrete run**: the schedule is executed from an initial state, and `P` tested at its end. -/
theorem exists_reachable {σ : Type u} {α : Type v} (S : System σ) (next : α → σ → Option σ)
    (hnext : ∀ a s t, next a s = some t → S.step s t) {s₀ : σ} (h₀ : S.init s₀) (as : List α)
    (P : σ → Prop) [DecidablePred P]
    (h : (runSchedule next as s₀).any (fun s => decide (P s)) = true) : ∃ s, S.Reachable s ∧ P s := by
  obtain ⟨s, hrun, hP⟩ := (Option.any_eq_true _ _).mp h
  exact ⟨s, ⟨s₀, h₀, steps_of_runSchedule hnext hrun⟩, of_decide_eq_true hP⟩

end PwsaStar.Lib
