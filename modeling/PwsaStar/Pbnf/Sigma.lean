/-
# PwsaStar.Pbnf.Sigma — the counters of the nblock graph.

`Inv` is what holds of the graph whenever nobody has the mutex: `sigma` and `sigma_hot` count exactly the
neighbours in use and the hot neighbours, and the free list has every free nblock, except for those it
was pruned of.  Inside a loop over the neighbours of an nblock the counters of the neighbours that are
still to come are off by one; `Inv` carries that difference for every nblock, so that each turn of a loop
preserves it.
-/
import PwsaStar.Pbnf.NBlockGraph
import Mathlib.Data.Fintype.Card
import Mathlib.Data.Int.Basic

namespace PwsaStar.Pbnf

open PriorityQueue

namespace View

variable {n : ℕ}

theorem pred_iff (view : View n) (a b : Fin n) : view.pred a b = true ↔
    view.best_value a < view.best_value b ∨ view.best_value a = view.best_value b ∧
      (if view.empty b then fp_infinity else view.peek_g b)
        < if view.empty a then fp_infinity else view.peek_g a := by
  rw [pred]
  by_cases heq : view.best_value a = view.best_value b
  · simp [heq]
  · simp [heq]

theorem pred_eq_false_iff (view : View n) (a b : Fin n) : view.pred a b = false ↔
    ¬ (view.best_value a < view.best_value b ∨ view.best_value a = view.best_value b ∧
      (if view.empty b then fp_infinity else view.peek_g b)
        < if view.empty a then fp_infinity else view.peek_g a) := by
  rw [← view.pred_iff, Bool.not_eq_true]

/-- The order of the free list is one that the heap can work with. -/
theorem isOrder (view : View n) : IsOrder view.pred where
  asymm a b h := by
    rw [pred_iff] at h
    rw [pred_eq_false_iff]
    omega
  trans a b c h₁ h₂ := by
    rw [pred_eq_false_iff] at h₁ h₂ ⊢
    omega

/-- An nblock that is not ahead of another has no smaller best value. -/
theorem best_le (view : View n) {a b : Fin n} (h : view.pred a b = false) :
    view.best_value b ≤ view.best_value a := by
  rw [pred_eq_false_iff] at h
  omega

end View

/-! ## Counting -/

section Counting

variable {V : Type} {n : ℕ} (P : Projection V n)

/-- How many of the nblocks in `s` have `b` in their interference scope. -/
def count (s : Fin n → Bool) (b : Fin n) : ℤ :=
  ((Finset.univ.filter fun c => (s c && (P.interferes c).contains b) = true).card : ℕ)

/-- How many nblocks have the value zero. -/
def zeros (f : Fin n → ℤ) : ℤ := ((Finset.univ.filter fun b => f b = 0).card : ℕ)

/-- One for the nblocks in `l`. -/
def owed (l : List (Fin n)) (k : Fin n) : ℤ := if l.contains k = true then 1 else 0

theorem owed_of_notMem {l : List (Fin n)} {k : Fin n} (h : k ∉ l) : owed l k = 0 :=
  if_neg (by simpa using h)

theorem owed_of_mem {l : List (Fin n)} {k : Fin n} (h : k ∈ l) : owed l k = 1 :=
  if_pos (by simpa using h)

theorem owed_nil (k : Fin n) : owed [] k = 0 := rfl

theorem owed_cons_self (m : Fin n) (l : List (Fin n)) : owed (m :: l) m = 1 := owed_of_mem List.mem_cons_self

theorem owed_cons_of_ne {m k : Fin n} (l : List (Fin n)) (h : k ≠ m) : owed (m :: l) k = owed l k := by
  simp [owed, h]

variable {P}

theorem count_nonneg (s : Fin n → Bool) (b : Fin n) : 0 ≤ count P s b := Int.natCast_nonneg _

/-- One nblock more adds one to each nblock that it interferes with. -/
theorem count_update (s : Fin n → Bool) (c b : Fin n) :
    count P (Function.update s c true) b
      = count P (Function.update s c false) b + owed (P.interferes c) b := by
  rw [count, count]
  by_cases hb : b ∈ P.interferes c
  · have hins : (Finset.univ.filter fun x =>
        (Function.update s c true x && (P.interferes x).contains b) = true)
          = insert c (Finset.univ.filter fun x =>
              (Function.update s c false x && (P.interferes x).contains b) = true) := by
      ext x
      by_cases hx : x = c
      · simp [hx, hb]
      · simp [hx]
    rw [hins, Finset.card_insert_of_notMem (by simp), owed_of_mem hb]
    push_cast
    rfl
  · rw [owed_of_notMem hb, Int.add_zero]
    congr 3
    ext x
    by_cases hx : x = c
    · simp [hx, hb]
    · simp [hx]

theorem count_update_true {s : Fin n → Bool} {c : Fin n} (hc : s c = false) (b : Fin n) :
    count P (Function.update s c true) b = count P s b + owed (P.interferes c) b := by
  rw [count_update, ← hc, Function.update_eq_self]

theorem count_update_false {s : Fin n → Bool} {c : Fin n} (hc : s c = true) (b : Fin n) :
    count P s b = count P (Function.update s c false) b + owed (P.interferes c) b := by
  rw [← count_update, ← hc, Function.update_eq_self]

theorem count_pos {s : Fin n → Bool} {b c : Fin n} (hc : s c = true) (hb : b ∈ P.interferes c) :
    1 ≤ count P s b := by
  have h := count_update_false (P := P) hc b
  rw [owed_of_mem hb] at h
  have := count_nonneg (P := P) (Function.update s c false) b
  omega

/-- Two different nblocks with the property count twice where both interfere. -/
theorem two_le_count {s : Fin n → Bool} {b c d : Fin n} (hcd : c ≠ d) (hc : s c = true) (hd : s d = true)
    (hbc : b ∈ P.interferes c) (hbd : b ∈ P.interferes d) : 2 ≤ count P s b := by
  have h := count_update_false (P := P) hd b
  rw [owed_of_mem hbd] at h
  have hc' : Function.update s d false c = true := by rwa [Function.update_of_ne hcd]
  have := count_pos hc' hbc
  omega

theorem count_none {s : Fin n → Bool} (h : ∀ c, s c = false) (b : Fin n) : count P s b = 0 := by
  simp [count, h]

/-- Replacing one value changes the number of zeros by that value. -/
theorem zeros_update (f : Fin n → ℤ) (m : Fin n) (k : ℤ) :
    zeros (Function.update f m k) + (if f m = 0 then 1 else 0) = zeros f + if k = 0 then 1 else 0 := by
  have key : ∀ f : Fin n → ℤ, zeros f
      = ((Finset.univ.filter fun b => b ≠ m ∧ f b = 0).card : ℕ) + if f m = 0 then 1 else 0 := by
    intro f
    rw [zeros]
    by_cases hm : f m = 0
    · have hins : (Finset.univ.filter fun b => f b = 0)
          = insert m (Finset.univ.filter fun b => b ≠ m ∧ f b = 0) := by
        ext x
        by_cases hx : x = m
        · simp [hx, hm]
        · simp [hx]
      rw [hins, Finset.card_insert_of_notMem (by simp), if_pos hm]
      push_cast
      rfl
    · rw [if_neg hm, Int.add_zero]
      congr 3
      ext x
      by_cases hx : x = m
      · simp [hx, hm]
      · simp [hx]
  have hrest : (Finset.univ.filter fun b => b ≠ m ∧ Function.update f m k b = 0)
      = Finset.univ.filter fun b => b ≠ m ∧ f b = 0 := by
    ext x
    by_cases hx : x = m
    · simp [hx]
    · simp [hx]
  rw [key f, key (Function.update f m k), hrest, Function.update_self]
  omega

/-- There are as many zeros as nblocks exactly when every value is zero. -/
theorem zeros_eq_iff (f : Fin n → ℤ) : zeros f = n ↔ ∀ b, f b = 0 := by
  rw [zeros]
  constructor
  · intro h b
    have hcard : (Finset.univ.filter fun b => f b = 0).card = (Finset.univ : Finset (Fin n)).card := by
      rw [Finset.card_univ, Fintype.card_fin]
      exact_mod_cast h
    have huniv := Finset.eq_of_subset_of_card_le (Finset.filter_subset _ _) hcard.ge
    have hb : b ∈ Finset.univ.filter fun b => f b = 0 := by
      rw [huniv]
      exact Finset.mem_univ b
    exact (Finset.mem_filter.mp hb).2
  · intro h
    rw [Finset.filter_true_of_mem (fun b _ => h b), Finset.card_univ, Fintype.card_fin]

end Counting

namespace NBlockGraph

variable {V : Type} {n : ℕ} {P : Projection V n} {view : View n}

/-! ## The counters and the list -/

/-- The counters of the nblocks, off by `e` and `eh`, and the free list, which has `S`. -/
structure Core (P : Projection V n) (view : View n) (e eh : Fin n → ℤ) (S : Set (Fin n))
    (g : NBlockGraph n) : Prop where
  list : Holds view.pred g.free_list S
  listed : ∀ b ∈ S, g.is_free view b = true
  sigma_eq : ∀ b, g.sigma b = count P g.inuse b + e b
  sigma_nonneg : ∀ b, 0 ≤ g.sigma b
  sigma_hot_eq : ∀ b, g.sigma_hot b = count P g.hot b + eh b
  inuse : ∀ b, g.inuse b = true → g.sigma b = 0

/-- With what a loop over neighbours leaves alone until its end: a hot nblock has a neighbour in use, a
free one that is not listed was pruned, and the nblocks whose `sigma` is zero are counted. -/
structure Inv (P : Projection V n) (view : View n) (limit : ℕ) (e eh : Fin n → ℤ) (S : Set (Fin n))
    (g : NBlockGraph n) : Prop extends Core P view e eh S g where
  hot : ∀ b, g.hot b = true → 0 < g.sigma b
  free : ∀ b, g.is_free view b = true → b ∈ S ∨ limit ≤ view.best_value b
  num : g.num_sigma_zero = zeros g.sigma

section Basics

variable {e eh : Fin n → ℤ} {S : Set (Fin n)} {g : NBlockGraph n} {b m : Fin n} {limit : ℕ}

/-- What `is_free` asks for. -/
theorem is_free_iff : g.is_free view b = true ↔
    g.inuse b = false ∧ g.sigma b = 0 ∧ g.sigma_hot b = 0 ∧ view.empty b = false := by
  simp [is_free, and_assoc]

/-- Whether an nblock is free only depends on its own fields. -/
theorem is_free_congr {g g' : NBlockGraph n} (hu : g'.inuse b = g.inuse b) (hs : g'.sigma b = g.sigma b)
    (hh : g'.sigma_hot b = g.sigma_hot b) : g'.is_free view b = g.is_free view b := by
  rw [is_free, is_free, hu, hs, hh]

/-- An nblock that another one in use interferes with is not on the free list. -/
theorem Core.notMem_of_sigma (h : Core P view e eh S g) (hb : g.sigma b ≠ 0) : b ∉ S :=
  fun hmem => hb (is_free_iff.mp (h.listed b hmem)).2.1

/-- Neither is one that a hot nblock interferes with. -/
theorem Core.notMem_of_sigma_hot (h : Core P view e eh S g) (hb : g.sigma_hot b ≠ 0) : b ∉ S :=
  fun hmem => hb (is_free_iff.mp (h.listed b hmem)).2.2.1

/-- A free nblock that is not in the list is put there. -/
theorem Core.add (h : Core P view e eh S g) (hb : b ∉ S) (hfree : g.is_free view b = true) :
    Core P view e eh (insert b S) (g.list view b) where
  list := h.list.add view.isOrder hb
  listed k hk := by
    rcases Set.mem_insert_iff.mp hk with rfl | hk
    · exact hfree
    · exact h.listed k hk
  sigma_eq := h.sigma_eq
  sigma_nonneg := h.sigma_nonneg
  sigma_hot_eq := h.sigma_hot_eq
  inuse := h.inuse

/-- The two tests of `unlist` say whether the nblock is in the list. -/
theorem Core.unlist (h : Core P view e eh S g) (m : Fin n) :
    ∃ l, g.unlist view m = some { g with free_list := l } ∧ Holds view.pred l (S \ {m}) := by
  rw [NBlockGraph.unlist]
  by_cases hm : m ∈ S
  · obtain ⟨l, hl, hholds⟩ := h.list.remove view.isOrder hm
    rw [if_pos ⟨h.listed m hm, h.list.index_ne.mpr hm⟩, hl]
    exact ⟨l, rfl, hholds⟩
  · refine ⟨g.free_list, if_neg (fun hcond => hm (h.list.index_ne.mp hcond.2)), ?_⟩
    rw [Set.sdiff_singleton_eq_self hm]
    exact h.list

/-- The free list may shrink. -/
theorem Core.with_list (h : Core P view e eh S g) {l : PriorityQueue (Fin n)} {S' : Set (Fin n)}
    (hl : Holds view.pred l S') (hS : S' ⊆ S) : Core P view e eh S' { g with free_list := l } where
  list := hl
  listed b hb := h.listed b (hS hb)
  sigma_eq := h.sigma_eq
  sigma_nonneg := h.sigma_nonneg
  sigma_hot_eq := h.sigma_hot_eq
  inuse := h.inuse

end Basics

/-! ## Cooling down -/

/-- What `set_cold(b)` and its loop do: nblocks that become free are listed, and nothing else is. -/
structure Cooled (P : Projection V n) (view : View n) (b : Fin n) (S : Set (Fin n)) (g : NBlockGraph n)
    (S' : Set (Fin n)) (g' : NBlockGraph n) : Prop where
  sigma : g'.sigma = g.sigma
  inuse : g'.inuse = g.inuse
  num : g'.num_sigma_zero = g.num_sigma_zero
  done : g'.done = g.done
  sub : S ⊆ S'
  listed : ∀ k ∈ S', k ∈ S ∨ k ∈ P.interferes b
  freed : ∀ k, g'.is_free view k = true → g.is_free view k = true ∨ k ∈ S'

section Cooling

variable {e eh : Fin n → ℤ} {S : Set (Fin n)} {g : NBlockGraph n} {b m : Fin n}

/-- One turn of the loop of `set_cold`: `m` has one hot neighbour less. -/
theorem cool_spec (h : Core P view e eh S g) (hm : 1 ≤ g.sigma_hot m) (hmb : m ∈ P.interferes b)
    (bc : Bool) : ∃ S', Core P view e (fun k => eh k - owed [m] k) S' (cool view (g, bc) m).1
      ∧ Cooled P view b S g S' (cool view (g, bc) m).1
      ∧ (cool view (g, bc) m).1.hot = g.hot
      ∧ ∀ k, k ≠ m → (cool view (g, bc) m).1.sigma_hot k = g.sigma_hot k := by
  have hmS : m ∉ S := h.notMem_of_sigma_hot (by omega)
  -- the counter alone
  let g' : NBlockGraph n := { g with sigma_hot := Function.update g.sigma_hot m (g.sigma_hot m - 1) }
  have hself : g'.sigma_hot m = g.sigma_hot m - 1 := Function.update_self ..
  have hother : ∀ k, k ≠ m → g'.sigma_hot k = g.sigma_hot k := fun k hk => Function.update_of_ne hk ..
  have hfree : ∀ k, k ≠ m → g'.is_free view k = g.is_free view k :=
    fun k hk => is_free_congr rfl rfl (hother k hk)
  have hcore : Core P view e (fun k => eh k - owed [m] k) S g' := by
    refine { h with listed := ?_, sigma_hot_eq := ?_ }
    · intro k hk
      rw [hfree k (fun hkm => hmS (hkm ▸ hk))]
      exact h.listed k hk
    · intro k
      show g'.sigma_hot k = count P g.hot k + (eh k - owed [m] k)
      have hk := h.sigma_hot_eq k
      by_cases hkm : k = m
      · subst hkm
        rw [hself, owed_cons_self]
        omega
      · rw [hother k hkm, owed_cons_of_ne _ hkm, owed_nil]
        omega
  by_cases hcond : g'.is_free view m = true
  · have heq : cool view (g, bc) m = (g'.list view m, true) := if_pos hcond
    rw [heq]
    refine ⟨insert m S, hcore.add hmS hcond, ?_, rfl, hother⟩
    refine { sigma := rfl, inuse := rfl, num := rfl, done := rfl, sub := ?_, listed := ?_, freed := ?_ }
    · exact Set.subset_insert m S
    · intro k hk
      rcases Set.mem_insert_iff.mp hk with rfl | hk
      · exact Or.inr hmb
      · exact Or.inl hk
    · intro k hk
      by_cases hkm : k = m
      · exact Or.inr (hkm ▸ Set.mem_insert m S)
      · exact Or.inl ((hfree k hkm).symm.trans hk)
  · have heq : cool view (g, bc) m = (g', bc) := if_neg hcond
    rw [heq]
    refine ⟨S, hcore, ?_, rfl, hother⟩
    refine { sigma := rfl, inuse := rfl, num := rfl, done := rfl, sub := Set.Subset.rfl, listed := ?_, freed := ?_ }
    · exact fun k hk => Or.inl hk
    · intro k hk
      by_cases hkm : k = m
      · exact absurd (hkm ▸ hk) hcond
      · exact Or.inl ((hfree k hkm).symm.trans hk)

theorem Cooled.refl (g : NBlockGraph n) : Cooled P view b S g S g :=
  { sigma := rfl, inuse := rfl, num := rfl, done := rfl, sub := Set.Subset.rfl,
    listed := fun _ hk => Or.inl hk, freed := fun _ hk => Or.inl hk }

theorem Cooled.trans {S' S'' : Set (Fin n)} {g' g'' : NBlockGraph n} (h : Cooled P view b S g S' g')
    (h' : Cooled P view b S' g' S'' g'') : Cooled P view b S g S'' g'' where
  sigma := h'.sigma.trans h.sigma
  inuse := h'.inuse.trans h.inuse
  num := h'.num.trans h.num
  done := h'.done.trans h.done
  sub := h.sub.trans h'.sub
  listed k hk := by
    rcases h'.listed k hk with hk' | hk'
    · exact h.listed k hk'
    · exact Or.inr hk'
  freed k hk := by
    rcases h'.freed k hk with hk' | hk'
    · rcases h.freed k hk' with hk'' | hk''
      · exact Or.inl hk''
      · exact Or.inr (h'.sub hk'')
    · exact Or.inr hk'

/-- The loop of `set_cold`. -/
theorem cool_loop (l : List (Fin n)) (hl : l.Nodup) (hsub : ∀ m ∈ l, m ∈ P.interferes b) (bc : Bool)
    (h : Core P view e (fun k => eh k + owed l k) S g) (hpos : ∀ m ∈ l, 1 ≤ g.sigma_hot m) :
    ∃ S', Core P view e eh S' (l.foldl (cool view) (g, bc)).1
      ∧ Cooled P view b S g S' (l.foldl (cool view) (g, bc)).1
      ∧ (l.foldl (cool view) (g, bc)).1.hot = g.hot := by
  induction l generalizing S g bc with
  | nil =>
    refine ⟨S, ?_, Cooled.refl g, rfl⟩
    simpa [owed_nil] using h
  | cons m l ih =>
    obtain ⟨hml, hnodup⟩ := List.nodup_cons.mp hl
    obtain ⟨S₁, hcore, hcooled, hhot, hother⟩ :=
      cool_spec h (hpos m List.mem_cons_self) (hsub m List.mem_cons_self) bc
    have heh : (fun k => eh k + owed (m :: l) k - owed [m] k) = fun k => eh k + owed l k := by
      funext k
      by_cases hk : k = m
      · subst hk
        rw [owed_cons_self, owed_cons_self, owed_of_notMem hml]
        omega
      · rw [owed_cons_of_ne _ hk, owed_cons_of_ne _ hk, owed_nil]
        omega
    rw [heh] at hcore
    have hpos' : ∀ k ∈ l, 1 ≤ (cool view (g, bc) m).1.sigma_hot k := by
      intro k hk
      rw [hother k (fun hkm => hml (hkm ▸ hk))]
      exact hpos k (List.mem_cons_of_mem m hk)
    obtain ⟨S₂, hcore₂, hcooled₂, hhot₂⟩ := ih hnodup (fun k hk => hsub k (List.mem_cons_of_mem m hk))
      (cool view (g, bc) m).2 hcore hpos'
    exact ⟨S₂, hcore₂, hcooled.trans hcooled₂, hhot₂.trans hhot⟩

/-- **`set_cold`**: the counters are as exact as before, without the hot `b`. -/
theorem set_cold_spec (h : Core P view e eh S g) (hb : g.hot b = true)
    (hpos : ∀ m ∈ P.interferes b, 1 ≤ g.sigma_hot m) :
    ∃ S', Core P view e eh S' (g.set_cold P view b).1 ∧ Cooled P view b S g S' (g.set_cold P view b).1
      ∧ (g.set_cold P view b).1.hot = Function.update g.hot b false := by
  have hcore : Core P view e (fun k => eh k + owed (P.interferes b) k) S
      { g with hot := Function.update g.hot b false } := by
    refine { h with sigma_hot_eq := ?_ }
    intro k
    show g.sigma_hot k = count P (Function.update g.hot b false) k + (eh k + owed (P.interferes b) k)
    have hk := h.sigma_hot_eq k
    rw [count_update_false hb k] at hk
    omega
  obtain ⟨S', hcore', hcooled, hhot⟩ := cool_loop (b := b) (P.interferes b) (P.interferes_nodup b)
    (fun m hm => hm) false hcore hpos
  exact ⟨S', hcore', { hcooled with }, hhot⟩

/-- The same for an nblock that may not be hot. -/
theorem cool_if_hot_spec (h : Core P view e eh S g) (hpos : g.hot m = true → ∀ k ∈ P.interferes m,
    1 ≤ g.sigma_hot k) (bc : Bool) : ∃ S', Core P view e eh S' (cool_if_hot P view (g, bc) m).1
      ∧ Cooled P view m S g S' (cool_if_hot P view (g, bc) m).1
      ∧ (cool_if_hot P view (g, bc) m).1.hot = Function.update g.hot m false := by
  by_cases hm : g.hot m = true
  · have heq : (cool_if_hot P view (g, bc) m).1 = (g.set_cold P view m).1 := by
      rw [cool_if_hot, if_pos hm]
    rw [heq]
    exact set_cold_spec h hm (hpos hm)
  · have heq : (cool_if_hot P view (g, bc) m).1 = g := by rw [cool_if_hot, if_neg hm]
    rw [heq]
    refine ⟨S, h, Cooled.refl g, ?_⟩
    have hm' : g.hot m = false := by simpa using hm
    rw [← hm', Function.update_eq_self]

end Cooling

/-! ## The neighbours of an nblock that is taken or released -/

section Scopes

variable {e eh : Fin n → ℤ} {S : Set (Fin n)} {g : NBlockGraph n} {b m : Fin n} {limit : ℕ}

/-- What is free after cooling is listed, or not worth listing, if that was so before. -/
theorem Cooled.is_free {S' : Set (Fin n)} {g' : NBlockGraph n} (h : Cooled P view b S g S' g')
    (hfree : ∀ k, g.is_free view k = true → k ∈ S ∨ limit ≤ view.best_value k) (k : Fin n)
    (hk : g'.is_free view k = true) : k ∈ S' ∨ limit ≤ view.best_value k := by
  rcases h.freed k hk with hk' | hk'
  · rcases hfree k hk' with hS | hlimit
    · exact Or.inl (h.sub hS)
    · exact Or.inr hlimit
  · exact Or.inl hk'

/-- Without differences, the neighbours of a hot nblock know that it is hot. -/
theorem Core.hot_neighbours (h : Core P view e (fun _ => 0) S g) (hm : g.hot m = true) :
    ∀ k ∈ P.interferes m, 1 ≤ g.sigma_hot k := by
  intro k hk
  have heq := h.sigma_hot_eq k
  have hpos := count_pos hm hk
  omega

/-- What `update_scope_sigmas` does with an nblock whose last neighbour in use is gone: it cools down, is
listed if it is free, and is counted. -/
theorem reach_zero_spec (h : Core P view e (fun _ => 0) S g) (hzero : g.sigma m = 0) (hm : m ∉ S)
    (bc : Bool) : ∃ S' r, reach_zero P view (g, bc) m = r ∧ Core P view e (fun _ => 0) S' r.1
      ∧ S ⊆ S' ∧ (∀ k, r.1.is_free view k = true → k ∈ S' ∨ k ≠ m ∧ g.is_free view k = true)
      ∧ r.1.hot = Function.update g.hot m false ∧ r.1.sigma = g.sigma ∧ r.1.inuse = g.inuse
      ∧ r.1.num_sigma_zero = g.num_sigma_zero + 1 ∧ r.1.done = g.done := by
  obtain ⟨S₁, hcore, hcooled, hhot⟩ := cool_if_hot_spec h h.hot_neighbours bc
  have hmS : m ∉ S₁ := by
    intro hmem
    rcases hcooled.listed m hmem with h' | h'
    · exact hm h'
    · exact P.self_notMem_interferes m h'
  have hnum : ∀ {S' : Set (Fin n)} {g' : NBlockGraph n}, Core P view e (fun _ => 0) S' g' →
      Core P view e (fun _ => 0) S' { g' with num_sigma_zero := g'.num_sigma_zero + 1 } :=
    fun h' => ⟨h'.list, h'.listed, h'.sigma_eq, h'.sigma_nonneg, h'.sigma_hot_eq, h'.inuse⟩
  have hreach := show reach_zero P view (g, bc) m = _ from if_pos hzero
  by_cases hcond : (cool_if_hot P view (g, bc) m).1.is_free view m = true
  · simp only [if_pos hcond] at hreach
    refine ⟨insert m S₁, _, hreach, hnum (hcore.add hmS hcond), ?_, ?_, hhot, hcooled.sigma, hcooled.inuse,
      congrArg (· + 1) hcooled.num, hcooled.done⟩
    · exact hcooled.sub.trans (Set.subset_insert m S₁)
    · intro k hk
      by_cases hkm : k = m
      · exact Or.inl (hkm ▸ Set.mem_insert m S₁)
      · rcases hcooled.freed k hk with h' | h'
        · exact Or.inr ⟨hkm, h'⟩
        · exact Or.inl (Set.mem_insert_of_mem m h')
  · simp only [if_neg hcond] at hreach
    refine ⟨S₁, _, hreach, hnum hcore, hcooled.sub, ?_, hhot, hcooled.sigma, hcooled.inuse,
      congrArg (· + 1) hcooled.num, hcooled.done⟩
    intro k hk
    by_cases hkm : k = m
    · exact absurd (hkm ▸ hk) hcond
    · rcases hcooled.freed k hk with h' | h'
      · exact Or.inr ⟨hkm, h'⟩
      · exact Or.inl h'

/-- `g` with another value of `m->sigma`. -/
def with_sigma (g : NBlockGraph n) (m : Fin n) (k : ℤ) : NBlockGraph n :=
  { g with sigma := Function.update g.sigma m k }

theorem with_sigma_self (g : NBlockGraph n) (m : Fin n) (k : ℤ) : (g.with_sigma m k).sigma m = k :=
  Function.update_self ..

theorem with_sigma_of_ne (g : NBlockGraph n) {m j : Fin n} (k : ℤ) (h : j ≠ m) :
    (g.with_sigma m k).sigma j = g.sigma j := Function.update_of_ne h ..

theorem with_sigma_is_free (g : NBlockGraph n) {m j : Fin n} (k : ℤ) (h : j ≠ m) :
    (g.with_sigma m k).is_free view j = g.is_free view j :=
  is_free_congr rfl (g.with_sigma_of_ne k h) rfl

/-- The counter of `m`, alone, comes to what it should be. -/
theorem Core.with_sigma {e' : Fin n → ℤ} (h : Core P view e eh S g) {k : ℤ} (hm : m ∉ S) (hk : 0 ≤ k)
    (he : ∀ j, j ≠ m → e' j = e j) (hem : k = count P g.inuse m + e' m) (hu : g.inuse m = false) :
    Core P view e' eh S (g.with_sigma m k) := by
  refine { h with listed := ?_, sigma_eq := ?_, sigma_nonneg := ?_, inuse := ?_ }
  · intro j hj
    rw [with_sigma_is_free g k (fun hjm : j = m => hm (hjm ▸ hj))]
    exact h.listed j hj
  · intro j
    by_cases hjm : j = m
    · subst hjm
      rw [with_sigma_self]
      exact hem
    · rw [with_sigma_of_ne g k hjm, he j hjm]
      exact h.sigma_eq j
  · intro j
    by_cases hjm : j = m
    · subst hjm
      rwa [with_sigma_self]
    · rw [with_sigma_of_ne g k hjm]
      exact h.sigma_nonneg j
  · intro j hj
    have hjm : j ≠ m := by
      rintro rfl
      exact absurd (hj.symm.trans hu) Bool.noConfusion
    rw [with_sigma_of_ne g k hjm]
    exact h.inuse j hj

/-- One turn for `delta = -1`: `m` has one neighbour in use less. -/
theorem update_sigma_neg (l : List (Fin n)) (hml : m ∉ l) (bc : Bool)
    (h : Inv P view limit (owed (m :: l)) (fun _ => 0) S g) :
    ∃ S' r, update_sigma P view (-1) (g, bc) m = some r ∧ Inv P view limit (owed l) (fun _ => 0) S' r.1
      ∧ r.1.inuse = g.inuse ∧ r.1.done = g.done := by
  have heq := h.sigma_eq m
  rw [owed_cons_self] at heq
  have hcount := count_nonneg (P := P) g.inuse m
  have hne : ¬ g.sigma m = 0 := by omega
  have hmS : m ∉ S := h.notMem_of_sigma hne
  have hu : g.inuse m = false := by
    by_contra hu
    exact hne (h.inuse m (by simpa using hu))
  have hturn : update_sigma P view (-1) (g, bc) m
      = some (reach_zero P view (g.with_sigma m (g.sigma m + -1), bc) m) := by
    simp only [update_sigma, leave_zero, if_neg hne]
    rfl
  have hcore : Core P view (owed l) (fun _ => 0) S (g.with_sigma m (g.sigma m + -1)) := by
    apply h.toCore.with_sigma hmS (by omega)
    · exact fun j hj => (owed_cons_of_ne l hj).symm
    · rw [owed_of_notMem hml]
      omega
    · exact hu
  have hzeros := zeros_update g.sigma m (g.sigma m + -1)
  rw [if_neg hne] at hzeros
  have hnum := h.num
  have hself := g.with_sigma_self m (g.sigma m + -1)
  rw [hturn]
  by_cases hzero : g.sigma m + -1 = 0
  · rw [if_pos hzero] at hzeros
    obtain ⟨S', r, hr, hcore', hsub, hfree, hhot, hsigma, hinuse, hnum', hdone⟩ :=
      reach_zero_spec hcore (hself.trans hzero) hmS bc
    refine ⟨S', r, congrArg some hr, { hcore' with hot := ?_, free := ?_, num := ?_ }, hinuse, hdone⟩
    · intro k hk
      rw [hhot] at hk
      have hkm : k ≠ m := by
        rintro rfl
        rw [Function.update_self] at hk
        exact absurd hk Bool.false_ne_true
      rw [Function.update_of_ne hkm] at hk
      rw [hsigma, with_sigma_of_ne g _ hkm]
      exact h.hot k hk
    · intro k hk
      rcases hfree k hk with h' | ⟨hkm, h'⟩
      · exact Or.inl h'
      · rw [with_sigma_is_free g _ hkm] at h'
        exact (h.free k h').imp_left (fun hmem => hsub hmem)
    · rw [hnum', hsigma]
      show g.num_sigma_zero + 1 = zeros (Function.update g.sigma m (g.sigma m + -1))
      omega
  · rw [if_neg hzero] at hzeros
    have hreach : reach_zero P view (g.with_sigma m (g.sigma m + -1), bc) m
        = (g.with_sigma m (g.sigma m + -1), bc) := if_neg (fun h' => hzero (hself.symm.trans h'))
    refine ⟨S, _, congrArg some hreach, { hcore with hot := ?_, free := ?_, num := ?_ }, rfl, rfl⟩
    · intro k hk
      show 0 < (g.with_sigma m (g.sigma m + -1)).sigma k
      by_cases hkm : k = m
      · subst hkm
        rw [hself]
        omega
      · rw [with_sigma_of_ne g _ hkm]
        exact h.hot k hk
    · intro k hk
      by_cases hkm : k = m
      · subst hkm
        exact absurd (hself.symm.trans (is_free_iff.mp hk).2.1) hzero
      · rw [with_sigma_is_free g _ hkm] at hk
        exact h.free k hk
    · show g.num_sigma_zero = zeros (Function.update g.sigma m (g.sigma m + -1))
      omega

/-- One turn for `delta = 1`: `m` has one neighbour in use more, the nblock `b`.  It is not in use
itself, since the scopes of nblocks in use do not meet. -/
theorem update_sigma_pos (hP : P.Mutual) (l : List (Fin n)) (hml : m ∉ l) (hmb : m ∈ P.interferes b)
    (hbl : b ∉ m :: l) (hb : g.inuse b = true) (bc : Bool)
    (h : Inv P view limit (fun k => - owed (m :: l) k) (fun _ => 0) S g) :
    ∃ r, update_sigma P view 1 (g, bc) m = some r
      ∧ Inv P view limit (fun k => - owed l k) (fun _ => 0) (S \ {m}) r.1
      ∧ r.1.inuse = g.inuse ∧ r.1.done = g.done := by
  have heq := h.sigma_eq m
  rw [owed_cons_self] at heq
  have hnonneg := h.sigma_nonneg m
  have hu : g.inuse m = false := by
    by_contra hu
    -- otherwise `b` would have a neighbour in use
    have hpos := count_pos (P := P) (show g.inuse m = true by simpa using hu) (P.interferes_symm hP hmb)
    have hsb := h.sigma_eq b
    rw [owed_of_notMem hbl, h.inuse b hb] at hsb
    omega
  have hself := g.with_sigma_self m (g.sigma m + 1)
  obtain ⟨fl, hfl, hholds⟩ := h.toCore.unlist m
  have hzeros := zeros_update g.sigma m (g.sigma m + 1)
  rw [if_neg (show ¬ g.sigma m + 1 = 0 by omega)] at hzeros
  have hnum := h.num
  -- whatever `m->sigma` was, `m` is out of the list afterwards
  obtain ⟨fl', num', hleave, hholds', hnum'⟩ : ∃ fl' num', leave_zero view 1 g m
      = some { g with free_list := fl', num_sigma_zero := num' } ∧ Holds view.pred fl' (S \ {m})
        ∧ num' = zeros (g.with_sigma m (g.sigma m + 1)).sigma := by
    by_cases hzero : g.sigma m = 0
    · refine ⟨fl, g.num_sigma_zero - 1, ?_, hholds, ?_⟩
      · rw [leave_zero, if_pos hzero, if_neg (by decide), hfl]
        rfl
      · rw [if_pos hzero] at hzeros
        show g.num_sigma_zero - 1 = zeros (Function.update g.sigma m (g.sigma m + 1))
        omega
    · refine ⟨g.free_list, g.num_sigma_zero, if_neg hzero, ?_, ?_⟩
      · rw [Set.sdiff_singleton_eq_self (h.notMem_of_sigma hzero)]
        exact h.list
      · rw [if_neg hzero] at hzeros
        show g.num_sigma_zero = zeros (Function.update g.sigma m (g.sigma m + 1))
        omega
  let g' : NBlockGraph n := { g with free_list := fl', num_sigma_zero := num' }
  have hcore' : Core P view (fun k => - owed (m :: l) k) (fun _ => 0) (S \ {m}) g' :=
    ⟨hholds', fun k hk => h.listed k hk.1, h.sigma_eq, h.sigma_nonneg, h.sigma_hot_eq, h.inuse⟩
  have hcore : Core P view (fun k => - owed l k) (fun _ => 0) (S \ {m}) (g'.with_sigma m (g.sigma m + 1)) := by
    apply hcore'.with_sigma (fun hmem => hmem.2 rfl) (by omega)
    · intro j hj
      rw [owed_cons_of_ne l hj]
    · rw [owed_of_notMem hml]
      show g.sigma m + 1 = count P g.inuse m + -0
      omega
    · exact hu
  have hturn : update_sigma P view 1 (g, bc) m = some (g'.with_sigma m (g.sigma m + 1), bc) := by
    rw [update_sigma, hleave]
    refine congrArg some (if_neg ?_)
    show ¬ (g'.with_sigma m (g.sigma m + 1)).sigma m = 0
    rw [with_sigma_self]
    omega
  refine ⟨_, hturn, { hcore with hot := ?_, free := ?_, num := hnum' }, rfl, rfl⟩
  · intro k hk
    show 0 < (g'.with_sigma m (g.sigma m + 1)).sigma k
    by_cases hkm : k = m
    · subst hkm
      rw [with_sigma_self]
      omega
    · rw [with_sigma_of_ne g' _ hkm]
      exact h.hot k hk
  · intro k hk
    have hkm : k ≠ m := by
      rintro rfl
      have := (is_free_iff.mp hk).2.1
      rw [with_sigma_self] at this
      omega
    rw [with_sigma_is_free g' _ hkm] at hk
    exact (h.free k hk).imp_left (fun hmem => ⟨hmem, hkm⟩)

end Scopes

end NBlockGraph

end PwsaStar.Pbnf
