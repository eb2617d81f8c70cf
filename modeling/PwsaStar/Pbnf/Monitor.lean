/-
# PwsaStar.Pbnf.Monitor — what the functions of the nblock graph do.

One specification for each function that a thread calls: it fails no assertion, it keeps the counters and
the list as `Inv` says, and it takes or releases at most the nblock it should.
-/
import PwsaStar.Pbnf.Sigma

namespace PwsaStar.Pbnf

open PriorityQueue

namespace NBlockGraph

variable {V : Type} {n : ℕ} {P : Projection V n} {view : View n}

/-- `Inv` between two calls, with no differences. -/
def Exact (P : Projection V n) (view : View n) (limit : ℕ) (S : Set (Fin n)) (g : NBlockGraph n) : Prop :=
  Inv P view limit (fun _ => 0) (fun _ => 0) S g

section Loops

variable {S : Set (Fin n)} {g : NBlockGraph n} {b m : Fin n} {limit : ℕ}

/-- The nblocks that were pruned are beyond every later limit. -/
theorem Exact.mono {limit' : ℕ} (h : Exact P view limit S g) (hle : limit' ≤ limit) :
    Exact P view limit' S g :=
  { h with free := fun b hb => (h.free b hb).imp_right (fun h' => hle.trans h') }

/-- The loop of `update_scope_sigmas(n, -1)`. -/
theorem update_loop_neg (l : List (Fin n)) (hl : l.Nodup) (bc : Bool)
    (h : Inv P view limit (owed l) (fun _ => 0) S g) :
    ∃ S' r, l.foldlM (update_sigma P view (-1)) (g, bc) = some r ∧ Exact P view limit S' r.1
      ∧ r.1.inuse = g.inuse ∧ r.1.done = g.done := by
  induction l generalizing S g bc with
  | nil =>
    have h0 : owed ([] : List (Fin n)) = fun _ => 0 := funext owed_nil
    rw [h0] at h
    exact ⟨S, (g, bc), rfl, h, rfl, rfl⟩
  | cons m l ih =>
    obtain ⟨hml, hnodup⟩ := List.nodup_cons.mp hl
    obtain ⟨S₁, r₁, hr₁, hinv₁, hu₁, hd₁⟩ := update_sigma_neg l hml bc h
    obtain ⟨S₂, r₂, hr₂, hinv₂, hu₂, hd₂⟩ := ih hnodup r₁.2 hinv₁
    refine ⟨S₂, r₂, ?_, hinv₂, hu₂.trans hu₁, hd₂.trans hd₁⟩
    rw [List.foldlM_cons, hr₁]
    exact hr₂

/-- The loop of `update_scope_sigmas(n, 1)`, for the nblock `b`. -/
theorem update_loop_pos (hP : P.Mutual) (l : List (Fin n)) (hl : l.Nodup)
    (hsub : ∀ m ∈ l, m ∈ P.interferes b) (hb : g.inuse b = true) (bc : Bool)
    (h : Inv P view limit (fun k => - owed l k) (fun _ => 0) S g) :
    ∃ S' r, l.foldlM (update_sigma P view 1) (g, bc) = some r ∧ Exact P view limit S' r.1
      ∧ r.1.inuse = g.inuse ∧ r.1.done = g.done := by
  induction l generalizing S g bc with
  | nil =>
    have h0 : (fun k => - owed ([] : List (Fin n)) k) = fun _ => 0 := by
      funext k
      rw [owed_nil, Int.neg_zero]
    rw [h0] at h
    exact ⟨S, (g, bc), rfl, h, rfl, rfl⟩
  | cons m l ih =>
    obtain ⟨hml, hnodup⟩ := List.nodup_cons.mp hl
    have hbl : b ∉ m :: l := fun hmem => P.self_notMem_interferes b (hsub b hmem)
    obtain ⟨r₁, hr₁, hinv₁, hu₁, hd₁⟩ :=
      update_sigma_pos hP l hml (hsub m List.mem_cons_self) hbl hb bc h
    obtain ⟨S₂, r₂, hr₂, hinv₂, hu₂, hd₂⟩ := ih hnodup (fun k hk => hsub k (List.mem_cons_of_mem m hk))
      ((congrFun hu₁ b).trans hb) r₁.2 hinv₁
    refine ⟨S₂, r₂, ?_, hinv₂, hu₂.trans hu₁, hd₂.trans hd₁⟩
    rw [List.foldlM_cons, hr₁]
    exact hr₂

/-- One turn of the loop of `set_hot(b)`: `m` is out of the list, cold, and has one hot neighbour more. -/
theorem heat_spec (l : List (Fin n)) (hml : m ∉ l) (hsub : ∀ k ∈ m :: l, k ∈ P.interferes b)
    (hb : g.hot b = true) (bc : Bool)
    (h : Inv P view limit (fun _ => 0) (fun k => - owed (m :: l) k) S g) :
    ∃ S' r, heat P view (g, bc) m = some r
      ∧ Inv P view limit (fun _ => 0) (fun k => - owed l k) S' r.1
      ∧ r.1.inuse = g.inuse ∧ r.1.done = g.done ∧ r.1.hot b = true := by
  have hmb := hsub m List.mem_cons_self
  have hbm : b ≠ m := by
    rintro rfl
    exact P.self_notMem_interferes b hmb
  obtain ⟨fl, hfl, hholds⟩ := h.toCore.unlist m
  have hcore := h.toCore.with_list hholds Set.sdiff_subset
  -- a neighbour of `m` that is still to come has two hot neighbours, `b` and `m`
  have hpos : g.hot m = true → ∀ k ∈ P.interferes m, 1 ≤ g.sigma_hot k := by
    intro hm k hk
    have heq := h.sigma_hot_eq k
    by_cases hkl : k ∈ m :: l
    · rw [owed_of_mem hkl] at heq
      have := two_le_count hbm hb hm (hsub k hkl) hk
      omega
    · rw [owed_of_notMem hkl] at heq
      have := count_pos hm hk
      omega
  obtain ⟨S', hcore', hcooled, hhot⟩ := cool_if_hot_spec hcore hpos bc
  have hmS' : m ∉ S' := by
    intro hmem
    rcases hcooled.listed m hmem with h' | h'
    · exact h'.2 rfl
    · exact P.self_notMem_interferes m h'
  let g' := (cool_if_hot P view ({ g with free_list := fl }, bc) m).1
  let g'' : NBlockGraph n := { g' with sigma_hot := Function.update g'.sigma_hot m (g'.sigma_hot m + 1) }
  have hself : g''.sigma_hot m = g'.sigma_hot m + 1 := Function.update_self ..
  have hother : ∀ k, k ≠ m → g''.sigma_hot k = g'.sigma_hot k := fun k hk => Function.update_of_ne hk ..
  have hfree : ∀ k, k ≠ m → g''.is_free view k = g'.is_free view k :=
    fun k hk => is_free_congr rfl rfl (hother k hk)
  have hturn : heat P view (g, bc) m
      = some (g'', (cool_if_hot P view ({ g with free_list := fl }, bc) m).2) := by
    simp only [heat, hfl]
    rfl
  have hb' : g'.hot b = true := by
    show (cool_if_hot P view ({ g with free_list := fl }, bc) m).1.hot b = true
    rw [hhot, Function.update_of_ne hbm]
    exact hb
  have hcount := hcore'.sigma_hot_eq m
  rw [owed_cons_self] at hcount
  refine ⟨S', _, hturn, ?_, hcooled.inuse, hcooled.done, hb'⟩
  refine { hcore' with listed := ?_, sigma_hot_eq := ?_, hot := ?_, free := ?_, num := ?_ }
  · intro k hk
    rw [hfree k (fun hkm : k = m => hmS' (hkm ▸ hk))]
    exact hcore'.listed k hk
  · intro k
    show g''.sigma_hot k = count P g'.hot k + - owed l k
    by_cases hkm : k = m
    · subst hkm
      rw [hself, owed_of_notMem hml]
      show g'.sigma_hot k + 1 = count P g'.hot k + -0
      have : g'.sigma_hot k = count P g'.hot k + -1 := hcount
      omega
    · have := hcore'.sigma_hot_eq k
      rw [owed_cons_of_ne l hkm] at this
      rw [hother k hkm]
      exact this
  · intro k hk
    replace hk : (cool_if_hot P view ({ g with free_list := fl }, bc) m).1.hot k = true := hk
    show 0 < (cool_if_hot P view ({ g with free_list := fl }, bc) m).1.sigma k
    rw [hcooled.sigma]
    apply h.hot k
    rw [hhot] at hk
    by_cases hkm : k = m
    · rw [hkm, Function.update_self] at hk
      exact absurd hk Bool.false_ne_true
    · rwa [Function.update_of_ne hkm] at hk
  · intro k hk
    have hkm : k ≠ m := by
      rintro rfl
      have hz : g''.sigma_hot k = 0 := (is_free_iff.mp hk).2.2.1
      have hpos' := count_pos hb' hmb
      have : g'.sigma_hot k = count P g'.hot k + -1 := hcount
      omega
    rw [hfree k hkm] at hk
    rcases hcooled.freed k hk with h' | h'
    · exact (h.free k h').imp_left (fun hmem => hcooled.sub ⟨hmem, hkm⟩)
    · exact Or.inl h'
  · exact hcooled.num.trans (h.num.trans (congrArg zeros hcooled.sigma.symm))

/-- The second loop of `set_hot(b)`. -/
theorem heat_loop (l : List (Fin n)) (hl : l.Nodup) (hsub : ∀ k ∈ l, k ∈ P.interferes b)
    (hb : g.hot b = true) (bc : Bool)
    (h : Inv P view limit (fun _ => 0) (fun k => - owed l k) S g) :
    ∃ S' r, l.foldlM (heat P view) (g, bc) = some r ∧ Exact P view limit S' r.1
      ∧ r.1.inuse = g.inuse ∧ r.1.done = g.done := by
  induction l generalizing S g bc with
  | nil =>
    have h0 : (fun k => - owed ([] : List (Fin n)) k) = fun _ => 0 := by
      funext k
      rw [owed_nil, Int.neg_zero]
    rw [h0] at h
    exact ⟨S, (g, bc), rfl, h, rfl, rfl⟩
  | cons m l ih =>
    obtain ⟨hml, hnodup⟩ := List.nodup_cons.mp hl
    obtain ⟨S₁, r₁, hr₁, hinv₁, hu₁, hd₁, hb₁⟩ := heat_spec l hml hsub hb bc h
    obtain ⟨S₂, r₂, hr₂, hinv₂, hu₂, hd₂⟩ :=
      ih hnodup (fun k hk => hsub k (List.mem_cons_of_mem m hk)) hb₁ r₁.2 hinv₁
    refine ⟨S₂, r₂, ?_, hinv₂, hu₂.trans hu₁, hd₂.trans hd₁⟩
    rw [List.foldlM_cons, hr₁]
    exact hr₂

/-- The loop of `wont_release`. -/
theorem cool_if_hot_loop (l : List (Fin n)) (bc : Bool) (h : Exact P view limit S g) :
    ∃ S', Exact P view limit S' (l.foldl (cool_if_hot P view) (g, bc)).1
      ∧ (l.foldl (cool_if_hot P view) (g, bc)).1.inuse = g.inuse
      ∧ (l.foldl (cool_if_hot P view) (g, bc)).1.done = g.done := by
  induction l generalizing S g bc with
  | nil => exact ⟨S, h, rfl, rfl⟩
  | cons m l ih =>
    obtain ⟨S₁, hcore, hcooled, hhot⟩ := cool_if_hot_spec h.toCore h.toCore.hot_neighbours bc
    have hexact : Exact P view limit S₁ (cool_if_hot P view (g, bc) m).1 := by
      refine { hcore with hot := ?_, free := hcooled.is_free h.free, num := ?_ }
      · intro k hk
        rw [hcooled.sigma]
        apply h.hot k
        rw [hhot] at hk
        by_cases hkm : k = m
        · rw [hkm, Function.update_self] at hk
          exact absurd hk Bool.false_ne_true
        · rwa [Function.update_of_ne hkm] at hk
      · rw [hcooled.num, hcooled.sigma]
        exact h.num
    obtain ⟨S₂, hexact₂, hu₂, hd₂⟩ := ih (cool_if_hot P view (g, bc) m).2 hexact
    exact ⟨S₂, hexact₂, hu₂.trans hcooled.inuse, hd₂.trans hcooled.done⟩

end Loops

section Operations

variable {S : Set (Fin n)} {g : NBlockGraph n} {b : Fin n} {limit : ℕ}

/-- What `next_nblock` leaves: `before` is which nblocks were in use. -/
structure Chosen (P : Projection V n) (view : View n) (limit : ℕ) (before : Fin n → Bool) (wasDone : Bool)
    (S : Set (Fin n)) (g : NBlockGraph n) (r : Result n) : Prop where
  exact : Exact P view limit S g
  null : r = .null → g.inuse = before ∧ g.done = true
    ∧ (wasDone = false → S = ∅ ∧ ∀ b, g.sigma b = 0)
  wait : r = .wait → g.inuse = before ∧ g.done = false ∧ S = ∅
  block : ∀ b, r = .block b → before b = false ∧ g.inuse = Function.update before b true ∧ g.done = false

/-- `done` is none of the counters. -/
theorem Exact.with_done (h : Exact P view limit S g) (d : Bool) :
    Exact P view limit S { g with done := d } :=
  ⟨⟨h.list, h.listed, h.sigma_eq, h.sigma_nonneg, h.sigma_hot_eq, h.inuse⟩, h.hot, h.free, h.num⟩

theorem set_hot_spec (h : Exact P view limit S g) (val : ℕ) (rival : Fin n → ℕ) (b : Fin n) :
    ∃ S' r, g.set_hot P view val rival b = some r ∧ Exact P view limit S' r.1
      ∧ r.1.inuse = g.inuse ∧ r.1.done = g.done := by
  rw [set_hot]
  split_ifs with hcond hrival
  · exact ⟨S, (g, false), rfl, h, rfl, rfl⟩
  · have hcold : g.hot b = false := by simpa using hcond.1
    have hinv : Inv P view limit (fun _ => 0) (fun k => - owed (P.interferes b) k) S
        { g with hot := Function.update g.hot b true } := by
      refine { h with sigma_hot_eq := ?_, hot := ?_ }
      · intro k
        show g.sigma_hot k = count P (Function.update g.hot b true) k + - owed (P.interferes b) k
        have := h.sigma_hot_eq k
        rw [count_update_true hcold]
        omega
      · intro k hk
        by_cases hkb : k = b
        · subst hkb
          exact hcond.2
        · exact h.hot k ((Function.update_of_ne hkb ..).symm.trans hk)
    exact heat_loop (b := b) (P.interferes b) (P.interferes_nodup b) (fun k hk => hk)
      (Function.update_self ..) false hinv
  · exact ⟨S, (g, false), rfl, h, rfl, rfl⟩

theorem wont_release_spec (h : Exact P view limit S g) (b : Fin n) :
    ∃ S', Exact P view limit S' (g.wont_release P view b).1 ∧ (g.wont_release P view b).1.inuse = g.inuse
      ∧ (g.wont_release P view b).1.done = g.done :=
  cool_if_hot_loop (P.interferes b) false h

theorem release_spec (h : Exact P view limit S g) (hb : g.inuse b = true) :
    ∃ S' r, g.release P view b = some r ∧ Exact P view limit S' r.1
      ∧ r.1.inuse = Function.update g.inuse b false ∧ r.1.done = g.done := by
  have hzero := h.inuse b hb
  let g₁ : NBlockGraph n := { g with inuse := Function.update g.inuse b false }
  have hfree : ∀ k, k ≠ b → g₁.is_free view k = g.is_free view k :=
    fun k hk => is_free_congr (Function.update_of_ne hk ..) rfl rfl
  have hbS : b ∉ S := by
    intro hmem
    have := (is_free_iff.mp (h.listed b hmem)).1
    exact absurd (hb.symm.trans this) Bool.noConfusion
  have hcore : Core P view (owed (P.interferes b)) (fun _ => 0) S g₁ := by
    refine { h with listed := ?_, sigma_eq := ?_, inuse := ?_ }
    · intro k hk
      rw [hfree k (fun hkb : k = b => hbS (hkb ▸ hk))]
      exact h.listed k hk
    · intro k
      show g.sigma k = count P (Function.update g.inuse b false) k + owed (P.interferes b) k
      rw [← count_update_false hb k]
      simpa using h.sigma_eq k
    · intro k hk
      have hkb : k ≠ b := by
        rintro rfl
        exact absurd ((Function.update_self ..).symm.trans hk) Bool.false_ne_true
      exact h.inuse k ((Function.update_of_ne hkb ..).symm.trans hk)
  -- `b` itself is listed if it has become free
  have hlist : ∃ S₂ g₂, (if g₁.is_free view b then g₁.list view b else g₁) = g₂
      ∧ Inv P view limit (owed (P.interferes b)) (fun _ => 0) S₂ g₂ ∧ g₂.inuse = g₁.inuse
      ∧ g₂.sigma = g₁.sigma ∧ g₂.done = g₁.done := by
    by_cases hcond : g₁.is_free view b = true
    · refine ⟨insert b S, _, if_pos hcond, { hcore.add hbS hcond with hot := h.hot, free := ?_, num := h.num },
        rfl, rfl, rfl⟩
      intro k hk
      by_cases hkb : k = b
      · exact Or.inl (hkb ▸ Set.mem_insert b S)
      · rw [show (g₁.list view b).is_free view k = g₁.is_free view k from rfl, hfree k hkb] at hk
        exact (h.free k hk).imp_left (fun hmem => Set.mem_insert_of_mem b hmem)
    · refine ⟨S, _, if_neg hcond, { hcore with hot := h.hot, free := ?_, num := h.num }, rfl, rfl, rfl⟩
      intro k hk
      by_cases hkb : k = b
      · exact absurd (hkb ▸ hk) hcond
      · rw [hfree k hkb] at hk
        exact h.free k hk
  obtain ⟨S₂, g₂, hg₂, hinv, hu₂, hs₂, hd₂⟩ := hlist
  obtain ⟨S', r, hr, hexact, hu, hd⟩ := update_loop_neg (P.interferes b) (P.interferes_nodup b) false hinv
  refine ⟨S', (r.1, ⟨g₁.is_free view b, r.2⟩), ?_, hexact, hu.trans hu₂, hd.trans hd₂⟩
  rw [release, if_neg (not_not.mpr hzero)]
  show ((if g₁.is_free view b then g₁.list view b else g₁).update_scope_sigmas P view b (-1)).map _ = _
  have hsigma : g₂.sigma b = 0 := (congrFun hs₂ b).trans hzero
  rw [hg₂, update_scope_sigmas, if_neg (not_not.mpr hsigma), hr]
  rfl

/-- Taking the front of the free list. -/
theorem take_spec (hP : P.Mutual) (h : Exact P view limit S g) {l : PriorityQueue (Fin n)}
    (ht : g.free_list.take view.pred = some (b, l)) :
    g.inuse b = false ∧ ∃ S' r, update_scope_sigmas P view
        { g with free_list := l, inuse := Function.update g.inuse b true } b 1 = some r
      ∧ Exact P view limit S' r.1 ∧ r.1.inuse = Function.update g.inuse b true ∧ r.1.done = g.done := by
  obtain ⟨hmem, -, hholds⟩ := h.list.take view.isOrder ht
  obtain ⟨hu, hzero, hhot, hopen⟩ := is_free_iff.mp (h.listed b hmem)
  let g₁ : NBlockGraph n := { g with free_list := l, inuse := Function.update g.inuse b true }
  have hfree : ∀ k, k ≠ b → g₁.is_free view k = g.is_free view k :=
    fun k hk => is_free_congr (Function.update_of_ne hk ..) rfl rfl
  have hinv : Inv P view limit (fun k => - owed (P.interferes b) k) (fun _ => 0) (S \ {b}) g₁ := by
    refine { h with list := hholds, listed := ?_, sigma_eq := ?_, inuse := ?_, free := ?_ }
    · intro k hk
      rw [hfree k hk.2]
      exact h.listed k hk.1
    · intro k
      show g.sigma k = count P (Function.update g.inuse b true) k + - owed (P.interferes b) k
      have := h.sigma_eq k
      rw [count_update_true hu]
      omega
    · intro k hk
      by_cases hkb : k = b
      · subst hkb
        exact hzero
      · exact h.inuse k ((Function.update_of_ne hkb ..).symm.trans hk)
    · intro k hk
      have hkb : k ≠ b := by
        rintro rfl
        exact absurd ((Function.update_self ..).symm.trans (is_free_iff.mp hk).1) Bool.noConfusion
      rw [hfree k hkb] at hk
      exact (h.free k hk).imp_left (fun hk' => ⟨hk', hkb⟩)
  obtain ⟨S', r, hr, hexact, hu', hd⟩ := update_loop_pos hP (P.interferes b) (P.interferes_nodup b)
    (fun m hm => hm) (Function.update_self ..) false hinv
  refine ⟨hu, S', r, ?_, hexact, hu', hd⟩
  rw [update_scope_sigmas, if_neg (not_not.mpr hzero)]
  exact hr

variable [NeZero n]

/-- Pruning the list when even its best nblock is beyond the limit. -/
theorem prune_spec (h : Exact P view limit S g) (hf : g.free_list.front = some b)
    (hle : limit ≤ view.best_value b) : Exact P view limit ∅ g.prune_free_list := by
  refine { h with list := h.list.reset, listed := fun k hk => absurd hk (Set.notMem_empty k), free := ?_ }
  intro k hk
  rcases h.free k hk with hmem | hk'
  · exact Or.inr (hle.trans (view.best_le ((h.list.front_some view.isOrder hf).2 k hmem)))
  · exact Or.inr hk'

theorem choose_spec (hP : P.Mutual) (check : Bool) (h : Exact P view limit S g) :
    ∃ g' r bc S', choose P view limit check g = some (g', r, bc)
      ∧ Chosen P view limit g.inuse g.done S' g' r
      ∧ (r = .wait → check = true → ∃ b, g.inuse b = true)
      ∧ (g.done = true → S' = S ∧ r = .null) := by
  induction hfill : g.free_list.fill using Nat.strongRecOn generalizing check g S with
  | ind k ih =>
    subst hfill
    rw [choose]
    split_ifs with hall hdone
    · obtain ⟨-, hnum, hempty⟩ := hall
      have hz : ∀ b, g.sigma b = 0 := (zeros_eq_iff g.sigma).mp (h.num.symm.trans hnum)
      have hS : S = ∅ := h.list.empty_iff.mp hempty
      refine ⟨_, _, _, S, rfl, ⟨h.with_done true, fun _ => ⟨rfl, rfl, fun _ => ⟨hS, hz⟩⟩, ?_, ?_⟩, ?_, ?_⟩
      · simp
      · simp
      · simp
      · exact fun _ => ⟨rfl, rfl⟩
    · refine ⟨_, _, _, S, rfl, ⟨h, fun _ => ⟨rfl, hdone, fun h' => ?_⟩, ?_, ?_⟩, ?_, ?_⟩
      · exact absurd (hdone.symm.trans h') Bool.noConfusion
      · simp
      · simp
      · simp
      · exact fun _ => ⟨rfl, rfl⟩
    · have hnotdone : ∀ {p : Prop}, g.done = true → p := fun h' => absurd h' hdone
      have hdone' : g.done = false := by simpa using hdone
      split
      · next hfront =>
        have hS := h.list.front_none.mp hfront
        refine ⟨_, _, _, S, rfl, ⟨h, ?_, fun _ => ⟨rfl, hdone', hS⟩, ?_⟩, ?_, hnotdone⟩
        · simp
        · simp
        · intro _ hcheck
          -- the list is empty, so some `sigma` is not zero
          by_contra hnone
          push Not at hnone
          refine hall ⟨hcheck, h.num.trans ((zeros_eq_iff g.sigma).mpr ?_), h.list.empty_iff.mpr hS⟩
          intro b
          rw [h.sigma_eq b, count_none (fun c => by simpa using hnone c)]
          rfl
      · next b hfront =>
        split_ifs with hle
        · have hpos : g.free_list.fill ≠ 0 := by
            intro h0
            rw [PriorityQueue.front, if_pos h0] at hfront
            exact Option.some_ne_none b hfront.symm
          obtain ⟨g', r, bc, S', hr, hchosen, hwait, -⟩ :=
            ih 0 (Nat.pos_of_ne_zero hpos) true (prune_spec h hfront hle) rfl
          exact ⟨g', r, bc, S', hr, hchosen, fun hr' _ => hwait hr' rfl, hnotdone⟩
        · cases ht : g.free_list.take view.pred with
          | none =>
            have hS := h.list.take_none.mp ht
            rw [h.list.front_none.mpr hS] at hfront
            exact absurd hfront.symm (Option.some_ne_none b)
          | some p =>
            obtain ⟨c, l⟩ := p
            obtain ⟨hu, S', r, hr, hexact, hu', hd⟩ := take_spec hP h ht
            refine ⟨r.1, .block c, r.2, S', ?_, ⟨hexact, ?_, ?_, ?_⟩, ?_, hnotdone⟩
            · exact congrArg (Option.map fun r => (r.1, Result.block c, r.2)) hr
            · simp
            · simp
            · intro b' hb'
              obtain rfl := Result.block.inj hb'
              exact ⟨hu, hu', hd.trans hdone'⟩
            · simp

/-- **`next_nblock`**: it succeeds, whatever it finds; the nblock it returns was free; and a thread only
goes to sleep while some nblock is in use. -/
theorem next_nblock_spec (hP : P.Mutual) (h : Exact P view limit S g) (finished : Option (Fin n))
    (hf : ∀ b ∈ finished, g.inuse b = true) :
    ∃ g' r c S', g.next_nblock P view limit finished = some (g', r, c)
      ∧ Chosen P view limit (finished.elim g.inuse fun b => Function.update g.inuse b false) g.done S' g' r
      ∧ (r = .wait → ∃ b, g'.inuse b = true)
      ∧ (g.done = true → r = .null ∧ (finished = none → S' = S)) := by
  have key : ∀ {S₁ : Set (Fin n)} {g₁ : NBlockGraph n}, Exact P view limit S₁ g₁ →
      ∃ g' r bc S', choose P view limit true g₁ = some (g', r, bc)
        ∧ Chosen P view limit g₁.inuse g₁.done S' g' r ∧ (r = .wait → ∃ b, g'.inuse b = true)
        ∧ (g₁.done = true → S' = S₁ ∧ r = .null) := by
    intro S₁ g₁ h₁
    obtain ⟨g', r, bc, S', hr, hchosen, hwait, hdone⟩ := choose_spec hP true h₁
    refine ⟨g', r, bc, S', hr, hchosen, ?_, hdone⟩
    intro hr'
    rw [(hchosen.wait hr').1]
    exact hwait hr' rfl
  cases finished with
  | none =>
    obtain ⟨g', r, bc, S', hr, hchosen, hwait, hdone⟩ := key h
    refine ⟨g', r, ⟨false, bc⟩, S', ?_, hchosen, hwait, fun hd => ⟨(hdone hd).2, fun _ => (hdone hd).1⟩⟩
    rw [next_nblock, hr]
    rfl
  | some b =>
    obtain ⟨S₁, r₁, hr₁, hexact, hu, hd⟩ := release_spec h (hf b rfl)
    obtain ⟨g', r, bc, S', hr, hchosen, hwait, hdone⟩ := key hexact
    rw [hu, hd] at hchosen
    refine ⟨g', r, ⟨r₁.2.signal, r₁.2.broadcast || bc⟩, S', ?_, hchosen, hwait, ?_⟩
    · rw [next_nblock, hr₁, Option.bind_some, hr]
      rfl
    · exact fun hd' => ⟨(hdone (hd.trans hd')).2, nofun⟩

theorem initial_spec (view : View n) (limit : ℕ) (init_nblock : Fin n)
    (hview : ∀ b, view.empty b = false ↔ b = init_nblock) :
    Exact P view limit {init_nblock} (initial view init_nblock) := by
  have hfree : ∀ b, (initial view init_nblock).is_free view b = true ↔ b = init_nblock := by
    intro b
    rw [is_free_iff, hview]
    simp [initial]
  have hcount : ∀ b, count P (fun _ => false) b = 0 := count_none (fun _ => rfl)
  have hlist : Holds view.pred (initial view init_nblock).free_list {init_nblock} := by
    rw [← insert_empty_eq]
    exact holds_new.add view.isOrder (Set.notMem_empty _)
  refine ⟨⟨hlist, ?_, ?_, fun _ => le_refl _, ?_, ?_⟩, ?_, ?_, ?_⟩
  · exact fun b hb => (hfree b).mpr hb
  · exact fun b => (congrArg (· + 0) (hcount b)).symm
  · exact fun b => (congrArg (· + 0) (hcount b)).symm
  · exact fun b hb => absurd hb Bool.false_ne_true
  · exact fun b hb => absurd hb Bool.false_ne_true
  · exact fun b hb => Or.inl ((hfree b).mp hb)
  · exact ((zeros_eq_iff _).mpr (fun _ => rfl)).symm

end Operations

end NBlockGraph

end PwsaStar.Pbnf
