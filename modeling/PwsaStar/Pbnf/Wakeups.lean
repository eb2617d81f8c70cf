/-
# PwsaStar.Pbnf.Wakeups — no wakeup is lost.

A thread may add the nblock that it releases to the free list, but then it takes one of the list itself;
whatever else it adds it announces with a broadcast, and so it does when it sets `done`.  So the condition
under which a thread sleeps in `cond_wait`, `!done && free_list.empty()`, holds as long as it sleeps.  Nothing
of the projection is needed for this.
-/
import PwsaStar.Pbnf.Turn

namespace PwsaStar.Pbnf

open PwsaStar.Lib

variable {V : Type} {n : ℕ} {P : Projection V n} {view : View n}

namespace NBlockGraph

/-! ## The functions of the monitor -/

/-- From `r` to `r'`, where the flags are `broadcast`: the list has only grown if there will be a broadcast. -/
structure Announced (r r' : NBlockGraph n × Bool) : Prop where
  done : r'.1.done = r.1.done
  flag : r.2 = true → r'.2 = true
  fill : r'.2 = false → r'.1.free_list.fill ≤ r.1.free_list.fill

variable {g g' : NBlockGraph n} {r r' : NBlockGraph n × Bool} {b m : Fin n}

/-- Without a change there is nothing to announce. -/
theorem Announced.refl (r : NBlockGraph n × Bool) : Announced r r := ⟨rfl, id, fun _ => Nat.le_refl _⟩

/-- One change after the other. -/
theorem Announced.trans {r'' : NBlockGraph n × Bool} (h : Announced r r') (h' : Announced r' r'') :
    Announced r r'' where
  done := h'.done.trans h.done
  flag := h'.flag ∘ h.flag
  fill hf := by
    have hf' : r'.2 = false := Bool.eq_false_of_not_eq_true fun ht => Bool.false_ne_true (hf.symm.trans (h'.flag ht))
    exact (h'.fill hf).trans (h.fill hf')

/-- A broadcast will be heard, whatever the list is. -/
theorem Announced.of_flag (hdone : r'.1.done = r.1.done) (hflag : r'.2 = true) : Announced r r' :=
  ⟨hdone, fun _ => hflag, fun hf => absurd (hf.symm.trans hflag) Bool.false_ne_true⟩

theorem Announced.foldl {f : NBlockGraph n × Bool → Fin n → NBlockGraph n × Bool}
    (hf : ∀ r m, Announced r (f r m)) (l : List (Fin n)) (r : NBlockGraph n × Bool) :
    Announced r (l.foldl f r) := by
  induction l generalizing r with
  | nil => exact .refl r
  | cons m l ih => exact (hf r m).trans (ih (f r m))

theorem Announced.foldlM {f : NBlockGraph n × Bool → Fin n → Option (NBlockGraph n × Bool)}
    (hf : ∀ r m r', f r m = some r' → Announced r r') {l : List (Fin n)} (h : l.foldlM f r = some r') :
    Announced r r' := by
  induction l generalizing r with
  | nil =>
    obtain rfl := Option.some.inj h
    exact .refl r
  | cons m l ih =>
    rw [List.foldlM_cons] at h
    obtain ⟨r₁, hr₁, hrest⟩ := Option.bind_eq_some_iff.mp h
    exact (hf r m r₁ hr₁).trans (ih hrest)

/-- `cool` broadcasts what it frees. -/
theorem cool_announced (r : NBlockGraph n × Bool) (m : Fin n) : Announced r (cool view r m) := by
  rw [cool]
  dsimp only
  split_ifs
  · exact .of_flag rfl rfl
  · exact ⟨rfl, id, fun _ => Nat.le_refl _⟩

/-- `set_cold` goes through the nblocks in reach with `cool`. -/
theorem set_cold_announced (g : NBlockGraph n) (b : Fin n) : Announced (g, false) (g.set_cold P view b) := by
  have hcold : Announced (g, false) ({ g with hot := Function.update g.hot b false }, false) :=
    ⟨rfl, id, fun _ => Nat.le_refl _⟩
  exact hcold.trans (.foldl cool_announced (P.interferes b) _)

theorem cool_if_hot_announced (r : NBlockGraph n × Bool) (m : Fin n) :
    Announced r (cool_if_hot P view r m) := by
  rw [cool_if_hot]
  split_ifs
  · have h : Announced (r.1, false) (r.1.set_cold P view m) := set_cold_announced r.1 m
    refine ⟨h.done, fun hr => by rw [hr, Bool.true_or], fun hf => ?_⟩
    exact h.fill (Bool.or_eq_false_iff.mp hf).2
  · exact .refl r

/-- Unlisting sets no flag and adds nothing. -/
theorem unlist_fill (h : g.unlist view m = some g') :
    g'.done = g.done ∧ g'.free_list.fill ≤ g.free_list.fill := by
  rw [unlist] at h
  split_ifs at h
  · obtain ⟨l, hl, rfl⟩ := Option.map_eq_some_iff.mp h
    have hfill := PriorityQueue.remove_fill hl
    exact ⟨rfl, by show l.fill ≤ g.free_list.fill; omega⟩
  · obtain rfl := Option.some.inj h
    exact ⟨rfl, Nat.le_refl _⟩

theorem leave_zero_fill {delta : ℤ} (h : leave_zero view delta g m = some g') :
    g'.done = g.done ∧ g'.free_list.fill ≤ g.free_list.fill := by
  rw [leave_zero] at h
  split_ifs at h
  · obtain ⟨g₁, hg₁, rfl⟩ := Option.map_eq_some_iff.mp h
    obtain ⟨hdone, hfill⟩ := unlist_fill hg₁
    exact ⟨hdone, hfill⟩
  · obtain rfl := Option.some.inj h
    exact ⟨rfl, Nat.le_refl _⟩

/-- A `sigma` that reaches 0 is announced if its nblock is listed for it. -/
theorem reach_zero_announced (r : NBlockGraph n × Bool) (m : Fin n) : Announced r (reach_zero P view r m) := by
  rw [reach_zero]
  split_ifs
  · have hcool : Announced r (cool_if_hot P view r m) := cool_if_hot_announced r m
    refine hcool.trans ?_
    dsimp only
    split_ifs
    · exact .of_flag rfl rfl
    · exact ⟨rfl, id, fun _ => Nat.le_refl _⟩
  · exact .refl r

theorem update_sigma_announced {delta : ℤ} (r : NBlockGraph n × Bool) (m : Fin n) (r' : NBlockGraph n × Bool)
    (h : update_sigma P view delta r m = some r') : Announced r r' := by
  obtain ⟨g₁, hg₁, rfl⟩ := Option.map_eq_some_iff.mp h
  obtain ⟨hdone, hfill⟩ := leave_zero_fill hg₁
  have hleave : Announced r ({ g₁ with sigma := Function.update g₁.sigma m (g₁.sigma m + delta) }, r.2) :=
    ⟨hdone, id, fun _ => hfill⟩
  exact hleave.trans (reach_zero_announced _ m)

/-- `update_scope_sigmas` announces whatever it puts on the free list. -/
theorem update_scope_sigmas_announced {delta : ℤ} (h : g.update_scope_sigmas P view b delta = some r') :
    Announced (g, false) r' := by
  rw [update_scope_sigmas] at h
  split_ifs at h
  exact .foldlM update_sigma_announced h

theorem heat_announced (r : NBlockGraph n × Bool) (m : Fin n) (r' : NBlockGraph n × Bool)
    (h : heat P view r m = some r') : Announced r r' := by
  obtain ⟨g₁, hg₁, rfl⟩ := Option.map_eq_some_iff.mp h
  obtain ⟨hdone, hfill⟩ := unlist_fill hg₁
  have hunlist : Announced r (g₁, r.2) := ⟨hdone, id, fun _ => hfill⟩
  have hcool : Announced (g₁, r.2) (cool_if_hot P view (g₁, r.2) m) := cool_if_hot_announced _ m
  exact hunlist.trans ⟨hcool.done, hcool.flag, hcool.fill⟩

/-- `set_hot` unlists the nblocks in reach and announces what it cools. -/
theorem set_hot_announced {val : ℕ} {rival : Fin n → ℕ} (h : g.set_hot P view val rival b = some r') :
    Announced (g, false) r' := by
  rw [set_hot] at h
  split_ifs at h
  · obtain rfl := Option.some.inj h
    exact .refl _
  · have hhot : Announced (g, false) ({ g with hot := Function.update g.hot b true }, false) :=
      ⟨rfl, id, fun _ => Nat.le_refl _⟩
    exact hhot.trans (.foldlM heat_announced h)
  · obtain rfl := Option.some.inj h
    exact .refl _

theorem wont_release_announced (g : NBlockGraph n) (b : Fin n) :
    Announced (g, false) (g.wont_release P view b) := .foldl cool_if_hot_announced (P.interferes b) (g, false)

/-- Without a broadcast, only the released nblock is new in the list. -/
theorem release_fill {c : Notice} (h : g.release P view b = some (g', c)) :
    g'.done = g.done ∧ (c.broadcast = false → g'.free_list.fill ≤ g.free_list.fill + 1) := by
  rw [release] at h
  split_ifs at h
  obtain ⟨r, hr, heq⟩ := Option.map_eq_some_iff.mp h
  obtain ⟨rfl, rfl⟩ := Prod.mk.inj heq
  have hsigmas := update_scope_sigmas_announced hr
  split_ifs at hsigmas
  · refine ⟨hsigmas.done, fun hf => (hsigmas.fill hf).trans (Nat.le_of_eq ?_)⟩
    exact PriorityQueue.add_fill _
  · exact ⟨hsigmas.done, fun hf => (hsigmas.fill hf).trans (Nat.le_succ _)⟩

/-- What a thread that comes out of `choose` leaves behind: `before` is how many nblocks were listed.  It sets
`done` with a broadcast, it sleeps when the list is empty, or it takes one of the nblocks with it. -/
structure Leaves (wasDone : Bool) (before : ℕ) (g : NBlockGraph n) (r : Result n) (broadcast : Bool) : Prop where
  null : r = .null → wasDone = false → broadcast = true
  wait : r = .wait → g.done = false ∧ g.free_list.fill = 0
  block : ∀ b, r = .block b → g.done = false ∧ (broadcast = false → g.free_list.fill + 1 ≤ before)

/-- A longer list before leaves more room. -/
theorem Leaves.mono {wasDone : Bool} {k : ℕ} {r : Result n} {bc : Bool} (h : Leaves wasDone k g r bc) :
    Leaves wasDone (k + 1) g r bc where
  null := h.null
  wait := h.wait
  block b hb := ⟨(h.block b hb).1, fun hf => ((h.block b hb).2 hf).trans (Nat.le_succ k)⟩

/-- `choose` ends the search with a broadcast, sleeps on an empty list, or takes an nblock. -/
theorem choose_leaves [NeZero n] {limit : ℕ} {check : Bool} {r : Result n} {bc : Bool}
    (h : choose P view limit check g = some (g', r, bc)) : Leaves g.done g.free_list.fill g' r bc := by
  fun_induction choose P view limit check g with
  | case1 check g hall =>
    simp only [Option.some.injEq, Prod.mk.injEq] at h
    obtain ⟨rfl, rfl, rfl⟩ := h
    exact ⟨fun _ _ => rfl, nofun, nofun⟩
  | case2 check g hall hdone =>
    simp only [Option.some.injEq, Prod.mk.injEq] at h
    obtain ⟨rfl, rfl, rfl⟩ := h
    exact ⟨fun _ hd => absurd (hd.symm.trans hdone) Bool.false_ne_true, nofun, nofun⟩
  | case3 check g hall hdone hfront =>
    simp only [Option.some.injEq, Prod.mk.injEq] at h
    obtain ⟨rfl, rfl, rfl⟩ := h
    exact ⟨nofun, fun _ => ⟨by simpa using hdone, PriorityQueue.front_eq_none.mp hfront⟩, nofun⟩
  | case4 check g hall hdone b hfront hle ih =>
    have hrest := ih h
    refine ⟨hrest.null, hrest.wait, fun c hc => ⟨(hrest.block c hc).1, fun hf => ?_⟩⟩
    exact ((hrest.block c hc).2 hf).trans (Nat.zero_le _)
  | case5 check g hall hdone b hfront hlt htake => exact nomatch h
  | case6 check g hall hdone b hfront hlt c l htake =>
    obtain ⟨r₁, hr₁, heq⟩ := Option.map_eq_some_iff.mp h
    simp only [Prod.mk.injEq] at heq
    obtain ⟨rfl, rfl, rfl⟩ := heq
    have hsigmas := update_scope_sigmas_announced hr₁
    refine ⟨nofun, nofun, fun _ _ => ⟨?_, fun hf => ?_⟩⟩
    · exact hsigmas.done.trans (by simpa using hdone)
    · rw [← PriorityQueue.take_fill htake]
      exact Nat.succ_le_succ (hsigmas.fill hf)

/-- The same for `next_nblock`, which may have put one nblock into the list. -/
theorem next_nblock_leaves [NeZero n] {limit : ℕ} {f : Option (Fin n)} {r : Result n} {c : Notice}
    (h : g.next_nblock P view limit f = some (g', r, c)) :
    Leaves g.done (g.free_list.fill + 1) g' r c.broadcast := by
  cases f with
  | none =>
    obtain ⟨⟨g₁, r₁, bc⟩, hr, heq⟩ := Option.map_eq_some_iff.mp h
    simp only [Prod.mk.injEq] at heq
    obtain ⟨rfl, rfl, rfl⟩ := heq
    exact (choose_leaves hr).mono
  | some b =>
    obtain ⟨⟨g₁, c₁⟩, hrelease, hrest⟩ := Option.bind_eq_some_iff.mp h
    obtain ⟨⟨g₂, r₁, bc⟩, hr, heq⟩ := Option.map_eq_some_iff.mp hrest
    simp only [Prod.mk.injEq] at heq
    obtain ⟨rfl, rfl, rfl⟩ := heq
    obtain ⟨hdone, hfill⟩ := release_fill hrelease
    have hchoose := choose_leaves hr
    rw [hdone] at hchoose
    refine ⟨fun hnull hd => ?_, hchoose.wait, fun a ha => ⟨(hchoose.block a ha).1, fun hf => ?_⟩⟩
    · exact Bool.or_eq_true_iff.mpr (Or.inr (hchoose.null hnull hd))
    · obtain ⟨hf₁, hf₂⟩ := Bool.or_eq_false_iff.mp hf
      exact ((hchoose.block a ha).2 hf₂).trans (hfill hf₁)

end NBlockGraph

/-! ## The system -/

section Runs

open NBlockGraph

variable {ι : Type} {D : SearchDomain V} {detect_livelocks : Bool} {sh sh' : Shared V n} {ph ph' : Phase V n}
  {c : Notice} {s s' : State ι V n} {t : ι}

/-- Whoever sleeps has a reason to. -/
def Alert (s : State ι V n) : Prop :=
  ∀ t, s.threads t = .asleep → s.shared.graph.done = false ∧ s.shared.graph.free_list.fill = 0

/-- `should_switch` calls nothing, `wont_release` or `set_hot`. -/
theorem should_switch_announced {b : Fin n} {l : Look n} {r : NBlockGraph n × Bool} {ret : Bool}
    (h : should_switch P detect_livelocks sh b l = some (r, ret)) : Announced (sh.graph, false) r := by
  have hsame : ∀ {x : Bool}, some ((sh.graph, false), x) = some (r, ret) → Announced (sh.graph, false) r := by
    intro x heq
    obtain ⟨rfl, -⟩ := Prod.mk.inj (Option.some.inj heq)
    exact .refl _
  have hwont : some (sh.graph.wont_release P sh.view b, false) = some (r, ret) →
      Announced (sh.graph, false) r := by
    intro heq
    obtain ⟨rfl, -⟩ := Prod.mk.inj (Option.some.inj heq)
    exact wont_release_announced sh.graph b
  have hset : ∀ {k : Fin n}, (sh.graph.set_hot P sh.view l.val l.rival k).map (fun g => (g, true))
      = some (r, ret) → Announced (sh.graph, false) r := by
    intro k heq
    obtain ⟨r', hr', heq'⟩ := Option.map_eq_some_iff.mp heq
    obtain ⟨rfl, -⟩ := Prod.mk.inj heq'
    exact set_hot_announced hr'
  simp only [should_switch] at h
  cases hbest : best_in_scope P l.seen b with
  | none =>
    rw [hbest] at h
    dsimp only at h
    split_ifs at h <;> exact hsame h
  | some k =>
    rw [hbest] at h
    dsimp only at h
    split_ifs at h <;> first | exact hsame h | exact hset h | exact hwont h

variable [DecidableEq V] [NeZero n]

/-- A thread goes to sleep under the condition of its loop. -/
theorem Turn.asleep (h : Turn D P detect_livelocks sh ph sh' .asleep c) :
    sh'.graph.done = false ∧ sh'.graph.free_list.fill = 0 := by
  -- `next_nblock` and `choose` are the only ways to `cond_wait`
  have key : ∀ {d : Bool} {k : ℕ} {g : NBlockGraph n} {r : Result n} {bc : Bool},
      (after r : Phase V n) = .asleep → Leaves d k g r bc → g.done = false ∧ g.free_list.fill = 0 := by
    intro d k g r bc hr hleaves
    cases r with
    | wait => exact hleaves.wait rfl
    | null => exact nomatch hr
    | block b => exact nomatch hr
  generalize hph : (Phase.asleep : Phase V n) = ph' at h
  cases h with
  | own hown => cases hown <;> exact nomatch hph
  | locked hlocked =>
    cases hlocked with
    | lock hr => exact key hph.symm (next_nblock_leaves hr)
    | again hr => exact key hph.symm (choose_leaves hr)
    | @look b l g bc ret hempty hr => cases ret <;> exact nomatch hph
    | leave => exact nomatch hph
  | take ho hnode htaken hp => cases htaken <;> exact nomatch hph
  | _ => exact nomatch hph

/-- Without a broadcast the search does not become done and the list no longer. -/
theorem Turn.fill (h : Turn D P detect_livelocks sh ph sh' ph' c) (hquiet : c.broadcast = false)
    (hd : sh.graph.done = false) :
    sh'.graph.done = false ∧ sh'.graph.free_list.fill ≤ sh.graph.free_list.fill := by
  -- what `next_nblock` and `choose` leave
  have key : ∀ {k : ℕ} {g : NBlockGraph n} {r : Result n} {bc : Bool}, bc = false →
      Leaves sh.graph.done (k + 1) g r bc → g.done = false ∧ g.free_list.fill ≤ k := by
    intro k g r bc hbc hleaves
    cases r with
    | wait =>
      obtain ⟨hd', hfill⟩ := hleaves.wait rfl
      exact ⟨hd', hfill ▸ Nat.zero_le k⟩
    | null => exact absurd (hbc.symm.trans (hleaves.null rfl hd)) Bool.false_ne_true
    | block b => exact ⟨(hleaves.block b rfl).1, Nat.le_of_succ_le_succ ((hleaves.block b rfl).2 hbc)⟩
  cases h with
  | locked hlocked =>
    cases hlocked with
    | lock hr => exact key hquiet (next_nblock_leaves hr)
    | again hr => exact key hquiet (choose_leaves hr).mono
    | look hempty hr =>
      have hswitch := should_switch_announced hr
      exact ⟨hswitch.done.trans hd, hswitch.fill hquiet⟩
    | leave => exact absurd hquiet Bool.noConfusion
  | _ => exact ⟨hd, Nat.le_refl _⟩

/-- **A turn keeps every sleeper a reason to sleep.** -/
theorem Alert.step (h : Alert s) (hturn : Turn D P detect_livelocks s.shared (s.threads t) s'.shared ph' c)
    (hm : Moved t ph' c s.threads s'.threads) : Alert s' := by
  intro u hu
  by_cases hut : u = t
  · rw [hut, hm.self] at hu
    subst hu
    exact hturn.asleep
  · -- `u` has not heard of the turn, so there was no broadcast
    have hquiet : c.broadcast = false :=
      Bool.eq_false_of_not_eq_true fun hc => hm.broadcast hc u hut hu
    have hasleep : s.threads u = .asleep := by
      rcases hm.others u hut with hsame | hwoken
      · exact hsame.symm.trans hu
      · exact hwoken.1
    obtain ⟨hd, hzero⟩ := h u hasleep
    obtain ⟨hd', hfill⟩ := hturn.fill hquiet hd
    exact ⟨hd', Nat.le_zero.mp (hzero ▸ hfill)⟩

/-- Nobody sleeps without a reason in a reachable state. -/
theorem alert_reachable [DecidableEq ι] [Inhabited V]
    (hs : (searches ι D P detect_livelocks).Reachable s) : Alert s := by
  apply hs.invariant (I := Alert)
  · rintro s rfl t ht
    exact nomatch ht
  · intro s s' _ h hstep
    obtain ⟨t, ph', c, hturn, hm⟩ := step_cases hstep
    exact h.step hturn hm

end Runs

end PwsaStar.Pbnf
