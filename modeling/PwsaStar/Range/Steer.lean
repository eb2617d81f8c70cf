/-
# PwsaStar.Range.Steer — `astar` expands any chordless path, if the heuristic says so.

With the heuristic `-e` on a vertex of the path at distance `e` and 0 elsewhere, the next vertex of the
path always has the key 0.  What else is in the frontier is an entry of an expanded vertex or has a
positive key: a later vertex of the path has no label yet, and other labels are positive.
-/
import PwsaStar.Range.AStar

namespace PwsaStar.AStar

open PwsaStar.Lib PwsaStar.Heap

variable {V : Type*} [DecidableEq V]

/-- The heuristic that steers a search along `path`. -/
def steer (path : List (V × ℤ)) (v : V) : ℤ :=
  match path.find? (fun p => p.1 = v) with
  | some p => -p.2
  | none => 0

variable {G : WGraph V} {s t : V} {path : List (V × ℤ)}

theorem steer_of_mem {v : V} {e : ℤ} (hnodup : (path.map Prod.fst).Nodup) (h : (v, e) ∈ path) :
    steer path v = -e := by
  unfold steer
  cases hfind : path.find? (fun p => p.1 = v) with
  | none =>
    have hne := List.find?_eq_none.mp hfind (v, e) h
    simp at hne
  | some p =>
    have hpv : p.1 = v := by simpa using List.find?_some hfind
    have hmem := List.mem_of_find?_eq_some hfind
    have heq : p = (v, e) := List.inj_on_of_nodup_map hnodup hmem h hpv
    rw [heq]

theorem steer_of_not_mem {v : V} (h : v ∉ path.map Prod.fst) : steer path v = 0 := by
  unfold steer
  cases hfind : path.find? (fun p => p.1 = v) with
  | none => rfl
  | some p =>
    have hpv : p.1 = v := by simpa using List.find?_some hfind
    exact absurd (List.mem_map.mpr ⟨p, List.mem_of_find?_eq_some hfind, hpv⟩) h

/-! ## On course -/

/-- The vertices `r` of the path are expanded and nothing else is; `u`, at distance `e`, is the next
one. -/
structure OnCourse (s : V) (path : List (V × ℤ)) (u : V) (e : ℤ) (r : List (V × ℤ)) (st : State V) :
    Prop where
  expanded : ∀ x, st.isExpanded x = true ↔ x ∈ r.map Prod.fst
  label : st.dist u = (e : Dist)
  later : ∀ p ∈ path, p.1 ∉ ((u, e) :: r).map Prod.fst → st.dist p.1 = ⊤
  positive : ∀ y, y ≠ s → 0 < st.dist y
  entry : (⟨0, u⟩ : KV Dist V) ∈ st.frontier.entries
  others : ∀ x ∈ st.frontier.entries, x.value ∈ r.map Prod.fst ∨ x.value = u ∨ 0 < x.priority

/-- The sums from `st'` on are among those from `st` on, `k` iterations later. -/
def Leads (G : WGraph V) (H : V → ℤ) (t : V) (st : State V) (k : ℕ) (st' : State V) : Prop :=
  ∀ fuel, ∀ x ∈ loopSums G H t fuel st', x ∈ loopSums G H t (fuel + k) st

theorem Leads.refl {H : V → ℤ} (st : State V) : Leads G H t st 0 st := fun _ _ hx => hx

theorem Leads.trans {H : V → ℤ} {st st' st'' : State V} {k k' : ℕ} (h : Leads G H t st k st')
    (h' : Leads G H t st' k' st'') : Leads G H t st (k' + k) st'' := by
  intro fuel x hx
  rw [← Nat.add_assoc]
  exact h _ x (h' fuel x hx)

omit [DecidableEq V] in
theorem OnCourse.not_expanded {u x : V} {e : ℤ} {r : List (V × ℤ)} {st : State V}
    (C : OnCourse s path u e r st) (h : x ∉ r.map Prod.fst) : st.isExpanded x = false :=
  Bool.eq_false_iff.mpr fun hx => h ((C.expanded x).mp hx)

omit [DecidableEq V] in
theorem OnCourse.size_pos {u : V} {e : ℤ} {r : List (V × ℤ)} {st : State V}
    (C : OnCourse s path u e r st) : 0 < st.frontier.size := ValidHeap.size_pos_of_mem C.entry

/-- Entries of expanded vertices are dropped until the next vertex of the path is popped. -/
theorem OnCourse.exists_pop {H : V → ℤ} {u : V} {e : ℤ} {r : List (V × ℤ)} (havoid : ∀ p ∈ r, p.1 ≠ t) :
    ∀ (n : ℕ) {st : State V}, st.frontier.size ≤ n → OnCourse s path u e r st →
      ∃ st' k frontier, Leads G H t st k st' ∧ OnCourse s path u e r st' ∧
        st'.frontier.deleteMin = some (u, frontier) := by
  intro n
  induction n with
  | zero =>
    intro st hsize C
    have hpos := C.size_pos
    omega
  | succ n ih =>
    intro st hsize C
    obtain ⟨y, frontier, hpop⟩ := ValidHeap.exists_deleteMin C.size_pos
    have hshrink := ValidHeap.size_deleteMin hpop
    obtain ⟨p, hent, hmin⟩ := ValidHeap.entries_deleteMin hpop
    have hkey : p ≤ 0 := hmin _ C.entry
    by_cases hyu : y = u
    · exact ⟨st, 0, frontier, Leads.refl st, C, by rw [hpop, hyu]⟩
    · have hmem : y ∈ r.map Prod.fst := by
        rcases C.others ⟨p, y⟩ (by rw [hent]; exact Multiset.mem_cons_self ..) with h | h | h
        · exact h
        · exact absurd h hyu
        · exact absurd hkey (not_le.mpr h)
      have hyt : y ≠ t := by
        obtain ⟨z, hz, hzy⟩ := List.mem_map.mp hmem
        rw [← hzy]
        exact havoid z hz
      have hrest : OnCourse s path u e r { st with frontier := frontier } := by
        refine ⟨C.expanded, C.label, C.later, C.positive, ?_, fun x hx => C.others x ?_⟩
        · have hentry := C.entry
          rw [hent] at hentry
          rcases Multiset.mem_cons.mp hentry with heq | h
          · exact absurd (congrArg KV.value heq).symm hyu
          · exact h
        · rw [hent]
          exact Multiset.mem_cons_of_mem hx
      obtain ⟨st', k, frontier', hleads, hcourse, hpop'⟩ := ih (by dsimp only; omega) hrest
      refine ⟨st', k + 1, frontier', ?_, hcourse, hpop'⟩
      intro fuel x hx
      rw [← Nat.add_assoc]
      unfold loopSums
      simp only [hpop, if_neg hyt, (C.expanded y).mpr hmem, if_true]
      exact hleads fuel x hx

/-! ## The expansion of the next vertex -/

/-- While the arcs of `u` are relaxed. -/
structure Fanned (G : WGraph V) (s : V) (path : List (V × ℤ)) (u : V) (e : ℤ) (r : List (V × ℤ))
    (st : State V) : Prop where
  expanded : ∀ x, st.isExpanded x = true ↔ x ∈ ((u, e) :: r).map Prod.fst
  label : st.dist u = (e : Dist)
  later : ∀ p ∈ path, p.1 ∉ ((u, e) :: r).map Prod.fst → (∀ w, ¬ G.Arc u p.1 w) → st.dist p.1 = ⊤
  positive : ∀ y, y ≠ s → 0 < st.dist y
  others : ∀ x ∈ st.frontier.entries, x.value ∈ ((u, e) :: r).map Prod.fst ∨
    (x.value ∈ path.map Prod.fst ∧ ∃ w, G.Arc u x.value w) ∨ 0 < x.priority

section Fan

variable {u : V} {e : ℤ} {r : List (V × ℤ)} {st : State V} {arc : V × ℤ}

theorem OnCourse.fanned (C : OnCourse s path u e r st) {frontier : ValidHeap Dist V}
    (hpop : st.frontier.deleteMin = some (u, frontier)) :
    Fanned G s path u e r (mark u { st with frontier := frontier }) := by
  obtain ⟨p, hent, -⟩ := ValidHeap.entries_deleteMin hpop
  refine ⟨fun x => ?_, C.label, fun p hp hlater _ => C.later p hp hlater, C.positive, fun x hx => ?_⟩
  · rw [List.map_cons, List.mem_cons, ← C.expanded x]
    exact update_mark_iff
  · rcases C.others x (by rw [hent]; exact Multiset.mem_cons_of_mem hx) with h | h | h
    · exact Or.inl (List.mem_cons_of_mem _ h)
    · exact Or.inl (by rw [h]; exact List.mem_cons_self)
    · exact Or.inr (Or.inr h)

theorem Fanned.relax (F : Fanned G s path u e r st) (he : 0 ≤ e) (harc : G.Arc u arc.1 arc.2)
    (hpos : 0 < arc.2) : Fanned G s path u e r (AStar.relax (steer path) u st arc) := by
  unfold AStar.relax
  dsimp only
  split_ifs with hlt
  · rw [F.label] at hlt ⊢
    have hsum : (0 : Dist) < (e : Dist) + (arc.2 : Dist) := by
      rw [← WithTop.coe_add]
      exact_mod_cast Int.add_pos_of_nonneg_of_pos he hpos
    have hne : u ≠ arc.1 := by
      intro heq
      rw [← heq, F.label, ← WithTop.coe_add] at hlt
      have hlt' : e + arc.2 < e := by exact_mod_cast hlt
      omega
    refine ⟨F.expanded, ?_, fun p hp hlater hnone => ?_, fun y hy => ?_, fun x hx => ?_⟩
    · dsimp only
      rw [Function.update_of_ne hne]
      exact F.label
    · dsimp only
      have hpa : p.1 ≠ arc.1 := fun heq => hnone arc.2 (heq ▸ harc)
      rw [Function.update_of_ne hpa]
      exact F.later p hp hlater hnone
    · dsimp only
      by_cases hya : y = arc.1
      · rw [hya, Function.update_self]
        exact hsum
      · rw [Function.update_of_ne hya]
        exact F.positive y hy
    · dsimp only at hx
      rw [ValidHeap.entries_insert] at hx
      rcases Multiset.mem_cons.mp hx with rfl | hx
      · by_cases hpath : arc.1 ∈ path.map Prod.fst
        · exact Or.inr (Or.inl ⟨hpath, arc.2, harc⟩)
        · refine Or.inr (Or.inr ?_)
          show (0 : Dist) < (steer path arc.1 : Dist) + ((e : Dist) + (arc.2 : Dist))
          rw [steer_of_not_mem hpath, WithTop.coe_zero, zero_add]
          exact hsum
      · exact F.others x hx
  · exact F

/-- All arcs of `u`; each makes a sum. -/
theorem Fanned.relaxAll (he : 0 ≤ e) (hpos : ∀ v x w, G.Arc v x w → 0 < w) :
    ∀ (arcs : List (V × ℤ)) {st : State V}, (∀ arc ∈ arcs, G.Arc u arc.1 arc.2) →
      Fanned G s path u e r st →
      Fanned G s path u e r (arcs.foldl (AStar.relax (steer path) u) st) ∧
        ∀ arc ∈ arcs, ((e + arc.2 : ℤ) : Dist) ∈ relaxSums (steer path) u st arcs := by
  intro arcs
  induction arcs with
  | nil =>
    intro st _ F
    exact ⟨F, by simp⟩
  | cons arc arcs ih =>
    intro st harcs F
    have harc := harcs arc List.mem_cons_self
    obtain ⟨hend, hsums⟩ := ih (fun a ha => harcs a (List.mem_cons_of_mem _ ha))
      (F.relax he harc (hpos _ _ _ harc))
    refine ⟨hend, fun a ha => ?_⟩
    rw [relaxSums]
    rcases List.mem_cons.mp ha with rfl | ha
    · rw [F.label, WithTop.coe_add]
      exact List.mem_cons_self
    · exact List.mem_cons_of_mem _ (hsums a ha)

/-- The label of the next vertex is `d` or larger, and if it is `d` there is an entry with the key 0. -/
def Beckons (v : V) (d : ℤ) (st : State V) : Prop :=
  (d : Dist) ≤ st.dist v ∧ (st.dist v = (d : Dist) → (⟨0, v⟩ : KV Dist V) ∈ st.frontier.entries)

theorem Beckons.relax {v : V} {w : ℤ} (hsteer : steer path v = -(e + w)) (hu : st.dist u = (e : Dist))
    (hleast : arc.1 = v → w ≤ arc.2) (h : Beckons v (e + w) st) :
    Beckons v (e + w) (AStar.relax (steer path) u st arc) := by
  unfold AStar.relax
  dsimp only
  split_ifs with hlt
  · rw [hu, ← WithTop.coe_add]
    by_cases hva : arc.1 = v
    · have hge := hleast hva
      subst hva
      refine ⟨?_, fun heq => ?_⟩
      · dsimp only
        rw [Function.update_self]
        exact_mod_cast Int.add_le_add_left hge e
      · dsimp only at heq ⊢
        rw [Function.update_self] at heq
        rw [ValidHeap.entries_insert, heq, hsteer, ← WithTop.coe_add, neg_add_cancel]
        exact Multiset.mem_cons_self ..
    · refine ⟨?_, fun heq => ?_⟩
      · dsimp only
        rw [Function.update_of_ne (Ne.symm hva)]
        exact h.1
      · dsimp only at heq ⊢
        rw [Function.update_of_ne (Ne.symm hva)] at heq
        rw [ValidHeap.entries_insert]
        exact Multiset.mem_cons_of_mem (h.2 heq)
  · exact h

theorem relax_dist_le {H : V → ℤ} (u : V) (st : State V) (arc : V × ℤ) (v : V) :
    (AStar.relax H u st arc).dist v ≤ st.dist v := by
  unfold AStar.relax
  dsimp only
  split_ifs with hlt
  · exact update_le_self_iff.mpr hlt.le v
  · exact le_rfl

theorem relaxAll_dist_le {H : V → ℤ} (u : V) : ∀ (arcs : List (V × ℤ)) (st : State V) (v : V),
    (arcs.foldl (AStar.relax H u) st).dist v ≤ st.dist v := by
  intro arcs
  induction arcs with
  | nil =>
    intro st v
    exact le_rfl
  | cons arc arcs ih =>
    intro st v
    exact (ih _ v).trans (relax_dist_le u st arc v)

/-- After the arcs of `u` the label of the next vertex is `e + w`. -/
theorem Beckons.relaxAll {v : V} {w : ℤ} (he : 0 ≤ e) (hpos : ∀ v x w, G.Arc v x w → 0 < w)
    (hsteer : steer path v = -(e + w)) (hleast : ∀ w', G.Arc u v w' → w ≤ w') :
    ∀ (arcs : List (V × ℤ)) {st : State V}, (∀ arc ∈ arcs, G.Arc u arc.1 arc.2) →
      Fanned G s path u e r st → Beckons v (e + w) st →
      Beckons v (e + w) (arcs.foldl (AStar.relax (steer path) u) st) ∧
        ((v, w) ∈ arcs →
          (arcs.foldl (AStar.relax (steer path) u) st).dist v = ((e + w : ℤ) : Dist)) := by
  intro arcs
  induction arcs with
  | nil =>
    intro st _ _ h
    exact ⟨h, nofun⟩
  | cons arc arcs ih =>
    intro st harcs F h
    have harc := harcs arc List.mem_cons_self
    have hnext : Beckons v (e + w) (AStar.relax (steer path) u st arc) :=
      h.relax hsteer F.label fun heq => hleast arc.2 (heq ▸ harc)
    obtain ⟨hend, hlabel⟩ := ih (fun a ha => harcs a (List.mem_cons_of_mem _ ha))
      (F.relax he harc (hpos _ _ _ harc)) hnext
    refine ⟨hend, fun hmem => ?_⟩
    rcases List.mem_cons.mp hmem with heq | hmem
    · refine le_antisymm ((relaxAll_dist_le u arcs _ v).trans ?_) hend.1
      -- this arc has just been relaxed
      subst heq
      unfold AStar.relax
      dsimp only
      rw [F.label, ← WithTop.coe_add]
      split_ifs with hlt
      · dsimp only
        rw [Function.update_self]
      · exact not_lt.mp hlt
    · exact hlabel hmem

omit [DecidableEq V] in
/-- **On to the next vertex of the path.** -/
theorem Fanned.onCourse {v : V} {w : ℤ} (hpath : Chordless G s path)
    (hsuffix : ((v, e + w) :: (u, e) :: r) <:+ path) (F : Fanned G s path u e r st)
    (hlabel : st.dist v = ((e + w : ℤ) : Dist)) (hbeckons : Beckons v (e + w) st) :
    OnCourse s path v (e + w) ((u, e) :: r) st := by
  have honly : ∀ p ∈ path, ∀ w', G.Arc u p.1 w' → p.1 ∈ ((v, e + w) :: (u, e) :: r).map Prod.fst :=
    fun p hp w' harc => List.mem_map.mpr ⟨p, hpath.arc_later hsuffix p hp w' harc, rfl⟩
  refine ⟨F.expanded, hlabel, fun p hp hlater => ?_, F.positive, hbeckons.2 hlabel, fun x hx => ?_⟩
  · apply F.later p hp (fun hmem => hlater (List.mem_cons_of_mem _ hmem))
    intro w' harc
    exact hlater (honly p hp w' harc)
  · rcases F.others x hx with h | ⟨h, w', harc⟩ | h
    · exact Or.inl h
    · obtain ⟨p, hp, hpx⟩ := List.mem_map.mp h
      rw [← hpx] at harc ⊢
      rcases List.mem_cons.mp (honly p hp w' harc) with h | h
      · exact Or.inr (Or.inl h)
      · exact Or.inl h
    · exact Or.inr (Or.inr h)

end Fan

/-! ## The whole path -/

/-- At the source. -/
theorem OnCourse.start (hsteer : steer path s = 0) (block : ℕ → KV Dist V) (pebble : Bool) :
    OnCourse s path s 0 [] (start block (steer path) s pebble) := by
  refine ⟨by simp [AStar.start], by simp [AStar.start], fun p _ hp => ?_, fun y hy => ?_, ?_,
    fun x hx => ?_⟩
  · have hps : p.1 ≠ s := by simpa using hp
    simp [AStar.start, hps]
  · simp [AStar.start, hy]
  · simp [AStar.start, hsteer]
  · obtain rfl : x = ⟨(steer path s : Dist), s⟩ := by simpa [AStar.start] using hx
    exact Or.inr (Or.inl rfl)

/-- The next vertex is popped and its arcs are relaxed. -/
theorem OnCourse.next (hpos : ∀ v x w, G.Arc v x w → 0 < w) (hpath : Chordless G s path)
    (havoid : ∀ p ∈ path, p.1 ≠ t) {u v : V} {e w : ℤ} {r : List (V × ℤ)}
    (hstep : Chordless G s ((v, e + w) :: (u, e) :: r)) (he : 0 ≤ e) (harc : G.Arc u v w)
    (hleast : ∀ w', G.Arc u v w' → w ≤ w') (hsuffix : ((v, e + w) :: (u, e) :: r) <:+ path)
    (hopen : u ∉ r.map Prod.fst) {st : State V} (C : OnCourse s path u e r st) :
    ∃ st' k, Leads G (steer path) t st k st' ∧ OnCourse s path v (e + w) ((u, e) :: r) st' := by
  have hshort : ((u, e) :: r) <:+ path := (List.suffix_cons _ _).trans hsuffix
  have hmem : (v, e + w) ∈ path := hsuffix.subset List.mem_cons_self
  have hut : u ≠ t := havoid (u, e) (hshort.subset List.mem_cons_self)
  obtain ⟨st', k, frontier, hleads, C', hpop⟩ := C.exists_pop (G := G) (H := steer path)
    (fun p hp => havoid p (hshort.subset (List.mem_cons_of_mem _ hp))) _ le_rfl
  have hfanned := C'.fanned (G := G) hpop
  have hbeckons : Beckons v (e + w) (mark u { st' with frontier := frontier }) := by
    have htop : st'.dist v = ⊤ := C'.later (v, e + w) hmem hstep.not_mem_tail
    refine ⟨?_, fun heq => ?_⟩
    · show _ ≤ st'.dist v
      rw [htop]
      exact le_top
    · have heq' : st'.dist v = ((e + w : ℤ) : Dist) := heq
      rw [htop] at heq'
      exact absurd heq'.symm WithTop.coe_ne_top
  obtain ⟨hend, -⟩ := hfanned.relaxAll he hpos (G.nbrs u) fun arc harc => harc
  obtain ⟨hbeckons', hlabel⟩ := hbeckons.relaxAll he hpos (steer_of_mem hpath.nodup hmem) hleast
    (G.nbrs u) (fun arc harc => harc) hfanned
  have hlast : Leads G (steer path) t st' 1
      ((G.nbrs u).foldl (AStar.relax (steer path) u) (mark u { st' with frontier := frontier })) := by
    intro fuel x hx
    unfold loopSums
    simp only [hpop, if_neg hut, C'.not_expanded hopen, Bool.false_eq_true, if_false]
    exact List.mem_append_right _ hx
  exact ⟨_, _, hleads.trans hlast, hend.onCourse hpath hsuffix (hlabel harc) hbeckons'⟩

/-- **The search gets to every vertex of the path.** -/
theorem exists_onCourse (hpos : ∀ v x w, G.Arc v x w → 0 < w) (hpath : Chordless G s path)
    (havoid : ∀ p ∈ path, p.1 ≠ t) (block : ℕ → KV Dist V) (pebble : Bool) {q : List (V × ℤ)}
    (h : Chordless G s q) : ∀ {u e r}, q = (u, e) :: r → q <:+ path →
      ∃ st k, Leads G (steer path) t (start block (steer path) s pebble) k st ∧
        OnCourse s path u e r st := by
  induction h with
  | source =>
    rintro u e r heq hsuffix
    cases heq
    have hsteer : steer path s = 0 := by
      rw [steer_of_mem hpath.nodup (hsuffix.subset List.mem_cons_self), neg_zero]
    exact ⟨_, 0, Leads.refl _, .start hsteer block pebble⟩
  | @snoc u v e w q hbefore harc hleast hne hnew ih =>
    rintro v' d r heq hsuffix
    cases heq
    obtain ⟨st, k, hleads, C⟩ := ih rfl ((List.suffix_cons _ _).trans hsuffix)
    obtain ⟨st', k', hleads', C'⟩ := C.next hpos hpath havoid (hbefore.snoc harc hleast hne hnew)
      (hbefore.nonneg (u, e) List.mem_cons_self) harc hleast hsuffix hbefore.not_mem_tail
    exact ⟨st', _, hleads.trans hleads', C'⟩

/-- **Every sum that the condition speaks of is computed**, with a heuristic that is no more than the
length of the path away from 0. -/
theorem exists_sum (hpos : ∀ v x w, G.Arc v x w → 0 < w) {v : V} {d : ℤ} {q : List (V × ℤ)}
    (hpath : Chordless G s ((v, d) :: q)) (havoid : ∀ p ∈ (v, d) :: q, p.1 ≠ t) {x : V} {w : ℤ}
    (harc : G.Arc v x w) (block : ℕ → KV Dist V) (pebble : Bool) :
    ∃ fuel, ((d + w : ℤ) : Dist) ∈ sums block G (steer ((v, d) :: q)) s t pebble fuel := by
  obtain ⟨st, k, hleads, hcourse⟩ :=
    exists_onCourse hpos hpath havoid block pebble hpath rfl List.suffix_rfl
  obtain ⟨st', k', frontier, hleads', hcourse', hpop⟩ := hcourse.exists_pop (G := G)
    (H := steer ((v, d) :: q)) (fun p hp => havoid p (List.mem_cons_of_mem _ hp)) _ le_rfl
  have hvt : v ≠ t := havoid (v, d) List.mem_cons_self
  have hopen := hcourse'.not_expanded hpath.not_mem_tail
  obtain ⟨-, hsums⟩ := (hcourse'.fanned (G := G) hpop).relaxAll
    (hpath.nonneg (v, d) List.mem_cons_self) hpos (G.nbrs v) fun arc harc => harc
  refine ⟨1 + (k' + k), hleads.trans hleads' 1 _ ?_⟩
  unfold loopSums
  simp only [hpop, if_neg hvt, hopen, Bool.false_eq_true, if_false]
  exact List.mem_append_left _ (hsums (x, w) harc)

theorem steer_bounds {M : ℤ} (hnonneg : ∀ p ∈ path, 0 ≤ p.2) (hle : ∀ p ∈ path, p.2 ≤ M) (h0 : 0 ≤ M)
    (v : V) : -M ≤ steer path v ∧ steer path v ≤ 0 := by
  unfold steer
  cases hfind : path.find? (fun p => p.1 = v) with
  | none => exact ⟨by simpa using h0, le_rfl⟩
  | some p =>
    have hmem := List.mem_of_find?_eq_some hfind
    have hlow := hnonneg p hmem
    have hhigh := hle p hmem
    exact ⟨by dsimp only; omega, by dsimp only; omega⟩

end PwsaStar.AStar
