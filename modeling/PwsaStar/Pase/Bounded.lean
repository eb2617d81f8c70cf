/-
# PwsaStar.Pase.Bounded — wPA*SE is bounded suboptimal in every interleaving.

The bound comes from the rule by which a vertex is claimed.  Every labelled vertex that is not
expanded has an entry with its present key, and no entry has a smaller key than its vertex has now
(`Bounded`).  Take such a vertex `u` from which a walk leads to the claimed `v`.  If its entry stands
in front of the claimed one, the independence test compares the two labels; if it stands behind, the
order of the keys does.  Either way the label of `v` is at most the label of `u` plus `ω` times the
weight of the walk, which is what `Lib.Settled.select` asks for.

Labels may drop between the claim and the relaxation, and while a vertex is being expanded its entry
stays in the `multimap`; neither hurts, since the snapshot that is relaxed with is within the bound.
-/
import PwsaStar.Pase.Multimap
import PwsaStar.Lib.BoundedSearch
import Mathlib.Data.List.TakeWhile

namespace PwsaStar.Pase

open PwsaStar.Lib

variable {W V : Type*}

/-- **What the bound rests on.** -/
structure Bounded (P : Problem V) (ω : ℝ) (m : Mem W V) : Prop extends Keyed P m where
  settled : Settled P.graph P.source ω (fun v => m.isExpanded v = true) m.g
  sorted : m.queue.Pairwise fun e e' => e.key ≤ e'.key
  claimed : ∀ v d, m.beingExpanded v = true → P.graph.Walk P.source v d → Within ω (m.g v) d

/-- The heuristic is consistent up to the factor `ω` towards every vertex. -/
structure Consistent (P : Problem V) (ω : ℝ) : Prop where
  zero : ∀ t, P.heuristic t t = 0
  arcs : ∀ t, P.graph.Consistent ω fun u => P.heuristic u t

/-! ## Claiming -/

/-- **The claimed vertex is within the bound.** -/
theorem Bounded.claim {P : Problem V} {ω : ℝ} {m : Mem W V} (hm : MemOk P m) (h : Bounded P ω m)
    (hH : Consistent P ω) {queue before behind : List (Entry V)} {e : Entry V}
    (hsub : queue.Sublist m.queue)
    (hkeep : ∀ e ∈ m.queue, m.isExpanded e.vertex = false → e ∈ queue)
    (hopen : m.isExpanded e.vertex = false) (hqueue : queue = before ++ e :: behind)
    (htest : ∀ u ∈ before,
      m.g e.vertex ≤ m.g u.vertex + (P.heuristic u.vertex e.vertex : Dist))
    {d : ℤ} (hw : P.graph.Walk P.source e.vertex d) : Within ω (m.g e.vertex) d := by
  have he : e ∈ m.queue := hsub.subset (by simp [hqueue])
  obtain ⟨a, ha⟩ := WithTop.ne_top_iff_exists.mp (hm.queued e he)
  refine h.settled.select (by simp [hopen]) ha.symm ?_ hw
  intro u b d₂ hu hb hrest
  have hu' : m.isExpanded u = false := by simpa using hu
  obtain ⟨f, hf, rfl, hkey⟩ := h.queued u (by rw [hb]; exact WithTop.coe_ne_top) hu'
  have hfq : f ∈ before ++ e :: behind := hqueue ▸ hkeep f hf hu'
  have hsorted : (before ++ e :: behind).Pairwise fun e e' => e.key ≤ e'.key :=
    hqueue ▸ h.sorted.sublist hsub
  -- in front: the independence test; the entry itself or behind it: the keys
  rcases List.mem_append.mp hfq with hfront | hback
  · have htest' := htest f hfront
    rw [hb, ← ha] at htest'
    have hint : a ≤ b + P.heuristic f.vertex e.vertex := by exact_mod_cast htest'
    have hreal : (a : ℝ) ≤ b + P.heuristic f.vertex e.vertex := by exact_mod_cast hint
    have hpot := hrest.potential_le (hH.arcs e.vertex)
    simp only [hH.zero e.vertex, Int.cast_zero, add_zero] at hpot
    linarith
  · have hle : e.key ≤ f.key := by
      rcases List.mem_cons.mp hback with rfl | hback
      · exact le_rfl
      · exact (List.pairwise_cons.mp (List.pairwise_append.mp hsorted).2.1).1 f hback
    have hkeys := (h.keys e he).trans hle
    rw [hkey, hb, ← ha] at hkeys
    have hint : a + P.heuristic e.vertex P.destination ≤ b + P.heuristic f.vertex P.destination := by
      exact_mod_cast hkeys
    have hreal : (a : ℝ) + P.heuristic e.vertex P.destination ≤
        b + P.heuristic f.vertex P.destination := by exact_mod_cast hint
    have hpot := hrest.potential_le (hH.arcs P.destination)
    linarith

theorem Bounded.findIndependent [DecidableEq V] {P : Problem V} {ω : ℝ} {m m' : Mem W V}
    {r : Option (Entry V)} (hm : MemOk P m) (h : Bounded P ω m) (hH : Consistent P ω)
    (hfind : findIndependent P.heuristic m = (m', r)) : Bounded P ω m' := by
  have hkeyed := h.toKeyed.findIndependent hfind
  obtain ⟨queue, hsub, hkeep, hcases⟩ := findIndependent_cases hfind
  rcases hcases with ⟨rfl, rfl⟩ | ⟨e, before, behind, rfl, hopen, -, hqueue, htest, rfl⟩
  · exact ⟨hkeyed, h.settled, h.sorted.sublist hsub, h.claimed⟩
  · refine ⟨hkeyed, h.settled, h.sorted.sublist hsub, ?_⟩
    intro v d hv hw
    by_cases hve : v = e.vertex
    · subst hve
      exact h.claim hm hH hsub hkeep hopen hqueue htest hw
    · exact h.claimed v d (by simpa [hve] using hv) hw

/-! ## Relaxing -/

/-- What stands behind the insertion point has a larger key. -/
theorem le_of_mem_dropWhile {l : List (Entry V)} (hl : l.Pairwise fun e e' => e.key ≤ e'.key)
    {fv : Dist} {e : Entry V} (he : e ∈ l.dropWhile fun e => e.key ≤ fv) : fv ≤ e.key := by
  induction l with
  | nil => cases he
  | cons x l ih =>
    obtain ⟨hx, hl⟩ := List.pairwise_cons.mp hl
    by_cases hle : x.key ≤ fv
    · rw [List.dropWhile_cons_of_pos (by simpa using hle)] at he
      exact ih hl he
    · rw [List.dropWhile_cons_of_neg (by simpa using hle)] at he
      rcases List.mem_cons.mp he with rfl | he
      · exact (not_le.mp hle).le
      · exact (not_le.mp hle).le.trans (hx e he)

theorem sorted_insertLocked {m : Mem W V} (h : m.queue.Pairwise fun e e' => e.key ≤ e'.key)
    (fv : Dist) (v : V) :
    (m.insertLocked fv v).queue.Pairwise fun e e' => e.key ≤ e'.key := by
  have hback : ∀ e ∈ m.queue.dropWhile (fun e => e.key ≤ fv), fv ≤ e.key :=
    fun e he => le_of_mem_dropWhile h he
  refine List.pairwise_append.mpr ⟨h.sublist (List.takeWhile_sublist _), ?_, ?_⟩
  · exact List.pairwise_cons.mpr ⟨hback, h.sublist (List.dropWhile_sublist _)⟩
  · intro e he e' he'
    have hfront : e.key ≤ fv := by simpa using List.mem_takeWhile_imp he
    rcases List.mem_cons.mp he' with rfl | he'
    · exact hfront
    · exact hfront.trans (hback e' he')

theorem Bounded.relax [DecidableEq V] {P : Problem V} {ω : ℝ} {m : Mem W V} {v : V} {vdist : Dist}
    (h : Bounded P ω m) (hexp : Expanding P m v vdist) {arc : V × ℤ}
    (harc : arc ∈ P.graph.nbrs v) :
    Bounded P ω (relax P v vdist m arc) ∧
      (relax P v vdist m arc).g arc.1 ≤ vdist + (arc.2 : Dist) := by
  obtain ⟨hexp', hgrow⟩ := hexp.relax harc
  have hkeyed := h.toKeyed.relax v vdist arc
  rcases relax_cases P v vdist m arc with ⟨hle, heq⟩ | ⟨hlt, heq⟩ <;> rw [heq] at hexp' hgrow hkeyed ⊢
  · exact ⟨h, hle⟩
  · refine ⟨⟨hkeyed, h.settled.lower hgrow.label hexp'.mem.forest.root,
      sorted_insertLocked h.sorted _ _, ?_⟩, by simp [Mem.insertLocked]⟩
    intro u d hu hw
    exact (h.claimed u d hu hw).mono (hgrow.label u)

/-- The loop over the arcs. -/
theorem Bounded.relaxAll [DecidableEq V] {P : Problem V} {ω : ℝ} {v : V} {vdist : Dist} :
    ∀ (arcs : List (V × ℤ)) {m : Mem W V}, Bounded P ω m → Expanding P m v vdist →
      (∀ a ∈ arcs, a ∈ P.graph.nbrs v) →
      Bounded P ω (arcs.foldl (Pase.relax P v vdist) m) ∧
        ∀ a ∈ arcs, (arcs.foldl (Pase.relax P v vdist) m).g a.1 ≤ vdist + (a.2 : Dist) := by
  intro arcs
  induction arcs with
  | nil =>
    intro m h _ _
    refine ⟨h, ?_⟩
    intro a ha
    cases ha
  | cons arc arcs ih =>
    intro m h hexp harcs
    have harc := harcs arc (List.mem_cons_self ..)
    have hrest : ∀ a ∈ arcs, a ∈ P.graph.nbrs v := fun a ha => harcs a (List.mem_cons_of_mem _ ha)
    obtain ⟨h₁, hhead⟩ := h.relax hexp harc
    obtain ⟨hexp₁, -⟩ := hexp.relax harc
    obtain ⟨h₂, htail⟩ := ih h₁ hexp₁ hrest
    refine ⟨h₂, ?_⟩
    intro a ha
    rcases List.mem_cons.mp ha with rfl | ha
    · exact ((hexp₁.relaxAll arcs hrest).2.label a.1).trans hhead
    · exact htail a ha

/-- **The second locked block keeps the bound.** -/
theorem Bounded.expand [DecidableEq V] {P : Problem V} {ω : ℝ} (hω : 1 ≤ ω) {m : Mem W V}
    {e : Entry V} {vdist : Dist} (h : Bounded P ω m) (hexp : Expanding P m e.vertex vdist)
    (hheld : Held m e) (hwithin : ∀ d, P.graph.Walk P.source e.vertex d → Within ω vdist d) :
    Bounded P ω (expand P e vdist m) := by
  obtain ⟨h', hheads⟩ := h.relaxAll (P.graph.nbrs e.vertex) hexp fun a ha => ha
  obtain ⟨hexp', hgrow⟩ := hexp.relaxAll (P.graph.nbrs e.vertex) fun a ha => ha
  have hkeyed := h.toKeyed.expand (hheld.mono hgrow)
  obtain ⟨a, rfl⟩ := WithTop.ne_top_iff_exists.mp hexp.finite
  have hclosed := h'.settled.close hω (v := e.vertex) (a := a) ?_ hexp'.snapshot ?_
  · refine ⟨hkeyed, hclosed.congr ?_, h'.sorted.sublist List.filter_sublist, h'.claimed⟩
    intro u hu
    by_cases hue : u = e.vertex
    · exact Or.inr hue
    · exact Or.inl (by simpa [Pase.expand, hue] using hu)
  · intro d hw
    obtain ⟨b, hb, hle⟩ := hwithin d hw
    obtain rfl : a = b := by exact_mod_cast hb
    exact hle
  · intro u w harc
    have hle := hheads (u, w) harc
    rwa [← WithTop.coe_add] at hle

/-! ## Runs -/

/-- **The bound in a run**: of the memory, and of the snapshots the workers relax with. -/
structure BoundedRun (P : Problem V) (ω : ℝ) (c : Config W V) : Prop where
  mem : Bounded P ω c.mem
  snapshot : ∀ w e vdist, c.pc w = .expand e vdist → ∀ d, P.graph.Walk P.source e.vertex d →
    Within ω vdist d

theorem bounded_start [DecidableEq V] (P : Problem V) (ω : ℝ) :
    BoundedRun P ω ({ mem := Mem.start P, pc := fun _ => .test } : Config W V) where
  mem := by
    refine ⟨keyed_start, (Settled.start P.graph P.source ω ?_).congr nofun, ?_, nofun⟩
    · simp [Mem.start, Mem.insertLocked]
    · exact List.pairwise_singleton ..
  snapshot := nofun

/-- One worker moves; its snapshot, if it takes one, is within the bound. -/
theorem BoundedRun.set [DecidableEq W] {P : Problem V} {ω : ℝ} {c : Config W V}
    (h : BoundedRun P ω c) {w : W} {m : Mem W V} {p : Pc V} (hm : Bounded P ω m)
    (hp : ∀ e vdist, p = .expand e vdist → ∀ d, P.graph.Walk P.source e.vertex d →
      Within ω vdist d) : BoundedRun P ω (c.set w m p) where
  mem := hm
  snapshot v e vdist hv := by
    rcases eq_or_ne v w with rfl | hne
    · exact hp e vdist (by simpa [Config.set] using hv)
    · exact h.snapshot v e vdist (by simpa [Config.set, hne] using hv)

theorem bounded_next [DecidableEq V] [DecidableEq W] {P : Problem V} {ω : ℝ} (hω : 1 ≤ ω)
    (hH : Consistent P ω) {w : W} {c c' : Config W V} (I : Inv P c) (h : BoundedRun P ω c)
    (hstep : next P w c = some c') : BoundedRun P ω c' := by
  have hpc := I.pcs w
  have hb := h.mem
  cases hw : c.pc w <;> rw [hw] at hpc <;> simp only [next, hw] at hstep
  case test =>
    cases hstep
    apply h.set hb
    split <;> rintro _ _ ⟨⟩
  case find =>
    split at hstep <;> rename_i hfind <;> cases hstep
    · apply h.set (hb.findIndependent I.mem hH hfind)
      rintro _ _ ⟨⟩
    · apply h.set (hb.findIndependent I.mem hH hfind)
      rintro _ _ ⟨⟩
  case claimed e =>
    cases hstep
    refine h.set ⟨⟨hb.queued, hb.keys⟩, hb.settled, hb.sorted, hb.claimed⟩ ?_
    split <;> rintro _ _ ⟨⟩
  case setDone =>
    cases hstep
    refine h.set ⟨⟨hb.queued, hb.keys⟩, hb.settled, hb.sorted, hb.claimed⟩ ?_
    rintro _ _ ⟨⟩
  case readG e =>
    cases hstep
    apply h.set hb
    rintro _ _ ⟨⟩ d hwalk
    exact hb.claimed e.vertex d hpc.claimed hwalk
  case expand e vdist =>
    cases hstep
    obtain ⟨hheld, hsnap, hfin⟩ := hpc
    have hbound := h.snapshot w e vdist hw
    refine h.set (hb.expand hω ⟨I.mem, hheld.claimed, hsnap, hfin⟩ hheld hbound) ?_
    rintro _ _ ⟨⟩
  case returned => cases hstep

theorem reachable_bounded [DecidableEq V] [DecidableEq W] {P : Problem V} {ω : ℝ} (hω : 1 ≤ ω)
    (hH : Consistent P ω) {c : Config W V} (hc : (pase P).Reachable c) : BoundedRun P ω c := by
  apply hc.invariant (I := BoundedRun P ω)
  · rintro _ rfl
    exact bounded_start P ω
  · rintro c c' hreach h ⟨w, hstep⟩
    exact bounded_next hω hH (reachable_inv hreach) h hstep

end PwsaStar.Pase
