/-
# PwsaStar.Lib.ChordlessPath — how large the labels of a search can become.

A search that lowers labels may be led astray by its heuristic, but not as far as it likes: when a
vertex is expanded, the arcs of the vertices it was found through have all been relaxed.  So its label is
at most the length of a path that no arc cuts short.  Such a path is `Chordless`, and every label is
`Backed` by one.

`Pending.backed` is the step: a vertex at the end of an arc of a chordless path of relaxed vertices is
backed by a path that leaves that one at the first vertex with an arc to it.
-/
import PwsaStar.Lib.WeightedGraph
import Mathlib.Data.List.Nodup
import Mathlib.Data.Fintype.Card

namespace PwsaStar.Lib

universe u

variable {V : Type u} {G : WGraph V} {s t : V}

/-! ## Chordless paths -/

/-- `Chordless G s q`: `q` lists the vertices of a path out of `s` with their distances from `s` along
the path, the end first.  There is no arc from a vertex of the path to a later one but the next, and
between these two there is none that is shorter. -/
inductive Chordless (G : WGraph V) (s : V) : List (V × ℤ) → Prop
  | source : Chordless G s [(s, 0)]
  | snoc {u v : V} {e w : ℤ} {q : List (V × ℤ)} : Chordless G s ((u, e) :: q) → G.Arc u v w →
      (∀ w', G.Arc u v w' → w ≤ w') → v ≠ u →
      (∀ p ∈ q, p.1 ≠ v ∧ ∀ w', ¬ G.Arc p.1 v w') → Chordless G s ((v, e + w) :: (u, e) :: q)

/-- Among parallel arcs there is a shortest one. -/
theorem WGraph.Arc.exists_least {u v : V} {w : ℤ} (h : G.Arc u v w) :
    ∃ w₀, G.Arc u v w₀ ∧ ∀ w', G.Arc u v w' → w₀ ≤ w' := by
  classical
  have hex : ∃ n : ℕ, G.Arc u v n := ⟨w.toNat, by rwa [Int.toNat_of_nonneg h.nonneg]⟩
  refine ⟨Nat.find hex, Nat.find_spec hex, ?_⟩
  intro w' h'
  have hmin : Nat.find hex ≤ w'.toNat :=
    Nat.find_min' hex (by rwa [Int.toNat_of_nonneg h'.nonneg])
  have hnonneg := h'.nonneg
  omega

namespace Chordless

variable {q : List (V × ℤ)} {u v : V} {d w : ℤ}

theorem nonneg (h : Chordless G s q) : ∀ p ∈ q, 0 ≤ p.2 := by
  induction h with
  | source => simp
  | @snoc u v e w q _ harc _ _ _ ih =>
    intro p hp
    rcases List.mem_cons.mp hp with rfl | hp
    · exact add_nonneg (ih (u, e) List.mem_cons_self) harc.nonneg
    · exact ih p hp

/-- It is a walk to its end. -/
theorem walk (h : Chordless G s q) : ∀ {v d q'}, q = (v, d) :: q' → G.Walk s v d := by
  induction h with
  | source =>
    rintro v d q' heq
    cases heq
    exact .nil
  | snoc _ harc _ _ _ ih =>
    rintro v d q' heq
    cases heq
    exact (ih rfl).snoc harc

/-- No vertex is repeated. -/
theorem nodup (h : Chordless G s q) : (q.map Prod.fst).Nodup := by
  induction h with
  | source => simp
  | @snoc u v e w q _ _ _ hne hnew ih =>
    rw [List.map_cons, List.nodup_cons]
    refine ⟨?_, ih⟩
    intro hmem
    obtain ⟨p, hp, hpv⟩ := List.mem_map.mp hmem
    rcases List.mem_cons.mp hp with rfl | hp
    · exact hne hpv.symm
    · exact (hnew p hp).1 hpv

theorem not_mem_tail (h : Chordless G s ((v, d) :: q)) : v ∉ q.map Prod.fst := by
  have hnodup := h.nodup
  rw [List.map_cons, List.nodup_cons] at hnodup
  exact hnodup.1

/-- Its length, when no arc is longer than `c`. -/
theorem length_le {c : ℤ} (hc : ∀ u v w, G.Arc u v w → w ≤ c) (h : Chordless G s q) :
    ∀ v d q', q = (v, d) :: q' → d ≤ c * q'.length := by
  induction h with
  | source =>
    rintro v d q' heq
    cases heq
    simp
  | @snoc u v e w q _ harc _ _ _ ih =>
    rintro v' d q' heq
    cases heq
    have hprefix := ih u e q rfl
    have hlast := hc u v w harc
    rw [List.length_cons]
    push_cast
    linarith

/-- The path up to the first vertex that has an arc to `v`, and on to `v`. -/
theorem extend (h : Chordless G s q) (harc : ∃ p ∈ q, ∃ w, G.Arc p.1 v w) (hv : ∀ p ∈ q, p.1 ≠ v) :
    ∃ u e w q', ((u, e) :: q') <:+ q ∧ G.Arc u v w ∧ Chordless G s ((v, e + w) :: (u, e) :: q') := by
  induction h with
  | source =>
    obtain ⟨p, hp, w, harc⟩ := harc
    obtain rfl := List.mem_singleton.mp hp
    obtain ⟨w₀, harc₀, hleast⟩ := harc.exists_least
    have hne : v ≠ s := (hv (s, 0) List.mem_cons_self).symm
    exact ⟨s, 0, w₀, [], List.suffix_rfl, harc₀, .snoc .source harc₀ hleast hne (by simp)⟩
  | @snoc u x e w q hpath hux hleast hne hnew ih =>
    by_cases hearlier : ∃ p ∈ (u, e) :: q, ∃ w', G.Arc p.1 v w'
    · obtain ⟨u', e', w', q', hsuffix, harc', hchordless⟩ :=
        ih hearlier fun p hp => hv p (List.mem_cons_of_mem _ hp)
      exact ⟨u', e', w', q', hsuffix.trans (List.suffix_cons _ _), harc', hchordless⟩
    · push Not at hearlier
      obtain ⟨p, hp, w', harc⟩ := harc
      obtain rfl : p = (x, e + w) := by
        rcases List.mem_cons.mp hp with rfl | hp
        · rfl
        · exact absurd harc (hearlier p hp w')
      obtain ⟨w₀, harc₀, hleast₀⟩ := harc.exists_least
      have hvx : v ≠ x := (hv (x, e + w) List.mem_cons_self).symm
      refine ⟨x, e + w, w₀, (u, e) :: q, List.suffix_rfl, harc₀, ?_⟩
      refine .snoc (.snoc hpath hux hleast hne hnew) harc₀ hleast₀ hvx fun p hp => ?_
      exact ⟨hv p (List.mem_cons_of_mem _ hp), hearlier p hp⟩

/-- Among the vertices behind `u`, only the next one is at the end of an arc of `u`. -/
theorem arc_later (h : Chordless G s q) : ∀ {v u : V} {d e : ℤ} {r : List (V × ℤ)},
    ((v, d) :: (u, e) :: r) <:+ q → ∀ p ∈ q, ∀ w, G.Arc u p.1 w →
      p ∈ (v, d) :: (u, e) :: r := by
  induction h with
  | source =>
    intro v u d e r hsuffix
    have hlen := hsuffix.length_le
    simp at hlen
  | @snoc u' v' e' w' q hpath _ _ _ hnew ih =>
    intro v u d e r hsuffix p hp w harc
    rcases List.suffix_cons_iff.mp hsuffix with heq | hsuffix
    · rw [heq]
      exact hp
    · rcases List.mem_cons.mp hp with rfl | hp
      · -- `u` is not the last vertex before this one
        have hmem : (u, e) ∈ q := by
          rcases List.suffix_cons_iff.mp hsuffix with heq | hsuffix
          · exact (List.cons.inj heq).2 ▸ List.mem_cons_self
          · exact hsuffix.subset (List.mem_cons_of_mem _ List.mem_cons_self)
        exact absurd harc ((hnew (u, e) hmem).2 w)
      · exact ih hsuffix p hp w harc

end Chordless

/-- **The condition**: no chordless path out of `s` that avoids `t`, extended by one arc, is longer
than `M`. -/
def ChordlessWithin (G : WGraph V) (s t : V) (M : ℤ) : Prop :=
  ∀ v d q, Chordless G s ((v, d) :: q) → (∀ p ∈ (v, d) :: q, p.1 ≠ t) →
    ∀ x w, G.Arc v x w → d + w ≤ M

theorem ChordlessWithin.mono {M M' : ℤ} (h : ChordlessWithin G s t M) (hle : M ≤ M') :
    ChordlessWithin G s t M' :=
  fun v d q hpath havoid x w harc => (h v d q hpath havoid x w harc).trans hle

/-- A finite graph with no arc longer than `c`: such a path leaves out `t` and repeats nothing. -/
theorem chordlessWithin_of_card [Fintype V] {c M : ℤ} (hc : ∀ u v w, G.Arc u v w → w ≤ c)
    (hM : c * ((Fintype.card V : ℤ) - 1) ≤ M) : ChordlessWithin G s t M := by
  classical
  intro v d q hpath havoid x w harc
  have hnodup : (t :: ((v, d) :: q).map Prod.fst).Nodup := by
    refine List.nodup_cons.mpr ⟨fun hmem => ?_, hpath.nodup⟩
    obtain ⟨p, hp, hpt⟩ := List.mem_map.mp hmem
    exact havoid p hp hpt
  have hcard := hnodup.length_le_card
  simp only [List.length_cons, List.length_map] at hcard
  have hlength := hpath.length_le hc v d q rfl
  have hlast := hc v x w harc
  have hnonneg := harc.nonneg
  have hmono : c * (q.length + 1 : ℤ) ≤ c * ((Fintype.card V : ℤ) - 1) :=
    mul_le_mul_of_nonneg_left (by omega) (hnonneg.trans hlast)
  linarith

/-! ## Labels -/

/-- All arcs of a vertex are relaxed, from this distance. -/
def Covers (G : WGraph V) (g : V → Dist) (p : V × ℤ) : Prop :=
  ∀ y w, G.Arc p.1 y w → g y ≤ ((p.2 + w : ℤ) : Dist)

/-- `v` is the end of a chordless path whose other vertices are expanded, relaxed and not `t`, and the
label of `v` is at most the length of the path. -/
structure Backed (G : WGraph V) (s t : V) (expanded : V → Prop) (g : V → Dist) (v : V) (d : ℤ)
    (q : List (V × ℤ)) : Prop where
  path : Chordless G s ((v, d) :: q)
  before : ∀ p ∈ q, p.1 ≠ t ∧ expanded p.1 ∧ Covers G g p
  label : g v ≤ (d : Dist)

/-- A vertex that waits to be expanded is backed. -/
def Ready (G : WGraph V) (s t : V) (expanded : V → Prop) (g : V → Dist) (v : V) : Prop :=
  expanded v ∨ ∃ d q, Backed G s t expanded g v d q

section Labels

variable {expanded expanded' : V → Prop} {g g' : V → Dist} {v x : V} {d w : ℤ} {q : List (V × ℤ)}

theorem Covers.mono {p : V × ℤ} (h : Covers G g p) (hg : ∀ v, g' v ≤ g v) : Covers G g' p :=
  fun y w harc => (hg y).trans (h y w harc)

theorem Backed.mono (h : Backed G s t expanded g v d q) (hexp : ∀ v, expanded v → expanded' v)
    (hg : ∀ v, g' v ≤ g v) : Backed G s t expanded' g' v d q where
  path := h.path
  before p hp := by
    obtain ⟨hne, hexpanded, hcovers⟩ := h.before p hp
    exact ⟨hne, hexp _ hexpanded, hcovers.mono hg⟩
  label := (hg v).trans h.label

theorem Ready.mono (h : Ready G s t expanded g v) (hexp : ∀ v, expanded v → expanded' v)
    (hg : ∀ v, g' v ≤ g v) : Ready G s t expanded' g' v := by
  rcases h with h | ⟨d, q, h⟩
  · exact Or.inl (hexp v h)
  · exact Or.inr ⟨d, q, h.mono hexp hg⟩

/-- The source. -/
theorem ready_source (h : g s = 0) : Ready G s t expanded g s := by
  refine Or.inr ⟨0, [], .source, by simp, ?_⟩
  rw [h]
  exact le_rfl

/-- **What an expanded vertex finds is backed**, once all its arcs are relaxed. -/
theorem Backed.ready (h : Backed G s t expanded g v d q) (hv : v ≠ t) (hexp : expanded v)
    (hcovers : Covers G g (v, d)) (harc : G.Arc v x w) : Ready G s t expanded g x := by
  by_cases hx : expanded x
  · exact Or.inl hx
  · have hall : ∀ p ∈ (v, d) :: q, p.1 ≠ t ∧ expanded p.1 ∧ Covers G g p := by
      intro p hp
      rcases List.mem_cons.mp hp with rfl | hp
      · exact ⟨hv, hexp, hcovers⟩
      · exact h.before p hp
    have hnew : ∀ p ∈ (v, d) :: q, p.1 ≠ x := by
      rintro p hp rfl
      exact hx (hall p hp).2.1
    obtain ⟨u, e, w', q', hsuffix, harc', hpath⟩ :=
      h.path.extend ⟨(v, d), List.mem_cons_self, w, harc⟩ hnew
    refine Or.inr ⟨e + w', (u, e) :: q', hpath, fun p hp => hall p (hsuffix.subset hp), ?_⟩
    exact (hall (u, e) (hsuffix.subset List.mem_cons_self)).2.2 x w' harc'

end Labels

/-! ## Expanding a vertex -/

/-- `v` is expanded and backed by a path of length `d`; `arcs` are those of its arcs that are not relaxed
yet. -/
structure Expanding (G : WGraph V) (s t : V) (expanded : V → Prop) (g : V → Dist) (v : V)
    (arcs : List (V × ℤ)) (d : ℤ) (q : List (V × ℤ)) : Prop where
  inner : v ≠ t
  marked : expanded v
  backed : Backed G s t expanded g v d q
  remaining : ∀ arc ∈ arcs, G.Arc v arc.1 arc.2
  relaxed : ∀ arc ∈ G.nbrs v, arc ∈ arcs ∨ g arc.1 ≤ ((d + arc.2 : ℤ) : Dist)

namespace Expanding

variable {expanded expanded' : V → Prop} {g g' : V → Dist} {v x : V} {d w : ℤ} {q arcs : List (V × ℤ)}
  {arc : V × ℤ}

/-- Before the first arc. -/
theorem start (h : Backed G s t expanded g v d q) (hv : v ≠ t) (hexp : expanded v) :
    Expanding G s t expanded g v (G.nbrs v) d q where
  inner := hv
  marked := hexp
  backed := h
  remaining _ harc := harc
  relaxed _ harc := Or.inl harc

theorem mono (h : Expanding G s t expanded g v arcs d q) (hexp : ∀ v, expanded v → expanded' v)
    (hg : ∀ v, g' v ≤ g v) : Expanding G s t expanded' g' v arcs d q where
  inner := h.inner
  marked := hexp v h.marked
  backed := h.backed.mono hexp hg
  remaining := h.remaining
  relaxed arc harc := (h.relaxed arc harc).imp_right (hg arc.1).trans

/-- One arc less. -/
theorem tail (h : Expanding G s t expanded g v (arc :: arcs) d q)
    (harc : g arc.1 ≤ ((d + arc.2 : ℤ) : Dist)) : Expanding G s t expanded g v arcs d q where
  inner := h.inner
  marked := h.marked
  backed := h.backed
  remaining a ha := h.remaining a (List.mem_cons_of_mem _ ha)
  relaxed a ha := by
    rcases h.relaxed a ha with hmem | hle
    · rcases List.mem_cons.mp hmem with rfl | hmem
      · exact Or.inr harc
      · exact Or.inl hmem
    · exact Or.inr hle

/-- When no arc is left, the ends of the arcs are ready. -/
theorem ready (h : Expanding G s t expanded g v [] d q) (harc : G.Arc v x w) :
    Ready G s t expanded g x := by
  refine h.backed.ready h.inner h.marked (fun y w' hy => ?_) harc
  rcases h.relaxed (y, w') hy with hmem | hle
  · cases hmem
  · exact hle

/-- What a snapshot of the label and an arc add up to. -/
theorem sum_le_path {vdistance : Dist} (hle : vdistance ≤ (d : Dist)) :
    vdistance + (w : Dist) ≤ ((d + w : ℤ) : Dist) := by
  rw [WithTop.coe_add]
  exact add_le_add_left hle _

/-- **No sum is larger than the condition allows.** -/
theorem sum_le {M : ℤ} (hM : ChordlessWithin G s t M)
    (h : Expanding G s t expanded g v (arc :: arcs) d q) {vdistance : Dist}
    (hle : vdistance ≤ (d : Dist)) : vdistance + (arc.2 : Dist) ≤ (M : Dist) := by
  have havoid : ∀ p ∈ (v, d) :: q, p.1 ≠ t := by
    intro p hp
    rcases List.mem_cons.mp hp with rfl | hp
    · exact h.inner
    · exact (h.backed.before p hp).1
  have hpath := hM v d q h.backed.path havoid arc.1 arc.2 (h.remaining arc List.mem_cons_self)
  exact (sum_le_path hle).trans (by exact_mod_cast hpath)

end Expanding

end PwsaStar.Lib
