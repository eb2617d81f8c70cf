/-
# PwsaStar.Lib.PredForest — predecessor pointers under label-lowering updates.

A search keeps for every vertex a label `g` and a predecessor pointer.  `Forest` says that the
pointers of the labelled vertices form a tree rooted at the source whose arcs never overcharge:
`g p + w ≤ g v` along the pointer from `v` to `p`.

The one update a search makes is `Forest.relax`: point `v` at a closed `p` and lower the label of `v`
to `vd + w`, where `vd` is ANY number that is at least the present label of `p` (a stale snapshot).
Zero-weight arcs are allowed, so labels need not drop along pointers; the tree survives because the
new label of `v` is STRICTLY below the old one, which keeps `v` off the pointer chain of `p`.

`predWalk` is the loop that follows the pointers; `Forest.exists_path` says it ends at the source,
repeats no vertex and collects arcs of total weight at most the label it started from.
-/
import PwsaStar.Lib.WeightedGraph
import Mathlib.Algebra.Order.Monoid.WithTop
import Mathlib.Data.List.Nodup

namespace PwsaStar.Lib

universe u

variable {V : Type u}

/-! ## Pointer chains -/

/-- Following `pred` from `v` reaches `s` for the first time after exactly `k` steps. -/
inductive Rooted (s : V) (pred : V → Option V) : ℕ → V → Prop
  | root : Rooted s pred 0 s
  | step {k : ℕ} {v p : V} : v ≠ s → pred v = some p → Rooted s pred k p → Rooted s pred (k + 1) v

/-- `PredPath G s pred v l d`: `l` lists the vertices met by following `pred` from `v` to `s`, both
included, and the arcs of `G` under the pointers can be charged `d` in total. -/
inductive PredPath (G : WGraph V) (s : V) (pred : V → Option V) : V → List V → ℤ → Prop
  | root : PredPath G s pred s [s] 0
  | step {v p : V} {w d : ℤ} {l : List V} : v ≠ s → pred v = some p → G.Arc p v w →
      PredPath G s pred p l d → PredPath G s pred v (v :: l) (d + w)

/-- Follow the predecessor pointers from `curr` until `s` and list the vertices met; `none` when a
pointer is missing or the iterations run out. -/
def predWalk [DecidableEq V] (pred : V → Option V) (s : V) : ℕ → V → Option (List V)
  | 0, _ => none
  | fuel + 1, curr =>
    if curr = s then some [curr]
    else match pred curr with
      | none => none
      | some p => (predWalk pred s fuel p).map (curr :: ·)

/-- The marks when one more vertex is marked. -/
theorem update_mark_iff [DecidableEq V] {marked : V → Bool} {x v : V} :
    Function.update marked x true v = true ↔ v = x ∨ marked v = true := by
  by_cases hv : v = x
  · simp [hv]
  · simp [hv]

variable {G : WGraph V} {s : V} {pred : V → Option V}

theorem Rooted.unique {k k' : ℕ} {v : V} (h : Rooted s pred k v) (h' : Rooted s pred k' v) :
    k = k' := by
  induction h generalizing k' with
  | root =>
      cases h' with
      | root => rfl
      | step hne _ _ => exact absurd rfl hne
  | @step k v p hne hp _ ih =>
      cases h' with
      | root => exact absurd rfl hne
      | step _ hp' hrest =>
          obtain rfl : p = _ := Option.some.inj (hp.symm.trans hp')
          rw [ih hrest]

/-- Every vertex of a pointer path is rooted at a depth below the length of the path. -/
theorem PredPath.rooted_of_mem {v x : V} {l : List V} {d : ℤ} (h : PredPath G s pred v l d)
    (hx : x ∈ l) : ∃ k < l.length, Rooted s pred k x := by
  have key : ∀ {v : V} {l : List V} {d : ℤ}, PredPath G s pred v l d →
      Rooted s pred (l.length - 1) v ∧ l ≠ [] ∧ ∀ x ∈ l, ∃ k < l.length, Rooted s pred k x := by
    intro v l d h
    induction h with
    | root => exact ⟨Rooted.root, by simp, by simpa using Rooted.root⟩
    | @step v p w d l hne hp _ _ ih =>
        obtain ⟨hroot, hl, hmem⟩ := ih
        have hlen : 0 < l.length := List.length_pos_of_ne_nil hl
        have hv : Rooted s pred l.length v := by
          have := Rooted.step hne hp hroot
          rwa [Nat.sub_add_cancel hlen] at this
        refine ⟨by simpa using hv, by simp, ?_⟩
        intro x hx
        rcases List.mem_cons.mp hx with rfl | hx
        · exact ⟨l.length, by simp, hv⟩
        · obtain ⟨k, hk, hkx⟩ := hmem x hx
          exact ⟨k, by simp; omega, hkx⟩
  exact (key h).2.2 x hx

theorem PredPath.rooted {v : V} {l : List V} {d : ℤ} (h : PredPath G s pred v l d) :
    ∃ k, l.length = k + 1 ∧ Rooted s pred k v := by
  induction h with
  | root => exact ⟨0, rfl, Rooted.root⟩
  | step hne hp _ _ ih =>
      obtain ⟨k, hk, hroot⟩ := ih
      exact ⟨k + 1, by simp [hk], Rooted.step hne hp hroot⟩

/-- A pointer path repeats no vertex: depths drop along it and a vertex has only one depth. -/
theorem PredPath.nodup {v : V} {l : List V} {d : ℤ} (h : PredPath G s pred v l d) : l.Nodup := by
  induction h with
  | root => simp
  | @step v p w d l hne hp harc hrest ih =>
      refine List.nodup_cons.mpr ⟨?_, ih⟩
      intro hmem
      obtain ⟨k, hk, hkv⟩ := hrest.rooted_of_mem hmem
      obtain ⟨k', hk', hroot⟩ := (PredPath.step hne hp harc hrest).rooted
      have := hkv.unique hroot
      simp at hk'
      omega

/-- A pointer path is a walk. -/
theorem PredPath.walk {v : V} {l : List V} {d : ℤ} (h : PredPath G s pred v l d) :
    G.Walk s v d := by
  induction h with
  | root => exact WGraph.Walk.nil
  | step _ _ harc _ ih => exact ih.snoc harc

/-- The pointer loop computes the pointer path as soon as it has enough iterations. -/
theorem PredPath.predWalk_eq [DecidableEq V] {v : V} {l : List V} {d : ℤ}
    (h : PredPath G s pred v l d) : ∀ fuel, l.length ≤ fuel → predWalk pred s fuel v = some l := by
  induction h with
  | root =>
      intro fuel hfuel
      obtain ⟨n, rfl⟩ : ∃ n, fuel = n + 1 := ⟨fuel - 1, by simp at hfuel; omega⟩
      simp [predWalk]
  | step hne hp _ _ ih =>
      intro fuel hfuel
      obtain ⟨n, rfl⟩ : ∃ n, fuel = n + 1 := ⟨fuel - 1, by simp at hfuel; omega⟩
      simp [predWalk, hne, hp, ih n (by simpa using hfuel)]

/-! ## The forest invariant -/

/-- **The forest invariant.**  `closed` marks the vertices whose arcs may carry pointers. -/
structure Forest (G : WGraph V) (s : V) (closed : V → Prop) (g : V → WithTop ℤ)
    (pred : V → Option V) : Prop where
  root : g s = 0
  nonneg : ∀ v, 0 ≤ g v
  parent : ∀ v, v ≠ s → g v ≠ ⊤ →
    ∃ p w, pred v = some p ∧ closed p ∧ G.Arc p v w ∧ g p + (w : WithTop ℤ) ≤ g v
  rooted : ∀ v, g v ≠ ⊤ → ∃ k, Rooted s pred k v

namespace Forest

variable {closed closed' : V → Prop} {g : V → WithTop ℤ}

/-- Before the search only the source is labelled. -/
theorem start [DecidableEq V] (G : WGraph V) (s : V) (closed : V → Prop) (pred : V → Option V) :
    Forest G s closed (Function.update (fun _ => ⊤) s 0) pred where
  root := by simp
  nonneg v := by
    by_cases hv : v = s
    · subst hv; simp
    · simp [Function.update_of_ne hv]
  parent v hv hfin := by simp [Function.update_of_ne hv] at hfin
  rooted v hfin := by
    by_cases hv : v = s
    · subst hv; exact ⟨0, Rooted.root⟩
    · simp [Function.update_of_ne hv] at hfin

theorem mono (F : Forest G s closed g pred) (h : ∀ v, closed v → closed' v) :
    Forest G s closed' g pred where
  root := F.root
  nonneg := F.nonneg
  parent v hv hfin := by
    obtain ⟨p, w, hp, hcl, harc, hle⟩ := F.parent v hv hfin
    exact ⟨p, w, hp, h p hcl, harc, hle⟩
  rooted := F.rooted

/-- The label does not grow along a pointer. -/
theorem pred_le (F : Forest G s closed g pred) {v p : V} (hv : v ≠ s) (hfin : g v ≠ ⊤)
    (hp : pred v = some p) : g p ≤ g v := by
  obtain ⟨p', w, hp', _, harc, hle⟩ := F.parent v hv hfin
  obtain rfl : p = p' := Option.some.inj (hp.symm.trans hp')
  have hw : (0 : WithTop ℤ) ≤ (w : WithTop ℤ) := by exact_mod_cast harc.nonneg
  calc g p = g p + 0 := (add_zero _).symm
    _ ≤ g p + (w : WithTop ℤ) := by gcongr
    _ ≤ g v := hle

/-- A chain that starts strictly below the label of `x` never meets `x`, so redirecting `x` leaves
it alone. -/
theorem rooted_update_of_lt [DecidableEq V] (F : Forest G s closed g pred) {x : V} {q : Option V}
    {k : ℕ} {v : V} (h : Rooted s pred k v) (hlt : g v < g x) :
    Rooted s (Function.update pred x q) k v := by
  induction h with
  | root => exact Rooted.root
  | @step k v p hne hp _ ih =>
      have hvx : v ≠ x := by rintro rfl; exact lt_irrefl _ hlt
      have hle : g p ≤ g v := F.pred_le hne (ne_top_of_lt hlt) hp
      exact Rooted.step hne (by rw [Function.update_of_ne hvx]; exact hp) (ih (hle.trans_lt hlt))

/-- Once `x` itself is rooted after the redirection, so is every vertex that was rooted before. -/
theorem rooted_update [DecidableEq V] {x : V} {q : Option V} {k₀ : ℕ}
    (hx : Rooted s (Function.update pred x q) k₀ x) {k : ℕ} {v : V} (h : Rooted s pred k v) :
    ∃ k', Rooted s (Function.update pred x q) k' v := by
  induction h with
  | root => exact ⟨0, Rooted.root⟩
  | @step k v p hne hp _ ih =>
      by_cases hvx : v = x
      · exact ⟨k₀, hvx ▸ hx⟩
      · obtain ⟨k', hk'⟩ := ih
        exact ⟨k' + 1, Rooted.step hne (by rw [Function.update_of_ne hvx]; exact hp) hk'⟩

/-- **The relaxation step keeps the forest.**  `vd` is a snapshot of the label of `p` that may be
out of date, i.e. at least the present label. -/
theorem relax [DecidableEq V] (F : Forest G s closed g pred) {p x : V} {w : ℤ} {vd : WithTop ℤ}
    (hcl : closed p) (hvd : g p ≤ vd) (harc : G.Arc p x w)
    (hlt : vd + (w : WithTop ℤ) < g x) :
    Forest G s closed (Function.update g x (vd + (w : WithTop ℤ)))
      (Function.update pred x (some p)) := by
  have hw : (0 : WithTop ℤ) ≤ (w : WithTop ℤ) := by exact_mod_cast harc.nonneg
  have hnew : 0 ≤ vd + (w : WithTop ℤ) := add_nonneg ((F.nonneg p).trans hvd) hw
  have hple : g p ≤ vd + (w : WithTop ℤ) := by
    calc g p = g p + 0 := (add_zero _).symm
      _ ≤ vd + (w : WithTop ℤ) := add_le_add hvd hw
  have hpx : g p < g x := hple.trans_lt hlt
  have hpne : p ≠ x := by rintro rfl; exact lt_irrefl _ hpx
  -- the source has label 0 and is never lowered
  have hxs : x ≠ s := by
    rintro rfl
    rw [F.root] at hlt
    exact absurd hlt (not_lt.mpr hnew)
  -- the chain of `p` stays strictly below the old label of `x`, so the redirection does not touch it
  obtain ⟨k, hk⟩ := F.rooted p (ne_top_of_lt hpx)
  have hxroot : Rooted s (Function.update pred x (some p)) (k + 1) x :=
    Rooted.step hxs (Function.update_self x (some p) pred) (F.rooted_update_of_lt hk hpx)
  have hle : ∀ v, Function.update g x (vd + (w : WithTop ℤ)) v ≤ g v :=
    update_le_self_iff.mpr hlt.le
  refine ⟨?_, ?_, ?_, ?_⟩
  · rw [Function.update_of_ne (Ne.symm hxs)]
    exact F.root
  · intro v
    by_cases hv : v = x
    · subst hv; simpa using hnew
    · simpa [Function.update_of_ne hv] using F.nonneg v
  · intro v hvs hfin
    by_cases hv : v = x
    · subst hv
      refine ⟨p, w, Function.update_self v (some p) pred, hcl, harc, ?_⟩
      rw [Function.update_self, Function.update_of_ne hpne]
      gcongr
    · rw [Function.update_of_ne hv] at hfin
      obtain ⟨p', w', hp', hcl', harc', hle'⟩ := F.parent v hvs hfin
      refine ⟨p', w', by rw [Function.update_of_ne hv]; exact hp', hcl', harc', ?_⟩
      rw [Function.update_of_ne hv]
      exact (add_le_add_left (hle p') _).trans hle'
  · intro v hfin
    by_cases hv : v = x
    · exact ⟨k + 1, hv ▸ hxroot⟩
    · rw [Function.update_of_ne hv] at hfin
      obtain ⟨kv, hkv⟩ := F.rooted v hfin
      exact rooted_update hxroot hkv

/-- **The pointer walk.**  From every labelled vertex the pointers lead to the source without a
repetition, over arcs of total weight at most the label. -/
theorem exists_path (F : Forest G s closed g pred) {v : V} {a : ℤ} (ha : g v = (a : WithTop ℤ)) :
    ∃ l d, PredPath G s pred v l d ∧ d ≤ a := by
  obtain ⟨k, hk⟩ := F.rooted v (by rw [ha]; exact WithTop.coe_ne_top)
  induction hk generalizing a with
  | root =>
      rw [F.root] at ha
      obtain rfl : (0 : ℤ) = a := by exact_mod_cast ha
      exact ⟨[s], 0, PredPath.root, le_rfl⟩
  | @step k v p hne hp _ ih =>
      obtain ⟨p', w, hp', _, harc, hle⟩ := F.parent v hne (by rw [ha]; exact WithTop.coe_ne_top)
      obtain rfl : p = p' := Option.some.inj (hp.symm.trans hp')
      rw [ha] at hle
      have hpfin : g p ≠ ⊤ := by
        intro htop
        rw [htop, top_add] at hle
        exact absurd hle (not_le.mpr (WithTop.coe_lt_top a))
      obtain ⟨b, hb⟩ := WithTop.ne_top_iff_exists.mp hpfin
      obtain ⟨l, d, hpath, hd⟩ := ih hb.symm
      rw [← hb] at hle
      have hba : b + w ≤ a := by exact_mod_cast hle
      exact ⟨v :: l, d + w, PredPath.step hne hp harc hpath, by omega⟩

/-- Every labelled vertex is reached from the source. -/
theorem reaches (F : Forest G s closed g pred) {v : V} (hfin : g v ≠ ⊤) : G.Reaches s v := by
  obtain ⟨a, ha⟩ := WithTop.ne_top_iff_exists.mp hfin
  obtain ⟨l, d, hpath, -⟩ := F.exists_path ha.symm
  exact ⟨d, hpath.walk⟩

end Forest

end PwsaStar.Lib
