/-
# PwsaStar.Range.IntRange — when the distances of a search on a map are ints.

The model computes with integers.  As long as the keys are ints and every sum `Fits`, 32-bit arithmetic
computes the same, so the first sum that does not fit is also the first on which the program and the
model differ.  The heuristics that lead a search along a path are between `-INT_MAX` and 0: with them a
key is an int as long as the sum in it is one.

Which sums a search computes depends on the heuristic and, for `pwsa_pc`, on the order of the steps.  All
of them fit for all heuristics and orders if and only if no path without a shortcut is too long.  A row of
cells is one.
-/
import PwsaStar.Range.MapFile
import PwsaStar.Range.Steer
import PwsaStar.Range.Pwsa

namespace PwsaStar.Grid

open PwsaStar.Lib PwsaStar.Heap

/-- The value of an `int`. -/
def IsInt (a : ℤ) : Prop := -intMax - 1 ≤ a ∧ a ≤ intMax

/-- A sum is at most `INT_MAX`, 32-bit arithmetic computes it, and it is not taken for the `INT_MAX` of a
vertex without a label. -/
def Fits (x : Dist) : Prop :=
  ∃ a : ℤ, x = (a : Dist) ∧ a ≤ intMax ∧ (BitVec.ofInt 32 a).toInt = a ∧ a ≠ intMax

theorem fits_of_le {x : Dist} (hnonneg : 0 ≤ x) (hle : x ≤ ((intMax - 1 : ℤ) : Dist)) : Fits x := by
  obtain ⟨a, rfl⟩ := WithTop.ne_top_iff_exists.mp (ne_top_of_le_ne_top WithTop.coe_ne_top hle)
  have h0 : 0 ≤ a := by exact_mod_cast hnonneg
  have h1 : a ≤ intMax - 1 := by exact_mod_cast hle
  unfold intMax at h1
  refine ⟨a, rfl, by unfold intMax; omega, ?_, by unfold intMax; omega⟩
  rw [BitVec.toInt_ofInt]
  exact Int.bmod_eq_of_le (by norm_num; omega) (by norm_num; omega)

/-- **All sums of the searches from `s` to `t` fit**: those of `astar` and of `pwsa_pc`, for every
heuristic with int values, in every run. -/
structure SearchInRange (f : MapFile) (s t : Fin f.count) : Prop where
  astar : ∀ block heuristic pebble fuel, (∀ v, IsInt (heuristic v)) →
    ∀ x ∈ AStar.sums block f.graph heuristic s t pebble fuel, Fits x
  pwsaPc : ∀ (k : ℕ) (leader : Fin (k + 1)) block (P : Pwsa.Problem (Fin f.count)),
    P.graph = f.graph → P.source = s → P.destination = t → (∀ v, IsInt (P.heuristic v)) →
    ∀ c, (Pwsa.pwsaPc block P leader).Reachable c → ∀ w steps v vdistance arc arcs,
      c.pc w = .work (.relax steps v vdistance (arc :: arcs)) → Fits (vdistance + (arc.2 : Dist))

/-- **And so do those of `pathlen`**, for every result in which the destination is found. -/
structure InRange (f : MapFile) (s t : Fin f.count) : Prop extends SearchInRange f s t where
  astarPathlen : ∀ block heuristic pebble fuel st pops, (∀ v, IsInt (heuristic v)) →
    AStar.astar block f.graph heuristic s t pebble fuel = .found st pops →
    ∀ n, ∀ x ∈ f.object.pathlenSums (MapFile.predecessors st.pred) s n t 0, Fits (x : Dist)
  pwsaPcPathlen : ∀ (k : ℕ) (leader : Fin (k + 1)) block (P : Pwsa.Problem (Fin f.count)),
    P.graph = f.graph → P.source = s → P.destination = t → (∀ v, IsInt (P.heuristic v)) →
    ∀ c, (Pwsa.pwsaPc block P leader).Reachable c → c.shared.isExpanded t = true →
      ∀ n, ∀ x ∈ f.object.pathlenSums (MapFile.predecessors c.shared.pred) s n t 0, Fits (x : Dist)

variable {f : MapFile} {s t : Fin f.count}

/-! ## No long path, no large sum -/

/-- The chain of predecessors of a destination with a label of at most `intMax - 1` less the slack. -/
theorem pathlenSums_fits {expanded : Fin f.count → Prop} {g : Fin f.count → Dist}
    {pred : Fin f.count → Option (Fin f.count)} (F : Forest f.graph s expanded g pred)
    (hlabel : g t ≤ ((intMax - f.slack - 1 : ℤ) : Dist)) (n : ℕ) :
    ∀ x ∈ f.object.pathlenSums (MapFile.predecessors pred) s n t 0, Fits (x : Dist) := by
  intro x hx
  obtain ⟨a, ha⟩ := WithTop.ne_top_iff_exists.mp (ne_top_of_le_ne_top WithTop.coe_ne_top hlabel)
  rw [← ha] at hlabel
  have hle : a ≤ intMax - f.slack - 1 := by exact_mod_cast hlabel
  obtain ⟨l, d, hpath, hd⟩ := F.exists_path ha.symm
  obtain ⟨hlow, hhigh⟩ := MapFile.pathlenSums_le hpath n 0 x hx
  have hslack : f.slackOf l ≤ f.slack := by
    unfold MapFile.slackOf
    split
    · exact le_rfl
    · exact MapFile.slack_nonneg
  apply fits_of_le (by exact_mod_cast hlow)
  have hx' : x ≤ intMax - 1 := by omega
  exact_mod_cast hx'

/-- **If no chordless path is too long, the sums of the searches fit.** -/
theorem searchInRange_of_chordlessWithin (h : ChordlessWithin f.graph s t intMax) :
    SearchInRange f s t := by
  have hM : ChordlessWithin f.graph s t (intMax - 1) := MapFile.chordlessWithin_pred (by decide) h
  constructor
  · intro block heuristic pebble fuel _ x hx
    obtain ⟨hlow, hhigh⟩ := AStar.sums_le (by decide) hM block heuristic pebble fuel x hx
    exact fits_of_le hlow hhigh
  · rintro k leader block P hgraph rfl rfl _ c hc w steps v vdistance arc arcs hpc
    rw [← hgraph] at hM
    obtain ⟨hlow, hhigh⟩ := (Pwsa.reachable_within (by decide) (by decide) hM hc).1 w _ _ _ _ _ hpc
    exact fits_of_le hlow hhigh

/-- **With the slack taken off, those of `pathlen` fit as well.** -/
theorem inRange_of_chordlessWithin (h : ChordlessWithin f.graph s t (intMax - f.slack)) :
    InRange f s t := by
  have hslack : f.slack = 0 ∨ f.slack = 4142 := by
    unfold MapFile.slack
    split
    · exact Or.inl rfl
    · exact Or.inr rfl
  have hM : ChordlessWithin f.graph s t (intMax - f.slack - 1) := by
    refine MapFile.chordlessWithin_pred ?_ h
    unfold intMax
    omega
  have h0 : 0 ≤ intMax - f.slack - 1 := by
    unfold intMax
    omega
  have hint : ChordlessWithin f.graph s t intMax := by
    apply h.mono
    omega
  refine ⟨searchInRange_of_chordlessWithin hint, ?_, ?_⟩
  · intro block heuristic pebble fuel st pops _ hrun n
    obtain ⟨hlabelled, htop⟩ := AStar.found_labelled hrun
    refine pathlenSums_fits hlabelled.forest ?_ n
    rcases AStar.loop_dist hrun t with heq | hmem
    · by_cases hts : t = s
      · subst hts
        rw [hlabelled.forest.root]
        exact_mod_cast h0
      · rw [heq] at htop
        simp [AStar.start, hts] at htop
    · exact (AStar.sums_le h0 hM block heuristic pebble fuel _ hmem).2
  · rintro k leader block P hgraph rfl rfl _ c hc hexp n
    have hs := (Pwsa.search_refines .pwsa_pc block P leader).reachable hc
    have hmem := (Pwsa.reachable_pathInv (Or.inl (by decide)) hs).mem
    have hforest := hmem.forest
    rw [hgraph] at hforest
    rw [← hgraph] at hM
    have hlabels := (Pwsa.reachable_within (by decide) h0 hM hc).2 P.destination
    exact pathlenSums_fits hforest (hlabels.2 (hmem.labelled _ hexp)) n

/-! ## A long path makes a large sum -/

/-- A heuristic leads `astar` along the path. -/
theorem SearchInRange.sum_le (h : SearchInRange f s t) {v : Fin f.count} {d : ℤ} {q : List (Fin f.count × ℤ)}
    (hpath : Chordless f.graph s ((v, d) :: q)) (havoid : ∀ p ∈ (v, d) :: q, p.1 ≠ t)
    (hle : ∀ p ∈ (v, d) :: q, p.2 ≤ intMax) {x : Fin f.count} {w : ℤ} (harc : f.graph.Arc v x w) :
    d + w ≤ intMax := by
  have hpos : ∀ u y w, f.graph.Arc u y w → 0 < w := by
    intro u y w hw
    rcases MapFile.arc_weight hw with rfl | rfl <;> decide
  have hint : ∀ y, IsInt (AStar.steer ((v, d) :: q) y) := by
    intro y
    obtain ⟨hlow, hhigh⟩ := AStar.steer_bounds hpath.nonneg hle (by decide) y
    unfold IsInt
    unfold intMax at hlow ⊢
    omega
  obtain ⟨fuel, hmem⟩ :=
    AStar.exists_sum hpos hpath havoid harc (fun _ => (⟨⊤, s⟩ : KV Dist (Fin f.count))) false
  obtain ⟨a, ha, hle', -⟩ := h.astar _ _ false fuel hint _ hmem
  obtain rfl : d + w = a := by exact_mod_cast ha
  exact hle'

theorem SearchInRange.path_le (h : SearchInRange f s t) {q : List (Fin f.count × ℤ)}
    (hpath : Chordless f.graph s q) (havoid : ∀ p ∈ q, p.1 ≠ t) : ∀ p ∈ q, p.2 ≤ intMax := by
  induction hpath with
  | source =>
    intro p hp
    obtain rfl := List.mem_singleton.mp hp
    show (0 : ℤ) ≤ intMax
    decide
  | @snoc u v e w q hprefix harc _ _ _ ih =>
    have havoid' : ∀ p ∈ (u, e) :: q, p.1 ≠ t := fun p hp => havoid p (List.mem_cons_of_mem _ hp)
    intro p hp
    rcases List.mem_cons.mp hp with rfl | hp
    · exact h.sum_le hprefix havoid' (ih havoid') harc
    · exact ih havoid' p hp

/-- **If the sums of the searches fit, no chordless path is too long.** -/
theorem SearchInRange.chordlessWithin (h : SearchInRange f s t) : ChordlessWithin f.graph s t intMax :=
  fun _ _ _ hpath havoid _ _ harc => h.sum_le hpath havoid (h.path_le hpath havoid) harc

/-! ## A row of free cells -/

theorem cellsOf_replicate (n : ℕ) :
    cellsOf (GridMap.skipSpace (List.replicate n '.')) = List.replicate n '.' := by
  rw [cellsOf_skipSpace, cellsOf, List.filter_replicate]
  · simp
  · intro c hc
    rw [List.eq_of_mem_replicate hc]
    decide

/-- The map of one row of `n` free cells. -/
def rowFile (n : ℕ) (hn : (n : ℤ) ≤ intMax) : MapFile where
  height := 1
  width := n
  body := List.replicate n '.'
  height_le := by decide
  width_le := hn
  area_le := by rwa [Nat.one_mul]
  complete := by
    rw [Nat.one_mul, cellsOf_replicate, List.length_replicate]

section Row

variable {n : ℕ} {hn : (n : ℤ) ≤ intMax}

theorem rowFile_cells : mapCells 1 n (List.replicate n '.') = List.replicate n '.' := by
  rw [mapCells, cellsOf_replicate, Nat.one_mul]
  simp

theorem rowFile_recognised : (rowFile n hn).Recognised := by
  intro ch hch
  have hmem : ch ∈ mapCells 1 n (List.replicate n '.') := hch
  rw [rowFile_cells] at hmem
  rw [List.eq_of_mem_replicate hmem]
  decide

theorem freeCells_replicate (width : ℕ) : ∀ k m,
    (freeCells width k (List.replicate m '.')).length = m := by
  intro k m
  induction m generalizing k with
  | zero => rfl
  | succ m ih =>
    rw [List.replicate_succ, freeCells, if_pos (by decide), List.length_cons, ih]

theorem rowFile_vertices : (rowFile n hn).map.vertices = freeCells n 0 (List.replicate n '.') := by
  rw [show (rowFile n hn).map.vertices = _ from vertices_readMap]
  exact congrArg (freeCells n 0) rowFile_cells

theorem rowFile_count : (rowFile n hn).count = n := by
  rw [MapFile.count, GridMap.numberVertices, rowFile_vertices, freeCells_replicate]

/-- Vertex `k` stands in column `k`. -/
theorem rowFile_get {k : ℕ} (hk : k < n) : (rowFile n hn).map.vertices[k]? = some ⟨0, k⟩ := by
  have hch : (List.replicate n '.')[k]? = some '.' := by
    rw [List.getElem?_replicate, if_pos hk]
  have hget := freeCells_get n (k := 0) hch (by decide)
  rw [List.take_replicate, Nat.min_eq_left hk.le, freeCells_replicate, Nat.zero_add,
    Nat.div_eq_of_lt hk, Nat.mod_eq_of_lt hk] at hget
  rw [rowFile_vertices]
  exact hget

theorem rowFile_lt (v : Fin (rowFile n hn).count) : v.val < n := lt_of_lt_of_eq v.isLt rowFile_count

/-- Arcs lead one column to the left or to the right. -/
theorem rowFile_arc {u v : Fin (rowFile n hn).count} {w : ℤ} :
    (rowFile n hn).graph.Arc u v w ↔ (u.val + 1 = v.val ∨ v.val + 1 = u.val) ∧ w = 10000 := by
  have hu : (rowFile n hn).map.vertices[u.val]? = some ⟨0, u⟩ := rowFile_get (rowFile_lt u)
  have hv : (rowFile n hn).map.vertices[v.val]? = some ⟨0, v⟩ := rowFile_get (rowFile_lt v)
  constructor
  · intro h
    obtain ⟨-, -, ⟨p, q, hp, hq, hadj⟩ | ⟨-, hunknown⟩⟩ :=
      MapFile.neighbor_cases _ ((MapFile.arc_iff _).mp h)
    · obtain rfl := Option.some.inj (hu.symm.trans hp)
      obtain rfl := Option.some.inj (hv.symm.trans hq)
      obtain ⟨⟨-, hcol, hne⟩, hw⟩ := hadj
      have hsame : u.val ≠ v.val := fun heq => hne (by rw [heq])
      have hstraight : w = 10000 := hw.trans (if_pos (Or.inl rfl))
      dsimp only at hcol
      exact ⟨by omega, hstraight⟩
    · exact absurd rowFile_recognised hunknown
  · rintro ⟨hnext, rfl⟩
    refine MapFile.arc_of_adjacent hu hv ⟨⟨?_, ?_, ?_⟩, ?_⟩
    · simp
    · show ((v.val : ℤ) - u.val).natAbs ≤ 1
      omega
    · intro heq
      have hcol : v.val = u.val := congrArg Coords.col heq
      omega
    · rw [if_pos (Or.inl rfl)]

/-- The row up to vertex `k`. -/
theorem rowFile_chordless (h0 : 0 < (rowFile n hn).count) :
    ∀ k (hk : k < (rowFile n hn).count), ∃ q, (∀ p ∈ q, p.1.val < k) ∧
      Chordless (rowFile n hn).graph ⟨0, h0⟩ ((⟨k, hk⟩, 10000 * k) :: q) := by
  intro k
  induction k with
  | zero =>
    intro hk
    exact ⟨[], by simp, .source⟩
  | succ k ih =>
    intro hk
    obtain ⟨q, hbefore, hpath⟩ := ih (by omega)
    refine ⟨(⟨k, by omega⟩, 10000 * k) :: q, ?_, ?_⟩
    · intro p hp
      rcases List.mem_cons.mp hp with rfl | hp
      · exact Nat.lt_succ_self k
      · exact (hbefore p hp).trans (Nat.lt_succ_self k)
    · rw [Nat.cast_succ, mul_add_one]
      refine hpath.snoc (rowFile_arc.mpr ⟨Or.inl rfl, rfl⟩) ?_ ?_ ?_
      · intro w' harc
        rw [(rowFile_arc.mp harc).2]
      · simp
      · intro p hp
        have hlt := hbefore p hp
        refine ⟨fun heq => ?_, fun w' harc => ?_⟩
        · rw [heq] at hlt
          dsimp only at hlt
          omega
        · have hnext := (rowFile_arc.mp harc).1
          dsimp only at hnext
          omega

end Row

/-! ## The condition -/

/-- **When the distances stay ints.**  The sums of the searches fit if and only if no chordless path from
the source that avoids the destination, extended by one arc, is longer than `INT_MAX`.  On a map of known
characters those of `pathlen` then fit as well.  Unknown characters can make `pathlen` add up 4142 more
than the arcs weigh. -/
theorem inRange_iff (f : MapFile) (s t : Fin f.count) :
    (SearchInRange f s t ↔ ChordlessWithin f.graph s t intMax) ∧
    (f.Recognised → (InRange f s t ↔ ChordlessWithin f.graph s t intMax)) ∧
    (ChordlessWithin f.graph s t (intMax - 4142) → InRange f s t) := by
  refine ⟨⟨SearchInRange.chordlessWithin, searchInRange_of_chordlessWithin⟩, ?_, ?_⟩
  · intro hknown
    refine ⟨fun h => h.toSearchInRange.chordlessWithin, fun h => inRange_of_chordlessWithin ?_⟩
    rw [show f.slack = 0 from if_pos hknown, sub_zero]
    exact h
  · intro h
    refine inRange_of_chordlessWithin (h.mono ?_)
    have hslack := f.slack_le
    omega

theorem inRange_iff_row : ∃ s t : Fin (rowFile 3 (by decide)).count, s.val = 0 ∧ t.val = 2 ∧
    InRange (rowFile 3 (by decide)) s t := by
  have hcount : (rowFile 3 (by decide)).count = 3 := rowFile_count
  refine ⟨⟨0, by omega⟩, ⟨2, by omega⟩, rfl, rfl, ?_⟩
  refine ((inRange_iff _ _ _).2.1 rowFile_recognised).mpr (chordlessWithin_of_card (c := 10000) ?_ ?_)
  · intro u v w harc
    exact (rowFile_arc.mp harc).2.le
  · rw [Fintype.card_fin, hcount]
    decide

/-- **Nothing keeps them in range.**  In a row of 214750 free cells the arc into the last one makes the sum
2147490000. -/
theorem rowFile_overflows : ∃ s t : Fin (rowFile 214750 (by decide)).count, s.val = 0 ∧ t.val = 214749 ∧
    (rowFile 214750 (by decide)).graph.Reaches s t ∧ ¬ InRange (rowFile 214750 (by decide)) s t := by
  have hcount : (rowFile 214750 (by decide)).count = 214750 := rowFile_count
  have h0 : 0 < (rowFile 214750 (by decide)).count := by omega
  have hlast : 214749 < (rowFile 214750 (by decide)).count := by omega
  have hprev : 214748 < (rowFile 214750 (by decide)).count := by omega
  have harc : (rowFile 214750 (by decide)).graph.Arc ⟨214748, hprev⟩ ⟨214749, hlast⟩ 10000 :=
    rowFile_arc.mpr ⟨Or.inl rfl, rfl⟩
  obtain ⟨q, hbefore, hpath⟩ := rowFile_chordless h0 214748 hprev
  refine ⟨⟨0, h0⟩, ⟨214749, hlast⟩, rfl, rfl, ⟨_, (hpath.walk rfl).snoc harc⟩, fun h => ?_⟩
  refine absurd (h.toSearchInRange.chordlessWithin _ _ _ hpath ?_ _ _ harc) (by decide)
  intro p hp heq
  have hval : p.1.val = 214749 := congrArg Fin.val heq
  rcases List.mem_cons.mp hp with rfl | hp
  · cases hval
  · have hlt := hbefore p hp
    omega

/-- **A size at which nothing can happen**: 151852 free cells. -/
theorem inRange_of_count (h : f.count ≤ 151852) : InRange f s t := by
  refine inRange_of_chordlessWithin (chordlessWithin_of_card (c := 14142) (fun u v w harc => ?_) ?_)
  · rcases MapFile.arc_weight harc with rfl | rfl <;> decide
  · have hslack := f.slack_le
    rw [Fintype.card_fin]
    unfold intMax
    omega

end PwsaStar.Grid
