/-
# PwsaStar.Range.MapFile — the graph of a map file, and the partial sums of `pathlen`.

A `MapFile` is what the constructor of `Graph` accepts: `height`, `width` and their product are ints and
there is a character for every cell.  Its vertices are numbered below `count`, so a search runs on the
finite graph `graph`.

On a map of known characters `weight_between` charges for an arc what the arc weighs.  A cell with an
unknown character passes for vertex 0.  An arc into such a cell is charged differently, and a chain of
predecessors has at most one.
-/
import PwsaStar.Grid.Pathlen
import PwsaStar.Lib.ChordlessPath
import PwsaStar.Lib.PredForest

namespace PwsaStar.Grid

open PwsaStar.Lib

/-- `numeric_limits<int>::max()` -/
def intMax : ℤ := 2147483647

/-- A map file after `height` and `width` are read. -/
structure MapFile where
  height : ℕ
  width : ℕ
  body : List Char
  height_le : (height : ℤ) ≤ intMax
  width_le : (width : ℤ) ≤ intMax
  area_le : ((height * width : ℕ) : ℤ) ≤ intMax
  complete : height * width ≤ (cellsOf (GridMap.skipSpace body)).length

namespace MapFile

variable (f : MapFile)

/-- What is read. -/
def map : GridMap := readMap f.height f.width f.body

/-- `number_vertices()` -/
def count : ℕ := f.map.numberVertices

/-- The object that the constructor makes. -/
def object : Graph := .ofMap f.map

theorem construct_eq : Graph.construct f.height f.width f.body = some f.object :=
  Graph.construct_readMap f.complete

/-- All characters that fill cells are known. -/
def Recognised : Prop := ∀ ch ∈ mapCells f.height f.width f.body, GridMap.isRecognised ch = true

instance : Decidable f.Recognised :=
  inferInstanceAs (Decidable (∀ ch ∈ mapCells f.height f.width f.body, GridMap.isRecognised ch = true))

/-- A vertex as a number below `count`. -/
def toFin (a : ℕ × ℤ) : Option (Fin f.count × ℤ) :=
  if h : a.1 < f.count then some (⟨a.1, h⟩, a.2) else none

/-- The graph that a search sees through `for_each_neighbor_of`. -/
def graph : WGraph (Fin f.count) where
  nbrs v := (f.map.forEachNeighborOf unitCharge v).filterMap f.toFin
  nonneg v a ha := by
    obtain ⟨b, hb, hba⟩ := List.mem_filterMap.mp ha
    unfold toFin at hba
    split at hba
    · obtain rfl := Option.some.inj hba
      exact (f.map.graph unitCharge).nonneg v b hb
    · cases hba

/-- A cell that holds a number holds that of the vertex that stands there, or 0. -/
theorem grid_cases {r c k : ℕ} (hr : r < f.height) (hc : c < f.width)
    (hgrid : f.map.grid r c = some k) :
    f.map.vertices[k]? = some ⟨r, c⟩ ∨ (k = 0 ∧ ¬ f.Recognised) := by
  by_cases hknown : f.Recognised
  · obtain ⟨hw, hh⟩ := readMap_size f.height f.width f.body
    refine Or.inl ((inverse_readMap f.complete hknown).placed r c k ?_ ?_ hgrid)
    · rw [hh]
      exact hr
    · rw [hw]
      exact hc
  · obtain ⟨ch, hch⟩ := exists_char f.complete hr hc
    have hvalue : f.map.grid r c = cellValue _ (some 0) ch := grid_readMap hc hch
    rw [hgrid, cellValue] at hvalue
    split at hvalue
    · rename_i hfree
      obtain rfl := Option.some.inj hvalue
      have hget := freeCells_get f.width (k := 0) hch hfree
      rw [Nat.zero_add, div_row hc, mod_row hc] at hget
      apply Or.inl
      rw [show f.map.vertices = _ from vertices_readMap]
      exact hget
    · split at hvalue
      · cases hvalue
      · obtain rfl := Option.some.inj hvalue
        exact Or.inr ⟨rfl, hknown⟩

/-- What a neighbor of a vertex is. -/
theorem neighbor_cases {u : ℕ} {a : ℕ × ℤ} (h : a ∈ f.map.forEachNeighborOf unitCharge u) :
    a.1 < f.count ∧ (a.2 = 10000 ∨ a.2 = 14142) ∧
      ((∃ p q, f.map.vertices[u]? = some p ∧ f.map.vertices[a.1]? = some q ∧ Adjacent p q a.2) ∨
        (a.1 = 0 ∧ ¬ f.Recognised)) := by
  obtain ⟨hu, d, hd, hnbr⟩ := GridMap.mem_forEachNeighborOf.mp h
  obtain ⟨r, c, hr, hc, hrow, hcol, hgrid, hw⟩ := GridMap.neighborAt_eq_some hnbr
  obtain ⟨hwidth, hheight⟩ := readMap_size f.height f.width f.body
  have hdist : ∀ d ∈ directions, d.dist = 10000 ∨ d.dist = 14142 := by decide
  have hweight : a.2 = 10000 ∨ a.2 = 14142 := by
    rw [show a.2 = d.dist from hw]
    exact hdist d hd
  have hrow' : r < f.height := by
    rw [← hheight]
    exact hrow
  have hcol' : c < f.width := by
    rw [← hwidth]
    exact hcol
  rcases f.grid_cases hrow' hcol' hgrid with hplace | ⟨hzero, hunknown⟩
  · refine ⟨(List.getElem?_eq_some_iff.mp hplace).1, hweight, Or.inl ?_⟩
    refine ⟨_, _, GridMap.coordsOf_eq hu, hplace, ?_⟩
    rw [show a.2 = d.dist from hw]
    exact adjacent_of_direction hd hr hc
  · refine ⟨?_, hweight, Or.inr ⟨hzero, hunknown⟩⟩
    rw [hzero]
    exact Nat.zero_lt_of_lt hu

/-- **No neighbor is left out.** -/
theorem graph_nbrs (v : Fin f.count) :
    (f.graph.nbrs v).map (fun a => (a.1.val, a.2)) = f.map.forEachNeighborOf unitCharge v := by
  show ((f.map.forEachNeighborOf unitCharge v).filterMap f.toFin).map _ = _
  rw [List.map_filterMap]
  have hsome : ∀ a ∈ f.map.forEachNeighborOf unitCharge v,
      (f.toFin a).map (fun a => (a.1.val, a.2)) = some a := by
    intro a ha
    rw [toFin, dif_pos (f.neighbor_cases ha).1]
    rfl
  rw [List.filterMap_congr hsome, List.filterMap_some]

theorem arc_iff {u v : Fin f.count} {w : ℤ} :
    f.graph.Arc u v w ↔ (v.val, w) ∈ f.map.forEachNeighborOf unitCharge u := by
  rw [← f.graph_nbrs u, List.mem_map]
  constructor
  · intro h
    exact ⟨(v, w), h, rfl⟩
  · rintro ⟨⟨v', w'⟩, h, heq⟩
    obtain ⟨hv, rfl⟩ : v'.val = v.val ∧ w' = w := by simpa using heq
    obtain rfl := Fin.ext hv
    exact h

variable {f}

theorem arc_weight {u v : Fin f.count} {w : ℤ} (h : f.graph.Arc u v w) : w = 10000 ∨ w = 14142 :=
  (f.neighbor_cases (f.arc_iff.mp h)).2.1

/-- Adjacent vertices are joined by an arc. -/
theorem arc_of_adjacent {u v : Fin f.count} {w : ℤ} {p q : Coords} (hp : f.map.vertices[u.val]? = some p)
    (hq : f.map.vertices[v.val]? = some q) (h : Adjacent p q w) : f.graph.Arc u v w := by
  have hstored := (Graph.storedArc_iff hp).mp (Graph.storedArc_of_adjacent hp hq h)
  obtain ⟨d, hd, hsome⟩ := List.mem_filterMap.mp hstored
  obtain ⟨⟨x, w'⟩, hnbr, heq⟩ := Option.map_eq_some_iff.mp hsome
  obtain ⟨rfl, rfl⟩ : x = v.val ∧ w' = w := by simpa [Graph.asInt] using heq
  rw [f.arc_iff, GridMap.mem_forEachNeighborOf]
  refine ⟨u.isLt, d, hd, ?_⟩
  obtain rfl : p = f.map.coordsOf u := Option.some.inj (hp.symm.trans (GridMap.coordsOf_eq u.isLt))
  exact hnbr

/-! ## Paths are even -/

theorem chordless_even {s : Fin f.count} {q : List (Fin f.count × ℤ)} (h : Chordless f.graph s q) :
    ∀ p ∈ q, (2 : ℤ) ∣ p.2 := by
  induction h with
  | source => simp
  | @snoc u v e w q _ harc _ _ _ ih =>
    intro p hp
    rcases List.mem_cons.mp hp with rfl | hp
    · have hprefix := ih (u, e) List.mem_cons_self
      rcases arc_weight harc with rfl | rfl
      · dsimp only at hprefix ⊢
        omega
      · dsimp only at hprefix ⊢
        omega
    · exact ih p hp

/-- So an odd bound is never attained. -/
theorem chordlessWithin_pred {s t : Fin f.count} {M : ℤ} (hodd : M % 2 = 1)
    (h : ChordlessWithin f.graph s t M) : ChordlessWithin f.graph s t (M - 1) := by
  intro v d q hpath havoid x w harc
  have hle := h v d q hpath havoid x w harc
  have heven := chordless_even hpath (v, d) List.mem_cons_self
  dsimp only at heven
  rcases arc_weight harc with rfl | rfl <;> omega

/-! ## `pathlen` -/

variable (f) in
/-- By how much `weight_between` can exceed an arc into an unknown cell. -/
def slack : ℤ := if f.Recognised then 0 else 4142

theorem slack_nonneg : 0 ≤ f.slack := by
  unfold slack
  split <;> decide

theorem slack_le : f.slack ≤ 4142 := by
  unfold slack
  split <;> decide

/-- What `weight_between` charges for the way back over an arc. -/
theorem weightBetween_le {u v : Fin f.count} {w w' : ℤ} (harc : f.graph.Arc u v w)
    (h : f.object.weightBetween v u = .value w') :
    0 ≤ w' ∧ w' ≤ w + if v.val = 0 then f.slack else 0 := by
  obtain ⟨-, hweight, hcases⟩ := f.neighbor_cases (f.arc_iff.mp harc)
  rcases hcases with ⟨p, q, hp, hq, hadj⟩ | ⟨hzero, hunknown⟩
  · have hlength := (Graph.lengthOf_adjacent hadj.symm).1
    rw [Graph.weightBetween_of_length (g := f.object) hq hp hlength, Graph.Outcome.value.injEq] at h
    have hslack : (0 : ℤ) ≤ if v.val = 0 then f.slack else 0 := by
      split
      · exact slack_nonneg
      · exact le_rfl
    have hnonneg := harc.nonneg
    dsimp only at h
    omega
  · have hv : f.map.vertices[v.val]? = some _ := List.getElem?_eq_getElem v.isLt
    have hu : f.map.vertices[u.val]? = some _ := List.getElem?_eq_getElem u.isLt
    have hslack : f.slack = 4142 := if_neg hunknown
    rw [if_pos hzero, hslack]
    dsimp only at hweight
    rcases Graph.weightBetween_cases (g := f.object) hv hu with ⟨-, h0⟩ | ⟨len, hlen, hw⟩ | ⟨-, hexit⟩
    · rw [h, Graph.Outcome.value.injEq] at h0
      omega
    · rw [h, Graph.Outcome.value.injEq] at hw
      have hlen' : len = 10000 ∨ len = 14142 := by
        generalize Graph.diff _ _ = n at hlen
        match n with
        | 0 => cases hlen
        | 1 => exact Or.inl (Option.some.inj hlen).symm
        | 2 => exact Or.inr (Option.some.inj hlen).symm
        | n + 3 => cases hlen
      omega
    · rw [h] at hexit
      cases hexit

end MapFile

/-- The values of `len` in `pathlen`, after each `+=`; the first number bounds the iterations. -/
def Graph.pathlenSums (g : Graph) (predecessors : List ℤ) (src : ℕ) : ℕ → ℕ → ℤ → List ℤ
  | 0, _, _ => []
  | fuel + 1, curr, len =>
    if curr = src then []
    else
      match predecessorOf predecessors curr with
      | none => []
      | some p =>
        match g.weightBetween curr p with
        | .value w => (len + w) :: pathlenSums g predecessors src fuel p (len + w)
        | .exit => []
        | .fault => []

namespace MapFile

variable {f : MapFile}

/-- The array of predecessors that a result is read as. -/
def predecessors {n : ℕ} (pred : Fin n → Option (Fin n)) : List ℤ :=
  List.ofFn fun v => match pred v with
    | some p => (p.val : ℤ)
    | none => -1

theorem predecessorOf_predecessors {n : ℕ} {pred : Fin n → Option (Fin n)} {v p : Fin n}
    (h : pred v = some p) : Graph.predecessorOf (predecessors pred) v = some p.val := by
  have hget : (predecessors pred)[v.val]? = some (p.val : ℤ) := by
    rw [predecessors, List.getElem?_ofFn, dif_pos v.isLt]
    simp [h]
  simp [Graph.predecessorOf, hget]

/-- The slack of a chain. -/
def slackOf (f : MapFile) (l : List (Fin f.count)) : ℤ := if ∃ y ∈ l, y.val = 0 then f.slack else 0

theorem slackOf_cons {v : Fin f.count} {l : List (Fin f.count)} (h : v ∉ l) :
    (if v.val = 0 then f.slack else 0) + f.slackOf l ≤ f.slackOf (v :: l) := by
  unfold slackOf
  by_cases hv : v.val = 0
  · have hnone : ¬ ∃ y ∈ l, y.val = 0 := by
      rintro ⟨y, hy, hzero⟩
      obtain rfl : y = v := Fin.ext (hzero.trans hv.symm)
      exact h hy
    rw [if_pos hv, if_neg hnone, if_pos ⟨v, List.mem_cons_self, hv⟩, add_zero]
  · rw [if_neg hv, zero_add]
    by_cases hrest : ∃ y ∈ l, y.val = 0
    · obtain ⟨y, hy, hzero⟩ := hrest
      rw [if_pos ⟨y, hy, hzero⟩, if_pos ⟨y, List.mem_cons_of_mem _ hy, hzero⟩]
    · rw [if_neg hrest]
      split
      · exact slack_nonneg
      · exact le_rfl

/-- **The partial sums of `pathlen`** along a chain of predecessors. -/
theorem pathlenSums_le {s : Fin f.count} {pred : Fin f.count → Option (Fin f.count)}
    {v : Fin f.count} {l : List (Fin f.count)} {d : ℤ} (h : PredPath f.graph s pred v l d) :
    ∀ (fuel : ℕ) (len : ℤ), ∀ x ∈ f.object.pathlenSums (predecessors pred) s fuel v len,
      len ≤ x ∧ x ≤ len + d + f.slackOf l := by
  induction h with
  | root =>
    intro fuel len x hx
    cases fuel with
    | zero => cases hx
    | succ fuel => simp [Graph.pathlenSums] at hx
  | @step v p w d l hne hp harc hrest ih =>
    intro fuel len x hx
    cases fuel with
    | zero => cases hx
    | succ fuel =>
      have hvs : v.val ≠ s.val := fun heq => hne (Fin.ext heq)
      have hslack := slackOf_cons (f := f) (List.nodup_cons.mp (PredPath.step hne hp harc hrest).nodup).1
      have hslack' : 0 ≤ f.slackOf l := by
        unfold slackOf
        split
        · exact slack_nonneg
        · exact le_rfl
      have hd := hrest.walk.nonneg
      simp only [Graph.pathlenSums, if_neg hvs, predecessorOf_predecessors hp] at hx
      cases hbetween : f.object.weightBetween v p with
      | value w' =>
        obtain ⟨hlow, hhigh⟩ := weightBetween_le harc hbetween
        rw [hbetween] at hx
        rcases List.mem_cons.mp hx with rfl | hx
        · exact ⟨by omega, by omega⟩
        · obtain ⟨hlow', hhigh'⟩ := ih fuel (len + w') x hx
          exact ⟨by omega, by omega⟩
      | exit | fault =>
        rw [hbetween] at hx
        cases hx

end MapFile

end PwsaStar.Grid
