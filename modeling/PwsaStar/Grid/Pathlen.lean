/-
# PwsaStar.Grid.Pathlen — `weight_between` and `pathlen` of `Graph`: which moves the checker accepts.

`populate_neighbors` stores an arc for each of the eight offsets; `weight_between` decides by the sum
of the differences of the coordinates whether two vertices are adjacent, and accepts a sum of 2 as a
diagonal move.  Two cells apart in a line also make 2.  So the checker accepts exactly the stored arcs,
except for two vertices that stand two apart in a line: such a pair is taken for a diagonal move
although no arc joins it.

`pathlen` follows an array of predecessors and adds up what `weight_between` says.  `Arrives` and
`Rejected` say what the array looks like when it does so truthfully; an array whose chain comes back to
itself keeps the loop from ending.  On a map of known characters to arrive is to lead to `src` without a
jump (`NoJump`).  On others an arc to vertex 0 may have a wrong length, but a chain that ends moves to
vertex 0 only once.
-/
import PwsaStar.Grid.Adjacency

namespace PwsaStar.Grid.Graph

/-! ## The program -/

/-- How a call ends: with a value, by `std::exit` with the error message, or outside an array. -/
inductive Outcome (α : Type) where
  | value (a : α)
  | exit
  | fault
  deriving DecidableEq

/-- `diff` in `weight_between` -/
def diff (p q : Coords) : ℕ := (p.row - q.row : ℤ).natAbs + (p.col - q.col : ℤ).natAbs

/-- `weight_between` -/
def weightBetween (g : Graph) (u v : ℕ) : Outcome ℤ :=
  match g.vertices[u]?, g.vertices[v]? with
  | some p, some q =>
    match diff p q with
    | 0 => .value 0
    | 1 => .value 10000
    | 2 => .value 14142
    | _ => .exit
  | _, _ => .fault

/-- The predecessor of `curr`, if it is in the array and can be an index. -/
def predecessorOf (predecessors : List ℤ) (curr : ℕ) : Option ℕ :=
  match predecessors[curr]? with
  | some p => if 0 ≤ p then some p.toNat else none
  | none => none

/-- The loop of `pathlen`, from `curr` on with `len` so far; the first number bounds the iterations and
`none` says that they ran out. -/
def pathlen (g : Graph) (predecessors : List ℤ) (src : ℕ) : ℕ → ℕ → ℤ → Option (Outcome ℤ)
  | 0, _, _ => none
  | fuel + 1, curr, len =>
    if curr = src then some (.value len)
    else
      match predecessorOf predecessors curr with
      | none => some .fault
      | some p =>
        match g.weightBetween curr p with
        | .value w => pathlen g predecessors src fuel p (len + w)
        | .exit => some .exit
        | .fault => some .fault

/-- There is a stored arc from `u` to `v` of this weight. -/
def StoredArc (g : Graph) (u v : ℕ) (weight : ℤ) : Prop :=
  ∃ l, g.forEachNeighborOf u = some l ∧ ((v : ℤ), weight) ∈ l

/-- **The checker is exact for `u` and `v`**: it returns 0 for a vertex and itself and the weight of
the arc for neighbors, and leaves the program otherwise. -/
structure Exact (g : Graph) (u v : ℕ) : Prop where
  value : ∀ weight, g.weightBetween u v = .value weight ↔
    (u = v ∧ weight = 0) ∨ g.StoredArc u v weight
  exit : g.weightBetween u v = .exit ↔ u ≠ v ∧ ∀ weight, ¬ g.StoredArc u v weight

/-- A path of stored arcs along the predecessors from `curr` to `src`, of length `d`. -/
inductive Genuine (g : Graph) (predecessors : List ℤ) (src : ℕ) : ℕ → ℤ → Prop
  | nil : Genuine g predecessors src src 0
  | cons {curr p : ℕ} {weight d : ℤ} : curr ≠ src → predecessorOf predecessors curr = some p →
      g.StoredArc curr p weight → Genuine g predecessors src p d →
      Genuine g predecessors src curr (weight + d)

/-- Two cells apart in a line. -/
def InLine (p q : Coords) : Prop := diff p q = 2 ∧ (p.row = q.row ∨ p.col = q.col)

instance (p q : Coords) : Decidable (InLine p q) := inferInstanceAs (Decidable (_ ∧ _))

/-- The length of a move by the sum of the differences. -/
def lengthOf : ℕ → Option ℤ
  | 1 => some 10000
  | 2 => some 14142
  | _ => none

/-- The chain of predecessors from a vertex comes to `src` after so many moves. -/
inductive Leads (predecessors : List ℤ) (src : ℕ) : ℕ → ℕ → Prop
  | nil : Leads predecessors src 0 src
  | cons {n curr v : ℕ} : curr ≠ src → predecessorOf predecessors curr = some v →
      Leads predecessors src n v → Leads predecessors src (n + 1) curr

section Pair

variable {g : Graph} {u v : ℕ} {p q : Coords}

theorem weightBetween_of_length {weight : ℤ} (hp : g.vertices[u]? = some p)
    (hq : g.vertices[v]? = some q) (h : lengthOf (diff p q) = some weight) :
    g.weightBetween u v = .value weight := by
  unfold weightBetween
  rw [hp, hq]
  dsimp only
  generalize diff p q = n at h ⊢
  match n with
  | 0 => cases h
  | 1 => cases h; rfl
  | 2 => cases h; rfl
  | n + 3 => cases h

theorem weightBetween_far (hp : g.vertices[u]? = some p) (hq : g.vertices[v]? = some q)
    (h : 3 ≤ diff p q) : g.weightBetween u v = .exit := by
  unfold weightBetween
  rw [hp, hq]
  dsimp only
  generalize diff p q = n at h ⊢
  match n with
  | 0 | 1 | 2 => omega
  | n + 3 => rfl

/-- What `weight_between` says, by the cells. -/
theorem weightBetween_cases (hp : g.vertices[u]? = some p) (hq : g.vertices[v]? = some q) :
    (p = q ∧ g.weightBetween u v = .value 0) ∨
    (∃ weight, lengthOf (diff p q) = some weight ∧ g.weightBetween u v = .value weight) ∨
    (3 ≤ diff p q ∧ g.weightBetween u v = .exit) := by
  rcases Nat.lt_or_ge (diff p q) 3 with hnear | hfar
  · obtain hzero | hone | htwo : diff p q = 0 ∨ diff p q = 1 ∨ diff p q = 2 := by omega
    · refine Or.inl ⟨?_, ?_⟩
      · obtain ⟨pr, pc⟩ := p
        obtain ⟨qr, qc⟩ := q
        simp only [diff] at hzero
        rw [Coords.mk.injEq]
        omega
      · unfold weightBetween
        rw [hp, hq]
        dsimp only
        rw [hzero]
        rfl
    · have hlen : lengthOf (diff p q) = some 10000 := by rw [hone]; rfl
      exact Or.inr (Or.inl ⟨_, hlen, weightBetween_of_length hp hq hlen⟩)
    · have hlen : lengthOf (diff p q) = some 14142 := by rw [htwo]; rfl
      exact Or.inr (Or.inl ⟨_, hlen, weightBetween_of_length hp hq hlen⟩)
  · exact Or.inr (Or.inr ⟨hfar, weightBetween_far hp hq hfar⟩)

theorem lengthOf_adjacent {weight : ℤ} (h : Adjacent p q weight) :
    lengthOf (diff p q) = some weight ∧ ¬ InLine p q := by
  obtain ⟨pr, pc⟩ := p
  obtain ⟨qr, qc⟩ := q
  obtain ⟨⟨hrow, hcol, hne⟩, hw⟩ := h
  rw [Ne, Coords.mk.injEq] at hne
  dsimp only at hrow hcol hw
  unfold InLine
  simp only [diff]
  by_cases hline : qr = pr ∨ qc = pc
  · rw [if_pos hline] at hw
    have hn : (pr - qr : ℤ).natAbs + (pc - qc : ℤ).natAbs = 1 := by omega
    rw [hn, hw]
    exact ⟨rfl, by omega⟩
  · rw [if_neg hline] at hw
    have hn : (pr - qr : ℤ).natAbs + (pc - qc : ℤ).natAbs = 2 := by omega
    rw [hn, hw]
    exact ⟨rfl, by omega⟩

end Pair

/-! ## The arcs of a map, whatever its characters are -/

section Arcs

variable {m : GridMap} {height width : ℕ} {body : List Char} {u v : ℕ} {p q : Coords} {weight : ℤ}

theorem storedArc_iff (hp : m.vertices[u]? = some p) :
    (ofMap m).StoredArc u v weight ↔ ((v : ℤ), weight) ∈ neighborsIn m p directions := by
  unfold StoredArc
  rw [forEachNeighborOf_eq hp]
  constructor
  · rintro ⟨l, hl, hmem⟩
    rwa [Option.some.inj hl]
  · intro hmem
    exact ⟨_, rfl, hmem⟩

/-- The head of an arc is the number of the cell that a direction leads to. -/
theorem StoredArc.exists_cell (h : (ofMap m).StoredArc u v weight) :
    ∃ p, ∃ d ∈ directions, ∃ r c : ℕ, m.vertices[u]? = some p ∧ (r : ℤ) = p.row + d.drow ∧
      (c : ℤ) = p.col + d.dcol ∧ r < m.height ∧ c < m.width ∧ m.grid r c = some v ∧
      weight = d.dist := by
  obtain ⟨l, hl, hmem⟩ := h
  obtain ⟨p, hp, rfl⟩ := exists_vertex_of_forEachNeighborOf hl
  simp only [neighborsIn, List.mem_filterMap, Option.map_eq_some_iff] at hmem
  obtain ⟨d, hd, ⟨x, w⟩, hnbr, heq⟩ := hmem
  obtain ⟨hx, rfl⟩ : (x : ℤ) = v ∧ w = weight := by simpa [asInt] using heq
  obtain rfl : x = v := by exact_mod_cast hx
  obtain ⟨r, c, hr, hc, hrow, hcol, hgrid, hw⟩ := GridMap.neighborAt_eq_some hnbr
  exact ⟨p, d, hd, r, c, hp, hr, hc, hrow, hcol, hgrid, hw⟩

/-- No arc is free. -/
theorem StoredArc.pos (h : (ofMap m).StoredArc u v weight) : 0 < weight := by
  obtain ⟨-, d, hd, -, -, -, -, -, -, -, -, rfl⟩ := h.exists_cell
  have hdist : ∀ d ∈ directions, 0 < d.dist := by decide
  exact hdist d hd

/-- Adjacent vertices are joined by an arc. -/
theorem storedArc_of_adjacent (hp : (readMap height width body).vertices[u]? = some p)
    (hq : (readMap height width body).vertices[v]? = some q) (h : Adjacent p q weight) :
    (ofMap (readMap height width body)).StoredArc u v weight := by
  rw [storedArc_iff hp]
  obtain ⟨hrow, hcol, hgrid⟩ := stands_readMap hq
  have hd := direction_of_adjacent h
  simp only [neighborsIn, List.mem_filterMap, Option.map_eq_some_iff]
  refine ⟨_, hd, (v, weight), ?_, rfl⟩
  have hr : (p.row : ℤ) + (q.row - p.row) = q.row := by omega
  have hc : (p.col : ℤ) + (q.col - p.col) = q.col := by omega
  unfold GridMap.neighborAt
  dsimp only
  rw [hr, hc, if_pos (by omega), Int.toNat_natCast, Int.toNat_natCast, hgrid]
  rfl

/-- Arcs join adjacent cells, if the cells that hold the number of the head are the one of the head. -/
theorem StoredArc.adjacent (hplaced : ∀ r c, r < m.height → c < m.width → m.grid r c = some v →
      m.vertices[v]? = some ⟨r, c⟩) (h : (ofMap m).StoredArc u v weight) :
    ∃ p q, m.vertices[u]? = some p ∧ m.vertices[v]? = some q ∧ Adjacent p q weight := by
  obtain ⟨p, d, hd, r, c, hp, hr, hc, hrow, hcol, hgrid, rfl⟩ := h.exists_cell
  exact ⟨p, ⟨r, c⟩, hp, hplaced r c hrow hcol hgrid, adjacent_of_direction hd hr hc⟩

end Arcs

/-! ## A whole array -/

section Array

variable {g : Graph} {predecessors : List ℤ} {src : ℕ}

theorem Leads.unique {n k curr : ℕ} (h : Leads predecessors src n curr)
    (h' : Leads predecessors src k curr) : n = k := by
  induction h generalizing k with
  | nil =>
    cases h' with
    | nil => rfl
    | cons hne => exact absurd rfl hne
  | cons hne hv _ ih =>
    cases h' with
    | nil => exact absurd rfl hne
    | cons _ hv' hrest =>
      obtain rfl := Option.some.inj (hv.symm.trans hv')
      rw [ih hrest]

theorem Genuine.leads {curr : ℕ} {d : ℤ} (h : g.Genuine predecessors src curr d) :
    ∃ n, Leads predecessors src n curr := by
  induction h with
  | nil => exact ⟨0, .nil⟩
  | cons hne hv _ _ ih =>
    obtain ⟨n, hn⟩ := ih
    exact ⟨n + 1, .cons hne hv hn⟩

end Array

/-! ## A whole array on a map that is read -/

section ArrayOfMap

variable {height width : ℕ} {body : List Char} {predecessors : List ℤ} {src curr : ℕ} {d : ℤ}

/-- An arc to a vertex other than 0 is as long as its cells are apart. -/
theorem StoredArc.length (hlen : height * width ≤ (cellsOf (GridMap.skipSpace body)).length) {u v : ℕ}
    {weight : ℤ} (h : (ofMap (readMap height width body)).StoredArc u v weight) (hv : v ≠ 0) :
    ∃ p q, (readMap height width body).vertices[u]? = some p ∧
      (readMap height width body).vertices[v]? = some q ∧ lengthOf (diff p q) = some weight := by
  obtain ⟨p, q, hp, hq, hadj⟩ := h.adjacent fun r c hr hc hgrid =>
    (placed_readMap hlen hr hc hgrid).resolve_right fun h0 => hv h0.1
  exact ⟨p, q, hp, hq, (lengthOf_adjacent hadj).1⟩

end ArrayOfMap

end PwsaStar.Grid.Graph
