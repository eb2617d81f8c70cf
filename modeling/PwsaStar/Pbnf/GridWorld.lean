/-
# PwsaStar.Pbnf.GridWorld — `pbnf/grid`: the grid world and its projections.

A move costs its length, times the row it leaves if the costs are those of "Life"; row 0 is free.

`RowModProject` takes the rows modulo a number.  `CoarseProject` lays a coarser grid over the board.  If a
side of the board is not divisible by what it was asked for it tries one more, and that may not divide it
either: then the cells beyond the last full column of the coarse grid count as the first column of its
next row.
-/
import PwsaStar.Pbnf.Optimal
import PwsaStar.Grid.Manhattan

namespace PwsaStar.Pbnf

open PwsaStar.Lib
open PwsaStar.Grid.Pbnf (CostType)

/-- `enum move_type` -/
inductive MoveType
  | four_way
  | eight_way
  deriving DecidableEq

/-- A cell of the board. -/
structure GridState (width height : ℕ) where
  x : Fin width
  y : Fin height
  deriving DecidableEq

/-- The world that was read; `obstacles` is the array of the rows. -/
structure GridWorld where
  width : ℕ
  height : ℕ
  obstacles : ℕ → Bool
  cost_type : CostType
  move_type : MoveType
  start : GridState width height
  goal : GridState width height

/-- The cost of a diagonal move. -/
def fp_sqrt2 : ℕ := 14142

namespace GridWorld

variable (g : GridWorld)

abbrev Cell : Type := GridState g.width g.height

instance : Inhabited g.Cell := ⟨g.start⟩

/-- `is_obstacle(x, y)`. -/
def is_obstacle (x y : ℕ) : Bool := g.obstacles (g.width * y + x)

/-- `push_back` of the cell, if there is no obstacle.  It is on the board wherever this is called. -/
def push (x y cost : ℕ) : List (g.Cell × ℕ) :=
  if h : x < g.width ∧ y < g.height then
    if g.is_obstacle x y then [] else [(⟨⟨x, h.1⟩, ⟨y, h.2⟩⟩, cost)]
  else []

/-- `cost` in `expand4`. -/
def straight (y : ℕ) : ℕ :=
  match g.cost_type with
  | .unitCost => fp_one
  | .lifeCost => y * fp_one

/-- `cost` in `expand8`. -/
def diagonal (y : ℕ) : ℕ :=
  match g.cost_type with
  | .unitCost => fp_sqrt2
  | .lifeCost => y * fp_sqrt2

/-- The children along the row and the column. -/
def expand4 (s : g.Cell) : List (g.Cell × ℕ) :=
  let x := s.x.val
  let y := s.y.val
  let cost := g.straight y
  (if 0 < x then g.push (x - 1) y cost else []) ++
    (if x < g.width - 1 then g.push (x + 1) y cost else []) ++
    (if 0 < y then g.push x (y - 1) cost else []) ++
    (if y < g.height - 1 then g.push x (y + 1) cost else [])

/-- Those of `expand4` first, then the diagonal ones. -/
def expand8 (s : g.Cell) : List (g.Cell × ℕ) :=
  let x := s.x.val
  let y := s.y.val
  let cost := g.diagonal y
  g.expand4 s ++
    ((if 0 < x ∧ 0 < y then g.push (x - 1) (y - 1) cost else []) ++
      (if x < g.width - 1 ∧ 0 < y then g.push (x + 1) (y - 1) cost else []) ++
      (if x < g.width - 1 ∧ y < g.height - 1 then g.push (x + 1) (y + 1) cost else []) ++
      (if 0 < x ∧ y < g.height - 1 then g.push (x - 1) (y + 1) cost else []))

def expand (s : g.Cell) : List (g.Cell × ℕ) :=
  match g.move_type with
  | .four_way => g.expand4 s
  | .eight_way => g.expand8 s

end GridWorld

/-! ## The projections -/

namespace RowModProject

/-- The row classes before and after `b`. -/
def get_neighbors (mod_val b : ℕ) : List ℕ :=
  [if 0 < b then (b - 1) % mod_val else mod_val - 1, (b + 1) % mod_val]

/-- A cell belongs to the class of its row; predecessors are successors. -/
def projection (g : GridWorld) (mod_val : ℕ) [NeZero mod_val] : Projection g.Cell mod_val where
  project s := Fin.ofNat mod_val s.y
  get_successors b := (get_neighbors mod_val b).map (Fin.ofNat mod_val)
  get_predecessors b := (get_neighbors mod_val b).map (Fin.ofNat mod_val)

end RowModProject

/-- The board cut into rectangles; `cols_div` and `rows_div` are the sides of one. -/
structure CoarseProject where
  cols : ℕ
  cols_div : ℕ
  rows : ℕ
  rows_div : ℕ
  move_type : MoveType

namespace CoarseProject

/-- `if (g->width % c) c += 1`, and the same for the rows. -/
def adjust (size c : ℕ) : ℕ := if size % c ≠ 0 then c + 1 else c

/-- The constructor; `none` is a division by zero. -/
def new (g : GridWorld) (c r : ℕ) : Option CoarseProject :=
  if c = 0 ∨ r = 0 then none
  else
    let c := adjust g.width c
    let r := adjust g.height r
    some { cols := c, rows := r, cols_div := g.width / c, rows_div := g.height / r, move_type := g.move_type }

variable (p : CoarseProject)

/-- The rectangles are numbered row by row. -/
def get_id (x y : ℕ) : ℕ := y * p.cols + x

/-- `none` is the failed assertion, or a division by zero. -/
def project (x y : ℕ) : Option ℕ :=
  if p.cols_div = 0 ∨ p.rows_div = 0 then none
  else
    let id := p.get_id (x / p.cols_div) (y / p.rows_div)
    if id < p.rows * p.cols then some id else none

def get_num_nblocks : ℕ := p.rows * p.cols

/-- The rectangles around `b`, the diagonal ones only where moves are diagonal. -/
def get_neighbors (b : ℕ) : List ℕ :=
  let x := b % p.cols
  let y := b / p.cols
  (if 0 < x then [p.get_id (x - 1) y] else []) ++
    (if x < p.cols - 1 then [p.get_id (x + 1) y] else []) ++
    (if 0 < y then [p.get_id x (y - 1)] else []) ++
    (if y < p.rows - 1 then [p.get_id x (y + 1)] else []) ++
    (if p.move_type = .eight_way then
      (if 0 < x ∧ 0 < y then [p.get_id (x - 1) (y - 1)] else []) ++
        (if x < p.cols - 1 ∧ 0 < y then [p.get_id (x + 1) (y - 1)] else []) ++
        (if x < p.cols - 1 ∧ y < p.rows - 1 then [p.get_id (x + 1) (y + 1)] else []) ++
        (if 0 < x ∧ y < p.rows - 1 then [p.get_id (x - 1) (y + 1)] else [])
    else [])

/-- The assertion of `project` holds for every cell of the board. -/
def Total (g : GridWorld) : Prop := ∀ s : g.Cell, (p.project s.x s.y).isSome

/-- The projection where the assertion never fails. -/
def projection {g : GridWorld} (h : p.Total g) [NeZero p.get_num_nblocks] :
    Projection g.Cell p.get_num_nblocks where
  project s := Fin.ofNat _ ((p.project s.x s.y).get (h s))
  get_successors b := (p.get_neighbors b).map (Fin.ofNat _)
  get_predecessors b := (p.get_neighbors b).map (Fin.ofNat _)

end CoarseProject

/-- A board without obstacles. -/
def board : GridWorld where
  width := 11
  height := 12
  obstacles _ := false
  cost_type := .lifeCost
  move_type := .eight_way
  start := ⟨(Fin.last 10).rev, (Fin.last 11).rev⟩
  goal := ⟨Fin.last 10, Fin.last 11⟩

/-! ## The children of a state -/

namespace GridWorld

variable {g : GridWorld}

/-- A move along a row or a column. -/
def Straight (s t : g.Cell) : Prop :=
  (t.y.val = s.y ∧ (t.x.val + 1 = s.x ∨ t.x.val = s.x + 1)) ∨
    (t.x.val = s.x ∧ (t.y.val + 1 = s.y ∨ t.y.val = s.y + 1))

/-- A move along a row and a column at once. -/
def Diagonal (s t : g.Cell) : Prop :=
  (t.x.val + 1 = s.x ∨ t.x.val = s.x + 1) ∧ (t.y.val + 1 = s.y ∨ t.y.val = s.y + 1)

/-- `push` keeps a cell that is on the board and free. -/
theorem mem_push {t : g.Cell} {x y cost c : ℕ} :
    (t, c) ∈ g.push x y cost ↔ t.x.val = x ∧ t.y.val = y ∧ g.is_obstacle x y = false ∧ c = cost := by
  rw [push]
  split_ifs with hon hobst
  · simp [hobst]
  · rw [List.mem_singleton]
    constructor
    · intro h
      obtain ⟨rfl, rfl⟩ := Prod.mk.inj h
      exact ⟨rfl, rfl, by simpa using hobst, rfl⟩
    · rintro ⟨hx, hy, -, rfl⟩
      obtain ⟨⟨_, _⟩, ⟨_, _⟩⟩ := t
      subst hx hy
      rfl
  · refine iff_of_false List.not_mem_nil ?_
    rintro ⟨rfl, rfl, -⟩
    exact hon ⟨t.x.isLt, t.y.isLt⟩

/-- The part of `expand4` or `expand8` for one direction. -/
theorem mem_guarded {t : g.Cell} {x y cost c : ℕ} (p : Prop) [Decidable p] :
    (t, c) ∈ (if p then g.push x y cost else []) ↔
      p ∧ t.x.val = x ∧ t.y.val = y ∧ g.is_obstacle t.x t.y = false ∧ c = cost := by
  split_ifs with hp
  · rw [mem_push, and_iff_right hp]
    constructor
    · rintro ⟨rfl, rfl, hfree, rfl⟩
      exact ⟨rfl, rfl, hfree, rfl⟩
    · rintro ⟨rfl, rfl, hfree, rfl⟩
      exact ⟨rfl, rfl, hfree, rfl⟩
  · exact iff_of_false List.not_mem_nil fun h => hp h.1

/-- **The children of `expand4`** are the straight moves to cells without obstacles. -/
theorem mem_expand4 {s t : g.Cell} {c : ℕ} : (t, c) ∈ g.expand4 s ↔
    Straight s t ∧ g.is_obstacle t.x t.y = false ∧ c = g.straight s.y := by
  have hx := t.x.isLt
  have hy := t.y.isLt
  simp only [expand4, List.mem_append, mem_guarded, Straight]
  constructor
  · rintro (((h | h) | h) | h)
    · exact ⟨by omega, h.2.2.2⟩
    · exact ⟨by omega, h.2.2.2⟩
    · exact ⟨by omega, h.2.2.2⟩
    · exact ⟨by omega, h.2.2.2⟩
  · rintro ⟨⟨hrow, hleft | hright⟩ | ⟨hcol, hup | hdown⟩, hfree⟩
    · exact Or.inl (Or.inl (Or.inl ⟨by omega, by omega, hrow, hfree⟩))
    · exact Or.inl (Or.inl (Or.inr ⟨by omega, hright, hrow, hfree⟩))
    · exact Or.inl (Or.inr ⟨by omega, hcol, by omega, hfree⟩)
    · exact Or.inr ⟨by omega, hcol, hdown, hfree⟩

/-- What `expand8` adds to them are the diagonal moves. -/
theorem mem_expand8 {s t : g.Cell} {c : ℕ} : (t, c) ∈ g.expand8 s ↔
    (t, c) ∈ g.expand4 s ∨ Diagonal s t ∧ g.is_obstacle t.x t.y = false ∧ c = g.diagonal s.y := by
  have hx := t.x.isLt
  have hy := t.y.isLt
  rw [expand8, List.mem_append]
  refine or_congr_right ?_
  simp only [List.mem_append, mem_guarded, Diagonal]
  constructor
  · rintro (((h | h) | h) | h)
    · exact ⟨by omega, h.2.2.2⟩
    · exact ⟨by omega, h.2.2.2⟩
    · exact ⟨by omega, h.2.2.2⟩
    · exact ⟨by omega, h.2.2.2⟩
  · rintro ⟨⟨hleft | hright, hup | hdown⟩, hfree⟩
    · exact Or.inl (Or.inl (Or.inl ⟨by omega, by omega, by omega, hfree⟩))
    · exact Or.inr ⟨by omega, by omega, hdown, hfree⟩
    · exact Or.inl (Or.inl (Or.inr ⟨by omega, hright, by omega, hfree⟩))
    · exact Or.inl (Or.inr ⟨by omega, hright, hdown, hfree⟩)

/-- A diagonal move is at least as dear as a straight one. -/
theorem straight_le_diagonal (y : ℕ) : g.straight y ≤ g.diagonal y := by
  rw [straight, diagonal]
  have hle : fp_one ≤ fp_sqrt2 := by decide
  cases g.cost_type with
  | unitCost => exact hle
  | lifeCost => exact Nat.mul_le_mul_left y hle

/-- The moves of a world, and what they cost. -/
theorem expand_cases {s t : g.Cell} {c : ℕ} (h : (t, c) ∈ g.expand s) :
    Straight s t ∧ c = g.straight s.y
      ∨ g.move_type = .eight_way ∧ Diagonal s t ∧ c = g.diagonal s.y := by
  rw [expand] at h
  cases hmove : g.move_type with
  | four_way =>
    rw [hmove] at h
    obtain ⟨hmoved, -, hcost⟩ := mem_expand4.mp h
    exact Or.inl ⟨hmoved, hcost⟩
  | eight_way =>
    rw [hmove] at h
    rcases mem_expand8.mp h with h4 | ⟨hmoved, -, hcost⟩
    · obtain ⟨hmoved, -, hcost⟩ := mem_expand4.mp h4
      exact Or.inl ⟨hmoved, hcost⟩
    · exact Or.inr ⟨rfl, hmoved, hcost⟩

/-- The children come in the order of their costs. -/
theorem expand_sorted (s : g.Cell) : (g.expand s).Pairwise fun a b => a.2 ≤ b.2 := by
  have hequal : ∀ {l : List (g.Cell × ℕ)} {cost : ℕ}, (∀ t c, (t, c) ∈ l → c = cost) →
      l.Pairwise fun a b => a.2 ≤ b.2 := by
    intro l cost h
    refine List.pairwise_iff_forall_sublist.mpr ?_
    intro a b hab
    have ha := h a.1 a.2 (hab.subset List.mem_cons_self)
    have hb := h b.1 b.2 (hab.subset (List.mem_cons_of_mem a List.mem_cons_self))
    omega
  have h4 : (g.expand4 s).Pairwise fun a b => a.2 ≤ b.2 := hequal fun t c h => (mem_expand4.mp h).2.2
  rw [expand]
  cases g.move_type with
  | four_way => exact h4
  | eight_way =>
    have hdiag : ∀ t c, (t, c) ∈ (g.expand8 s).drop (g.expand4 s).length → c = g.diagonal s.y := by
      intro t c h
      rw [expand8, List.drop_left] at h
      simp only [List.mem_append, mem_guarded] at h
      rcases h with ((h | h) | h) | h <;> exact h.2.2.2.2
    rw [← List.take_append_drop (g.expand4 s).length (g.expand8 s), List.pairwise_append]
    have htake : (g.expand8 s).take (g.expand4 s).length = g.expand4 s := by
      rw [expand8, List.take_left]
    rw [htake]
    refine ⟨h4, hequal hdiag, ?_⟩
    intro a ha b hb
    have hcost := (mem_expand4.mp (show (a.1, a.2) ∈ g.expand4 s from ha)).2.2
    rw [hcost, hdiag b.1 b.2 hb]
    exact straight_le_diagonal _

end GridWorld

/-! ## What the search needs of a projection -/

theorem Projection.interferes_ne_nil {V : Type} {n : ℕ} {P : Projection V n} {b k : Fin n}
    (hk : k ∈ P.get_successors b) (hne : k ≠ b) : P.interferes b ≠ [] :=
  List.ne_nil_of_mem (Projection.mem_interferes.mpr ⟨hne, Or.inr (Or.inl hk)⟩)

namespace RowModProject

variable {mod_val : ℕ} [NeZero mod_val]

omit [NeZero mod_val] in
/-- The class after `b`, or the class that `b` comes after. -/
theorem mem_get_neighbors {b k : ℕ} (hb : b < mod_val) (hk : k < mod_val) :
    k ∈ get_neighbors mod_val b ↔ (k + 1) % mod_val = b ∨ k = (b + 1) % mod_val := by
  have hwrap : ∀ {i : ℕ}, i < mod_val → (i + 1) % mod_val = if i + 1 = mod_val then 0 else i + 1 := by
    intro i hi
    split_ifs with hend
    · rw [hend, Nat.mod_self]
    · exact Nat.mod_eq_of_lt (by omega)
  simp only [get_neighbors, List.mem_cons, List.not_mem_nil, or_false]
  refine or_congr_left ?_
  rw [hwrap hk, Nat.mod_eq_of_lt (show b - 1 < mod_val by omega)]
  split_ifs <;> omega

theorem get_neighbors_lt (b : ℕ) : ∀ k ∈ get_neighbors mod_val b, k < mod_val := by
  have hpos : 0 < mod_val := NeZero.pos mod_val
  intro k hk
  simp only [get_neighbors, List.mem_cons, List.not_mem_nil, or_false] at hk
  rcases hk with rfl | rfl
  · split_ifs
    · exact Nat.mod_lt _ hpos
    · omega
  · exact Nat.mod_lt _ hpos

theorem mem_successors {g : GridWorld} {b k : Fin mod_val} :
    k ∈ (projection g mod_val).get_successors b ↔
      (k.val + 1) % mod_val = b ∨ k.val = (b + 1) % mod_val := by
  rw [← mem_get_neighbors b.isLt k.isLt]
  show k ∈ (get_neighbors mod_val b).map (Fin.ofNat mod_val) ↔ _
  rw [List.mem_map]
  constructor
  · rintro ⟨i, hi, rfl⟩
    rwa [Fin.val_ofNat, Nat.mod_eq_of_lt (get_neighbors_lt b i hi)]
  · intro hk
    exact ⟨k, hk, Fin.ofNat_val_eq_self k⟩

/-- The neighbourhood of row classes is symmetric. -/
theorem projection_mutual (g : GridWorld) : (projection g mod_val).Mutual := by
  intro a b
  show b ∈ (projection g mod_val).get_successors a ↔ a ∈ (projection g mod_val).get_successors b
  rw [mem_successors, mem_successors]
  constructor
  · exact fun h => h.elim (fun h => Or.inr h.symm) (fun h => Or.inl h.symm)
  · exact fun h => h.elim (fun h => Or.inr h.symm) (fun h => Or.inl h.symm)

/-- A move changes the row by one at most. -/
theorem project_mem_scope {g : GridWorld} {s t : g.Cell}
    (h : t.y.val = s.y ∨ t.y.val + 1 = s.y ∨ t.y.val = s.y + 1) :
    (projection g mod_val).project t ∈ (projection g mod_val).scope ((projection g mod_val).project s) := by
  rcases h with h | h | h
  · exact Or.inl (congrArg (Fin.ofNat mod_val) h)
  · refine Or.inr (mem_successors.mpr (Or.inl ?_))
    show (t.y.val % mod_val + 1) % mod_val = s.y.val % mod_val
    rw [Nat.mod_add_mod, h]
  · refine Or.inr (mem_successors.mpr (Or.inr ?_))
    show t.y.val % mod_val = (s.y.val % mod_val + 1) % mod_val
    rw [Nat.mod_add_mod, h]

/-- Every class has a neighbour when there are two of them. -/
theorem interferes_ne_nil {g : GridWorld} (htwo : 2 ≤ mod_val) (b : Fin mod_val) :
    (projection g mod_val).interferes b ≠ [] := by
  have hpos : 0 < mod_val := by omega
  let k : Fin mod_val := ⟨(b + 1) % mod_val, Nat.mod_lt _ hpos⟩
  refine Projection.interferes_ne_nil (k := k) (mem_successors.mpr (Or.inr rfl)) ?_
  intro heq
  have hval : (b.val + 1) % mod_val = b := congrArg Fin.val heq
  by_cases hend : b.val + 1 = mod_val
  · rw [hend, Nat.mod_self] at hval
    omega
  · rw [Nat.mod_eq_of_lt (by omega)] at hval
    omega

end RowModProject

namespace CoarseProject

variable {p : CoarseProject} {g : GridWorld}

/-- What the constructor sets up. -/
structure Laid (p : CoarseProject) (g : GridWorld) : Prop where
  cols_div : p.cols_div = g.width / p.cols
  rows_div : p.rows_div = g.height / p.rows
  cols_pos : 0 < p.cols
  rows_pos : 0 < p.rows
  move_type : p.move_type = g.move_type

/-- `adjust` ends at a divisor of the side only if the request or its successor is one. -/
theorem adjust_dvd {size c : ℕ} : adjust size c ∣ size ↔ c ∣ size ∨ c + 1 ∣ size := by
  rw [adjust]
  split_ifs with hrest
  · exact ⟨Or.inr, fun h => h.resolve_left fun hc => hrest (Nat.mod_eq_zero_of_dvd hc)⟩
  · exact ⟨Or.inl, fun _ => Nat.dvd_of_mod_eq_zero (not_not.mp hrest)⟩

/-- What the constructor of `CoarseProject` sets up. -/
theorem new_laid {c r : ℕ} (h : new g c r = some p) :
    p.Laid g ∧ p.cols = adjust g.width c ∧ p.rows = adjust g.height r := by
  rw [new] at h
  by_cases hzero : c = 0 ∨ r = 0
  · rw [if_pos hzero] at h
    exact absurd h.symm (Option.some_ne_none p)
  · rw [if_neg hzero] at h
    obtain rfl := Option.some.inj h
    obtain ⟨hc, hr⟩ := not_or.mp hzero
    have hpos : ∀ {size k : ℕ}, k ≠ 0 → 0 < adjust size k := by
      intro size k hk
      rw [adjust]
      split_ifs <;> omega
    exact ⟨⟨rfl, rfl, hpos hc, hpos hr, rfl⟩, rfl, rfl⟩

/-- A rectangle of the coarse grid is an nblock. -/
theorem get_id_lt {x y : ℕ} (hx : x < p.cols) (hy : y < p.rows) : p.get_id x y < p.get_num_nblocks :=
  calc y * p.cols + x
      < y * p.cols + p.cols := Nat.add_lt_add_left hx _
    _ = (y + 1) * p.cols := (Nat.succ_mul y p.cols).symm
    _ ≤ p.rows * p.cols := Nat.mul_le_mul_right _ hy

/-- When `project` passes its assertion, and with what. -/
theorem project_eq_some {x y id : ℕ} : p.project x y = some id ↔
    p.cols_div ≠ 0 ∧ p.rows_div ≠ 0 ∧ p.get_id (x / p.cols_div) (y / p.rows_div) = id
      ∧ id < p.get_num_nblocks := by
  rw [project, get_num_nblocks]
  dsimp only
  split_ifs with hdiv hlt
  · refine iff_of_false not_false ?_
    exact fun h => hdiv.elim h.1 h.2.1
  · obtain ⟨hc, hr⟩ := not_or.mp hdiv
    rw [Option.some.injEq]
    exact ⟨fun h => ⟨hc, hr, h, h ▸ hlt⟩, fun h => h.2.2.1⟩
  · refine iff_of_false not_false ?_
    rintro ⟨-, -, rfl, h⟩
    exact hlt h

/-- With columns that divide the width no cell is left over on the right. -/
theorem Laid.column_lt (h : p.Laid g) (hdvd : p.cols ∣ g.width) (s : g.Cell) : s.x / p.cols_div < p.cols := by
  obtain ⟨m, hm⟩ := hdvd
  have hcols : p.cols_div = m := by rw [h.cols_div, hm, Nat.mul_div_cancel_left m h.cols_pos]
  exact Nat.div_lt_of_lt_mul (by rw [hcols, Nat.mul_comm, ← hm]; exact s.x.isLt)

/-- With rows that divide the height no cell is left over below. -/
theorem Laid.row_lt (h : p.Laid g) (hdvd : p.rows ∣ g.height) (s : g.Cell) : s.y / p.rows_div < p.rows := by
  obtain ⟨m, hm⟩ := hdvd
  have hrows : p.rows_div = m := by rw [h.rows_div, hm, Nat.mul_div_cancel_left m h.rows_pos]
  exact Nat.div_lt_of_lt_mul (by rw [hrows, Nat.mul_comm, ← hm]; exact s.y.isLt)

/-- **The assertion of `project`.**  It holds for every cell exactly when the sides of the board are divided
without a rest. -/
theorem Laid.total_iff (h : p.Laid g) : p.Total g ↔ p.cols ∣ g.width ∧ p.rows ∣ g.height := by
  have hwidth : 0 < g.width := g.start.x.pos
  have hheight : 0 < g.height := g.start.y.pos
  have hc := h.cols_div
  have hr := h.rows_div
  constructor
  · intro htotal
    have hid : ∀ s : g.Cell, p.cols_div ≠ 0 ∧ p.rows_div ≠ 0
        ∧ s.y / p.rows_div * p.cols + s.x / p.cols_div < p.rows * p.cols := by
      intro s
      obtain ⟨id, hs⟩ := Option.isSome_iff_exists.mp (htotal s)
      obtain ⟨hcols, hrows, rfl, hlt⟩ := project_eq_some.mp hs
      exact ⟨hcols, hrows, hlt⟩
    obtain ⟨hcols, hrows, -⟩ := hid g.start
    have hcpos : 0 < p.cols_div := Nat.pos_of_ne_zero hcols
    have hrpos : 0 < p.rows_div := Nat.pos_of_ne_zero hrows
    have hwide : p.cols_div * p.cols ≤ g.width := hc ▸ Nat.div_mul_le_self g.width p.cols
    have hhigh : p.rows_div * p.rows ≤ g.height := hr ▸ Nat.div_mul_le_self g.height p.rows
    refine ⟨?_, ?_⟩
    · -- otherwise the first cell beyond the last full column, in the last row of the coarse grid
      by_contra hrest
      have hlt : p.cols_div * p.cols < g.width :=
        lt_of_le_of_ne hwide fun heq => hrest ⟨p.cols_div, by rw [Nat.mul_comm, heq]⟩
      have hrow : p.rows_div * (p.rows - 1) < g.height :=
        lt_of_lt_of_le (Nat.mul_lt_mul_of_pos_left (Nat.sub_lt h.rows_pos Nat.one_pos) hrpos) hhigh
      have hcell := (hid ⟨⟨p.cols_div * p.cols, hlt⟩, ⟨p.rows_div * (p.rows - 1), hrow⟩⟩).2.2
      dsimp only at hcell
      rw [Nat.mul_div_cancel_left _ hcpos, Nat.mul_div_cancel_left _ hrpos, ← Nat.succ_mul,
        Nat.succ_eq_add_one, Nat.sub_add_cancel h.rows_pos] at hcell
      exact absurd hcell (lt_irrefl _)
    · by_contra hrest
      have hlt : p.rows_div * p.rows < g.height :=
        lt_of_le_of_ne hhigh fun heq => hrest ⟨p.rows_div, by rw [Nat.mul_comm, heq]⟩
      have hcell := (hid ⟨g.start.x, ⟨p.rows_div * p.rows, hlt⟩⟩).2.2
      dsimp only at hcell
      rw [Nat.mul_div_cancel_left _ hrpos] at hcell
      exact absurd hcell (Nat.not_lt.mpr (Nat.le_add_right _ _))
  · rintro ⟨hcols, hrows⟩ s
    have hdivs : p.cols_div ≠ 0 ∧ p.rows_div ≠ 0 := by
      rw [hc, hr]
      exact ⟨(Nat.div_pos (Nat.le_of_dvd hwidth hcols) h.cols_pos).ne',
        (Nat.div_pos (Nat.le_of_dvd hheight hrows) h.rows_pos).ne'⟩
    have hlt := get_id_lt (h.column_lt hcols s) (h.row_lt hrows s)
    exact Option.isSome_iff_exists.mpr ⟨_, project_eq_some.mpr ⟨hdivs.1, hdivs.2, rfl, hlt⟩⟩

/-- **Which boards a coarse projection fits.**  Asked for `c` columns and `r` rows it is defined on the
whole board exactly when `c` or `c + 1` divides the width, and `r` or `r + 1` the height. -/
theorem coarse_total_iff {c r : ℕ} (h : new g c r = some p) :
    p.Total g ↔ (c ∣ g.width ∨ c + 1 ∣ g.width) ∧ (r ∣ g.height ∨ r + 1 ∣ g.height) := by
  obtain ⟨hlaid, hcols, hrows⟩ := new_laid h
  rw [hlaid.total_iff, hcols, hrows, adjust_dvd, adjust_dvd]

/-- 4 columns do not fit a board of 11 columns, and 5 do not either. -/
theorem coarse_total_iff_board : ∃ p, new board 4 4 = some p ∧ p.cols = 5 ∧ ¬ p.Total board := by
  refine ⟨_, rfl, rfl, ?_⟩
  rw [coarse_total_iff (g := board) (c := 4) (r := 4) rfl]
  decide

/-- The neighbours of a cell of the coarse grid. -/
def Near (p : CoarseProject) (x y x' y' : ℕ) : Prop :=
  (y' = y ∧ (x' + 1 = x ∨ x' = x + 1)) ∨ (x' = x ∧ (y' + 1 = y ∨ y' = y + 1)) ∨
    (p.move_type = .eight_way ∧ (x' + 1 = x ∨ x' = x + 1) ∧ (y' + 1 = y ∨ y' = y + 1))

theorem Near.symm {x y x' y' : ℕ} (h : p.Near x y x' y') : p.Near x' y' x y := by
  rcases h with h | h | ⟨height, hx, hy⟩
  · exact Or.inl (by omega)
  · exact Or.inr (Or.inl (by omega))
  · exact Or.inr (Or.inr ⟨height, by omega, by omega⟩)

theorem get_id_mod {x y : ℕ} (hx : x < p.cols) : p.get_id x y % p.cols = x := by
  rw [get_id, Nat.mul_comm, Nat.mul_add_mod, Nat.mod_eq_of_lt hx]

theorem get_id_div {x y : ℕ} (hx : x < p.cols) : p.get_id x y / p.cols = y := by
  rw [get_id, Nat.mul_comm, Nat.mul_add_div (by omega), Nat.div_eq_of_lt hx, Nat.add_zero]

/-- The neighbours listed are the rectangles near `b`. -/
theorem mem_get_neighbors {x y k : ℕ} (hx : x < p.cols) (hy : y < p.rows) :
    k ∈ p.get_neighbors (p.get_id x y) ↔
      ∃ x' y', x' < p.cols ∧ y' < p.rows ∧ p.Near x y x' y' ∧ k = p.get_id x' y' := by
  simp only [get_neighbors, get_id_mod hx, get_id_div hx, List.mem_append, List.mem_ite_nil_right,
    List.mem_singleton]
  constructor
  · rintro ((((⟨h, rfl⟩ | ⟨h, rfl⟩) | ⟨h, rfl⟩) | ⟨h, rfl⟩) |
      ⟨height, ((⟨h, rfl⟩ | ⟨h, rfl⟩) | ⟨h, rfl⟩) | ⟨h, rfl⟩⟩)
    · exact ⟨x - 1, y, by omega, hy, Or.inl (by omega), rfl⟩
    · exact ⟨x + 1, y, by omega, hy, Or.inl (by omega), rfl⟩
    · exact ⟨x, y - 1, hx, by omega, Or.inr (Or.inl (by omega)), rfl⟩
    · exact ⟨x, y + 1, hx, by omega, Or.inr (Or.inl (by omega)), rfl⟩
    · exact ⟨x - 1, y - 1, by omega, by omega, Or.inr (Or.inr ⟨height, by omega, by omega⟩), rfl⟩
    · exact ⟨x + 1, y - 1, by omega, by omega, Or.inr (Or.inr ⟨height, by omega, by omega⟩), rfl⟩
    · exact ⟨x + 1, y + 1, by omega, by omega, Or.inr (Or.inr ⟨height, by omega, by omega⟩), rfl⟩
    · exact ⟨x - 1, y + 1, by omega, by omega, Or.inr (Or.inr ⟨height, by omega, by omega⟩), rfl⟩
  · rintro ⟨x', y', hx', hy', ⟨rfl, rfl | rfl⟩ | ⟨rfl, rfl | rfl⟩ | ⟨height, rfl | rfl, rfl | rfl⟩, rfl⟩
    · exact Or.inl (Or.inl (Or.inl (Or.inl ⟨by omega, rfl⟩)))
    · exact Or.inl (Or.inl (Or.inl (Or.inr ⟨by omega, rfl⟩)))
    · exact Or.inl (Or.inl (Or.inr ⟨by omega, rfl⟩))
    · exact Or.inl (Or.inr ⟨by omega, rfl⟩)
    · exact Or.inr ⟨height, Or.inl (Or.inl (Or.inl ⟨by omega, rfl⟩))⟩
    · exact Or.inr ⟨height, Or.inr ⟨by omega, rfl⟩⟩
    · exact Or.inr ⟨height, Or.inl (Or.inl (Or.inr ⟨by omega, rfl⟩))⟩
    · exact Or.inr ⟨height, Or.inl (Or.inr ⟨by omega, rfl⟩)⟩

section Blocks

/-- The place of an nblock in the coarse grid. -/
theorem Laid.block (h : p.Laid g) (b : Fin p.get_num_nblocks) :
    b.val % p.cols < p.cols ∧ b.val / p.cols < p.rows
      ∧ p.get_id (b.val % p.cols) (b.val / p.cols) = b := by
  refine ⟨Nat.mod_lt _ h.cols_pos, ?_, Nat.div_add_mod' b.val p.cols⟩
  exact (Nat.div_lt_iff_lt_mul h.cols_pos).mpr b.isLt

variable [NeZero p.get_num_nblocks] (htotal : p.Total g)

/-- The successors of an nblock are the nblocks near it. -/
theorem Laid.mem_successors (h : p.Laid g) {b k : Fin p.get_num_nblocks} :
    k ∈ (p.projection htotal).get_successors b ↔
      p.Near (b % p.cols) (b / p.cols) (k % p.cols) (k / p.cols) := by
  obtain ⟨hbx, hby, hb⟩ := h.block b
  obtain ⟨hkx, hky, hk⟩ := h.block k
  have hneighbors : ∀ i, i ∈ p.get_neighbors b ↔ ∃ x' y', x' < p.cols ∧ y' < p.rows
      ∧ p.Near (b % p.cols) (b / p.cols) x' y' ∧ i = p.get_id x' y' := by
    intro i
    rw [← mem_get_neighbors hbx hby, hb]
  show k ∈ (p.get_neighbors b).map (Fin.ofNat _) ↔ _
  rw [List.mem_map]
  constructor
  · rintro ⟨i, hi, rfl⟩
    obtain ⟨x', y', hx', hy', hnear, rfl⟩ := (hneighbors i).mp hi
    rwa [Fin.val_ofNat, Nat.mod_eq_of_lt (get_id_lt hx' hy'), get_id_mod hx', get_id_div hx']
  · intro hnear
    exact ⟨k, (hneighbors k).mpr ⟨_, _, hkx, hky, hnear, hk.symm⟩, Fin.ofNat_val_eq_self k⟩

/-- The neighbourhood of rectangles is symmetric. -/
theorem Laid.projection_mutual (h : p.Laid g) : (p.projection htotal).Mutual := by
  intro a b
  show b ∈ (p.projection htotal).get_successors a ↔ a ∈ (p.projection htotal).get_successors b
  rw [h.mem_successors, h.mem_successors]
  exact ⟨Near.symm, Near.symm⟩

/-- The nblock of a cell is its place in the coarse grid. -/
theorem Laid.project_eq (h : p.Laid g) (s : g.Cell) :
    ((p.projection htotal).project s : ℕ) % p.cols = s.x / p.cols_div
      ∧ ((p.projection htotal).project s : ℕ) / p.cols = s.y / p.rows_div := by
  obtain ⟨id, hid⟩ := Option.isSome_iff_exists.mp (htotal s)
  obtain ⟨hcols, hrows, rfl, hlt⟩ := project_eq_some.mp hid
  have hval : ((p.projection htotal).project s : ℕ) = p.get_id (s.x / p.cols_div) (s.y / p.rows_div) := by
    show (p.project s.x s.y).get _ % p.get_num_nblocks = _
    rw [Option.get_of_eq_some _ hid, Nat.mod_eq_of_lt hlt]
  have hx := h.column_lt (h.total_iff.mp htotal).1 s
  rw [hval]
  exact ⟨get_id_mod hx, get_id_div hx⟩

/-- A step changes a coordinate of the coarse grid by one at most. -/
theorem div_step {k i j : ℕ} (h : j = i + 1) : j / k = i / k ∨ j / k = i / k + 1 := by
  subst h
  rw [Nat.succ_div]
  split_ifs
  · exact Or.inr rfl
  · exact Or.inl rfl

/-- **No move leaves the scope of its rectangle.** -/
theorem Laid.project_mem_scope (h : p.Laid g) {s t : g.Cell} {c : ℕ} (hmem : (t, c) ∈ g.expand s) :
    (p.projection htotal).project t ∈ (p.projection htotal).scope ((p.projection htotal).project s) := by
  obtain ⟨hsx, hsy⟩ := h.project_eq htotal s
  obtain ⟨htx, hty⟩ := h.project_eq htotal t
  have hstep : ∀ {k i j : ℕ}, i + 1 = j ∨ i = j + 1 → i / k = j / k ∨ i / k + 1 = j / k ∨ i / k = j / k + 1 := by
    intro k i j hij
    rcases hij with hij | hij
    · rcases div_step (k := k) hij.symm with hd | hd
      · exact Or.inl hd.symm
      · exact Or.inr (Or.inl hd.symm)
    · rcases div_step (k := k) hij with hd | hd
      · exact Or.inl hd
      · exact Or.inr (Or.inr hd)
  by_cases hsame : (p.projection htotal).project t = (p.projection htotal).project s
  · exact Or.inl hsame
  · refine Or.inr ((h.mem_successors htotal).mpr ?_)
    have hne : ¬ ((t.x.val / p.cols_div = s.x.val / p.cols_div) ∧ t.y.val / p.rows_div = s.y.val / p.rows_div) := by
      rintro ⟨hx, hy⟩
      apply hsame
      apply Fin.ext
      rw [← (h.block _).2.2, ← (h.block ((p.projection htotal).project s)).2.2, hsx, hsy, htx, hty, hx, hy]
    rw [hsx, hsy, htx, hty]
    rcases GridWorld.expand_cases hmem with ⟨⟨hy, hx⟩ | ⟨hx, hy⟩, -⟩ | ⟨height, ⟨hx, hy⟩, -⟩
    · have hy' : t.y.val / p.rows_div = s.y.val / p.rows_div := by rw [hy]
      have hx' := (hstep (k := p.cols_div) hx).resolve_left fun heq => hne ⟨heq, hy'⟩
      exact Or.inl ⟨hy', hx'⟩
    · have hx' : t.x.val / p.cols_div = s.x.val / p.cols_div := by rw [hx]
      have hy' := (hstep (k := p.rows_div) hy).resolve_left fun heq => hne ⟨hx', heq⟩
      exact Or.inr (Or.inl ⟨hx', hy'⟩)
    · rcases hstep (k := p.cols_div) hx with hx' | hx'
      · have hy' := (hstep (k := p.rows_div) hy).resolve_left fun heq => hne ⟨hx', heq⟩
        exact Or.inr (Or.inl ⟨hx', hy'⟩)
      · rcases hstep (k := p.rows_div) hy with hy' | hy'
        · exact Or.inl ⟨hy', hx'⟩
        · exact Or.inr (Or.inr ⟨h.move_type.trans height, hx', hy'⟩)

/-- No nblock is alone, unless it is the only one. -/
theorem Laid.interferes_ne_nil (h : p.Laid g) (htwo : 2 ≤ p.get_num_nblocks) (b : Fin p.get_num_nblocks) :
    (p.projection htotal).interferes b ≠ [] := by
  obtain ⟨hbx, hby, hb⟩ := h.block b
  -- a place next to that of `b`
  have hplace : ∃ x' y', x' < p.cols ∧ y' < p.rows ∧ p.Near (b % p.cols) (b / p.cols) x' y' := by
    by_cases hwide : 2 ≤ p.cols
    · by_cases hlast : b.val % p.cols + 1 < p.cols
      · exact ⟨_, _, hlast, hby, Or.inl ⟨rfl, Or.inr rfl⟩⟩
      · exact ⟨b.val % p.cols - 1, _, by omega, hby, Or.inl ⟨rfl, Or.inl (by omega)⟩⟩
    · have hhigh : 2 ≤ p.rows := by
        have hcols : p.cols = 1 := by have := h.cols_pos; omega
        rwa [get_num_nblocks, hcols, Nat.mul_one] at htwo
      by_cases hlast : b.val / p.cols + 1 < p.rows
      · exact ⟨_, _, hbx, hlast, Or.inr (Or.inl ⟨rfl, Or.inr rfl⟩)⟩
      · exact ⟨_, b.val / p.cols - 1, hbx, by omega, Or.inr (Or.inl ⟨rfl, Or.inl (by omega)⟩)⟩
  obtain ⟨x', y', hx', hy', hnear⟩ := hplace
  let k : Fin p.get_num_nblocks := ⟨p.get_id x' y', get_id_lt hx' hy'⟩
  have hkx : k.val % p.cols = x' := get_id_mod hx'
  have hky : k.val / p.cols = y' := get_id_div hx'
  refine Projection.interferes_ne_nil (k := k) ((h.mem_successors htotal).mpr ?_) ?_
  · rw [hkx, hky]
    exact hnear
  · intro heq
    rw [heq] at hkx hky
    rw [hkx, hky] at hnear
    rcases hnear with hnear | hnear | hnear <;> omega

end Blocks

end CoarseProject

end PwsaStar.Pbnf
