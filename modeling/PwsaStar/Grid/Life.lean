/-
# PwsaStar.Grid.Life — `LifeGraph` of `weighted_graph.hpp`: what the search pays and what is reported.

In a `LifeGraph` a move costs its length times a row.  The row is computed twice.  The arrays that a
search reads charge the row the move leads TO; `weight_between`, which `pathlen` adds up to report the
length of a path, charges the row the move comes FROM.  So the two agree on a move exactly when it
stays in its row, and the reported length is the length the search has paid when all moves do
(`charged_alike`).  On a map of known characters the difference between what is paid and what is
reported for a path is its `surcharge`, which cancels for some others too.

A cell with an unknown character is vertex 0 for the search wherever it stands, and then the two
charges have little to do with each other; `SameCharge` covers such cells too, and
`sameCharge_iff_horizontal` says what it is on maps without them.
-/
import PwsaStar.Grid.Basic
import PwsaStar.AStar
import PwsaStar.Pwsa.Refine

namespace PwsaStar.Grid

open PwsaStar.Lib PwsaStar.Heap

/-- "life cost multiplies by position in the grid" -/
def lifeCharge : Charge where
  weight nghrow dist := nghrow * dist
  nonneg _ _ := mul_nonneg

namespace LifeGraph

/-! ## The program -/

def graph (m : GridMap) : WGraph ℕ := m.graph lifeCharge

/-- `diff` in `weight_between` -/
def diff (m : GridMap) (u v : ℕ) : ℕ :=
  ((m.coordsOf u).row - (m.coordsOf v).row : ℤ).natAbs +
    ((m.coordsOf u).col - (m.coordsOf v).col : ℤ).natAbs

/-- `weight_between`; `none` when the program is left because the vertices are not adjacent. -/
def weightBetween (m : GridMap) (u v : ℕ) : Option ℤ :=
  match diff m u v with
  | 0 => some 0
  | 1 => some ((m.coordsOf u).row * 10000)
  | 2 => some ((m.coordsOf u).row * 14142)
  | _ => none

/-- The loop of `pathlen`, from `curr` on with `len` so far; the first number bounds the iterations.
`none` when `weight_between` leaves the program, a predecessor is missing or the iterations run
out. -/
def pathlen (m : GridMap) (predecessor : ℕ → Option ℕ) (src : ℕ) : ℕ → ℕ → ℤ → Option ℤ
  | 0, _, _ => none
  | fuel + 1, curr, len =>
    if curr = src then some len
    else
      match predecessor curr with
      | none => none
      | some p => (weightBetween m p curr).bind fun w => pathlen m predecessor src fuel p (len + w)

/-! ## One arc -/

/-- The neighbor `a.1` of `u` in direction `d`, and the weight `a.2` of the arc. -/
def Neighbor (m : GridMap) (u : ℕ) (d : Direction) (a : ℕ × ℤ) : Prop :=
  u < m.numberVertices ∧ d ∈ directions ∧ m.neighborAt lifeCharge (m.coordsOf u) d = some a

/-- **When an arc is charged alike.**  The move stays in its row and its end is where the move leads.
The second case needs a cell with an unknown character in row 0: the move is free, and so is
`weight_between`, because both its ends are one vertex or it starts in row 0 as well. -/
def SameCharge (m : GridMap) (u : ℕ) (d : Direction) (v : ℕ) : Prop :=
  (d.drow = 0 ∧ diff m u v = 1) ∨
  ((m.coordsOf u).row + d.drow = 0 ∧ (diff m u v = 0 ∨ (m.coordsOf u).row = 0 ∧ diff m u v ≤ 2))

instance (m : GridMap) (u : ℕ) (d : Direction) (v : ℕ) : Decidable (SameCharge m u d v) :=
  inferInstanceAs (Decidable (_ ∨ _))

theorem arc_iff {m : GridMap} {u v : ℕ} {w : ℤ} :
    (graph m).Arc u v w ↔ ∃ d, Neighbor m u d (v, w) := by
  refine GridMap.mem_forEachNeighborOf.trans ⟨?_, ?_⟩
  · rintro ⟨hu, d, hd, h⟩
    exact ⟨d, hu, hd, h⟩
  · rintro ⟨d, hu, hd, h⟩
    exact ⟨hu, d, hd, h⟩

/-- **`weight_between` is the weight of the arc exactly when the arc is charged alike.** -/
theorem weightBetween_iff {m : GridMap} {u : ℕ} {d : Direction} {a : ℕ × ℤ}
    (h : Neighbor m u d a) : weightBetween m u a.1 = some a.2 ↔ SameCharge m u d a.1 := by
  obtain ⟨-, hd, hnbr⟩ := h
  obtain ⟨r, c, hr, -, -, -, -, hw⟩ := GridMap.neighborAt_eq_some hnbr
  have hweight : a.2 = ((m.coordsOf u).row + d.drow) * d.dist := by
    rw [hw, ← hr]
    rfl
  have hrow : 0 ≤ (m.coordsOf u).row + d.drow := hr ▸ Int.natCast_nonneg r
  rw [hweight]
  unfold weightBetween SameCharge
  generalize diff m u a.1 = diff
  generalize (m.coordsOf u).row = row at hrow ⊢
  -- the three values of `diff` against the directions
  rcases GridMap.direction_cases hd with ⟨hdrow, -, hdist⟩ | ⟨hdrow | hdrow, hdist | hdist⟩ <;>
    rw [hdrow] at hrow ⊢ <;> rw [hdist] <;>
    match diff with
    | 0 | 1 | 2 =>
      apply Option.some_inj.trans
      omega
    | n + 3 =>
      apply iff_of_false (by simp)
      omega

section Known

variable {height width : ℕ} {body : List Char} {m : GridMap} {u : ℕ} {d : Direction} {a : ℕ × ℤ}

/-- On a map of known characters the end of an arc is where the move leads. -/
theorem Neighbor.place (hload : GridMap.load height width body = some m)
    (hknown : ∀ c ∈ body, GridMap.isRecognised c = true) (h : Neighbor m u d a) :
    ((m.coordsOf a.1).row : ℤ) = (m.coordsOf u).row + d.drow ∧
      diff m u a.1 = d.drow.natAbs + d.dcol.natAbs ∧ a.2 = (m.coordsOf a.1).row * d.dist := by
  obtain ⟨-, hd, hnbr⟩ := h
  obtain ⟨r, c, hr, hc, hrow, hcol, hgrid, hw⟩ := GridMap.neighborAt_eq_some hnbr
  have hplace : m.coordsOf a.1 = ⟨r, c⟩ := by
    rw [GridMap.coordsOf, List.getD_eq_getElem?_getD,
      GridMap.load_placed hload hknown hrow hcol hgrid]
    rfl
  rw [diff, hplace]
  refine ⟨hr, ?_, hw⟩
  dsimp only
  omega

/-- **There an arc is charged alike exactly when it stays in its row.** -/
theorem sameCharge_iff_horizontal (hload : GridMap.load height width body = some m)
    (hknown : ∀ c ∈ body, GridMap.isRecognised c = true) (h : Neighbor m u d a) :
    SameCharge m u d a.1 ↔ d.drow = 0 := by
  obtain ⟨-, hdiff, -⟩ := h.place hload hknown
  rw [SameCharge, hdiff]
  rcases GridMap.direction_cases h.2.1 with ⟨hdrow, hdcol, -⟩ | ⟨hdrow | hdrow, -⟩ <;> omega

/-- What the search pays for a move from `u` to `v` beyond what is reported. -/
def toll (m : GridMap) (u v : ℕ) : ℤ :=
  ((m.coordsOf v).row - (m.coordsOf u).row) * if diff m u v = 1 then 10000 else 14142

theorem weightBetween_toll (hload : GridMap.load height width body = some m)
    (hknown : ∀ c ∈ body, GridMap.isRecognised c = true) (h : Neighbor m u d a) :
    weightBetween m u a.1 = some (a.2 - toll m u a.1) := by
  obtain ⟨hrow, hdiff, hweight⟩ := h.place hload hknown
  have hlength : ∀ d ∈ directions, d.drow.natAbs + d.dcol.natAbs = 1 ∧ d.dist = 10000 ∨
      d.drow.natAbs + d.dcol.natAbs = 2 ∧ d.dist = 14142 := by decide
  unfold weightBetween toll
  rcases hlength d h.2.1 with ⟨hone, hdist⟩ | ⟨htwo, hdist⟩
  · rw [hdiff, hone, hweight, hdist, if_pos rfl]
    apply congrArg some
    omega
  · rw [hdiff, htwo, hweight, hdist, if_neg (by decide)]
    apply congrArg some
    omega

end Known

/-! ## A whole path -/

/-- `weight_between` is the weight of every arc. -/
def ArcsAgree (m : GridMap) : Prop := ∀ u v w, (graph m).Arc u v w → weightBetween m u v = some w

theorem arcsAgree_iff (m : GridMap) :
    ArcsAgree m ↔ ∀ u d a, Neighbor m u d a → SameCharge m u d a.1 := by
  constructor
  · intro hagree u d a h
    exact (weightBetween_iff h).mp (hagree u a.1 a.2 (arc_iff.mpr ⟨d, h⟩))
  · intro hsame u v w harc
    obtain ⟨d, h⟩ := arc_iff.mp harc
    exact (weightBetween_iff h).mpr (hsame u d (v, w) h)

/-- There is a path of predecessors from `dst` back to `src`, and for every way to charge its arcs
`pathlen` returns the total, which is at most `g`. -/
def PathAgrees (m : GridMap) (predecessor : ℕ → Option ℕ) (g : Dist) (src dst : ℕ) : Prop :=
  (∃ l d, PredPath (graph m) src predecessor dst l d) ∧
  ∀ l d, PredPath (graph m) src predecessor dst l d →
    (∀ fuel, l.length ≤ fuel → pathlen m predecessor src fuel dst 0 = some d) ∧ (d : Dist) ≤ g

variable {m : GridMap} {predecessor : ℕ → Option ℕ} {src dst : ℕ}

/-- Where the arcs agree, `pathlen` adds up the weights of the arcs. -/
theorem pathlen_eq (hagree : ArcsAgree m) {l : List ℕ} {d : ℤ}
    (h : PredPath (graph m) src predecessor dst l d) :
    ∀ fuel len, l.length ≤ fuel → pathlen m predecessor src fuel dst len = some (len + d) := by
  induction h with
  | root =>
      intro fuel len hfuel
      obtain ⟨n, rfl⟩ : ∃ n, fuel = n + 1 := ⟨fuel - 1, by simp at hfuel; omega⟩
      simp [pathlen]
  | @step v p w d l hne hp harc _ ih =>
      intro fuel len hfuel
      obtain ⟨n, rfl⟩ : ∃ n, fuel = n + 1 := ⟨fuel - 1, by simp at hfuel; omega⟩
      have hweight := hagree p v w harc
      have hrest := ih n (len + w) (by simpa using hfuel)
      simp only [pathlen, if_neg hne, hp, hweight, Option.bind_some, hrest, Option.some.injEq]
      omega

/-- Where the arcs agree, every path of a forest of predecessors is reported right. -/
theorem pathAgrees_of_forest (hagree : ArcsAgree m) {closed : ℕ → Prop} {g : ℕ → Dist}
    (F : Forest (graph m) src closed g predecessor) (hdst : g dst ≠ ⊤) :
    PathAgrees m predecessor (g dst) src dst := by
  obtain ⟨a, ha⟩ := WithTop.ne_top_iff_exists.mp hdst
  obtain ⟨l₀, d₀, hpath₀, hle⟩ := F.exists_path ha.symm
  refine ⟨⟨l₀, d₀, hpath₀⟩, ?_⟩
  intro l d hpath
  refine ⟨fun fuel hfuel => by simpa using pathlen_eq hagree hpath fuel 0 hfuel, ?_⟩
  -- `pathlen` has one value only
  have h := pathlen_eq hagree hpath (max l.length l₀.length) 0 (le_max_left ..)
  have h₀ := pathlen_eq hagree hpath₀ (max l.length l₀.length) 0 (le_max_right ..)
  have hd : d = d₀ := by simpa using h.symm.trans h₀
  rw [hd, ← ha]
  exact_mod_cast hle

/-- What the search pays for a path, from its end back, beyond what is reported. -/
def surcharge (m : GridMap) : List ℕ → ℤ
  | v :: p :: l => toll m p v + surcharge m (p :: l)
  | _ => 0

/-- **On a map of known characters `pathlen` reports the total weight less the surcharge.** -/
theorem pathlen_surcharge {height width : ℕ} {body : List Char}
    (hload : GridMap.load height width body = some m)
    (hknown : ∀ c ∈ body, GridMap.isRecognised c = true) {l : List ℕ} {d : ℤ}
    (h : PredPath (graph m) src predecessor dst l d) :
    ∀ fuel len, l.length ≤ fuel →
      pathlen m predecessor src fuel dst len = some (len + (d - surcharge m l)) := by
  induction h with
  | root =>
    intro fuel len hfuel
    obtain ⟨n, rfl⟩ : ∃ n, fuel = n + 1 := ⟨fuel - 1, by simp at hfuel; omega⟩
    simp [pathlen, surcharge]
  | @step v p w d l hne hp harc hrest ih =>
    intro fuel len hfuel
    obtain ⟨n, rfl⟩ : ∃ n, fuel = n + 1 := ⟨fuel - 1, by simp at hfuel; omega⟩
    obtain ⟨dir, hnbr⟩ := arc_iff.mp harc
    have hweight := weightBetween_toll hload hknown hnbr
    have htail := ih n (len + (w - toll m p v)) (by simpa using hfuel)
    have hsum : surcharge m (v :: l) = toll m p v + surcharge m l := by
      cases hrest <;> rfl
    simp only [pathlen, if_neg hne, hp, hweight, Option.bind_some, htail, hsum, Option.some.injEq]
    omega

/-- A path that stays in its row costs none. -/
theorem surcharge_of_row {row : ℕ} : ∀ {l : List ℕ}, (∀ v ∈ l, (m.coordsOf v).row = row) →
    surcharge m l = 0
  | [], _ | [_], _ => rfl
  | v :: p :: l, h => by
    have hv := h v List.mem_cons_self
    have hp := h p (List.mem_cons_of_mem v List.mem_cons_self)
    have hrest := surcharge_of_row (l := p :: l) fun x hx => h x (List.mem_cons_of_mem v hx)
    simp [surcharge, toll, hv, hp, hrest]

/-! ## Runs -/

/-- Every run of `astarT` that finds the destination, and every run of `pwsa_pcT` once it has
expanded the destination, ends in predecessors whose path is reported right. -/
def RunsAgree (W : Type*) [DecidableEq W] (leader : W) (m : GridMap) : Prop :=
  (∀ block heuristic src dst pebble fuel st pops,
    AStar.astarT block (graph m) heuristic src dst pebble fuel = .found st pops →
      PathAgrees m st.pred (st.dist dst) src dst) ∧
  ∀ block (P : Pwsa.Problem ℕ), P.graph = graph m → ∀ c : Pwsa.SearchConfig W ℕ,
    (Pwsa.pwsaPcT block P leader).Reachable c → c.shared.isExpanded P.destination = true →
      PathAgrees m c.shared.pred (c.shared.g P.destination) P.source P.destination

theorem runsAgree_of_arcsAgree {W : Type*} [DecidableEq W] [Fintype W] (leader : W)
    (hagree : ArcsAgree m) : RunsAgree W leader m := by
  refine ⟨?_, ?_⟩
  · intro block heuristic src dst pebble fuel st pops hrun
    obtain ⟨hst, hdst⟩ := AStar.found_labelled hrun
    exact pathAgrees_of_forest hagree hst.forest hdst
  · intro block P hgraph c hc hdst
    have hpath := Pwsa.reachable_pathInv (Or.inl (by decide))
      ((Pwsa.search_refines .pwsa_pcT block P leader).reachable hc)
    have hforest := hpath.mem.forest
    rw [hgraph] at hforest
    exact pathAgrees_of_forest hagree hforest (hpath.mem.labelled _ hdst)

/-- **What the search pays and what is reported.**  On every map: `weight_between` is the weight of an
arc exactly when the arc is charged alike; all arcs and all reported paths agree exactly when all arcs
are charged alike; and on a map of known characters these are the arcs that stay in their row, and one
path is reported right exactly when its surcharges cancel, as they do when it stays in one row. -/
theorem charged_alike {W : Type*} [DecidableEq W] [Fintype W] (leader : W) (height width : ℕ)
    (body : List Char) (m : GridMap) (hload : GridMap.load height width body = some m) :
    (∀ u d v w, Neighbor m u d (v, w) → (weightBetween m u v = some w ↔ SameCharge m u d v)) ∧
    (ArcsAgree m ∧ RunsAgree W leader m ↔ ∀ u d v w, Neighbor m u d (v, w) → SameCharge m u d v) ∧
    ((∀ c ∈ body, GridMap.isRecognised c = true) →
      (∀ u d v w, Neighbor m u d (v, w) → (SameCharge m u d v ↔ d.drow = 0)) ∧
      ∀ predecessor src dst l d, PredPath (graph m) src predecessor dst l d →
        (∀ fuel, l.length ≤ fuel →
          (pathlen m predecessor src fuel dst 0 = some d ↔ surcharge m l = 0)) ∧
        ((∀ v ∈ l, (m.coordsOf v).row = (m.coordsOf dst).row) → surcharge m l = 0)) := by
  refine ⟨fun u d v w h => weightBetween_iff (a := (v, w)) h, ⟨?_, ?_⟩, ?_⟩
  · rintro ⟨hagree, -⟩ u d v w h
    exact (arcsAgree_iff m).mp hagree u d (v, w) h
  · intro hsame
    have hagree := (arcsAgree_iff m).mpr fun u d a h => hsame u d a.1 a.2 h
    exact ⟨hagree, runsAgree_of_arcsAgree leader hagree⟩
  · intro hknown
    refine ⟨fun u d v w h => sameCharge_iff_horizontal (a := (v, w)) hload hknown h, ?_⟩
    intro predecessor src dst l d hpath
    refine ⟨fun fuel hfuel => ?_, surcharge_of_row⟩
    rw [pathlen_surcharge hload hknown hpath fuel 0 hfuel, Option.some.injEq]
    omega

/-- Two free cells below an obstacle row: the only arcs are horizontal, and everything agrees. -/
theorem charged_alike_row : ∃ m, GridMap.load 2 2 ['@', '@', '\n', '.', '.'] = some m ∧
    (graph m).Arc 0 1 10000 ∧ ArcsAgree m ∧ RunsAgree (Fin 2) 0 m := by
  have hrun : (GridMap.load 2 2 ['@', '@', '\n', '.', '.']).any (fun m =>
      decide ((graph m).Arc 0 1 10000 ∧ ∀ u < m.numberVertices, ∀ d ∈ directions,
        ∀ a ∈ m.neighborAt lifeCharge (m.coordsOf u) d, SameCharge m u d a.1)) = true := by
    decide +kernel
  obtain ⟨m, hload, hm⟩ := (Option.any_eq_true _ _).mp hrun
  obtain ⟨harc, hsame⟩ := of_decide_eq_true hm
  have hiff := (charged_alike (0 : Fin 2) 2 2 _ m hload).2.1
  exact ⟨m, hload, harc, hiff.mpr fun u d v w h => hsame u h.1 d h.2.1 (v, w) h.2.2⟩

/-- **Two cells, one below the other.**  The way up costs nothing and `astarT` pays nothing for it;
`pathlen` reports 10000. -/
theorem column_reported_wrong : ∃ m, GridMap.load 2 1 ['.', '\n', '.'] = some m ∧ ¬ ArcsAgree m ∧
    ∃ st pops, AStar.astarT (fun _ => ⟨⊤, 0⟩) (graph m) (fun _ => 0) 1 0 false 3 = .found st pops ∧
      PredPath (graph m) 1 st.pred 0 [0, 1] 0 ∧ st.dist 0 = 0 ∧
      pathlen m st.pred 1 2 0 0 = some 10000 ∧ ¬ PathAgrees m st.pred (st.dist 0) 1 0 := by
  have hrun : (GridMap.load 2 1 ['.', '\n', '.']).any (fun m =>
      decide ((graph m).Arc 1 0 0 ∧ weightBetween m 1 0 = some 10000) &&
      match AStar.astarT (fun _ => ⟨⊤, 0⟩) (graph m) (fun _ => 0) 1 0 false 3 with
      | .found st _ => decide (st.pred 0 = some 1 ∧ st.dist 0 = 0 ∧
          pathlen m st.pred 1 2 0 0 = some 10000)
      | _ => false) = true := by
    decide +kernel
  obtain ⟨m, hload, hm⟩ := (Option.any_eq_true _ _).mp hrun
  obtain ⟨harcs, hsearch⟩ := Bool.and_eq_true_iff.mp hm
  obtain ⟨harc, hweight⟩ := of_decide_eq_true harcs
  refine ⟨m, hload, ?_, ?_⟩
  · intro hagree
    have h := (hagree 1 0 0 harc).symm.trans hweight
    exact absurd h (by decide)
  · split at hsearch
    · rename_i st pops hfound
      obtain ⟨hpred, hdist, hlen⟩ := of_decide_eq_true hsearch
      have hpath : PredPath (graph m) 1 st.pred 0 [0, 1] 0 :=
        PredPath.step (by decide) hpred harc PredPath.root
      refine ⟨st, pops, hfound, hpath, hdist, hlen, ?_⟩
      rintro ⟨-, hreport⟩
      have h := ((hreport _ _ hpath).1 2 le_rfl).symm.trans hlen
      exact absurd h (by decide)
    · cases hsearch

end LifeGraph

end PwsaStar.Grid
