/-
# PwsaStar.Pase.Multimap — the `multimap` of wPA*SE is in step with the flags of the vertices.

Between its two locked blocks a worker holds an iterator.  Other workers erase entries meanwhile: the
scan erases entries of expanded vertices, the second locked block erases the entry of its own
vertex.  Neither hits a held entry.  A held vertex is claimed and not expanded, a vertex is claimed
while nobody else is expanding it, and it becomes expanded in the very block that erases the entry.

`Keyed` is what the keys say about the labels; it holds for every heuristic.
-/
import PwsaStar.Pase.Basic

namespace PwsaStar.Pase

open PwsaStar.Lib

variable {W V : Type*}

/-! ## Keys and labels -/

/-- Every open vertex has an entry with its present key, and no entry has a smaller key than its
vertex has now. -/
structure Keyed (P : Problem V) (m : Mem W V) : Prop where
  queued : ∀ v, m.g v ≠ ⊤ → m.isExpanded v = false →
    ∃ e ∈ m.queue, e.vertex = v ∧ e.key = m.g v + (P.heuristic v P.destination : Dist)
  keys : ∀ e ∈ m.queue, m.g e.vertex + (P.heuristic e.vertex P.destination : Dist) ≤ e.key

section

variable [DecidableEq V] {P : Problem V} {m m' : Mem W V}

theorem keyed_start : Keyed P (Mem.start P : Mem W V) := by
  have hqueue : (Mem.start (W := W) P).queue =
      [⟨0, (P.heuristic P.source P.destination : Dist), P.source⟩] := rfl
  have hg : (Mem.start (W := W) P).g = Function.update (fun _ => ⊤) P.source 0 := rfl
  refine ⟨?_, ?_⟩
  · intro v hv _
    have hsource : v = P.source := by
      by_contra hne
      simp [hg, hne] at hv
    subst hsource
    simp only [hqueue, hg]
    exact ⟨_, List.mem_singleton_self _, rfl, by simp⟩
  · intro e he
    rw [hqueue] at he
    obtain rfl := List.mem_singleton.mp he
    simp [hg]

theorem Keyed.findIndependent (h : Keyed P m) {r : Option (Entry V)}
    (hfind : findIndependent P.heuristic m = (m', r)) : Keyed P m' := by
  obtain ⟨queue, hsub, hkeep, hcases⟩ := findIndependent_cases hfind
  have hkeyed : Keyed P { m with queue := queue } := by
    refine ⟨?_, fun e he => h.keys e (hsub.subset he)⟩
    intro v hv hopen
    obtain ⟨e, he, rfl, hkey⟩ := h.queued v hv hopen
    exact ⟨e, hkeep e he hopen, rfl, hkey⟩
  rcases hcases with ⟨-, rfl⟩ | ⟨e, before, behind, -, -, -, -, -, rfl⟩
  · exact hkeyed
  · exact ⟨hkeyed.queued, hkeyed.keys⟩

theorem Keyed.relax (h : Keyed P m) (v : V) (vdist : Dist) (arc : V × ℤ) :
    Keyed P (relax P v vdist m arc) := by
  rcases relax_cases P v vdist m arc with ⟨-, heq⟩ | ⟨hlt, heq⟩ <;> rw [heq]
  · exact h
  · have hlabel : ∀ u, Function.update m.g arc.1 (vdist + (arc.2 : Dist)) u ≤ m.g u :=
      update_le_self_iff.mpr hlt.le
    refine ⟨?_, ?_⟩
    · intro u hu hopen
      by_cases hua : u = arc.1
      · subst hua
        refine ⟨_, mem_insertLocked.mpr (Or.inl rfl), rfl, ?_⟩
        simp [Mem.insertLocked]
      · obtain ⟨e, he, hev, hkey⟩ := h.queued u (by simpa [Mem.insertLocked, hua] using hu) hopen
        refine ⟨e, mem_insertLocked.mpr (Or.inr he), hev, ?_⟩
        simpa [Mem.insertLocked, hua] using hkey
    · intro e he
      rcases mem_insertLocked.mp he with rfl | he
      · simp [Mem.insertLocked]
      · exact (add_le_add_left (hlabel e.vertex) _).trans (h.keys e he)

theorem Keyed.relaxAll (v : V) (vdist : Dist) : ∀ (arcs : List (V × ℤ)) {m : Mem W V}, Keyed P m →
    Keyed P (arcs.foldl (Pase.relax P v vdist) m) := by
  intro arcs
  induction arcs with
  | nil =>
    intro m h
    exact h
  | cons arc arcs ih =>
    intro m h
    exact ih (h.relax v vdist arc)

/-- Erasing the node of the vertex that was expanded. -/
theorem Keyed.expand (h : Keyed P m) {e : Entry V} {vdist : Dist}
    (hheld : Held ((P.graph.nbrs e.vertex).foldl (Pase.relax P e.vertex vdist) m) e) :
    Keyed P (expand P e vdist m) := by
  have h' := h.relaxAll e.vertex vdist (P.graph.nbrs e.vertex)
  refine ⟨?_, fun e' he' => h'.keys e' (List.mem_of_mem_filter he')⟩
  intro u hu hopen
  have hue : u ≠ e.vertex := by
    rintro rfl
    simp [Pase.expand] at hopen
  obtain ⟨e', he', rfl, hkey⟩ := h'.queued u hu (by simpa [Pase.expand, hue] using hopen)
  have hid : e'.id ≠ e.id := fun hid => hue (hheld.name e' he' hid)
  exact ⟨e', List.mem_filter.mpr ⟨he', by simpa using hid⟩, rfl, hkey⟩

end

/-! ## What a step does to one entry -/

/-- The loop over the arcs erases nothing and marks nothing. -/
theorem relaxAll_keeps [DecidableEq V] (P : Problem V) (v : V) (vdist : Dist) :
    ∀ (arcs : List (V × ℤ)) (m : Mem W V),
      (∀ e ∈ m.queue, e ∈ (arcs.foldl (relax P v vdist) m).queue) ∧
      (arcs.foldl (relax P v vdist) m).isExpanded = m.isExpanded := by
  intro arcs
  induction arcs with
  | nil =>
    intro m
    exact ⟨fun _ he => he, rfl⟩
  | cons arc arcs ih =>
    intro m
    obtain ⟨hqueue, hexp⟩ := ih (relax P v vdist m arc)
    have hone : (∀ e ∈ m.queue, e ∈ (relax P v vdist m arc).queue) ∧
        (relax P v vdist m arc).isExpanded = m.isExpanded := by
      rcases relax_cases P v vdist m arc with ⟨-, heq⟩ | ⟨-, heq⟩ <;> rw [heq]
      · exact ⟨fun _ he => he, rfl⟩
      · exact ⟨fun e he => mem_insertLocked.mpr (Or.inr he), rfl⟩
    exact ⟨fun e he => hqueue e (hone.1 e he), hexp.trans hone.2⟩

/-- The worker holds an iterator to the node `e`. -/
def Pc.Holds (e : Entry V) : Pc V → Prop
  | .claimed f | .readG f | .expand f _ => f = e
  | _ => False

theorem Pc.Holds.unique {p : Pc V} {e f : Entry V} (he : p.Holds e) (hf : p.Holds f) : e = f := by
  cases p with
  | claimed | readG | expand => exact he.symm.trans hf
  | _ => exact he.elim

variable [DecidableEq V] [DecidableEq W] {P : Problem V} {w : W} {c c' : Config W V}

/-- `find_independent` hands the node `e` to worker `w` in the step from `c` to `c'`. -/
def Claims (P : Problem V) (w : W) (e : Entry V) (c c' : Config W V) : Prop :=
  next P w c = some c' ∧ c.pc w = .find ∧ c'.pc w = .claimed e

/-- Worker `w` erases the node `e` it holds in the step from `c` to `c'`. -/
def Erases (P : Problem V) (w : W) (e : Entry V) (c c' : Config W V) : Prop :=
  next P w c = some c' ∧ ∃ vdist, c.pc w = .expand e vdist

/-- **An entry of an open vertex stays** unless its vertex is expanded in this step. -/
theorem entry_next (I : Inv P c) (hstep : next P w c = some c') {e : Entry V}
    (he : e ∈ c.mem.queue) (hopen : c.mem.isExpanded e.vertex = false)
    (hother : ∀ f vdist, c.pc w = .expand f vdist → f.vertex ≠ e.vertex) :
    e ∈ c'.mem.queue ∧ c'.mem.isExpanded e.vertex = false := by
  have hpc := I.pcs w
  cases hw : c.pc w <;> rw [hw] at hpc <;> simp only [next, hw] at hstep
  case find =>
    split at hstep <;> rename_i hfind <;> cases hstep <;>
      obtain ⟨queue, -, hkeep, ⟨-, rfl⟩ | ⟨f, before, behind, -, -, -, -, -, rfl⟩⟩ :=
        findIndependent_cases hfind <;> exact ⟨hkeep e he hopen, hopen⟩
  case expand f vdist =>
    cases hstep
    have hne : e.vertex ≠ f.vertex := (hother f vdist hw).symm
    obtain ⟨hqueue, hexp⟩ := relaxAll_keeps P f.vertex vdist (P.graph.nbrs f.vertex) c.mem
    have hid : e.id ≠ f.id := fun hid => hne (hpc.1.name e he hid)
    refine ⟨List.mem_filter.mpr ⟨hqueue e he, by simpa using hid⟩, ?_⟩
    simpa [Config.set, Pase.expand, hexp, hne] using hopen
  case returned => cases hstep
  all_goals cases hstep; exact ⟨he, hopen⟩

/-- A worker that holds a node after a step held it before, or has just claimed it. -/
theorem holds_next (hstep : next P w c = some c') {w' : W} {e : Entry V}
    (hholds : (c'.pc w').Holds e) :
    ((c.pc w').Holds e ∧ (w' = w → ∀ f vdist, c.pc w ≠ .expand f vdist)) ∨
      (w' = w ∧ Claims P w e c c') := by
  rcases eq_or_ne w' w with rfl | hne
  · have hstep' := hstep
    cases hw : c.pc w' <;> simp only [next, hw] at hstep
    case find =>
      split at hstep <;> cases hstep
      · simp [Config.set, Pc.Holds] at hholds
      · rename_i m f hfind
        have hf : f = e := by simpa [Config.set, Pc.Holds] using hholds
        exact Or.inr ⟨rfl, hstep', hw, by simp [Config.set, hf]⟩
    case claimed f =>
      cases hstep
      refine Or.inl ⟨?_, by rintro _ _ _ ⟨⟩⟩
      by_cases hdest : f.vertex = P.destination
      · simp [Config.set, hdest, Pc.Holds] at hholds
      · simpa [Config.set, hdest, Pc.Holds] using hholds
    case readG f =>
      cases hstep
      exact Or.inl ⟨by simpa [Config.set, Pc.Holds] using hholds, by rintro _ _ _ ⟨⟩⟩
    case test =>
      cases hstep
      by_cases hdone : c.mem.isDone = true <;> simp [Config.set, hdone, Pc.Holds] at hholds
    case setDone | expand =>
      cases hstep
      simp [Config.set, Pc.Holds] at hholds
    case returned => cases hstep
  · refine Or.inl ⟨?_, fun h => absurd h hne⟩
    have hpc : c'.pc w' = c.pc w' := by
      cases hw : c.pc w <;> simp only [next, hw] at hstep
      case find => split at hstep <;> cases hstep <;> simp [Config.set, hne]
      case returned => cases hstep
      all_goals cases hstep; simp [Config.set, hne]
    rwa [hpc] at hholds

/-- The vertex of a node that is handed out was claimed by nobody, is claimed now and is open. -/
theorem Claims.spec {e : Entry V} (h : Claims P w e c c') :
    c.mem.beingExpanded e.vertex = false ∧ c'.mem.beingExpanded e.vertex = true ∧
      e ∈ c'.mem.queue ∧ c'.mem.isExpanded e.vertex = false := by
  obtain ⟨hstep, hfindpc, hclaimed⟩ := h
  simp only [next, hfindpc] at hstep
  split at hstep <;> rename_i hfind <;> cases hstep
  · simp [Config.set] at hclaimed
  · rename_i f
    obtain rfl : f = e := by simpa [Config.set] using hclaimed
    obtain ⟨queue, -, -, ⟨h, -⟩ | ⟨f', before, behind, heq, hopen, hidle, rfl, -, rfl⟩⟩ :=
      findIndependent_cases hfind
    · cases h
    · cases heq
      exact ⟨hidle, by simp [Config.set], by simp [Config.set], hopen⟩

/-- Claims are never taken back. -/
theorem claimed_next (I : Inv P c) (hstep : next P w c = some c') {v : V}
    (hv : c.mem.beingExpanded v = true) : c'.mem.beingExpanded v = true := by
  have hpc := I.pcs w
  cases hw : c.pc w <;> rw [hw] at hpc <;> simp only [next, hw] at hstep
  case find =>
    split at hstep <;> rename_i hfind <;> cases hstep <;>
      exact (I.mem.findIndependent hfind).2.1.claimed v hv
  case expand e vdist =>
    cases hstep
    obtain ⟨hheld, hsnap, hfin⟩ := hpc
    exact (Expanding.expand ⟨I.mem, hheld.claimed, hsnap, hfin⟩).2.claimed v hv
  case returned => cases hstep
  all_goals cases hstep; exact hv

/-! ## Runs -/

/-- The node `e` is in the `multimap`, its vertex is claimed and open, and nobody but `w` can hold a
node of that vertex. -/
structure Reserved (w : W) (e : Entry V) (c : Config W V) : Prop where
  present : e ∈ c.mem.queue
  opened : c.mem.isExpanded e.vertex = false
  claimed : c.mem.beingExpanded e.vertex = true
  holder : ∀ w' f, (c.pc w').Holds f → f.vertex = e.vertex → w' = w ∧ f = e

theorem Reserved.next (I : Inv P c) {w' : W} {e : Entry V} (h : Reserved w e c)
    (hstep : next P w' c = some c') : Erases P w e c c' ∨ Reserved w e c' := by
  by_cases herase : ∃ f vdist, c.pc w' = .expand f vdist ∧ f.vertex = e.vertex
  · obtain ⟨f, vdist, hf, hvertex⟩ := herase
    obtain ⟨rfl, rfl⟩ := h.holder w' f (by rw [hf]; rfl) hvertex
    exact Or.inl ⟨hstep, vdist, hf⟩
  · obtain ⟨hpresent, hopened⟩ := entry_next I hstep h.present h.opened
      fun f vdist hf hvertex => herase ⟨f, vdist, hf, hvertex⟩
    refine Or.inr ⟨hpresent, hopened, claimed_next I hstep h.claimed, ?_⟩
    intro w₁ f hf hvertex
    rcases holds_next hstep hf with ⟨hold, -⟩ | ⟨-, hclaim⟩
    · exact h.holder w₁ f hold hvertex
    · have hfalse := hclaim.spec.1
      rw [hvertex, h.claimed] at hfalse
      cases hfalse

/-- A node stays in the `multimap` until the worker it was handed to erases it. -/
theorem Reserved.steps (hc : (pase P).Reachable c) {e : Entry V} (h : Reserved w e c)
    (hsteps : (pase P).Steps c c') :
    Reserved w e c' ∨
      ∃ c₁ c₂, (pase P).Steps c c₁ ∧ Erases P w e c₁ c₂ ∧ (pase P).Steps c₂ c' := by
  induction hsteps with
  | refl => exact Or.inl h
  | @tail c₁ c₂ hpre hlast ih =>
    obtain ⟨w', hstep⟩ := hlast
    rcases ih with hres | ⟨d₁, d₂, hbefore, herase, hafter⟩
    · rcases hres.next (reachable_inv (hc.steps hpre)) hstep with herase | hres'
      · exact Or.inr ⟨c₁, c₂, hpre, herase, System.Steps.refl _⟩
      · exact Or.inl hres'
    · exact Or.inr ⟨d₁, d₂, hbefore, herase, hafter.trans (System.Steps.single ⟨w', hstep⟩)⟩

/-- Four cells in a row and the zero heuristic. -/
def corridorProblem : Problem (Fin 4) where
  graph := WGraph.corridor 4 10000
  heuristic _ _ := 0
  source := 0
  destination := 3
  pebble := false

theorem exists_run (P : Problem V) (schedule : List W) (Q : Config W V → Prop) [DecidablePred Q]
    (h : (runSchedule (next P) schedule
      { mem := Mem.start P, pc := fun _ => .test }).any (fun c => decide (Q c)) = true) :
    ∃ c, (pase P).Reachable c ∧ Q c :=
  exists_reachable (pase P) (next P) (fun w _ _ hstep => ⟨w, hstep⟩) rfl schedule Q h

end PwsaStar.Pase
