/-
# PwsaStar.Wpanre.Track — wPA*NRE keeps a path forest and loses no vertex.

The predecessors come from `Wpanre.Basic`; what is added here is where a labelled vertex can be.  The
second locked block inserts an entry for every label it writes, the first one hands an entry to a
worker, and the worker drops it only when the vertex is expanded.  So a labelled vertex that is not
expanded is in the heap or in the hands of a worker that has not tried its exchange (`Tracked`).

The exchange of `is_expanded` is won once for every vertex, which the log of the winners shows
(`Claims`): a worker that reads the label of a vertex or relaxes its arcs is the one that is logged.
-/
import PwsaStar.Wpanre.Basic

namespace PwsaStar.Wpanre

open PwsaStar.Lib PwsaStar.Heap

variable {W V : Type*}

/-- The worker has popped `v` and not yet executed its exchange. -/
def Pc.Popped (v : V) : Pc V → Prop
  | .loadExpanded u | .casExpanded u => u = v
  | _ => False

/-- The worker has won the exchange on `v` and is expanding it. -/
def Pc.Expands (v : V) : Pc V → Prop
  | .readG u | .relax u _ => u = v
  | _ => False

/-- A labelled vertex that is not expanded is in the heap or in the hands of a worker. -/
def Tracked (c : Config W V) : Prop :=
  ∀ v, c.mem.g v ≠ ⊤ → c.mem.isExpanded v = false →
    (∃ e ∈ c.mem.frontier.entries, e.value = v) ∨ ∃ w, (c.pc w).Popped v

/-- The log of the exchanges that were won. -/
structure Claims (c : Config W V) : Prop where
  expanded : ∀ v, c.mem.isExpanded v = true ↔ v ∈ c.mem.claims.map Prod.snd
  nodup : (c.mem.claims.map Prod.snd).Nodup
  owner : ∀ w v, (c.pc w).Expands v → (w, v) ∈ c.mem.claims

/-! ## Insertions -/

/-- Entries are added only, at least one for every vertex that gets its first label; nothing is
claimed. -/
structure Inserts (m m' : Mem W V) : Prop where
  entries : m.frontier.entries ≤ m'.frontier.entries
  labelled : ∀ v, m'.g v ≠ ⊤ → m.g v = ⊤ → ∃ e ∈ m'.frontier.entries, e.value = v
  expanded : m'.isExpanded = m.isExpanded
  claims : m'.claims = m.claims

theorem Inserts.refl (m : Mem W V) : Inserts m m :=
  ⟨le_rfl, fun _ hfin htop => absurd htop hfin, rfl, rfl⟩

theorem Inserts.trans {m₁ m₂ m₃ : Mem W V} (h₁ : Inserts m₁ m₂) (h₂ : Inserts m₂ m₃) :
    Inserts m₁ m₃ where
  entries := h₁.entries.trans h₂.entries
  labelled v hfin htop := by
    by_cases hmid : m₂.g v = ⊤
    · exact h₂.labelled v hfin hmid
    · obtain ⟨e, he, hev⟩ := h₁.labelled v hmid htop
      exact ⟨e, Multiset.mem_of_le h₂.entries he, hev⟩
  expanded := h₂.expanded.trans h₁.expanded
  claims := h₂.claims.trans h₁.claims

section

variable [DecidableEq W] {c : Config W V} {w : W} {m : Mem W V} {p : Pc V}

/-- One worker moves.  What leaves the heap is in its hands, and it lets go of expanded vertices
only. -/
theorem Tracked.set (h : Tracked c)
    (hentries : ∀ e ∈ c.mem.frontier.entries, e ∈ m.frontier.entries ∨ p.Popped e.value)
    (hlabelled : ∀ v, m.g v ≠ ⊤ → c.mem.g v = ⊤ → ∃ e ∈ m.frontier.entries, e.value = v)
    (hexpanded : ∀ v, c.mem.isExpanded v = true → m.isExpanded v = true)
    (hpopped : ∀ v, (c.pc w).Popped v → p.Popped v ∨ m.isExpanded v = true) :
    Tracked (c.set w m p) := by
  intro v hfin hopen
  by_cases htop : c.mem.g v = ⊤
  · exact Or.inl (hlabelled v hfin htop)
  have hopen' : c.mem.isExpanded v = false := by
    by_contra hexp
    have := hexpanded v (by simpa using hexp)
    exact absurd (hopen.symm.trans this) (by decide)
  have hself : p.Popped v → ∃ w', ((c.set w m p).pc w').Popped v :=
    fun hp => ⟨w, by simpa [Config.set] using hp⟩
  rcases h v htop hopen' with ⟨e, he, rfl⟩ | ⟨w', hw'⟩
  · rcases hentries e he with he | hp
    · exact Or.inl ⟨e, he, rfl⟩
    · exact Or.inr (hself hp)
  · rcases eq_or_ne w' w with rfl | hne
    · rcases hpopped v hw' with hp | hexp
      · exact Or.inr (hself hp)
      · exact absurd (hopen.symm.trans hexp) (by decide)
    · exact Or.inr ⟨w', by simpa [Config.set, hne] using hw'⟩

/-- One worker moves and claims nothing. -/
theorem Claims.set (h : Claims c) (hexpanded : m.isExpanded = c.mem.isExpanded)
    (hclaims : m.claims = c.mem.claims)
    (howner : ∀ v, p.Expands v → (c.pc w).Expands v) : Claims (c.set w m p) where
  expanded v := by
    simpa [Config.set, hexpanded, hclaims] using h.expanded v
  nodup := by
    simpa [Config.set, hclaims] using h.nodup
  owner w' v hw' := by
    show (w', v) ∈ m.claims
    rw [hclaims]
    rcases eq_or_ne w' w with rfl | hne
    · exact h.owner _ v (howner v (by simpa [Config.set] using hw'))
    · exact h.owner w' v (by simpa [Config.set, hne] using hw')

/-- The winner of the exchange is logged. -/
theorem Claims.mark [DecidableEq V] (h : Claims c) {v : V} (hopen : c.mem.isExpanded v = false)
    (howner : ∀ u, p.Expands u → u = v) : Claims (c.set w (c.mem.mark w v) p) where
  expanded u := by
    have hu := h.expanded u
    show Function.update c.mem.isExpanded v true u = true ↔ u ∈ v :: c.mem.claims.map Prod.snd
    rw [update_mark_iff, List.mem_cons, hu]
  nodup := by
    show (v :: c.mem.claims.map Prod.snd).Nodup
    refine List.nodup_cons.mpr ⟨?_, h.nodup⟩
    intro hmem
    exact absurd ((h.expanded v).mpr hmem) (by simp [hopen])
  owner w' u hw' := by
    show (w', u) ∈ (w, v) :: c.mem.claims
    rcases eq_or_ne w' w with rfl | hne
    · obtain rfl := howner u (by simpa [Config.set] using hw')
      exact List.mem_cons_self ..
    · exact List.mem_cons_of_mem _ (h.owner w' u (by simpa [Config.set, hne] using hw'))

end

variable [DecidableEq V] [DecidableEq W]

section

variable {block : ℕ → KV Dist V} {P : Problem V} {c : Config W V}

end

/-- Five cells in a row and the zero heuristic. -/
def corridorProblem : Problem (Fin 5) where
  graph := WGraph.corridor 5 10000
  heuristic _ := 0
  source := 0
  destination := 4
  pebble := true

end PwsaStar.Wpanre
