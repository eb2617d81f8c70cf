/-
# PwsaStar.Pbnf.Owners — who may touch what.

Every nblock in use has exactly one thread, and the scopes of nblocks in use do not meet.  So whatever a
thread does to open and closed lists is not seen by the monitor, which only looks at the lists of free
nblocks, nor by the other threads.
-/
import PwsaStar.Pbnf.Lists
import PwsaStar.Pbnf.Wakeups

namespace PwsaStar.Pbnf

open PwsaStar.Lib NBlockGraph

variable {V : Type} {n : ℕ} {D : SearchDomain V} {P : Projection V n} {detect_livelocks : Bool}

/-- The projection shows every step of the search: the children of a state are in the scope of its
nblock. -/
def Projection.Covers (P : Projection V n) (D : SearchDomain V) : Prop :=
  ∀ s t c, (t, c) ∈ D.expand s → P.project t ∈ P.scope (P.project s)

/-- The nblock that a thread was given and has not given back. -/
def Phase.held : Phase V n → Option (Fin n)
  | .next f => f
  | .asleep => none
  | .woken => none
  | .search b => some b
  | .take b => some b
  | .children b _ _ _ => some b
  | .path b _ _ _ => some b
  | .solution b _ _ => some b
  | .best b => some b
  | .swap b _ _ => some b
  | .leave => none
  | .finished => none

/-! ## The scopes of the nblocks in use -/

section Scopes

variable {view view' : View n} {limit : ℕ} {S : Set (Fin n)} {g : NBlockGraph n} {a b k : Fin n}

/-- The scopes of two nblocks in use do not meet. -/
theorem NBlockGraph.Exact.disjoint (hP : P.Mutual) (h : Exact P view limit S g) (ha : g.inuse a = true)
    (hb : g.inuse b = true) (hab : a ≠ b) (hk : k ∈ P.scope a) : k ∉ P.scope b := by
  intro hk'
  have hmem := P.interferes_of_scope hP hab hk hk'
  have hpos := count_pos hb hmem
  have hzero := h.inuse a ha
  rw [h.sigma_eq a] at hzero
  omega

/-- No nblock in the scope of one in use is free. -/
theorem NBlockGraph.Exact.not_free (h : Exact P view limit S g) (hb : g.inuse b = true) (hk : k ∈ P.scope b)
    (view' : View n) : g.is_free view' k = false := by
  rw [← Bool.not_eq_true, is_free_iff]
  rintro ⟨hu, hzero, -, -⟩
  by_cases hkb : k = b
  · subst hkb
    exact absurd (hb.symm.trans hu) Bool.noConfusion
  · have hmem : k ∈ P.interferes b :=
      Projection.mem_interferes.mpr ⟨hkb, Or.inr (Or.inl (Or.resolve_left hk hkb))⟩
    have hpos := count_pos hb hmem
    rw [h.sigma_eq k] at hzero
    omega

/-- Two views that agree on an nblock. -/
def View.AgreeAt (view view' : View n) (k : Fin n) : Prop :=
  view'.empty k = view.empty k ∧ view'.best_value k = view.best_value k ∧ view'.peek_g k = view.peek_g k

theorem View.AgreeAt.is_free {g : NBlockGraph n} (h : view.AgreeAt view' k) :
    g.is_free view' k = g.is_free view k := by
  rw [NBlockGraph.is_free, NBlockGraph.is_free, h.1]

/-- **What happens in the scope of an nblock in use does not concern the monitor.** -/
theorem NBlockGraph.Exact.congr_view (h : Exact P view limit S g) (hb : g.inuse b = true)
    (hview : ∀ k, k ∉ P.scope b → view.AgreeAt view' k) : Exact P view' limit S g := by
  have hagree : ∀ k, g.is_free view k = true ∨ g.is_free view' k = true → view.AgreeAt view' k := by
    intro k hk
    apply hview
    intro hmem
    rcases hk with hk | hk
    · exact absurd (hk.symm.trans (h.not_free hb hmem view)) Bool.noConfusion
    · exact absurd (hk.symm.trans (h.not_free hb hmem view')) Bool.noConfusion
  have hlist : PriorityQueue.Holds view'.pred g.free_list S := by
    apply h.list.congr
    intro x hx y hy
    obtain ⟨hxe, hxb, hxg⟩ := hagree x (Or.inl (h.listed x hx))
    obtain ⟨hye, hyb, hyg⟩ := hagree y (Or.inl (h.listed y hy))
    rw [View.pred, View.pred, hxe, hxb, hxg, hye, hyb, hyg]
  refine { h with list := hlist, listed := ?_, free := ?_ }
  · intro k hk
    rw [(hagree k (Or.inl (h.listed k hk))).is_free]
    exact h.listed k hk
  · intro k hk
    have hk' := hagree k (Or.inr hk)
    rw [hk'.is_free] at hk
    rw [hk'.2.1]
    exact h.free k hk

end Scopes

/-! ## One thread for every nblock in use -/

section OneThread

variable {ι : Type} [DecidableEq ι]

/-- `h` says what every thread has: the nblocks in use, and no nblock twice. -/
structure Owners (h : ι → Option (Fin n)) (inuse : Fin n → Bool) : Prop where
  iff : ∀ b, inuse b = true ↔ ∃ t, h t = some b
  unique : ∀ t u b, h t = some b → h u = some b → t = u

variable {h : ι → Option (Fin n)} {inuse : Fin n → Bool} {t : ι} {b : Fin n}

theorem Owners.release (ho : Owners h inuse) (ht : h t = some b) :
    Owners (Function.update h t none) (Function.update inuse b false) := by
  refine { iff := ?_, unique := ?_ }
  · intro c
    by_cases hc : c = b
    · subst hc
      rw [Function.update_self]
      refine ⟨fun hfalse => absurd hfalse Bool.false_ne_true, ?_⟩
      rintro ⟨u, hu⟩
      by_cases hut : u = t
      · rw [hut, Function.update_self] at hu
        exact absurd hu.symm (Option.some_ne_none c)
      · rw [Function.update_of_ne hut] at hu
        exact absurd (ho.unique u t c hu ht) hut
    · rw [Function.update_of_ne hc, ho.iff]
      constructor
      · rintro ⟨u, hu⟩
        refine ⟨u, ?_⟩
        rw [Function.update_of_ne]
        · exact hu
        · rintro rfl
          exact hc (Option.some.inj (hu.symm.trans ht))
      · rintro ⟨u, hu⟩
        refine ⟨u, ?_⟩
        by_cases hut : u = t
        · rw [hut, Function.update_self] at hu
          exact absurd hu.symm (Option.some_ne_none c)
        · rwa [Function.update_of_ne hut] at hu
  · intro u v c hu hv
    have hne : ∀ {w}, Function.update h t none w = some c → h w = some c := by
      intro w hw
      by_cases hwt : w = t
      · rw [hwt, Function.update_self] at hw
        exact absurd hw.symm (Option.some_ne_none c)
      · rwa [Function.update_of_ne hwt] at hw
    exact ho.unique u v c (hne hu) (hne hv)

theorem Owners.acquire (ho : Owners h inuse) (ht : h t = none) (hb : inuse b = false) :
    Owners (Function.update h t (some b)) (Function.update inuse b true) := by
  have hfree : ∀ u, h u ≠ some b := by
    intro u hu
    exact absurd (((ho.iff b).mpr ⟨u, hu⟩).symm.trans hb) Bool.noConfusion
  refine { iff := ?_, unique := ?_ }
  · intro c
    by_cases hc : c = b
    · subst hc
      rw [Function.update_self]
      exact ⟨fun _ => ⟨t, Function.update_self ..⟩, fun _ => rfl⟩
    · rw [Function.update_of_ne hc, ho.iff]
      constructor
      · rintro ⟨u, hu⟩
        refine ⟨u, ?_⟩
        rw [Function.update_of_ne]
        · exact hu
        · rintro rfl
          exact absurd (hu.symm.trans ht) (Option.some_ne_none c)
      · rintro ⟨u, hu⟩
        refine ⟨u, ?_⟩
        by_cases hut : u = t
        · rw [hut, Function.update_self] at hu
          exact absurd (Option.some.inj hu).symm hc
        · rwa [Function.update_of_ne hut] at hu
  · intro u v c hu hv
    by_cases hut : u = t
    · by_cases hvt : v = t
      · rw [hut, hvt]
      · rw [hut, Function.update_self] at hu
        rw [Function.update_of_ne hvt] at hv
        exact absurd (Option.some.inj hu ▸ hv) (hfree v)
    · rw [Function.update_of_ne hut] at hu
      by_cases hvt : v = t
      · rw [hvt, Function.update_self] at hv
        exact absurd (Option.some.inj hv ▸ hu) (hfree u)
      · rw [Function.update_of_ne hvt] at hv
        exact ho.unique u v c hu hv

/-- A turn of `t` after which it has what it had. -/
theorem Owners.same (ho : Owners h inuse) {x : Option (Fin n)} (hx : x = h t) :
    Owners (Function.update h t x) inuse := by
  rw [hx, Function.update_eq_self]
  exact ho

end OneThread

/-! ## What a turn touches -/

variable {sh sh' : Shared V n} {ph ph' : Phase V n} {c : Notice}

/-- A turn on its own leaves the thread its nblock. -/
theorem Private.held (h : Private D sh ph ph') : ph'.held = ph.held := by
  cases h <;> rfl

/-- The outcome of `should_switch`: it has failed no assertion, and has changed nothing that its callers
could notice. -/
def Unnoticed (P : Projection V n) (sh : Shared V n) (limit : ℕ) (r : Option ((NBlockGraph n × Bool) × Bool)) :
    Prop :=
  ∃ g ret S, r = some (g, ret) ∧ Exact P sh.view limit S g.1 ∧ g.1.inuse = sh.graph.inuse
    ∧ g.1.done = sh.graph.done

theorem should_switch_spec {b : Fin n} {limit : ℕ} {S : Set (Fin n)}
    (h : Exact P sh.view limit S sh.graph) (l : Look n) :
    Unnoticed P sh limit (should_switch P detect_livelocks sh b l) := by
  have hsame : ∀ ret, Unnoticed P sh limit (some ((sh.graph, false), ret)) :=
    fun ret => ⟨_, ret, S, rfl, h, rfl, rfl⟩
  have hwont : Unnoticed P sh limit (some (sh.graph.wont_release P sh.view b, false)) := by
    obtain ⟨S', hexact, hu, hd⟩ := wont_release_spec h b
    exact ⟨_, _, S', rfl, hexact, hu, hd⟩
  have hset : ∀ c, Unnoticed P sh limit
      ((sh.graph.set_hot P sh.view l.val l.rival c).map fun g => (g, true)) := by
    intro c
    obtain ⟨S', g', hg', hexact, hu, hd⟩ := set_hot_spec h l.val l.rival c
    exact ⟨g', true, S', congrArg (Option.map fun g => (g, true)) hg', hexact, hu, hd⟩
  simp only [should_switch]
  cases best_in_scope P l.seen b with
  | none =>
    dsimp only
    split_ifs <;> exact hsame _
  | some c =>
    dsimp only
    split_ifs <;> first | exact hsame _ | exact hset c | exact hwont

variable [DecidableEq V]

/-- The thread that has `b` writes the node of `t` and the open list of its nblock. -/
structure Touch (P : Projection V n) (sh sh' : Shared V n) (b : Fin n) (t : V) (node : Node V) : Prop where
  scope : P.project t ∈ P.scope b
  closed : sh'.closed = Function.update sh.closed t (some node)
  opens : ∀ k, k ≠ P.project t → sh'.opens k = sh.opens k
  graph : sh'.graph = sh.graph
  bound : sh'.bound = sh.bound
  solution : sh'.solution = sh.solution

theorem Touch.view {b : Fin n} {t : V} {node : Node V} (h : Touch P sh sh' b t node) (hl : Lists D P sh) {k : Fin n} (hk : k ∉ P.scope b) :
    sh.view.AgreeAt sh'.view k := by
  have hkt : k ≠ P.project t := by
    rintro rfl
    exact hk h.scope
  refine ⟨?_, ?_, ?_⟩
  · show (sh'.opens k).pq.empty = (sh.opens k).pq.empty
    rw [h.opens k hkt]
  · show (sh'.opens k).best = (sh.opens k).best
    rw [h.opens k hkt]
  · show (sh'.opens k).pq.front.elim 0 (get_g sh'.closed) = (sh.opens k).pq.front.elim 0 (get_g sh.closed)
    rw [h.opens k hkt, h.closed]
    cases hf : (sh.opens k).pq.front with
    | none => rfl
    | some x =>
      have hx := ((hl k).pq.front_some (D.isOrder _) hf).1
      exact get_g_update_of_ne (ne_of_mem_openStates hkt hx) _

variable [NeZero n]

/-- The turns of a thread that has the nblock `b`, as seen by everybody else. -/
inductive Kind (D : SearchDomain V) (P : Projection V n) (detect_livelocks : Bool) (sh : Shared V n)
    (c : Notice) : Phase V n → Shared V n → Phase V n → Prop
  | own {q q'} : Private D sh q q' → Kind D P detect_livelocks sh c q sh q'
  | locked {q g q'} : Locked D P detect_livelocks sh q g q' c →
      Kind D P detect_livelocks sh c q { sh with graph := g } q'
  | touch {q r q' b t node} : Touch P sh r b t node → q.held = some b → q'.held = some b →
      (∀ k, q' ≠ .take k) → Kind D P detect_livelocks sh c q r q'
  | report {b cost path} : Kind D P detect_livelocks sh c (.solution b cost path)
      (see_solution sh cost path) (.best b)
  | swap {b v old} : sh.bound = old → Kind D P detect_livelocks sh c (.swap b v (some old))
      { sh with bound := v } (.next (some b))

theorem Turn.kind (hcov : P.Covers D) (hl : Lists D P sh) (hshape : Shape D P ph)
    (h : Turn D P detect_livelocks sh ph sh' ph' c) : Kind D P detect_livelocks sh c ph sh' ph' := by
  -- the child of a state of `b` is in the scope of `b`
  have hscope : ∀ {b : Fin n} {s t : V} {g c : ℕ} {todo : List (V × ℕ)},
      Shape D P (.children b s g ((t, c) :: todo)) → P.project t ∈ P.scope b := by
    rintro b s t g c todo ⟨rfl, pre, hpre⟩
    apply hcov s t c
    rw [hpre]
    exact List.mem_append_right _ List.mem_cons_self
  cases h with
  | own hown => exact .own hown
  | locked hlocked => exact .locked hlocked
  | @take b s node o _ ho hnode htaken hp =>
    obtain ⟨⟨hb, -⟩, -⟩ := hl.taken ho node
    have htouch : Touch P sh (sh.taken b s node o) b s { node with is_open := false } := by
      refine ⟨?_, rfl, ?_, rfl, rfl, rfl⟩
      · rw [hb]
        exact Set.mem_insert b _
      · intro k hk
        rw [hb] at hk
        exact Function.update_of_ne hk ..
    cases htaken with
    | late hlate => exact .touch htouch rfl rfl nofun
    | goal hlt hgoal => exact .touch htouch rfl rfl nofun
    | expand hgoal => exact .touch htouch rfl rfl nofun
  | @update b s g t c todo dup o hdup hlt hopen ho =>
    refine .touch ⟨hscope hshape, rfl, ?_, rfl, rfl, rfl⟩ rfl rfl nofun
    exact fun k hk => Function.update_of_ne hk ..
  | @reopen b s g t c todo dup hdup hlt hopen =>
    refine .touch ⟨hscope hshape, rfl, ?_, rfl, rfl, rfl⟩ rfl rfl nofun
    exact fun k hk => Function.update_of_ne hk ..
  | @create b s g t c todo hnone hgoal =>
    refine .touch ⟨hscope hshape, rfl, ?_, rfl, rfl, rfl⟩ rfl rfl nofun
    exact fun k hk => Function.update_of_ne hk ..
  | @reach b s g t c todo hlt hnone hgoal =>
    exact .touch ⟨hscope hshape, rfl, fun _ _ => rfl, rfl, rfl, rfl⟩ rfl rfl nofun
  | report => exact .report
  | swap heq => exact .swap heq

/-! ## The invariant -/

/-- What every thread has. -/
def State.held {ι : Type} (s : State ι V n) (t : ι) : Option (Fin n) := (s.threads t).held

/-- What is left when the search is done: nothing, if every nblock has a neighbour.  An nblock without one has
no `sigma` to show that it is in use. -/
def Cleared (P : Projection V n) (S : Set (Fin n)) (inuse : Fin n → Bool) : Prop :=
  (∀ b, P.interferes b ≠ []) → S = ∅ ∧ ∀ b, inuse b = false

/-- **The monitor and its clients.** -/
structure Owned {ι : Type} (D : SearchDomain V) (P : Projection V n) (s : State ι V n) : Prop where
  monitor : ∃ S, Exact P s.shared.view (s.shared.limit D) S s.shared.graph ∧
    (s.shared.graph.done = true → Cleared P S s.shared.graph.inuse)
  owners : Owners s.held s.shared.graph.inuse
  take : ∀ t b, s.threads t = .take b → (s.shared.opens b).pq.empty = false
  gone : ∀ t, s.threads t = .leave ∨ s.threads t = .finished → s.shared.graph.done = true
  sleep : ∀ t, s.threads t = .asleep ∨ s.threads t = .woken →
    s.shared.graph.done = true ∨ ∃ b, s.shared.graph.inuse b = true

section Runs

variable {ι : Type} [DecidableEq ι] {s s' : State ι V n} {t : ι} {c : Notice}

omit [DecidableEq V] [NeZero n] in
/-- The monitor after a call of `next_nblock`, or of its part behind `cond_wait`. -/
theorem owners_after {g : NBlockGraph n} {r : Result n}
    {S : Set (Fin n)} {before : Fin n → Bool} {held : ι → Option (Fin n)}
    (hc : Chosen P s.shared.view (s.shared.limit D) before s.shared.graph.done S g r)
    (ho : Owners held before) (ht : held t = none)
    (hdone : s.shared.graph.done = true → r = .null ∧ Cleared P S before)
    (hwait : r = .wait → ∃ b, g.inuse b = true) :
    (∃ S', Exact P s.shared.view (s.shared.limit D) S' g ∧ (g.done = true → Cleared P S' g.inuse))
      ∧ Owners (Function.update held t (after r : Phase V n).held) g.inuse
      ∧ (s.shared.graph.done = true → g.done = true)
      ∧ (after r = (.leave : Phase V n) → g.done = true)
      ∧ (g.done = true ∨ ∃ b, g.inuse b = true) := by
  cases r with
  | null =>
    obtain ⟨hu, hd, hquiet⟩ := hc.null rfl
    have hempty : Cleared P S g.inuse := by
      intro hne
      by_cases hwas : s.shared.graph.done = true
      · obtain ⟨-, hbefore⟩ := hdone hwas
        rw [hu]
        exact hbefore hne
      · obtain ⟨hS, hzero⟩ := hquiet (by simpa using hwas)
        refine ⟨hS, ?_⟩
        intro b
        by_contra hb
        -- an nblock in use has a neighbour, whose `sigma` would not be zero
        obtain ⟨m, hm⟩ := List.exists_mem_of_ne_nil _ (hne b)
        have hpos := count_pos (P := P) (show g.inuse b = true by simpa using hb) hm
        have hsigma := hc.exact.sigma_eq m
        rw [hzero m] at hsigma
        omega
    refine ⟨⟨S, hc.exact, fun _ => hempty⟩, ?_, fun _ => hd, fun _ => hd, Or.inl hd⟩
    rw [hu]
    exact ho.same ht.symm
  | wait =>
    obtain ⟨hu, hd, -⟩ := hc.wait rfl
    have hnot : ∀ {p : Prop}, g.done = true → p := fun h' => absurd (h'.symm.trans hd) Bool.noConfusion
    refine ⟨⟨S, hc.exact, hnot⟩, ?_, ?_, nofun, Or.inr (hwait rfl)⟩
    · rw [hu]
      exact ho.same ht.symm
    · exact fun hwas => nomatch (hdone hwas).1
  | block b =>
    obtain ⟨hb, hu, hd⟩ := hc.block b rfl
    have hnot : ∀ {p : Prop}, g.done = true → p := fun h' => absurd (h'.symm.trans hd) Bool.noConfusion
    refine ⟨⟨S, hc.exact, hnot⟩, ?_, ?_, nofun, Or.inr ⟨b, ?_⟩⟩
    · rw [hu]
      exact ho.acquire ht hb
    · exact fun hwas => nomatch (hdone hwas).1
    · rw [hu]
      exact Function.update_self ..

omit [DecidableEq V] [NeZero n] in
theorem Moved.held {ph' : Phase V n} (h : Moved t ph' c s.threads s'.threads) :
    s'.held = Function.update s.held t ph'.held := by
  funext u
  by_cases hu : u = t
  · rw [hu, Function.update_self, State.held, h.self]
  · rw [Function.update_of_ne hu, State.held, State.held]
    rcases h.others u hu with hsame | ⟨hasleep, hwoken⟩
    · rw [hsame]
    · rw [hasleep, hwoken]
      rfl

omit [DecidableEq V] [NeZero n] [DecidableEq ι] in
/-- Who is in `cond_wait` or on the way back from it has just gone there, or was there before. -/
theorem Moved.sleeper {ph' : Phase V n} (h : Moved t ph' c s.threads s'.threads) {u : ι}
    (hu : s'.threads u = .asleep ∨ s'.threads u = .woken) :
    u = t ∧ (ph' = .asleep ∨ ph' = .woken) ∨ u ≠ t ∧ (s.threads u = .asleep ∨ s.threads u = .woken) := by
  by_cases hut : u = t
  · rw [hut, h.self] at hu
    exact Or.inl ⟨hut, hu⟩
  · refine Or.inr ⟨hut, ?_⟩
    rcases h.others u hut with hsame | hwake
    · exact hsame ▸ hu
    · exact Or.inl hwake.1

omit [DecidableEq V] [NeZero n] in
/-- What a call of the monitor leaves is enough for the invariant. -/
theorem Owned.of_called (h : Owned D P s) {g : NBlockGraph n} {ph' : Phase V n}
    (hsh : s'.shared = { s.shared with graph := g })
    (hmoved : Moved t ph' c s.threads s'.threads)
    (hmonitor : ∃ S', Exact P s.shared.view (s.shared.limit D) S' g ∧ (g.done = true → Cleared P S' g.inuse))
    (howners : Owners (Function.update s.held t ph'.held) g.inuse)
    (hdone : s.shared.graph.done = true → g.done = true)
    (hgone : ph' = .leave ∨ ph' = .finished → g.done = true)
    (hsleep : ph' = .asleep ∨ ph' = .woken ∨ g.inuse ≠ s.shared.graph.inuse →
      g.done = true ∨ ∃ b, g.inuse b = true)
    (htake : ∀ b, ph' = .take b → (s.shared.opens b).pq.empty = false) : Owned D P s' := by
  have hgraph : s'.shared.graph = g := by rw [hsh]
  refine { monitor := ?_, owners := ?_, take := ?_, gone := ?_, sleep := ?_ }
  · rw [hsh]
    exact hmonitor
  · rw [hmoved.held, hgraph]
    exact howners
  · intro u
    apply hmoved.all (Q := fun ph => ∀ b, ph = .take b → (s'.shared.opens b).pq.empty = false) nofun
    · rw [hsh]
      exact htake
    · intro u _ b hb
      rw [hsh]
      exact h.take u b hb
  · intro u
    rw [hgraph]
    apply hmoved.all (Q := fun ph => ph = .leave ∨ ph = .finished → g.done = true) ?_ hgone
    · exact fun u _ hu => hdone (h.gone u hu)
    · exact fun h' => h'.elim nofun nofun
  · intro u hu
    rw [hgraph]
    rcases hmoved.sleeper hu with ⟨-, hph⟩ | ⟨-, hu'⟩
    · exact hsleep (hph.imp_right Or.inl)
    · by_cases hchange : g.inuse = s.shared.graph.inuse
      · rw [hchange]
        exact (h.sleep u hu').imp_left hdone
      · exact hsleep (Or.inr (Or.inr hchange))

omit [DecidableEq V] in
theorem Owned.locked (hP : P.Mutual) (h : Owned D P s)
    {g : NBlockGraph n} {ph' : Phase V n}
    (hlocked : Locked D P detect_livelocks s.shared (s.threads t) g ph' c)
    (hsh : s'.shared = { s.shared with graph := g })
    (hmoved : Moved t ph' c s.threads s'.threads) :
    Owned D P s' := by
  obtain ⟨S, hexact, hdone⟩ := h.monitor
  have hafter_take : ∀ {r : Result n} {b : Fin n}, (after r : Phase V n) ≠ .take b := by
    intro r b
    cases r <;> exact nofun
  have hafter_gone : ∀ {r : Result n}, (after r : Phase V n) ≠ .finished := by
    intro r
    cases r <;> exact nofun
  -- what a call of `next_nblock` or `choose` leaves
  have hcall : ∀ (held : ι → Option (Fin n)) {r : Result n} {before : Fin n → Bool} {S' : Set (Fin n)},
      ph' = after r → Chosen P s.shared.view (s.shared.limit D) before s.shared.graph.done S' g r →
      Owners held before → held t = none → Function.update held t ph'.held = Function.update s.held t ph'.held →
      (s.shared.graph.done = true → r = .null ∧ Cleared P S' before) →
      (r = .wait → ∃ b, g.inuse b = true) → Owned D P s' := by
    intro held r before S' hph hc ho ht hheld hd hwait
    subst hph
    obtain ⟨hmonitor, howners, hd', hleave, hsleep⟩ := owners_after hc ho ht hd hwait
    rw [hheld] at howners
    refine h.of_called hsh hmoved hmonitor howners hd' ?_ (fun _ => hsleep) ?_
    · exact fun h' => h'.elim hleave (fun h' => absurd h' hafter_gone)
    · exact fun b hb => absurd hb hafter_take
  generalize hph : s.threads t = ph at hlocked
  have hheld_t : s.held t = ph.held := congrArg Phase.held hph
  cases hlocked with
  | @lock f g r c hr =>
    have hf : ∀ b ∈ f, s.shared.graph.inuse b = true := by
      rintro b rfl
      exact (h.owners.iff b).mpr ⟨t, hheld_t⟩
    obtain ⟨g', r', c', S', hr', hc, hwait, hkept⟩ := next_nblock_spec hP hexact f hf
    obtain ⟨rfl, hrest⟩ := Prod.mk.inj (Option.some.inj (hr'.symm.trans hr))
    obtain ⟨rfl, rfl⟩ := Prod.mk.inj hrest
    cases f with
    | none =>
      refine hcall s.held rfl hc h.owners hheld_t rfl ?_ hwait
      intro hd
      obtain ⟨hnull, hS⟩ := hkept hd
      obtain rfl := hS rfl
      exact ⟨hnull, hdone hd⟩
    | some b =>
      refine hcall (Function.update s.held t none) rfl hc (h.owners.release hheld_t)
        (Function.update_self ..) (Function.update_idem ..) ?_ hwait
      refine fun hd => ⟨(hkept hd).1, fun hne => ?_⟩
      exact absurd ((hf b rfl).symm.trans ((hdone hd hne).2 b)) Bool.noConfusion
  | @again g r bc hr =>
    obtain ⟨g', r', bc', S', hr', hc, -, hkept⟩ := choose_spec hP false hexact
    obtain ⟨rfl, hrest⟩ := Prod.mk.inj (Option.some.inj (hr'.symm.trans hr))
    obtain ⟨rfl, rfl⟩ := Prod.mk.inj hrest
    refine hcall s.held rfl hc h.owners hheld_t rfl ?_ ?_
    · intro hd
      obtain ⟨rfl, hnull⟩ := hkept hd
      exact ⟨hnull, hdone hd⟩
    · intro hw
      obtain ⟨hu, hd, -⟩ := hc.wait hw
      rw [hu]
      rcases h.sleep t (Or.inr hph) with hd' | hex
      · obtain ⟨-, hnull⟩ := hkept hd'
        exact nomatch hnull.symm.trans hw
      · exact hex
  | @look b l g bc ret hempty hr =>
    obtain ⟨g', ret, S', hr', hexact', hu, hd⟩ := should_switch_spec hexact l
    obtain ⟨rfl, rfl⟩ := Prod.mk.inj (Option.some.inj (hr'.symm.trans hr))
    have hb : s.shared.graph.inuse b = true := (h.owners.iff b).mpr ⟨t, hheld_t⟩
    have hheld : (if ret then (.next (some b) : Phase V n) else .take b).held = some b := by
      cases ret <;> rfl
    refine h.of_called hsh hmoved ⟨S', hexact', ?_⟩ ?_ ?_ ?_ ?_ ?_
    · intro h' hne
      exact absurd (hb.symm.trans ((hdone (hd.symm.trans h') hne).2 b)) Bool.noConfusion
    · rw [hheld, hu]
      exact h.owners.same hheld_t.symm
    · exact fun h' => hd.trans h'
    · cases ret <;> exact fun h' => h'.elim nofun nofun
    · intro _
      rw [hu]
      exact Or.inr ⟨b, hb⟩
    · intro c hc
      cases ret with
      | true => exact nomatch hc
      | false =>
        obtain rfl := Phase.take.inj hc
        exact hempty
  | leave =>
    have hd := h.gone t (Or.inl hph)
    refine h.of_called hsh hmoved ⟨S, hexact.with_done true, fun _ => hdone hd⟩ ?_ (fun _ => rfl)
      (fun _ => rfl) (fun _ => Or.inl rfl) nofun
    exact h.owners.same hheld_t.symm

omit [DecidableEq V] [NeZero n] in
/-- A turn that leaves the graph alone, by a thread that keeps what it has. -/
theorem Owned.of_same (h : Owned D P s) {ph' : Phase V n} (hgraph : s'.shared.graph = s.shared.graph)
    (hmonitor : ∀ S, Exact P s.shared.view (s.shared.limit D) S s.shared.graph →
      Exact P s'.shared.view (s'.shared.limit D) S s.shared.graph)
    (hmoved : Moved t ph' c s.threads s'.threads)
    (hheld : ph'.held = s.held t) (hgone : ph' ≠ .leave ∧ ph' ≠ .finished ∧ ph' ≠ .asleep)
    (hsleep : ph' = .woken → s.threads t = .asleep) (htake : ∀ b, ph' ≠ .take b)
    (hopens : ∀ u b, u ≠ t → s.threads u = .take b → s'.shared.opens b = s.shared.opens b) :
    Owned D P s' := by
  have hheld' : s'.held = s.held := by
    rw [hmoved.held, hheld, Function.update_eq_self]
  refine { monitor := ?_, owners := ?_, take := ?_, gone := ?_, sleep := ?_ }
  · obtain ⟨S, hexact, hdone⟩ := h.monitor
    rw [hgraph]
    exact ⟨S, hmonitor S hexact, hdone⟩
  · rw [hheld', hgraph]
    exact h.owners
  · apply hmoved.all (Q := fun ph => ∀ b, ph = .take b → (s'.shared.opens b).pq.empty = false) nofun
    · exact fun b hb => absurd hb (htake b)
    · intro u hu b hb
      rw [hopens u b hu hb]
      exact h.take u b hb
  · rw [hgraph]
    apply hmoved.all (Q := fun ph => ph = .leave ∨ ph = .finished → s.shared.graph.done = true) ?_
    · exact fun h' => h'.elim (fun h' => absurd h' hgone.1) (fun h' => absurd h' hgone.2.1)
    · exact fun u _ hu => h.gone u hu
    · exact fun h' => h'.elim nofun nofun
  · intro u hu
    rw [hgraph]
    rcases hmoved.sleeper hu with ⟨-, hasleep | hwoken⟩ | ⟨-, hu'⟩
    · exact absurd hasleep hgone.2.2
    · exact h.sleep t (Or.inl (hsleep hwoken))
    · exact h.sleep u hu'

omit [DecidableEq V] [NeZero n] [DecidableEq ι] in
/-- The threads that have an nblock do not touch each other's. -/
theorem Owned.apart (hP : P.Mutual) (h : Owned D P s) {u : ι} {a b k : Fin n} (hut : u ≠ t)
    (hu : s.held u = some a) (ht : s.held t = some b) (hk : k ∈ P.scope a) : k ∉ P.scope b := by
  obtain ⟨S, hexact, -⟩ := h.monitor
  apply hexact.disjoint hP ((h.owners.iff a).mpr ⟨u, hu⟩) ((h.owners.iff b).mpr ⟨t, ht⟩) ?_ hk
  rintro rfl
  exact hut (h.owners.unique u t a hu ht)

theorem Owned.step (hP : P.Mutual) (hcov : P.Covers D) (h : Owned D P s)
    (hl : Lists D P s.shared) (hshape : ∀ u, Shape D P (s.threads u)) {ph' : Phase V n}
    (hturn : Turn D P detect_livelocks s.shared (s.threads t) s'.shared ph' c)
    (hmoved : Moved t ph' c s.threads s'.threads) :
    Owned D P s' := by
  have hkind := hturn.kind hcov hl (hshape t)
  generalize hsh' : s'.shared = sh' at hkind
  generalize hph : s.threads t = ph at hkind
  have hheld_t : s.held t = ph.held := congrArg Phase.held hph
  cases hkind with
  | own hown =>
    have hsh : s'.shared = s.shared := hsh'
    refine h.of_same (by rw [hsh]) (by rw [hsh]; exact fun S h' => h') hmoved
      (hown.held.trans hheld_t.symm) ?_ ?_ ?_ (fun _ _ _ _ => by rw [hsh])
    · cases hown <;> simp
    · rintro rfl
      cases hown
      exact hph
    · rintro b rfl
      cases hown
  | locked hlocked =>
    rw [← hph] at hlocked
    exact h.locked hP hlocked hsh' hmoved
  | @touch _ _ _ b x node htouch hheld hheld' hnot =>
    rw [← hsh'] at htouch
    have hb : s.shared.graph.inuse b = true := (h.owners.iff b).mpr ⟨t, hheld_t.trans hheld⟩
    refine h.of_same htouch.graph ?_ hmoved (hheld'.trans (hheld_t.trans hheld).symm) ?_ ?_ hnot ?_
    · intro S hexact
      have hlimit : s'.shared.limit D = s.shared.limit D := by
        rw [Shared.limit, Shared.limit, htouch.bound]
      rw [hlimit]
      exact hexact.congr_view hb (fun k hk => htouch.view hl hk)
    · refine ⟨?_, ?_, ?_⟩ <;> (rintro rfl; exact absurd hheld' (Option.some_ne_none b).symm)
    · rintro rfl
      exact absurd hheld' (Option.some_ne_none b).symm
    · intro u c hu hc
      apply htouch.opens
      rintro rfl
      have hheld_u : s.held u = some (P.project x) := congrArg Phase.held hc
      exact h.apart hP hu hheld_u (hheld_t.trans hheld) (Set.mem_insert _ _) htouch.scope
  | report =>
    have hgraph : s'.shared.graph = s.shared.graph := by
      rw [hsh', see_solution]
    have hview : s'.shared.view = s.shared.view ∧ s'.shared.limit D = s.shared.limit D
        ∧ s'.shared.opens = s.shared.opens := by
      rw [hsh', see_solution]
      exact ⟨rfl, rfl, rfl⟩
    refine h.of_same hgraph ?_ hmoved hheld_t.symm ?_ ?_ (by simp) ?_
    · rw [hview.1, hview.2.1]
      exact fun S h' => h'
    · simp
    · simp
    · intro u b _ _
      rw [hview.2.2]
  | @swap b v old heq =>
    have hlt : v < old := by
      have := hshape t
      rwa [hph] at this
    refine h.of_same (by rw [hsh']) ?_ hmoved hheld_t.symm ?_ ?_ (by simp) ?_
    · intro S hexact
      rw [hsh']
      apply hexact.mono
      show v * D.weight ≤ s.shared.bound * D.weight
      exact Nat.mul_le_mul_right _ (by omega)
    · simp
    · simp
    · intro u c _ _
      rw [hsh']

variable [Inhabited V]

omit [DecidableEq ι] in
theorem owned_initial : Owned D P ({ shared := Shared.initial D P, threads := fun _ => .next none } : State ι V n) := by
  have hview : ∀ b, (Shared.initial D P : Shared V n).view.empty b = false ↔ b = P.project D.initial_state := by
    intro b
    rw [show (Shared.initial D P : Shared V n).view.empty b = ((Shared.initial D P).opens b).pq.empty from rfl,
      (lists_initial b).empty_iff]
    constructor
    · rintro ⟨v, rfl, node, hnode, -⟩
      by_contra hne
      have hv : v ≠ D.initial_state := fun h' => hne (congrArg P.project h')
      rw [initial_closed, Function.update_of_ne hv] at hnode
      exact nomatch hnode
    · rintro rfl
      refine ⟨D.initial_state, rfl, ⟨0, 0, none, true⟩, ?_, rfl⟩
      rw [initial_closed, Function.update_self]
  refine { monitor := ?_, owners := ?_, take := nofun, gone := ?_, sleep := ?_ }
  · exact ⟨_, initial_spec _ _ _ hview, nofun⟩
  · exact { iff := fun b => ⟨nofun, fun ⟨_, h'⟩ => nomatch h'⟩, unique := nofun }
  · exact fun t h' => h'.elim nofun nofun
  · exact fun t h' => h'.elim nofun nofun

theorem owned_reachable (hP : P.Mutual) (hcov : P.Covers D)
    (hs : (searches ι D P detect_livelocks).Reachable s) : Owned D P s := by
  apply hs.invariant (I := Owned D P)
  · rintro s rfl
    exact owned_initial
  · intro s s' hreach h hstep
    obtain ⟨hl, hshape⟩ := lists_reachable hreach
    obtain ⟨t, ph', c, hturn, hmoved⟩ := step_cases hstep
    exact h.step hP hcov hl hshape hturn hmoved

theorem halves_mutual : halves.Mutual := by
  show ∀ a b : Fin 2, b ∈ [a.rev] ↔ a ∈ [b.rev]
  decide

theorem halves_covers (direct : ℕ) : halves.Covers (triangle direct) := by
  intro s t c h
  show halves.project t = halves.project s ∨ halves.project t ∈ [(halves.project s).rev]
  have hall : ∀ a b : Fin 2, a = b ∨ a ∈ [b.rev] := by decide
  exact hall _ _

/-- **Mutual exclusion.**  However the threads interleave and whatever they read without a lock: a state is
in the scope of at most one thread, an nblock is in use exactly when one thread has it, and the counters of
the graph are the numbers of neighbours in use, of hot neighbours, and of nblocks whose `sigma` is zero. -/
theorem scopes_exclusive (hP : P.Mutual) (hcov : P.Covers D)
    (hs : (searches ι D P detect_livelocks).Reachable s) :
    (∀ t u a b v, t ≠ u → s.held t = some a → s.held u = some b → P.project v ∈ P.scope a →
        P.project v ∉ P.scope b)
      ∧ (∀ b, s.shared.graph.inuse b = true ↔ ∃! t, s.held t = some b)
      ∧ (∀ b, s.shared.graph.sigma b = count P s.shared.graph.inuse b)
      ∧ (∀ b, s.shared.graph.sigma_hot b = count P s.shared.graph.hot b)
      ∧ s.shared.graph.num_sigma_zero = zeros s.shared.graph.sigma := by
  have h := owned_reachable hP hcov hs
  obtain ⟨S, hexact, -⟩ := h.monitor
  refine ⟨?_, ?_, ?_, ?_, hexact.num⟩
  · exact fun t u a b v htu ht hu hv => h.apart hP htu ht hu hv
  · intro b
    rw [h.owners.iff]
    constructor
    · rintro ⟨t, ht⟩
      exact ⟨t, ht, fun u hu => h.owners.unique u t b hu ht⟩
    · rintro ⟨t, ht, -⟩
      exact ⟨t, ht⟩
  · exact fun b => (hexact.sigma_eq b).trans (Int.add_zero _)
  · exact fun b => (hexact.sigma_hot_eq b).trans (Int.add_zero _)

/-- One thread has the first half, and the other one sleeps. -/
theorem scopes_exclusive_triangle : ∃ s : State Bool Corner 2,
    (s.threads false = .children 0 .start 0 [(.middle, 5), (.goal, 20)] ∧ s.threads true = .asleep ∧ s.shared.graph.inuse 0 = true)
      ∧ (∃! t, s.held t = some 0) ∧ ∀ b, s.shared.graph.sigma b = count halves s.shared.graph.inuse b := by
  obtain ⟨s, hs, hend⟩ := exists_run (triangle 20) halves [false, true, false, false]
    (fun s : State Bool Corner 2 => s.threads false = .children 0 .start 0 [(.middle, 5), (.goal, 20)]
      ∧ s.threads true = .asleep ∧ s.shared.graph.inuse 0 = true) (by decide +kernel)
  obtain ⟨-, hiff, hsigma, -⟩ := scopes_exclusive halves_mutual (halves_covers 20) hs
  exact ⟨s, hend, (hiff 0).mp hend.2.2, hsigma⟩

/-- **No wakeup is lost.**  Whoever sleeps in `cond_wait` still has to: the search is not done, no nblock is in
the free list, and some other thread has one. -/
theorem nobody_left_asleep (hP : P.Mutual) (hcov : P.Covers D)
    (hs : (searches ι D P detect_livelocks).Reachable s) (t : ι) (ht : s.threads t = .asleep) :
    s.shared.graph.done = false ∧ s.shared.graph.free_list.empty = true
      ∧ ∃ u b, s.held u = some b ∧ s.shared.graph.inuse b = true := by
  have h := owned_reachable hP hcov hs
  obtain ⟨hd, hfill⟩ := alert_reachable hs t ht
  refine ⟨hd, decide_eq_true hfill, ?_⟩
  rcases h.sleep t (Or.inl ht) with hd' | ⟨b, hb⟩
  · exact absurd (hd'.symm.trans hd) Bool.noConfusion
  · obtain ⟨u, hu⟩ := (h.owners.iff b).mp hb
    exact ⟨u, b, hu, hb⟩

/-- One thread sleeps while the other one searches. -/
theorem nobody_left_asleep_triangle : ∃ s : State Bool Corner 2, s.threads true = .asleep
    ∧ s.shared.graph.done = false ∧ s.shared.graph.free_list.empty = true
    ∧ ∃ u b, s.held u = some b ∧ s.shared.graph.inuse b = true := by
  obtain ⟨s, hs, ht⟩ := exists_run (triangle 20) halves [false, true, false, false]
    (fun s : State Bool Corner 2 => s.threads true = .asleep) (by decide +kernel)
  exact ⟨s, ht, nobody_left_asleep halves_mutual (halves_covers 20) hs true ht⟩

/-- The broadcast of the thread that gives its half back wakes the other one. -/
example : ∃ s : State Bool Corner 2, (searches Bool (triangle 20) halves true).Reachable s
    ∧ s.threads true = .woken := by
  obtain ⟨s, hs, hwoken⟩ := exists_run (triangle 20) halves ([false, true] ++ List.replicate 11 false)
    (fun s : State Bool Corner 2 => s.threads true = .woken) (by decide +kernel)
  exact ⟨s, hs, hwoken⟩

end Runs

end PwsaStar.Pbnf
