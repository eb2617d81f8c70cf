/-
# PwsaStar.Pbnf.Lists — the open lists of the nblocks.

In every reachable state, the open list of an nblock is a priority queue of exactly its open states, ordered
by their present keys, and `best` is the value of its front.
-/
import PwsaStar.Pbnf.Turn

namespace PwsaStar.Pbnf

open PwsaStar.Lib PriorityQueue

variable {V : Type} {n : ℕ} {D : SearchDomain V} {P : Projection V n}

/-! ## One open list -/

theorem SearchDomain.pred_iff (D : SearchDomain V) (g : V → ℕ) (a b : V) : D.pred g a b = true ↔
    D.get_f_prime (g a) a < D.get_f_prime (g b) b ∨ D.get_f_prime (g a) a = D.get_f_prime (g b) b ∧
      (D.get_f (g a) a < D.get_f (g b) b ∨ D.get_f (g a) a = D.get_f (g b) b ∧ g b < g a) := by
  simp only [SearchDomain.pred]
  split_ifs <;> simp <;> omega

/-- The order of the open lists is one that the heap can work with. -/
theorem SearchDomain.isOrder (D : SearchDomain V) (g : V → ℕ) : IsOrder (D.pred g) where
  asymm a b h := by
    rw [← Bool.not_eq_true]
    rw [D.pred_iff] at h ⊢
    omega
  trans a b c h₁ h₂ := by
    rw [← Bool.not_eq_true] at h₁ h₂ ⊢
    rw [D.pred_iff] at h₁ h₂ ⊢
    omega

/-- Two states are compared by their own `g` alone. -/
theorem SearchDomain.pred_congr (D : SearchDomain V) {g g' : V → ℕ} {a b : V} (ha : g' a = g a)
    (hb : g' b = g b) : D.pred g' a b = D.pred g a b := by
  rw [SearchDomain.pred, SearchDomain.pred, ha, hb]

namespace OpenList

/-- The list has the states of `S`, under their keys. -/
structure Has (D : SearchDomain V) (g : V → ℕ) (o : OpenList V) (S : Set V) : Prop where
  pq : o.pq.Holds (D.pred g) S
  best : o.best = o.pq.front.elim fp_infinity fun s => D.get_f_prime (g s) s

variable {g g' : V → ℕ} {o : OpenList V} {S : Set V} {s : V}

/-- A change of `g` outside the list does not disturb it. -/
theorem Has.congr (h : Has D g o S) (hg : ∀ x ∈ S, g' x = g x) : Has D g' o S where
  pq := h.pq.congr fun x hx y hy => D.pred_congr (hg x hx) (hg y hy)
  best := by
    rw [h.best]
    cases hf : o.pq.front with
    | none => rfl
    | some s =>
      have hs := (h.pq.front_some (D.isOrder g) hf).1
      show D.get_f_prime (g s) s = D.get_f_prime (g' s) s
      rw [hg s hs]

/-- No state of the list has a smaller value than `best`. -/
theorem Has.best_le (h : Has D g o S) (hs : s ∈ S) : o.best ≤ D.get_f_prime (g s) s := by
  rw [h.best]
  cases hf : o.pq.front with
  | none => exact absurd hs (h.pq.front_none.mp hf ▸ Set.notMem_empty s)
  | some x =>
    have hx := (h.pq.front_some (D.isOrder g) hf).2 s hs
    rw [← Bool.not_eq_true, D.pred_iff] at hx
    show D.get_f_prime (g x) x ≤ D.get_f_prime (g s) s
    omega

theorem Has.empty_iff (h : Has D g o S) : o.pq.empty = false ↔ S.Nonempty := by
  rw [← Bool.not_eq_true, h.pq.empty_iff, Set.nonempty_iff_ne_empty]

theorem has_new [Inhabited V] : Has D g ⟨PriorityQueue.new, fp_infinity⟩ ∅ :=
  ⟨holds_new, rfl⟩

/-- `refresh` reads the least `f'` off the top. -/
theorem has_refresh {pq : PriorityQueue V} (h : pq.Holds (D.pred g) S) : Has D g (refresh D g pq) S :=
  ⟨h, rfl⟩

variable [DecidableEq V]

/-- `add` of a state that is not listed yet. -/
theorem Has.add (h : Has D g o S) (hs : s ∉ S) (hg : ∀ x ∈ S, g' x = g x) :
    Has D g' (o.add D g' s) (insert s S) :=
  has_refresh ((h.congr hg).pq.add (D.isOrder g') hs)

/-- `take` gives a listed state and removes it. -/
theorem Has.take (h : Has D g o S) {o' : OpenList V} (ht : o.take D g = some (s, o')) :
    s ∈ S ∧ Has D g o' (S \ {s}) := by
  obtain ⟨⟨x, pq⟩, hpq, heq⟩ := Option.map_eq_some_iff.mp ht
  obtain ⟨rfl, rfl⟩ := Prod.mk.inj heq
  obtain ⟨hmem, -, hholds⟩ := h.pq.take (D.isOrder g) hpq
  exact ⟨hmem, has_refresh hholds⟩

/-- A list with a state in it gives one. -/
theorem Has.take_isSome (h : Has D g o S) (hS : S.Nonempty) : (o.take D g).isSome := by
  rw [OpenList.take, Option.isSome_map]
  by_contra hnone
  have := h.pq.take_none.mp (Option.not_isSome_iff_eq_none.mp hnone)
  exact hS.ne_empty this

/-- `see_update` after the `g` of one listed state has changed. -/
theorem Has.see_update (h : Has D g o S) (hs : s ∈ S) (hg : ∀ x ∈ S, x ≠ s → g' x = g x) :
    ∃ o', o.see_update D g' s = some o' ∧ Has D g' o' S := by
  obtain ⟨pq, hpq, hholds⟩ := h.pq.see_update (D.isOrder g) (D.isOrder g') hs
    (fun x hx y hy hxs hys => D.pred_congr (hg x hx hxs) (hg y hy hys))
  refine ⟨refresh D g' pq, ?_, has_refresh hholds⟩
  rw [OpenList.see_update, hpq]
  rfl

end OpenList

/-! ## All open lists -/

/-- The open states of an nblock. -/
def openStates (P : Projection V n) (closed : V → Option (Node V)) (b : Fin n) : Set V :=
  {v | P.project v = b ∧ ∃ node, closed v = some node ∧ node.is_open = true}

/-- **Every open list has the open states of its nblock.** -/
def Lists (D : SearchDomain V) (P : Projection V n) (sh : Shared V n) : Prop :=
  ∀ b, (sh.opens b).Has D (get_g sh.closed) (openStates P sh.closed b)

section Updates

variable [DecidableEq V] {sh : Shared V n} {b : Fin n} {s t : V} {node : Node V} {o : OpenList V}

theorem get_g_update_of_ne {closed : V → Option (Node V)} {x : V} (h : x ≠ t) (node : Option (Node V)) :
    get_g (Function.update closed t node) x = get_g closed x := by
  rw [get_g, get_g, Function.update_of_ne h]

/-- Another node for `t` does not show in the other nblocks. -/
theorem openStates_update_of_ne {closed : V → Option (Node V)} (hb : b ≠ P.project t)
    (node : Option (Node V)) : openStates P (Function.update closed t node) b = openStates P closed b := by
  ext v
  by_cases hv : v = t
  · subst hv
    simp [openStates, Ne.symm hb]
  · simp [openStates, hv]

/-- A node that is written open joins the states of its nblock. -/
theorem openStates_update_open (closed : V → Option (Node V)) (hopen : node.is_open = true) :
    openStates P (Function.update closed t (some node)) (P.project t)
      = insert t (openStates P closed (P.project t)) := by
  ext v
  by_cases hv : v = t
  · subst hv
    simp [openStates, hopen]
  · simp [openStates, hv]

/-- A node that is written closed leaves them. -/
theorem openStates_update_closed (closed : V → Option (Node V)) (hopen : node.is_open = false) :
    openStates P (Function.update closed t (some node)) (P.project t)
      = openStates P closed (P.project t) \ {t} := by
  ext v
  by_cases hv : v = t
  · subst hv
    simp [openStates, hopen]
  · simp [openStates, hv]

omit [DecidableEq V] in
theorem ne_of_mem_openStates {closed : V → Option (Node V)} {x : V} (hb : b ≠ P.project t)
    (hx : x ∈ openStates P closed b) : x ≠ t := by
  rintro rfl
  exact hb hx.1.symm

/-- The lists of the other nblocks after an update of `t`. -/
theorem Lists.other (h : Lists D P sh) (hb : b ≠ P.project t) (node : Option (Node V)) :
    (sh.opens b).Has D (get_g (Function.update sh.closed t node))
      (openStates P (Function.update sh.closed t node) b) := by
  rw [openStates_update_of_ne hb]
  exact (h b).congr fun x hx => get_g_update_of_ne (ne_of_mem_openStates hb hx) node

/-- A state that is taken leaves its list and its flag together. -/
theorem Lists.taken (h : Lists D P sh) (ht : (sh.opens b).take D (get_g sh.closed) = some (s, o))
    (node : Node V) : s ∈ openStates P sh.closed b ∧ Lists D P (sh.taken b s node o) := by
  obtain ⟨hs, hhas⟩ := (h b).take ht
  refine ⟨hs, ?_⟩
  have hb : P.project s = b := hs.1
  subst hb
  intro b'
  by_cases hb' : b' = P.project s
  · subst hb'
    have hopens : (sh.taken (P.project s) s node o).opens (P.project s) = o := Function.update_self ..
    rw [hopens]
    show o.Has D (get_g (Function.update sh.closed s (some { node with is_open := false })))
      (openStates P (Function.update sh.closed s (some { node with is_open := false })) (P.project s))
    rw [openStates_update_closed _ rfl]
    exact hhas.congr fun x hx => get_g_update_of_ne hx.2 _
  · have hopens : (sh.taken (P.project s) s node o).opens b' = sh.opens b' := Function.update_of_ne hb' ..
    rw [hopens]
    exact h.other hb' _

/-- A state that is opened joins its list and gets its flag together. -/
theorem Lists.add_open (h : Lists D P sh) (hopen : ∀ node', sh.closed t = some node' → node'.is_open = false) :
    Lists D P (sh.add_open D P t node) := by
  intro b'
  by_cases hb' : b' = P.project t
  · subst hb'
    have hopens : (sh.add_open D P t node).opens (P.project t) = (sh.opens (P.project t)).add D
        (get_g (Function.update sh.closed t (some { node with is_open := true }))) t := Function.update_self ..
    rw [hopens]
    show OpenList.Has D (get_g (Function.update sh.closed t (some { node with is_open := true }))) _
      (openStates P (Function.update sh.closed t (some { node with is_open := true })) (P.project t))
    rw [openStates_update_open _ rfl]
    have ht : t ∉ openStates P sh.closed (P.project t) := by
      rintro ⟨-, node', hnode', htrue⟩
      exact absurd (htrue.symm.trans (hopen node' hnode')) Bool.noConfusion
    exact (h (P.project t)).add ht fun x hx => get_g_update_of_ne (fun hxt : x = t => ht (hxt ▸ hx)) _
  · have hopens : (sh.add_open D P t node).opens b' = sh.opens b' := Function.update_of_ne hb' ..
    rw [hopens]
    exact h.other hb' _

/-- A goal is closed without being opened. -/
theorem Lists.reach (h : Lists D P sh) (hnone : sh.closed t = none) (hopen : node.is_open = false) :
    Lists D P (sh.set_closed t node) := by
  intro b'
  by_cases hb' : b' = P.project t
  · subst hb'
    show (sh.opens (P.project t)).Has D (get_g (Function.update sh.closed t (some node)))
      (openStates P (Function.update sh.closed t (some node)) (P.project t))
    have ht : t ∉ openStates P sh.closed (P.project t) := by
      rintro ⟨-, node', hnode', -⟩
      exact absurd (hnone.symm.trans hnode') (Option.some_ne_none node').symm
    rw [openStates_update_closed _ hopen, Set.sdiff_singleton_eq_self ht]
    exact (h (P.project t)).congr fun x hx => get_g_update_of_ne (fun hxt : x = t => ht (hxt ▸ hx)) _
  · exact h.other hb' _

/-- The update of an open state cannot fail. -/
theorem Lists.see_update (h : Lists D P sh) {dup : Node V} (hdup : sh.closed t = some dup)
    (hopen : dup.is_open = true) (hnode : node.is_open = true) :
    ∃ o, (sh.opens (P.project t)).see_update D (get_g (sh.set_closed t node).closed) t = some o
      ∧ Lists D P ((sh.set_closed t node).set_open (P.project t) o) := by
  have ht : t ∈ openStates P sh.closed (P.project t) := ⟨rfl, dup, hdup, hopen⟩
  have hkeys : ∀ x ∈ openStates P sh.closed (P.project t), x ≠ t →
      get_g (Function.update sh.closed t (some node)) x = get_g sh.closed x :=
    fun x _ hxt => get_g_update_of_ne hxt _
  obtain ⟨o, ho, hhas⟩ := (h (P.project t)).see_update ht hkeys
  refine ⟨o, ho, ?_⟩
  intro b'
  by_cases hb' : b' = P.project t
  · subst hb'
    have hopens : ((sh.set_closed t node).set_open (P.project t) o).opens (P.project t) = o :=
      Function.update_self ..
    rw [hopens]
    show o.Has D (get_g (Function.update sh.closed t (some node)))
      (openStates P (Function.update sh.closed t (some node)) (P.project t))
    rw [openStates_update_open _ hnode, Set.insert_eq_of_mem ht]
    exact hhas
  · have hopens : ((sh.set_closed t node).set_open (P.project t) o).opens b' = sh.opens b' :=
      Function.update_of_ne hb' ..
    rw [hopens]
    exact h.other hb' _

end Updates

/-! ## Runs -/

section Runs

variable {detect_livelocks : Bool} {sh sh' : Shared V n} {ph ph' : Phase V n}

/-- The children that are still to come are the last ones of a state of the nblock, and a bound is only to
be replaced by a smaller one. -/
def Shape (D : SearchDomain V) (P : Projection V n) : Phase V n → Prop
  | .children b s _ todo => P.project s = b ∧ ∃ pre, D.expand s = pre ++ todo
  | .swap _ v (some old) => v < old
  | _ => True

/-- What the monitor answers leads to a phase of the right shape. -/
theorem Shape.after (r : Result n) : Shape D P (after r : Phase V n) := by
  cases r <;> trivial

/-- The children after the first one are the last ones, too. -/
theorem Shape.tail {b : Fin n} {s : V} {g : ℕ} {tc : V × ℕ} {todo : List (V × ℕ)}
    (h : Shape D P (.children b s g (tc :: todo))) : Shape D P (.children b s g todo) := by
  obtain ⟨hb, pre, hpre⟩ := h
  exact ⟨hb, pre ++ [tc], by rw [hpre, List.append_assoc]; rfl⟩

variable {ι : Type} {c : Notice}

/-- What holds of the thread that moved and of the others holds of all; whoever hears a signal or a broadcast
comes to the same place as by itself. -/
theorem Moved.all {Q : Phase V n → Prop} (hwoken : Q .woken) {threads threads' : ι → Phase V n} {t : ι}
    (h : Moved t ph' c threads threads') (ht : Q ph') (hothers : ∀ u, u ≠ t → Q (threads u)) (u : ι) :
    Q (threads' u) := by
  by_cases hu : u = t
  · rw [hu, h.self]
    exact ht
  · rcases h.others u hu with hsame | ⟨-, hwake⟩
    · rw [hsame]
      exact hothers u hu
    · rw [hwake]
      exact hwoken

variable [DecidableEq V] [NeZero n]

/-- **A turn keeps lists and flags in step.** -/
theorem Lists.turn (h : Lists D P sh) (hturn : Turn D P detect_livelocks sh ph sh' ph' c) :
    Lists D P sh' := by
  cases hturn with
  | own hown => exact h
  | locked hlocked => exact h
  | @take b s node o _ ho hnode htaken hp => exact (h.taken ho node).2
  | update hdup hlt hopen ho =>
    obtain ⟨o', ho', hlists⟩ := h.see_update hdup hopen
      (show (child _ _ _ true).is_open = true from rfl)
    obtain rfl := Option.some.inj (ho'.symm.trans ho)
    exact hlists
  | reopen hdup hlt hopen =>
    apply h.add_open
    intro node' hnode'
    obtain rfl := Option.some.inj (hdup.symm.trans hnode')
    exact hopen
  | create hnone hgoal =>
    apply h.add_open
    intro node' hnode'
    exact absurd (hnone.symm.trans hnode') (Option.some_ne_none node').symm
  | reach hlt hnone hgoal => exact h.reach hnone rfl
  | report => exact h
  | swap heq => exact h

/-- A turn ends in a phase of the right shape. -/
theorem Shape.turn (h : Shape D P ph) (hl : Lists D P sh)
    (hturn : Turn D P detect_livelocks sh ph sh' ph' c) : Shape D P ph' := by
  cases hturn with
  | own hown =>
    cases hown with
    | late hlate => exact h.tail
    | known hdup hle => exact h.tail
    | read hlt => exact hlt
    | _ => trivial
  | locked hlocked =>
    cases hlocked with
    | lock hr => exact Shape.after _
    | again hr => exact Shape.after _
    | @look b l g bc ret hempty hr => cases ret <;> trivial
    | leave => trivial
  | take ho hnode htaken hp =>
    cases htaken with
    | expand hgoal => exact ⟨((hl _).take ho).1.1, [], rfl⟩
    | _ => trivial
  | update hdup hlt hopen ho => exact h.tail
  | reopen hdup hlt hopen => exact h.tail
  | create hnone hgoal => exact h.tail
  | reach hlt hnone hgoal => trivial
  | report => trivial
  | swap heq => trivial

variable [Inhabited V]

theorem initial_closed : (Shared.initial D P : Shared V n).closed
    = Function.update (fun _ => none) D.initial_state (some ⟨0, 0, none, true⟩) := rfl

/-- The search starts with the initial state alone, open and listed. -/
theorem lists_initial : Lists D P (Shared.initial D P : Shared V n) := by
  let start := D.initial_state
  let empty : Shared V n := { Shared.initial D P with
    closed := fun _ => none, opens := fun _ => ⟨PriorityQueue.new, fp_infinity⟩ }
  have hempty : Lists D P empty := by
    intro b
    have hnone : openStates P empty.closed b = ∅ := by
      ext v
      simp [openStates, empty]
    rw [hnone]
    exact OpenList.has_new
  show Lists D P (empty.add_open D P start ⟨0, 0, none, true⟩)
  exact hempty.add_open nofun

/-- Lists and flags are in step in every reachable state of a search. -/
theorem lists_reachable [DecidableEq ι] {s : State ι V n} (hs : (searches ι D P detect_livelocks).Reachable s) :
    Lists D P s.shared ∧ ∀ u, Shape D P (s.threads u) := by
  apply hs.invariant (I := fun s => Lists D P s.shared ∧ ∀ u, Shape D P (s.threads u))
  · rintro s rfl
    exact ⟨lists_initial, fun _ => trivial⟩
  · rintro s s' - ⟨hl, hshape⟩ hstep
    obtain ⟨t, ph', c, hturn, hmoved⟩ := step_cases hstep
    refine ⟨hl.turn hturn, ?_⟩
    exact hmoved.all (Q := Shape D P) trivial ((hshape t).turn hl hturn) (fun u _ => hshape u)

end Runs

end PwsaStar.Pbnf
