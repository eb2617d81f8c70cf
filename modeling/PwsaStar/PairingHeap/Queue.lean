/-
# PwsaStar.PairingHeap.Queue — the pairing heap is a mergeable priority queue.

`insert`, `merge_with` and `delete_min` are called on a family of heaps, in any order.  A state has the
memory, the root of every heap, and a record of the calls of `insert` that no operation reads: what was
inserted, and where its node is until `delete_min` returns it.
-/
import PwsaStar.Lib.Transition
import PwsaStar.PairingHeap.Forest
import Mathlib.Data.Set.Card

namespace PwsaStar.PairingHeap

open PwsaStar.Lib LinkedTree

variable {ι A K V : Type}

/-! ## The record of the insertions -/

/-- An entry that was inserted, and the address of its node as long as it is in a heap. -/
structure Insertion (A K V : Type) where
  key : K
  value : V
  place : Option A

/-- Where the entry of the `n`-th insertion is. -/
def placeOf (log : List (Insertion A K V)) (n : ℕ) : Option A := (log[n]?).bind Insertion.place

/-- The record after the entry at `X` was returned. -/
def Insertion.returned [DecidableEq A] (X : A) (r : Insertion A K V) : Insertion A K V :=
  if r.place = some X then { r with place := none } else r

/-- **The record fits the nodes**: an entry that was not returned is at its place, and no other insertion
has that place. -/
structure Logged (entry : A → Option (K × V)) (log : List (Insertion A K V)) : Prop where
  there : ∀ (n : ℕ) r a, log[n]? = some r → r.place = some a → entry a = some (r.key, r.value)
  once : ∀ a, (entry a).isSome → ∃! n, placeOf log n = some a

section Log

variable {entry : A → Option (K × V)} {log : List (Insertion A K V)} {X : A}

theorem placeOf_eq_some {n : ℕ} {a : A} :
    placeOf log n = some a ↔ ∃ r, log[n]? = some r ∧ r.place = some a := Option.bind_eq_some_iff

/-- A place is only recorded for what is there. -/
theorem Logged.isSome (h : Logged entry log) {n : ℕ} {a : A} (hn : placeOf log n = some a) :
    (entry a).isSome := by
  obtain ⟨r, hr, hplace⟩ := placeOf_eq_some.mp hn
  rw [h.there n r a hr hplace]
  rfl

theorem placeOf_append (r : Insertion A K V) (n : ℕ) : placeOf (log ++ [r]) n =
    if n < log.length then placeOf log n else if n = log.length then r.place else none := by
  rw [placeOf]
  split_ifs with hlt heq
  · rw [List.getElem?_append_left hlt, placeOf]
  · subst heq
    rw [List.getElem?_concat_length]
    rfl
  · rw [List.getElem?_eq_none (by simp; omega)]
    rfl

variable [DecidableEq A]

theorem placeOf_returned (n : ℕ) : placeOf (log.map (Insertion.returned X)) n =
    if placeOf log n = some X then none else placeOf log n := by
  rw [placeOf, placeOf, List.getElem?_map]
  cases log[n]? with
  | none => rfl
  | some r =>
    show (Insertion.returned X r).place = if r.place = some X then none else r.place
    rw [Insertion.returned]
    split_ifs
    · rfl
    · rfl

theorem Logged.insert (h : Logged entry log) (hX : entry X = none) (k : K) (v : V) :
    Logged (Function.update entry X (some (k, v))) (log ++ [⟨k, v, some X⟩]) := by
  have hne : ∀ {n a}, placeOf log n = some a → a ≠ X := by
    rintro n a hn rfl
    have := h.isSome hn
    rw [hX] at this
    exact absurd this Bool.false_ne_true
  refine { there := ?_, once := ?_ }
  · intro n r a hr hplace
    by_cases hlt : n < log.length
    · rw [List.getElem?_append_left hlt] at hr
      rw [Function.update_of_ne (hne (placeOf_eq_some.mpr ⟨r, hr, hplace⟩))]
      exact h.there n r a hr hplace
    · obtain rfl : r = ⟨k, v, some X⟩ := by
        rw [List.getElem?_append_right (not_lt.mp hlt)] at hr
        exact (List.mem_singleton.mp (List.mem_of_getElem? hr))
      obtain rfl : X = a := Option.some.inj hplace
      rw [Function.update_self]
  · intro a ha
    by_cases haX : a = X
    · subst haX
      refine ⟨log.length, ?_, ?_⟩
      · simp [placeOf_append]
      · intro n hn
        rw [placeOf_append] at hn
        split_ifs at hn with hlt heq
        · exact absurd rfl (hne hn)
        · exact heq
    · -- an older entry keeps its one place, and the new place is not its own
      rw [Function.update_of_ne haX] at ha
      obtain ⟨n, hn, hunique⟩ := h.once a ha
      have hlt : n < log.length := by
        obtain ⟨r, hr, -⟩ := placeOf_eq_some.mp hn
        exact (List.getElem?_eq_some_iff.mp hr).1
      refine ⟨n, ?_, ?_⟩
      · show placeOf _ n = some a
        rw [placeOf_append, if_pos hlt]
        exact hn
      · intro n' hn'
        rw [placeOf_append] at hn'
        split_ifs at hn' with hlt' heq
        · exact hunique n' hn'
        · exact absurd (Option.some.inj hn').symm haX

theorem Logged.returned (h : Logged entry log) (X : A) :
    Logged (Function.update entry X none) (log.map (Insertion.returned X)) := by
  refine { there := ?_, once := ?_ }
  · intro n r a hr hplace
    rw [List.getElem?_map] at hr
    obtain ⟨r₀, hr₀, rfl⟩ := Option.map_eq_some_iff.mp hr
    rw [Insertion.returned] at hplace ⊢
    split_ifs at hplace ⊢ with hX
    have haX : a ≠ X := by
      rintro rfl
      exact hX hplace
    rw [Function.update_of_ne haX]
    exact h.there n r₀ a hr₀ hplace
  · intro a ha
    have haX : a ≠ X := by
      rintro rfl
      rw [Function.update_self] at ha
      exact absurd ha Bool.false_ne_true
    rw [Function.update_of_ne haX] at ha
    obtain ⟨n, hn, hunique⟩ := h.once a ha
    have hiff : ∀ n, placeOf (log.map (Insertion.returned X)) n = some a ↔ placeOf log n = some a := by
      intro n
      rw [placeOf_returned]
      split_ifs with hX
      · rw [hX]
        exact ⟨nofun, fun h => absurd (Option.some.inj h).symm haX⟩
      · rfl
    exact ⟨n, (hiff n).mpr hn, fun n' hn' => hunique n' ((hiff n').mp hn')⟩

end Log

/-! ## The heaps -/

/-- The memory, the heaps named by `ι`, and the record. -/
structure State (ι A K V : Type) where
  memory : Memory A K V
  root : ι → Option A
  log : List (Insertion A K V)

/-- The public operations; `X` is the address that `my_malloc` gives. -/
inductive Op (ι A K V : Type)
  | construct (i : ι) (X : A) (k : K) (v : V)
  | insert (i : ι) (X : A) (k : K) (v : V)
  | mergeWith (i other : ι)
  | deleteMin (i : ι)

/-- `my_malloc` gives a free address, a heap is only constructed where there is none, a heap is not
merged with itself, and `delete_min` is called on heaps that are not empty. -/
def Admissible (s : State ι A K V) : Op ι A K V → Prop
  | .construct i X _ _ => s.root i = none ∧ s.memory X = none
  | .insert _ X _ _ => s.memory X = none
  | .mergeWith i other => i ≠ other
  | .deleteMin i => s.root i ≠ none

/-- The nodes of a heap: what the pointers lead to from its root. -/
def State.nodes (s : State ι A K V) (i : ι) : Set A := {a | Leads nodeOf s.memory (s.root i) a}

def State.entry (s : State ι A K V) : A → Option (K × V) := entryAt s.memory

section Operations

variable [DecidableEq ι] [DecidableEq A] [LinearOrder K]

/-- What an operation returns, if it returns an entry, and the state after it. -/
def next (rightFirst : Bool) (fuel : ℕ) (s : State ι A K V) :
    Op ι A K V → Option (Option (K × V) × State ι A K V)
  | .construct i X k v =>
    let (m, root) := construct s.memory X k v
    some (none, ⟨m, Function.update s.root i root, s.log ++ [⟨k, v, some X⟩]⟩)
  | .insert i X k v => do
    let (m, root) ← insert s.memory (s.root i) X k v
    return (none, ⟨m, Function.update s.root i root, s.log ++ [⟨k, v, some X⟩]⟩)
  | .mergeWith i other => do
    let (m, root, otherRoot) ← mergeWith s.memory (s.root i) (s.root other)
    return (none, ⟨m, Function.update (Function.update s.root i root) other otherRoot, s.log⟩)
  | .deleteMin i => do
    let (result, m, root) ← deleteMin rightFirst fuel s.memory (s.root i)
    return (some result,
      ⟨m, Function.update s.root i root, s.log.map fun r => (s.root i).elim r r.returned⟩)

/-- **The operation is carried out**: however deep it may go beyond some depth, no assertion fails and
the outcome is the same. -/
def Runs (rightFirst : Bool) (s : State ι A K V) (op : Op ι A K V) (result : Option (K × V))
    (s' : State ι A K V) : Prop :=
  ∃ depth, ∀ fuel, depth ≤ fuel → next rightFirst fuel s op = some (result, s')

/-- Any admissible operations, one after the other. -/
def system (ι A K V : Type) [DecidableEq ι] [DecidableEq A] [LinearOrder K] (rightFirst : Bool) :
    System (State ι A K V) where
  init s := s.memory = (fun _ => none) ∧ s.root = (fun _ => none) ∧ s.log = []
  step s s' := ∃ op result, Admissible s op ∧ Runs rightFirst s op result s'

/-! ## What the operations do -/

/-- One node more in one heap. -/
structure Added (s s' : State ι A K V) (i : ι) (X : A) (k : K) (v : V) : Prop where
  fresh : s.entry X = none
  this : s'.nodes i = s.nodes i ∪ {X}
  others : ∀ j, j ≠ i → s'.nodes j = s.nodes j
  entries : s'.entry = Function.update s.entry X (some (k, v))
  log : s'.log = s.log ++ [⟨k, v, some X⟩]

/-- **One heap has the nodes of both, and the other is empty.** -/
structure Merged (s s' : State ι A K V) (i other : ι) : Prop where
  this : s'.nodes i = s.nodes i ∪ s.nodes other
  emptied : s'.root other = none ∧ s'.nodes other = ∅
  others : ∀ j, j ≠ i → j ≠ other → s'.nodes j = s.nodes j
  entries : s'.entry = s.entry
  log : s'.log = s.log

/-- **The node at `X` is removed and its entry returned**; no key in the heap is below it. -/
structure Removed (s s' : State ι A K V) (i : ι) (X : A) (e : K × V) : Prop where
  mem : X ∈ s.nodes i
  entry : s.entry X = some e
  least : ∀ a ∈ s.nodes i, ∀ f, s.entry a = some f → e.1 ≤ f.1
  this : s'.nodes i = s.nodes i \ {X}
  others : ∀ j, j ≠ i → s'.nodes j = s.nodes j
  entries : s'.entry = Function.update s.entry X none
  log : s'.log = s.log.map (Insertion.returned X)

/-- What an operation does. -/
def Effect (s : State ι A K V) (result : Option (K × V)) (s' : State ι A K V) : Op ι A K V → Prop
  | .construct i X k v | .insert i X k v => result = none ∧ Added s s' i X k v
  | .mergeWith i other => result = none ∧ Merged s s' i other
  | .deleteMin i => ∃ X e, result = some e ∧ Removed s s' i X e

omit [DecidableEq ι] in
theorem Effect.logged {s s' : State ι A K V} {result : Option (K × V)} {op : Op ι A K V}
    (h : Effect s result s' op) (hs : Logged s.entry s.log) : Logged s'.entry s'.log := by
  cases op with
  | construct i X k v | insert i X k v =>
    obtain ⟨-, hadded⟩ := h
    rw [hadded.entries, hadded.log]
    exact hs.insert hadded.fresh k v
  | mergeWith i other =>
    obtain ⟨-, hmerged⟩ := h
    rwa [hmerged.entries, hmerged.log]
  | deleteMin i =>
    obtain ⟨X, e, -, hremoved⟩ := h
    rw [hremoved.entries, hremoved.log]
    exact hs.returned X

/-! ## The forest -/

/-- **The nodes are a forest**: each heap is a tree in heap order whose root has no sibling, and each
node in memory is in one place of one of them. -/
structure Forest (s : State ι A K V) (t : ι → Tree A K V) : Prop where
  root : ∀ i, s.root i = (t i).root
  parts : Parts s.memory t nil

variable {s s' : State ι A K V} {t : ι → Tree A K V} {t₀ : Tree A K V}

omit [DecidableEq ι] [DecidableEq A] in
theorem Forest.mem_nodes (h : Forest s t) {i : ι} {a : A} : a ∈ s.nodes i ↔ a ∈ (t i).addrs := by
  show Leads nodeOf s.memory (s.root i) a ↔ _
  rw [h.root i]
  exact (h.parts.heap i).stored.leads_iff nodeOf_readable

omit [DecidableEq A] [LinearOrder K] in
theorem root_update {root : ι → Option A} (hroot : ∀ j, root j = (t j).root) (i : ι) (t₀ : Tree A K V)
    (j : ι) : Function.update root i t₀.root j = (Function.update t i t₀ j).root := by
  by_cases hj : j = i
  · subst hj
    rw [Function.update_self, Function.update_self]
  · rw [Function.update_of_ne hj, Function.update_of_ne hj]
    exact hroot j

omit [DecidableEq A] in
theorem Forest.nodes_self {i : ι} (h' : Forest s' (Function.update t i t₀)) {a : A} :
    a ∈ s'.nodes i ↔ a ∈ t₀.addrs := by
  rw [h'.mem_nodes, Function.update_self]

omit [DecidableEq A] in
/-- The other heaps have the nodes they had. -/
theorem Forest.nodes_other (h : Forest s t) {i : ι} (h' : Forest s' (Function.update t i t₀)) {j : ι}
    (hj : j ≠ i) : s'.nodes j = s.nodes j := by
  apply Set.ext
  intro a
  rw [h'.mem_nodes, h.mem_nodes, Function.update_of_ne hj]

/-- A heap with a new node. -/
theorem Forest.added (h : Forest s t) {i : ι} {X : A} {k : K} {v : V} (hX : s.memory X = none)
    (hcells : t₀.cells.Perm ((t i).cells ++ [(X, (k, v))]))
    (h' : Forest s' (Function.update t i t₀))
    (hentries : ∀ a, s'.entry a = entryAt (newNode s.memory X k v) a)
    (hlog : s'.log = s.log ++ [⟨k, v, some X⟩]) : Added s s' i X k v where
  fresh := by
    rw [State.entry, entryAt, hX]
    rfl
  this := by
    apply Set.ext
    intro a
    rw [h'.nodes_self, addrs, (hcells.map Prod.fst).mem_iff, List.map_append, List.mem_append,
      Set.mem_union, h.mem_nodes]
    simp [addrs]
  others _ hj := h.nodes_other h' hj
  entries := by
    rw [funext hentries, entryAt_newNode]
    rfl
  log := hlog

omit [DecidableEq A] in
/-- Two heaps merged into one. -/
theorem Forest.merged (h : Forest s t) {i other : ι} (hne : i ≠ other)
    (h' : Forest s' (Function.update (Function.update t other nil) i (merge (t i) (t other))))
    (hroot : s'.root other = none) (hentries : s'.entry = s.entry) (hlog : s'.log = s.log) :
    Merged s s' i other := by
  have hadds := addrs_merge (h.parts.heap i).alone (h.parts.heap other).alone
  refine ⟨?_, ⟨hroot, ?_⟩, ?_, hentries, hlog⟩
  · apply Set.ext
    intro a
    rw [h'.nodes_self, hadds.mem_iff, List.mem_append, Set.mem_union, h.mem_nodes, h.mem_nodes]
  · apply Set.eq_empty_iff_forall_notMem.mpr
    intro a
    rw [h'.mem_nodes, Function.update_of_ne (Ne.symm hne), Function.update_self]
    exact List.not_mem_nil
  · intro j hji hjo
    apply Set.ext
    intro a
    rw [h'.mem_nodes, h.mem_nodes, Function.update_of_ne hji, Function.update_of_ne hjo]

/-! ## One operation -/

/-- The operation is carried out, does what it is for, and leaves a forest. -/
def Served (rightFirst : Bool) (s : State ι A K V) (op : Op ι A K V) : Prop :=
  ∃ result s' t', Runs rightFirst s op result s' ∧ Effect s result s' op ∧ Forest s' t'

variable (rightFirst : Bool)

theorem construct_served (h : Forest s t) {i : ι} {X : A} (k : K) (v : V)
    (hop : Admissible s (.construct i X k v)) : Served rightFirst s (.construct i X k v) := by
  obtain ⟨hi, hX⟩ := hop
  have hnil : t i = nil := by
    rw [h.root i, root_eq_none] at hi
    exact hi
  have hnew := h.parts.new hX k v
  have hcells : (node X (k, v) nil nil).cells.Perm
      ((t i).cells ++ (node X (k, v) nil nil : Tree A K V).cells) := by
    rw [hnil]
    exact List.Perm.refl _
  have hforest : Forest ⟨newNode s.memory X k v, Function.update s.root i (some X),
      s.log ++ [⟨k, v, some X⟩]⟩ _ :=
    ⟨root_update h.root i (node X (k, v) nil nil), hnew.settle hnew.loose hcells fun _ _ _ => rfl⟩
  exact ⟨none, _, _, ⟨0, fun _ _ => rfl⟩, ⟨rfl, h.added hX hcells hforest (fun _ => rfl) rfl⟩, hforest⟩

theorem insert_served (h : Forest s t) {i : ι} {X : A} (k : K) (v : V)
    (hop : Admissible s (.insert i X k v)) : Served rightFirst s (.insert i X k v) := by
  have hnew := h.parts.new hop k v
  obtain ⟨m', hrun, hparts, hentries⟩ := hnew.attach i
  have hcells := cells_merge (hnew.heap i).alone hnew.loose.alone
  have hforest : Forest ⟨m', Function.update s.root i (merge (t i) (node X (k, v) nil nil)).root,
      s.log ++ [⟨k, v, some X⟩]⟩ _ := ⟨root_update h.root i _, hparts⟩
  refine ⟨none, _, _, ⟨0, fun fuel _ => ?_⟩, ⟨rfl, h.added hop hcells hforest hentries rfl⟩, hforest⟩
  rw [next, insert, h.root i]
  rw [root_node] at hrun
  rw [hrun]
  rfl

theorem mergeWith_served (h : Forest s t) {i other : ι} (hop : Admissible s (.mergeWith i other)) :
    Served rightFirst s (.mergeWith i other) := by
  have hne : i ≠ other := hop
  -- `other` is taken out and merged into `i`
  obtain ⟨m', hrun, hparts, hentries⟩ := (h.parts.detach other).attach i
  rw [Function.update_of_ne hne] at hrun hparts
  let s' : State ι A K V := ⟨m', Function.update (Function.update s.root other none) i
    (merge (t i) (t other)).root, s.log⟩
  have hforest : Forest s' _ := ⟨root_update (root_update h.root other nil) i _, hparts⟩
  have hroot : s'.root other = none := by
    show Function.update (Function.update s.root other none) i _ other = none
    rw [Function.update_of_ne (Ne.symm hne), Function.update_self]
  refine ⟨none, s', _, ⟨0, fun fuel _ => ?_⟩,
    ⟨rfl, h.merged hne hforest hroot (funext hentries) rfl⟩, hforest⟩
  rw [next, mergeWith, h.root i, h.root other, hrun]
  show some (none, State.mk m' (Function.update (Function.update s.root i _) other none) s.log) = _
  rw [Function.update_comm hne]

omit [DecidableEq ι] [DecidableEq A] in
/-- A heap that is not empty has a root, which has no sibling. -/
theorem Forest.exists_root (h : Forest s t) {i : ι} {X : A} (hX : s.root i = some X) :
    ∃ e c, t i = node X e c nil := by
  have halone := (h.parts.heap i).alone
  rw [h.root i] at hX
  cases hti : t i with
  | nil =>
    rw [hti] at hX
    cases hX
  | node x e c s =>
    rw [hti] at hX halone
    obtain rfl : x = X := Option.some.inj hX
    obtain rfl : s = nil := halone
    exact ⟨e, c, rfl⟩

omit [DecidableEq ι] in
/-- `delete_min`, given what `merge_pairs_node` does to the children. -/
theorem deleteMin_eq {m m' : Memory A K V} {X : A} {e : K × V} {child root : Option A} {fuel : ℕ}
    (hX : m X = some (nodeOf e child none))
    (hpairs : mergePairsNode rightFirst fuel m child = some (m', root)) (hsame : m' X = m X) :
    deleteMin rightFirst fuel m (some X) = some (e, Function.update m' X none, root) := by
  rw [deleteMin, hX, Option.bind_eq_bind, Option.bind_some]
  show Option.bind (mergePairsNode rightFirst fuel m child) _ = _
  rw [hpairs]
  -- the root is read again, after the call
  show Option.bind (m' X) _ = _
  rw [hsame, hX]
  rfl

/-- A heap without its root. -/
theorem Forest.removed (h : Forest s t) {i : ι} {X : A} {e : K × V} {c : Tree A K V}
    (hti : t i = node X e c nil) (h' : Forest s' (Function.update t i (mergePairs c)))
    (hentries : s'.entry = Function.update s.entry X none)
    (hlog : s'.log = s.log.map (Insertion.returned X)) : Removed s s' i X e := by
  have hgood := h.parts.heap i
  rw [hti] at hgood
  have hmem : ∀ a, a ∈ s.nodes i ↔ a = X ∨ a ∈ c.addrs := by
    intro a
    rw [h.mem_nodes, hti]
    simp
  have hXc : X ∉ c.addrs := by
    have hnodup := hgood.nodup
    rw [addrs_node, addrs_nil, List.append_nil, List.nodup_cons] at hnodup
    exact hnodup.1
  refine
    { mem := (hmem X).mpr (Or.inl rfl)
      entry := hgood.entry List.mem_cons_self
      least := ?_
      this := ?_
      others := fun j hj => h.nodes_other h' hj
      entries := hentries
      log := hlog }
  · intro a ha f hf
    rw [h.mem_nodes, hti] at ha
    exact hgood.least ha hf
  · apply Set.ext
    intro a
    rw [h'.nodes_self, (addrs_mergePairs c).mem_iff, Set.mem_sdiff, hmem, Set.mem_singleton_iff]
    constructor
    · intro ha
      refine ⟨Or.inr ha, ?_⟩
      rintro rfl
      exact hXc ha
    · rintro ⟨rfl | ha, hne⟩
      · exact absurd rfl hne
      · exact ha

theorem deleteMin_served (h : Forest s t) {i : ι} (hop : Admissible s (.deleteMin i)) :
    Served rightFirst s (.deleteMin i) := by
  obtain ⟨X, hX⟩ := Option.ne_none_iff_exists'.mp hop
  obtain ⟨e, c, hti⟩ := h.exists_root hX
  -- the heap is taken out, its root gives way to the children, and they go back
  have hloose := h.parts.detach i
  rw [hti] at hloose
  obtain ⟨m', hrun, hsame, hparts, hentries⟩ := hloose.pairs rightFirst
  have hcells : (mergePairs c).cells.Perm
      ((Function.update t i nil i).cells ++ (mergePairs c).cells) := by
    rw [Function.update_self]
    exact List.Perm.refl _
  have hsettled := hparts.settle hparts.loose hcells fun _ _ _ => rfl
  rw [Function.update_idem] at hsettled
  have hforest : Forest ⟨Function.update m' X none, Function.update s.root i (mergePairs c).root,
      s.log.map (Insertion.returned X)⟩ _ :=
    ⟨root_update h.root i (mergePairs c), hsettled⟩
  refine ⟨some e, _, _, ⟨c.size, fun fuel hfuel => ?_⟩,
    ⟨X, e, rfl, h.removed hti hforest hentries rfl⟩, hforest⟩
  rw [next, hX, deleteMin_eq rightFirst hloose.loose.stored.1 (hrun fuel hfuel) hsame]
  rfl

/-! ## All runs -/

/-- What holds between operations. -/
structure Valid (s : State ι A K V) : Prop where
  forest : ∃ t, Forest s t
  logged : Logged s.entry s.log

variable {rightFirst}

theorem next_spec (hs : Valid s) {op : Op ι A K V} (hop : Admissible s op) :
    ∃ result s', Runs rightFirst s op result s' ∧ Effect s result s' op ∧ Valid s' := by
  obtain ⟨t, h⟩ := hs.forest
  have hserved : Served rightFirst s op := by
    cases op with
    | construct i X k v => exact construct_served rightFirst h k v hop
    | insert i X k v => exact insert_served rightFirst h k v hop
    | mergeWith i other => exact mergeWith_served rightFirst h hop
    | deleteMin i => exact deleteMin_served rightFirst h hop
  obtain ⟨result, s', t', hruns, heffect, hforest⟩ := hserved
  exact ⟨result, s', hruns, heffect, ⟨t', hforest⟩, heffect.logged hs.logged⟩

omit t t₀ in
/-- There is one outcome. -/
theorem Runs.unique {s s₁ s₂ : State ι A K V} {op : Op ι A K V} {result₁ result₂ : Option (K × V)}
    (h₁ : Runs rightFirst s op result₁ s₁) (h₂ : Runs rightFirst s op result₂ s₂) : s₁ = s₂ := by
  obtain ⟨depth₁, h₁⟩ := h₁
  obtain ⟨depth₂, h₂⟩ := h₂
  have heq := (h₁ _ (le_max_left depth₁ depth₂)).symm.trans (h₂ _ (le_max_right depth₁ depth₂))
  exact (Prod.mk.inj (Option.some.inj heq)).2

theorem reachable_valid (hs : (system ι A K V rightFirst).Reachable s) : Valid s := by
  apply hs.invariant
  · rintro s ⟨hmemory, hroot, hlog⟩
    have hnone : ∀ a, s.memory a = none := congrFun hmemory
    refine ⟨⟨fun _ => nil, fun i => congrFun hroot i, ?_⟩, ?_, ?_⟩
    · refine ⟨fun _ => good_nil _, good_nil _, nofun, nofun, ?_⟩
      intro a ha
      rw [hnone a] at ha
      exact absurd ha Bool.false_ne_true
    · intro n r a hr
      rw [hlog] at hr
      cases hr
    · intro a ha
      rw [State.entry, entryAt, hnone a] at ha
      exact absurd ha Bool.false_ne_true
  · rintro s s' - hvalid ⟨op, result, hop, hruns⟩
    obtain ⟨result', s'', hruns', -, hvalid'⟩ := next_spec hvalid hop
    rwa [hruns.unique hruns']

omit [DecidableEq ι] in
theorem Forest.ncard_nodes (h : Forest s t) (i : ι) : (s.nodes i).ncard = (t i).size := by
  have hset : s.nodes i = (t i).addrs.toFinset := by
    apply Set.ext
    intro a
    rw [h.mem_nodes, Finset.mem_coe, List.mem_toFinset]
  rw [hset, Set.ncard_coe_finset, List.toFinset_card_of_nodup (h.parts.heap i).nodup, length_addrs]

omit [DecidableEq ι] [DecidableEq A] in
/-- A node is in one heap. -/
theorem Forest.existsUnique (h : Forest s t) {a : A} (ha : (s.entry a).isSome) :
    ∃! i, a ∈ s.nodes i := by
  rcases h.parts.owned a (entryAt_isSome.mp ha) with ⟨i, hi⟩ | hnil
  · refine ⟨i, h.mem_nodes.mpr hi, ?_⟩
    intro j hj
    exact h.parts.disjoint j i a (h.mem_nodes.mp hj) hi
  · cases hnil

omit [DecidableEq ι] [DecidableEq A] in
theorem Forest.entry_isSome (h : Forest s t) {i : ι} {a : A} (ha : a ∈ s.nodes i) :
    (s.entry a).isSome :=
  entryAt_isSome.mpr ((h.parts.heap i).stored.isSome (h.mem_nodes.mp ha))

/-- **The pairing heap is a mergeable priority queue.** After any operations the nodes are a forest in
heap order, the entries that were inserted and not returned are in one place each, `check` goes through
and `size` counts the nodes of a heap; and any operation is carried out and does what it is for. -/
theorem pairing_heap_correct (hs : (system ι A K V rightFirst).Reachable s) :
    (∃ t, Forest s t) ∧
    (∀ (n : ℕ) (r : Insertion A K V) a, s.log[n]? = some r → r.place = some a →
      s.entry a = some (r.key, r.value) ∧ ∃! i, a ∈ s.nodes i) ∧
    (∀ i, ∀ a ∈ s.nodes i, ∃! n, placeOf s.log n = some a) ∧
    (∀ i, ∃ depth, ∀ fuel, depth ≤ fuel → check fuel s.memory (s.root i) = some () ∧
      size fuel s.memory (s.root i) = some (s.nodes i).ncard) ∧
    ∀ op, Admissible s op → ∃ result s', Runs rightFirst s op result s' ∧
      (system ι A K V rightFirst).Reachable s' ∧ Effect s result s' op := by
  have hvalid := reachable_valid hs
  obtain ⟨t, h⟩ := hvalid.forest
  refine ⟨⟨t, h⟩, ?_, ?_, ?_, ?_⟩
  · intro n r a hr hplace
    have hentry := hvalid.logged.there n r a hr hplace
    exact ⟨hentry, h.existsUnique (by rw [hentry]; rfl)⟩
  · intro i a ha
    exact hvalid.logged.once a (h.entry_isSome ha)
  · intro i
    refine ⟨2 * (t i).size, fun fuel hfuel => ?_⟩
    have hgood := h.parts.heap i
    rw [h.root i, h.ncard_nodes i]
    exact ⟨check_eq hgood.stored hgood.ordered hfuel, size_eq hgood.stored hgood.alone hfuel⟩
  · intro op hop
    obtain ⟨result, s', hruns, heffect, -⟩ := next_spec hvalid hop
    exact ⟨result, s', hruns, hs.step ⟨op, result, hop, hruns⟩, heffect⟩

end Operations

/-- The keys 3 and 2, inserted into one of two heaps. -/
def twoInserted : State Bool ℕ ℕ ℕ where
  memory := Function.update (Function.update (Function.update (Function.update (fun _ => none)
    10 (some ⟨3, 7, none, none⟩)) 11 (some ⟨2, 8, none, none⟩))
    10 (some ⟨3, 7, none, none⟩)) 11 (some ⟨2, 8, none, some 10⟩)
  root := Function.update (Function.update (fun _ => none) true (some 10)) true (some 11)
  log := [⟨3, 7, some 10⟩, ⟨2, 8, some 11⟩]

theorem twoInserted_reachable : (system Bool ℕ ℕ ℕ false).Reachable twoInserted := by
  have h₀ : (system Bool ℕ ℕ ℕ false).Reachable ⟨fun _ => none, fun _ => none, []⟩ :=
    System.Reachable.of_init ⟨rfl, rfl, rfl⟩
  have h₁ := h₀.step ⟨.insert true 10 3 7, none, rfl, 0, fun _ _ => rfl⟩
  exact h₁.step ⟨.insert true 11 2 8, none, rfl, 0, fun _ _ => rfl⟩

theorem pairing_heap_correct_two :
    ∃ result s', Runs false twoInserted (.deleteMin true) result s' ∧
      (system Bool ℕ ℕ ℕ false).Reachable s' ∧ Effect twoInserted result s' (.deleteMin true) := by
  obtain ⟨-, -, -, -, hnext⟩ := pairing_heap_correct twoInserted_reachable
  exact hnext (.deleteMin true) nofun

end PwsaStar.PairingHeap
