/-
# PwsaStar.Treap.Split — `node_split_at` cuts the sequence of entries, and whole runs over many treaps.

`cutAt` says what a cut by weight is on the sequence of entries, with no tree in sight: take entries
while the amount lasts, and divide the one in which it runs out if it may be divided.  `node_split_at`
takes five cases and two recursions to do the same, and the subtrees it skips it skips by their
`total_weight`: this is where a wrong weight would do its damage, and where `Weighed` is used.

`Cut` lists what the cut is good for.  The last section is about a family of treaps on which
insertions, deletions and splits are made in any order.
-/
import PwsaStar.Treap.Insert
import PwsaStar.Lib.Transition
import Mathlib.Logic.Function.Basic
import Mathlib.Data.Int.Basic
import Mathlib.Data.Prod.Lex

namespace PwsaStar.Treap

open PwsaStar.Treap.Tree

variable {K V : Type*}

/-! ## Cutting a sequence -/

/-- The first entries of the sequence, of weight `w` if it can be had, and the others. -/
def cutAt (ops : ValueOps V) : List (K × V) → ℤ → List (K × V) × List (K × V)
  | [], _ => ([], [])
  | e :: es, w =>
    if w ≤ 0 then ([], e :: es)
    else if w < ops.weight e.2 then
      if ops.mustProcess e.2 = true then
        let parts := ops.splitAt w e.2
        ([(e.1, parts.1)], (e.1, parts.2) :: es)
      else ([e], es)
    else if w = ops.weight e.2 then ([e], es)
    else
      let pair := cutAt ops es (w - ops.weight e.2)
      (e :: pair.1, pair.2)

section Append

variable {ops : ValueOps V} {es fs : List (K × V)} {w : ℤ}

theorem cutAt_of_nonpos (hw : w ≤ 0) : cutAt ops es w = ([], es) := by
  cases es with
  | nil => rfl
  | cons e es => rw [cutAt, if_pos hw]

/-- The cut of the first of two sequences, if it falls there. -/
theorem cutAt_append_left (hpos : ∀ e ∈ es, 0 < ops.weight e.2) (hw : w ≤ weightOf ops es) :
    cutAt ops (es ++ fs) w = ((cutAt ops es w).1, (cutAt ops es w).2 ++ fs) := by
  induction es generalizing w with
  | nil =>
    rw [List.nil_append, cutAt_of_nonpos hw]
    rfl
  | cons e es ih =>
    rw [weightOf_cons] at hw
    rw [List.cons_append, cutAt, cutAt]
    by_cases h₀ : w ≤ 0
    · rw [if_pos h₀, if_pos h₀]
      rfl
    rw [if_neg h₀, if_neg h₀]
    by_cases hlt : w < ops.weight e.2
    · rw [if_pos hlt, if_pos hlt]
      split
      · rfl
      · rfl
    rw [if_neg hlt, if_neg hlt]
    by_cases heq : w = ops.weight e.2
    · rw [if_pos heq, if_pos heq]
    · rw [if_neg heq, if_neg heq,
        ih (fun e' he' => hpos e' (List.mem_cons_of_mem e he')) (by omega)]

/-- The cut of the second of two sequences, if the first one is not enough. -/
theorem cutAt_append_right (hpos : ∀ e ∈ es, 0 < ops.weight e.2) (hw : weightOf ops es < w) :
    cutAt ops (es ++ fs) w =
      (es ++ (cutAt ops fs (w - weightOf ops es)).1, (cutAt ops fs (w - weightOf ops es)).2) := by
  induction es generalizing w with
  | nil => simp
  | cons e es ih =>
    have hpos' : ∀ e' ∈ es, 0 < ops.weight e'.2 := fun e' he' => hpos e' (List.mem_cons_of_mem e he')
    have he := hpos e List.mem_cons_self
    have hes := weightOf_nonneg hpos'
    rw [weightOf_cons] at hw ⊢
    rw [List.cons_append, cutAt, if_neg (by omega), if_neg (by omega), if_neg (by omega),
      ih hpos' (by omega), sub_sub]
    rfl

end Append

/-- What a cut is good for. -/
structure Cut (ops : ValueOps V) (old : List (K × V)) (w : ℤ) (this other : List (K × V)) : Prop where
  /-- Nothing is lost, added or moved; at most one entry is divided. -/
  sequence : old = this ++ other ∨
    ∃ es k v v₁ v₂ fs, ops.mustProcess v = true ∧ (0 < ops.weight v₁ ∧ 0 < ops.weight v₂) ∧
      ops.weight v₁ + ops.weight v₂ = ops.weight v ∧
      old = es ++ (k, v) :: fs ∧ this = es ++ [(k, v₁)] ∧ other = (k, v₂) :: fs
  conserved : weightOf ops this + weightOf ops other = weightOf ops old
  everything : weightOf ops old < w → this = old ∧ other = []
  enough : w ≤ weightOf ops old → w ≤ weightOf ops this
  shortest : ∀ es, es <+: this → es ≠ this → weightOf ops es < w
  /-- The weight is met exactly when the entry in which it is reached may be divided. -/
  exact : ∀ es e fs, old = es ++ e :: fs → weightOf ops es < w →
    w ≤ weightOf ops es + ops.weight e.2 → ops.mustProcess e.2 = true → weightOf ops this = w

section Cut

variable {ops : ValueOps V} {es : List (K × V)} {e : K × V} {w : ℤ}

/-- If the first entry is enough, the amount is reached in it. -/
theorem head_of_reached {es' fs : List (K × V)} {e' : K × V}
    (hpos : ∀ e ∈ es, 0 < ops.weight e.2) (hw : w ≤ ops.weight e.2) (h : e :: es = es' ++ e' :: fs)
    (hlt : weightOf ops es' < w) : e' = e := by
  cases es' with
  | nil => exact (List.cons.inj h).1.symm
  | cons e'' es'' =>
    obtain ⟨rfl, htail⟩ := List.cons.inj h
    have hnonneg : 0 ≤ weightOf ops es'' :=
      weightOf_nonneg fun e he => hpos e (htail ▸ List.mem_append_left _ he)
    rw [weightOf_cons] at hlt
    omega

theorem Cut.nothing (hpos : ∀ e ∈ es, 0 < ops.weight e.2) (hw : w ≤ 0) : Cut ops es w [] es where
  sequence := Or.inl rfl
  conserved := by simp
  everything h := absurd (weightOf_nonneg hpos) (by omega)
  enough _ := hw
  shortest fs hfs hne := absurd (List.prefix_nil.mp hfs) hne
  exact fs e gs h hlt _ _ := by
    have hnonneg : 0 ≤ weightOf ops fs :=
      weightOf_nonneg fun e he => hpos e (h ▸ List.mem_append_left _ he)
    omega

/-- A proper prefix of one entry weighs nothing. -/
theorem weightOf_prefix_singleton {fs : List (K × V)} (h : fs <+: [e]) (hne : fs ≠ [e]) :
    weightOf ops fs = 0 := by
  cases fs with
  | nil => rfl
  | cons f fs =>
    obtain ⟨rfl, hfs⟩ := List.cons_prefix_cons.mp h
    exact absurd (by rw [List.prefix_nil.mp hfs]) hne

/-- The first entry, whole. -/
theorem Cut.head (hpos : ∀ e ∈ es, 0 < ops.weight e.2) (hw : 0 < w) (hle : w ≤ ops.weight e.2)
    (hwhole : w = ops.weight e.2 ∨ ops.mustProcess e.2 = false) : Cut ops (e :: es) w [e] es where
  sequence := Or.inl rfl
  conserved := by simp
  everything h := by
    have hnonneg := weightOf_nonneg hpos
    rw [weightOf_cons] at h
    omega
  enough _ := by
    simp only [weightOf_cons, weightOf_nil]
    omega
  shortest fs hfs hne := by
    rw [weightOf_prefix_singleton hfs hne]
    exact hw
  exact fs e' gs h hlt _ hmust := by
    obtain rfl := head_of_reached hpos hle h hlt
    rcases hwhole with heq | hnot
    · simp [heq]
    · rw [hnot] at hmust
      exact absurd hmust (by decide)

/-- The first entry, divided. -/
theorem Cut.divide (hops : ops.Contract) (hpos : ∀ e ∈ es, 0 < ops.weight e.2) (hw : 0 < w)
    (hlt : w < ops.weight e.2) (hmust : ops.mustProcess e.2 = true) :
    Cut ops (e :: es) w [(e.1, (ops.splitAt w e.2).1)] ((e.1, (ops.splitAt w e.2).2) :: es) := by
  obtain ⟨hleft, hsum⟩ := hops e.2 w hw hlt
  refine
    { sequence := Or.inr ⟨[], e.1, e.2, _, _, es, hmust, ⟨?_, ?_⟩, hsum, rfl, rfl, rfl⟩
      conserved := ?_
      everything := ?_
      enough := ?_
      shortest := ?_
      exact := ?_ }
  · omega
  · omega
  · simp only [weightOf_cons, weightOf_nil]
    omega
  · intro h
    have hnonneg := weightOf_nonneg hpos
    rw [weightOf_cons] at h
    omega
  · intro _
    simp only [weightOf_cons, weightOf_nil]
    omega
  · intro fs hfs hne
    rw [weightOf_prefix_singleton hfs hne]
    exact hw
  · intro _ _ _ _ _ _ _
    simp only [weightOf_cons, weightOf_nil]
    omega

/-- The first entry is not enough. -/
theorem Cut.cons {this other : List (K × V)} (hw : 0 < ops.weight e.2) (hlt : ops.weight e.2 < w)
    (h : Cut ops es (w - ops.weight e.2) this other) : Cut ops (e :: es) w (e :: this) other where
  sequence := by
    rcases h.sequence with heq | ⟨es', k, v, v₁, v₂, fs, hmust, hpos, hsum, hold, hthis, hother⟩
    · left
      rw [heq, List.cons_append]
    · right
      refine ⟨e :: es', k, v, v₁, v₂, fs, hmust, hpos, hsum, ?_, ?_, hother⟩
      · rw [hold, List.cons_append]
      · rw [hthis, List.cons_append]
  conserved := by
    have := h.conserved
    rw [weightOf_cons, weightOf_cons]
    omega
  everything hall := by
    rw [weightOf_cons] at hall
    obtain ⟨hthis, hother⟩ := h.everything (by omega)
    exact ⟨by rw [hthis], hother⟩
  enough hle := by
    rw [weightOf_cons] at hle ⊢
    have := h.enough (by omega)
    omega
  shortest fs hfs hne := by
    cases fs with
    | nil =>
      rw [weightOf_nil]
      omega
    | cons f fs =>
      obtain ⟨rfl, hfs'⟩ := List.cons_prefix_cons.mp hfs
      have := h.shortest fs hfs' fun heq => hne (by rw [heq])
      rw [weightOf_cons]
      omega
  exact fs e' gs hold hbefore hreached hmust := by
    cases fs with
    | nil =>
      obtain ⟨rfl, -⟩ := List.cons.inj hold
      rw [weightOf_nil] at hreached
      omega
    | cons f fs =>
      obtain ⟨rfl, htail⟩ := List.cons.inj hold
      rw [weightOf_cons] at hbefore hreached ⊢
      have := h.exact fs e' gs htail (by omega) (by omega) hmust
      omega

theorem cutAt_cut (hops : ops.Contract) (hpos : ∀ e ∈ es, 0 < ops.weight e.2) :
    Cut ops es w (cutAt ops es w).1 (cutAt ops es w).2 := by
  by_cases h₀ : w ≤ 0
  · rw [cutAt_of_nonpos h₀]
    exact Cut.nothing hpos h₀
  induction es generalizing w with
  | nil =>
    refine ⟨Or.inl rfl, rfl, fun _ => ⟨rfl, rfl⟩, fun h => absurd h h₀, ?_, ?_⟩
    · intro es hes hne
      exact absurd (List.prefix_nil.mp hes) hne
    · intro es e fs h
      simp at h
  | cons e es ih =>
    have hpos' : ∀ e' ∈ es, 0 < ops.weight e'.2 := fun e' he' => hpos e' (List.mem_cons_of_mem e he')
    have hw : 0 < w := by omega
    rw [cutAt, if_neg h₀]
    by_cases hlt : w < ops.weight e.2
    · rw [if_pos hlt]
      by_cases hmust : ops.mustProcess e.2 = true
      · rw [if_pos hmust]
        exact Cut.divide hops hpos' hw hlt hmust
      · rw [if_neg hmust]
        exact Cut.head hpos' hw (le_of_lt hlt) (Or.inr (Bool.eq_false_iff.mpr hmust))
    rw [if_neg hlt]
    by_cases heq : w = ops.weight e.2
    · rw [if_pos heq]
      exact Cut.head hpos' hw (le_of_eq heq) (Or.inl heq)
    · rw [if_neg heq]
      exact Cut.cons (hpos e List.mem_cons_self) (by omega) (ih hpos' (by omega))

/-- The parts of a cut are worth having if what was cut is. -/
theorem Cut.positive {old this other : List (K × V)} (h : Cut ops old w this other)
    (hpos : ∀ e ∈ old, 0 < ops.weight e.2) :
    (∀ e ∈ this, 0 < ops.weight e.2) ∧ ∀ e ∈ other, 0 < ops.weight e.2 := by
  rcases h.sequence with rfl | ⟨es, k, v, v₁, v₂, fs, -, ⟨h₁, h₂⟩, -, rfl, rfl, rfl⟩
  · exact ⟨fun e he => hpos e (List.mem_append_left _ he),
      fun e he => hpos e (List.mem_append_right _ he)⟩
  · constructor
    · intro e he
      rcases List.mem_append.mp he with he | he
      · exact hpos e (List.mem_append_left _ he)
      · obtain rfl := List.mem_singleton.mp he
        exact h₁
    · intro e he
      rcases List.mem_cons.mp he with rfl | he
      · exact h₂
      · exact hpos e (List.mem_append_right _ (List.mem_cons_of_mem _ he))

end Cut

/-! ## The trees that `node_split_at` returns -/

namespace Tree

variable {ops : ValueOps V} {hash : K → ℤ}

/-- **`node_split_at` cuts the sequence of entries.** -/
theorem inorder_nodeSplitAt {t : Tree K V} {w : ℤ} (ht : Weighed ops t)
    (hpos : ∀ e ∈ inorder t, 0 < ops.weight e.2) :
    (inorder (nodeSplitAt ops t w).1, inorder (nodeSplitAt ops t w).2) = cutAt ops (inorder t) w := by
  induction t generalizing w with
  | nil => rfl
  | node k v p tw l r ihl ihr =>
    obtain ⟨-, hl, hr⟩ := ht
    have hposl : ∀ e ∈ inorder l, 0 < ops.weight e.2 := fun e he =>
      hpos e (List.mem_append_left _ he)
    have hposr : ∀ e ∈ inorder r, 0 < ops.weight e.2 := fun e he =>
      hpos e (List.mem_append_right _ (List.mem_cons_of_mem _ he))
    simp only [nodeSplitAt, inorder]
    by_cases hle : w ≤ l.nodeTotalWeight
    · rw [if_pos hle, cutAt_append_left hposl (hl.total ▸ hle), ← ihl hl hposl]
      rfl
    -- the amount is not in the left subtree, so all of that goes to the first part
    rw [if_neg hle, cutAt_append_right hposl (hl.total ▸ lt_of_not_ge hle), ← hl.total, cutAt,
      if_neg (show ¬ w - l.nodeTotalWeight ≤ 0 by omega)]
    by_cases hlt : w < l.nodeTotalWeight + ops.weight v
    · rw [if_pos hlt, if_pos (show w - l.nodeTotalWeight < ops.weight v by omega)]
      by_cases hmust : ops.mustProcess v = true
      · rw [if_pos hmust, if_pos hmust]
        rfl
      · rw [if_neg hmust, if_neg hmust]
        rfl
    rw [if_neg hlt, if_neg (show ¬ w - l.nodeTotalWeight < ops.weight v by omega)]
    by_cases heq : w = l.nodeTotalWeight + ops.weight v
    · rw [if_pos heq, if_pos (show w - l.nodeTotalWeight = ops.weight v by omega)]
      rfl
    · rw [if_neg heq, if_neg (show ¬ w - l.nodeTotalWeight = ops.weight v by omega),
        ← ihr hr hposr]
      rfl

variable [LinearOrder K]

theorem nodeSplitAt_sound {t : Tree K V} {lo hi : Option K} {w : ℤ} (ht : Sound ops hash lo hi t) :
    (Sound ops hash lo hi (nodeSplitAt ops t w).1 ∧ Sound ops hash lo hi (nodeSplitAt ops t w).2) ∧
      ∀ b, Below b t → Below b (nodeSplitAt ops t w).1 ∧ Below b (nodeSplitAt ops t w).2 := by
  induction t generalizing lo hi w with
  | nil => exact ⟨⟨ht, ht⟩, fun b hb => ⟨hb, hb⟩⟩
  | node k v p tw l r ihl ihr =>
    obtain ⟨⟨hlo, hhi⟩, hp, -, ⟨hbl, hbr⟩, hsl, hsr⟩ := sound_node_iff.mp ht
    -- a part of the left subtree may stand where the whole tree stood, and so may one of the right
    have hleft : ∀ {t'}, Sound ops hash lo (some k) t' → Sound ops hash lo hi t' := fun h =>
      h.mono (fun _ h => h) fun k' hk' b hb => le_trans (hk' k rfl) (hhi b hb)
    have hright : ∀ {t'}, Sound ops hash (some k) hi t' → Sound ops hash lo hi t' := fun h =>
      h.mono (fun k' hk' b hb => lt_trans (hlo b hb) (hk' k rfl)) fun _ h => h
    -- and so may the node with anything sound on its two sides
    have hnode : ∀ {v' l' r'}, Sound ops hash lo (some k) l' → Below p l' →
        Sound ops hash (some k) hi r' → Below p r' →
        Sound ops hash lo hi (fixWeights ops k v' p l' r') := fun h₁ h₂ h₃ h₄ =>
      sound_node_iff.mpr ⟨⟨hlo, hhi⟩, hp, rfl, ⟨h₂, h₄⟩, h₁, h₃⟩
    have hnil : ∀ lo hi, Sound ops hash lo hi (nil : Tree K V) := nil_sound ops hash
    simp only [nodeSplitAt]
    split_ifs
    · obtain ⟨⟨h₁, h₂⟩, hb⟩ := ihl hsl (w := w)
      refine ⟨⟨hleft h₁, hnode h₂ (hb p hbl).2 hsr hbr⟩, fun b hpb => ⟨?_, hpb⟩⟩
      exact (hb p hbl).1.mono hpb
    · exact ⟨⟨hnode hsl hbl (hnil _ _) trivial, hnode (hnil _ _) trivial hsr hbr⟩,
        fun b hpb => ⟨hpb, hpb⟩⟩
    · exact ⟨⟨hnode hsl hbl (hnil _ _) trivial, hright hsr⟩, fun b hpb => ⟨hpb, hbr.mono hpb⟩⟩
    · exact ⟨⟨hnode hsl hbl (hnil _ _) trivial, hright hsr⟩, fun b hpb => ⟨hpb, hbr.mono hpb⟩⟩
    · obtain ⟨⟨h₁, h₂⟩, hb⟩ := ihr hsr (w := w - l.nodeTotalWeight - ops.weight v)
      refine ⟨⟨hnode hsl hbl h₁ (hb p hbr).1, hright h₂⟩, fun b hpb => ⟨hpb, ?_⟩⟩
      exact (hb p hbr).2.mono hpb

theorem Valid.split (hops : ops.Contract) {t : Tree K V} (ht : Valid ops hash t) (w : ℤ) :
    (Valid ops hash (nodeSplitAt ops t w).1 ∧ Valid ops hash (nodeSplitAt ops t w).2) ∧
      Cut ops (inorder t) w (inorder (nodeSplitAt ops t w).1) (inorder (nodeSplitAt ops t w).2) := by
  have hcut := cutAt_cut (w := w) hops ht.positive
  rw [← inorder_nodeSplitAt ht.sound.weighed ht.positive] at hcut
  obtain ⟨⟨h₁, h₂⟩, -⟩ := nodeSplitAt_sound (w := w) ht.sound
  obtain ⟨hp₁, hp₂⟩ := hcut.positive ht.positive
  exact ⟨⟨⟨h₁, hp₁⟩, h₂, hp₂⟩, hcut⟩

end Tree

/-! ## Runs over a family of treaps -/

/-- The public operations, on the treaps named by `ι`. -/
inductive Op (ι K V : Type*)
  | insert (i : ι) (key : K) (value : V)
  | deleteMin (i : ι)
  | splitAt (i : ι) (w : ℤ) (other : ι)
  | swap (i other : ι)

/-- The roots. -/
abbrev Store (ι K V : Type*) := ι → Tree K V

section Runs

variable {ι : Type*} [DecidableEq ι] [LinearOrder K]

/-- What an operation returns, if it returns an entry, and the store after it.  What `other` held is
dropped by `split_at`. -/
def next (ops : ValueOps V) (hash : K → ℤ) (s : Store ι K V) :
    Op ι K V → Option (Option (K × V) × Store ι K V)
  | .insert i key value =>
    (nodeInsert ops hash key value (s i)).map fun root => (none, Function.update s i root)
  | .deleteMin i =>
    (nodeDeleteMin ops (s i)).map fun (result, root) => (some result, Function.update s i root)
  | .splitAt i w other =>
    let pair := nodeSplitAt ops (s i) w
    some (none, Function.update (Function.update s i pair.1) other pair.2)
  | .swap i other => some (none, Function.update (Function.update s i (s other)) other (s i))

/-- Weights are positive, `delete_min` is called on treaps that are not empty, and a treap is not split
into itself. -/
def Admissible (ops : ValueOps V) (s : Store ι K V) : Op ι K V → Prop
  | .insert _ _ value => 0 < ops.weight value
  | .deleteMin i => s i ≠ nil
  | .splitAt i _ other => i ≠ other
  | .swap _ _ => True

def system (ι : Type*) [DecidableEq ι] (ops : ValueOps V) (hash : K → ℤ) :
    Lib.System (Store ι K V) where
  init s := ∀ i, s i = nil
  step s t := ∃ op result, Admissible ops s op ∧ next ops hash s op = some (result, t)

/-- What an operation does to the entries. -/
def Effect (ops : ValueOps V) (s : Store ι K V) (result : Option (K × V)) (t : Store ι K V) :
    Op ι K V → Prop
  | .insert i key value =>
    AddsOne (inorder (s i)) (key, value) (inorder (t i)) ∧ ∀ j, j ≠ i → t j = s j
  | .deleteMin i =>
    (∃ e, result = some e ∧ inorder (s i) = e :: inorder (t i) ∧
      ∀ e' ∈ inorder (s i), e.1 ≤ e'.1) ∧ ∀ j, j ≠ i → t j = s j
  | .splitAt i w other =>
    Cut ops (inorder (s i)) w (inorder (t i)) (inorder (t other)) ∧
      (t i).nodeTotalWeight + (t other).nodeTotalWeight = (s i).nodeTotalWeight ∧
      ∀ j, j ≠ i → j ≠ other → t j = s j
  | .swap i other => (t i = s other ∧ t other = s i) ∧ ∀ j, j ≠ i → j ≠ other → t j = s j

variable {ops : ValueOps V} {hash : K → ℤ}

/-- Replacing treaps by valid ones. -/
theorem valid_update {s : Store ι K V} (hs : ∀ i, Valid ops hash (s i)) {i : ι} {t : Tree K V}
    (ht : Valid ops hash t) (j : ι) : Valid ops hash (Function.update s i t j) := by
  by_cases h : j = i
  · subst h
    rw [Function.update_self]
    exact ht
  · rw [Function.update_of_ne h]
    exact hs j

/-- **One operation.**  It is carried out, does what it is for and leaves valid treaps. -/
theorem next_spec (hops : ops.Contract) {s : Store ι K V} (hs : ∀ i, Valid ops hash (s i))
    {op : Op ι K V} (hop : Admissible ops s op) :
    ∃ result t, next ops hash s op = some (result, t) ∧ Effect ops s result t op ∧
      ∀ i, Valid ops hash (t i) := by
  cases op with
  | insert i key value =>
    obtain ⟨root, hroot, hvalid, hadds⟩ := (hs i).insert key hop
    refine ⟨none, Function.update s i root, ?_, ⟨?_, fun j hj => Function.update_of_ne hj _ _⟩,
      valid_update hs hvalid⟩
    · simp only [next]
      rw [hroot]
      rfl
    · rw [Function.update_self]
      exact hadds
  | deleteMin i =>
    obtain ⟨e, root, hroot, hvalid, horder, hmin⟩ := (hs i).deleteMin hop
    refine ⟨some e, Function.update s i root, ?_,
      ⟨⟨e, rfl, ?_, hmin⟩, fun j hj => Function.update_of_ne hj _ _⟩, valid_update hs hvalid⟩
    · simp only [next]
      rw [hroot]
      rfl
    · rw [Function.update_self]
      exact horder
  | splitAt i w other =>
    obtain ⟨⟨hthis, hother⟩, hcut⟩ := (hs i).split hops w
    have hne : i ≠ other := hop
    refine ⟨none, _, rfl, ⟨?_, ?_, ?_⟩, valid_update (valid_update hs hthis) hother⟩
    · rw [Function.update_of_ne hne, Function.update_self, Function.update_self]
      exact hcut
    · rw [Function.update_of_ne hne, Function.update_self, Function.update_self,
        hthis.sound.weighed.total, hother.sound.weighed.total, (hs i).sound.weighed.total]
      exact hcut.conserved
    · intro j hji hjo
      rw [Function.update_of_ne hjo, Function.update_of_ne hji]
  | swap i other =>
    refine ⟨none, _, rfl, ⟨⟨?_, Function.update_self _ _ _⟩, ?_⟩,
      valid_update (valid_update hs (hs other)) (hs i)⟩
    · by_cases h : i = other
      · subst h
        rw [Function.update_self]
      · rw [Function.update_of_ne h, Function.update_self]
    · intro j hji hjo
      rw [Function.update_of_ne hjo, Function.update_of_ne hji]

theorem reachable_valid (hops : ops.Contract) {s : Store ι K V}
    (hs : (system ι ops hash).Reachable s) (i : ι) : Valid ops hash (s i) := by
  refine hs.invariant (I := fun s => ∀ i, Valid ops hash (s i)) ?_ ?_ i
  · intro s₀ hinit j
    rw [hinit j]
    exact nil_valid ops hash
  · rintro s t - ih ⟨op, result, hop, hnext⟩
    obtain ⟨result', t', hnext', -, hvalid⟩ := next_spec hops ih hop
    rw [hnext] at hnext'
    obtain ⟨-, rfl⟩ := Prod.mk.inj (Option.some.inj hnext')
    exact hvalid

/-- **The weighted treaps keep their order and their weights, and split by weight.**  Whatever
operations were made, every treap passes `node_check` and knows its weight, and whatever is done next
is carried out and has its effect. -/
theorem frontier_in_order (hops : ops.Contract) {s : Store ι K V}
    (hs : (system ι ops hash).Reachable s) :
    (∀ i, nodeCheck ops (s i) none none none ∧
      (s i).nodeTotalWeight = weightOf ops (inorder (s i))) ∧
    ∀ op, Admissible ops s op → ∃ result t, next ops hash s op = some (result, t) ∧
      (system ι ops hash).Reachable t ∧ Effect ops s result t op := by
  have hvalid := reachable_valid hops hs
  refine ⟨fun i => ⟨(hvalid i).sound.check, (hvalid i).sound.weighed.total⟩, fun op hop => ?_⟩
  obtain ⟨result, t, hnext, heffect, -⟩ := next_spec hops hvalid hop
  exact ⟨result, t, hnext, hs.step ⟨op, result, hop, hnext⟩, heffect⟩

end Runs

/-- Values that are a weight and the flag, divided as the contract says. -/
def plainOps : ValueOps (ℤ × Bool) where
  weight v := v.1
  mustProcess v := v.2
  splitAt w v := ((w, v.2), (v.1 - w, v.2))

theorem plainOps_contract : plainOps.Contract := by
  intro v w _ _
  show w = w ∧ w + (v.1 - w) = v.1
  omega

/-- Two entries with the key 7 in one of two treaps, and a cut that goes through the first of them. -/
def duplicates : Store Bool ℤ (ℤ × Bool) :=
  Function.update (fun _ => nil) true
    (node 7 (2, true) 7 5 (node 7 (3, true) 7 3 nil nil) nil)

theorem duplicates_reachable : (system Bool plainOps fun k : ℤ => k).Reachable duplicates := by
  have h₀ : (system Bool plainOps fun k : ℤ => k).Reachable fun _ => nil :=
    Lib.System.Reachable.of_init fun _ => rfl
  have h₁ := h₀.step ⟨.insert true 7 (2, true), none, show (0 : ℤ) < 2 by decide, rfl⟩
  have h₂ := h₁.step ⟨.insert true 7 (3, true), none, show (0 : ℤ) < 3 by decide, rfl⟩
  have heq : ∀ (t t' : Tree ℤ (ℤ × Bool)),
      Function.update (Function.update (fun _ : Bool => (nil : Tree ℤ (ℤ × Bool))) true t) true t' =
        Function.update (fun _ => nil) true t' := fun t t' => Function.update_idem _ _ _
  rw [duplicates, ← heq]
  exact h₂

theorem frontier_in_order_duplicates :
    (∀ i, nodeCheck plainOps (duplicates i) none none none ∧
      (duplicates i).nodeTotalWeight = weightOf plainOps (inorder (duplicates i))) ∧
    ∀ op, Admissible plainOps duplicates op → ∃ result t,
      next plainOps (fun k : ℤ => k) duplicates op = some (result, t) ∧
      (system Bool plainOps fun k : ℤ => k).Reachable t ∧ Effect plainOps duplicates result t op :=
  frontier_in_order plainOps_contract duplicates_reachable

example : (inorder (nodeSplitAt plainOps (duplicates true) 1).1,
    inorder (nodeSplitAt plainOps (duplicates true) 1).2) =
      ([(7, (1, true))], [(7, (2, true)), (7, (2, true))]) := by decide

end PwsaStar.Treap
