/-
# PwsaStar.Treap.Insert — rotations, `node_insert` and `node_delete_min`.

An insertion puts the new node at a leaf and lifts it on the way back.  While it is on its way the tree
it is the root of may be out of order with the node above, but then only its root is: `Lifted b` says
that both children of the root have priorities of at most `b`.  One rotation restores the order above
and hands the same statement to the next level.
-/
import PwsaStar.Treap.Basic

namespace PwsaStar.Treap.Tree

/-! ## One entry more -/

section AddsOne

variable {α : Type*}

/-- `new` is `old` with the entry `e` put in somewhere. -/
def AddsOne (old : List α) (e : α) (new : List α) : Prop :=
  ∃ es fs, old = es ++ fs ∧ new = es ++ e :: fs

theorem AddsOne.append_right {old new : List α} {e : α} (h : AddsOne old e new)
    (gs : List α) : AddsOne (old ++ gs) e (new ++ gs) := by
  obtain ⟨es, fs, rfl, rfl⟩ := h
  exact ⟨es, fs ++ gs, by simp, by simp⟩

theorem AddsOne.append_left {old new : List α} {e : α} (h : AddsOne old e new)
    (gs : List α) : AddsOne (gs ++ old) e (gs ++ new) := by
  obtain ⟨es, fs, rfl, rfl⟩ := h
  exact ⟨gs ++ es, fs, by simp, by simp⟩

theorem AddsOne.mem {old new : List α} {e e' : α} (h : AddsOne old e new)
    (he' : e' ∈ new) : e' = e ∨ e' ∈ old := by
  obtain ⟨es, fs, rfl, rfl⟩ := h
  simp only [List.mem_append, List.mem_cons] at he' ⊢
  tauto

end AddsOne

/-! ## Rotations -/

variable {K V : Type*} [LinearOrder K] {ops : ValueOps V} {hash : K → ℤ}

/-- A tree whose children, at least, are below `b`. -/
def Lifted (b : ℤ) : Tree K V → Prop
  | nil => False
  | node _ _ _ _ l r => Below b l ∧ Below b r

/-- What a node in which one child may be out of order becomes by a rotation. -/
structure Settled (ops : ValueOps V) (hash : K → ℤ) (lo hi : Option K) (b : ℤ) (es : List (K × V))
    (t : Tree K V) : Prop where
  sound : Sound ops hash lo hi t
  lifted : ∀ c, b ≤ c → Lifted c t
  entries : inorder t = es

section Rotations

variable {lo hi : Option K} {k : K} {v : V} {p : ℤ} {l r : Tree K V}

/-- A child is lifted only if its key differs: equal keys have equal priorities. -/
theorem maybeRotateRight_spec (hlo : ∀ b ∈ lo, b < k) (hhi : ∀ b ∈ hi, k ≤ b) (hp : p = hash k)
    (hl : Sound ops hash lo (some k) l) (hlift : Lifted p l) (hr : Sound ops hash (some k) hi r)
    (hbr : Below p r) :
    ∃ t, maybeRotateRight ops (fixWeights ops k v p l r) = some t ∧
      Settled ops hash lo hi p (inorder l ++ (k, v) :: inorder r) t := by
  cases l with
  | nil => exact hlift.elim
  | node kl vl pl twl ll rl =>
    obtain ⟨⟨hlokl, hklk⟩, hpl, htwl, ⟨hbll, hbrl⟩, hsll, hsrl⟩ := sound_node_iff.mp hl
    obtain ⟨hll, hrl⟩ := hlift
    have hle : kl ≤ k := hklk k rfl
    simp only [fixWeights, maybeRotateRight]
    by_cases hlt : p < pl
    · have hne : kl ≠ k := by
        intro heq
        rw [hp, hpl, heq] at hlt
        exact lt_irrefl _ hlt
      rw [if_pos hlt, if_neg hne]
      refine ⟨_, rfl, ?_, ?_, by simp [inorder]⟩
      · refine sound_node_iff.mpr ⟨⟨hlokl, fun b hb => le_trans hle (hhi b hb)⟩, hpl, ?_,
          ⟨hbll, le_of_lt hlt⟩, hsll, sound_node_iff.mpr ⟨⟨?_, hhi⟩, hp, ?_, ⟨hrl, hbr⟩, hsrl, hr⟩⟩
        -- the weights that were moved are the ones `fix_weights` would compute
        · simp only [nodeTotalWeight_node]
          rw [htwl]
          ring
        · intro b hb
          obtain rfl : kl = b := Option.some.inj hb
          exact lt_of_le_of_ne hle hne
        · simp only [nodeTotalWeight_node]
          ring
      · intro c hc
        exact ⟨hll.mono hc, hc⟩
    · rw [if_neg hlt]
      refine ⟨_, rfl, ?_, ?_, by simp [inorder]⟩
      · exact sound_node_iff.mpr ⟨⟨hlo, hhi⟩, hp, rfl, ⟨le_of_not_gt hlt, hbr⟩, hl, hr⟩
      · intro c hc
        exact ⟨le_trans (le_of_not_gt hlt) hc, hbr.mono hc⟩

theorem maybeRotateLeft_spec (hlo : ∀ b ∈ lo, b < k) (hhi : ∀ b ∈ hi, k ≤ b) (hp : p = hash k)
    (hl : Sound ops hash lo (some k) l) (hbl : Below p l) (hr : Sound ops hash (some k) hi r)
    (hlift : Lifted p r) :
    ∃ t, maybeRotateLeft (fixWeights ops k v p l r) = some t ∧
      Settled ops hash lo hi p (inorder l ++ (k, v) :: inorder r) t := by
  cases r with
  | nil => exact hlift.elim
  | node kr vr pr twr lr rr =>
    obtain ⟨⟨hkkr, hhikr⟩, hpr, htwr, ⟨hblr, hbrr⟩, hslr, hsrr⟩ := sound_node_iff.mp hr
    obtain ⟨hlr, hrr⟩ := hlift
    have hlt' : k < kr := hkkr k rfl
    simp only [fixWeights, maybeRotateLeft]
    by_cases hlt : p < pr
    · rw [if_pos hlt]
      refine ⟨_, rfl, ?_, ?_, by simp [inorder]⟩
      · refine sound_node_iff.mpr ⟨⟨fun b hb => lt_trans (hlo b hb) hlt', hhikr⟩, hpr, ?_,
          ⟨le_of_lt hlt, hbrr⟩, sound_node_iff.mpr ⟨⟨hlo, ?_⟩, hp, ?_, ⟨hbl, hlr⟩, hl, hslr⟩, hsrr⟩
        · simp only [nodeTotalWeight_node]
          rw [htwr]
          ring
        · intro b hb
          obtain rfl : kr = b := Option.some.inj hb
          exact le_of_lt hlt'
        · simp only [nodeTotalWeight_node]
          ring
      · intro c hc
        exact ⟨hc, hrr.mono hc⟩
    · rw [if_neg hlt]
      refine ⟨_, rfl, ?_, ?_, by simp [inorder]⟩
      · exact sound_node_iff.mpr ⟨⟨hlo, hhi⟩, hp, rfl, ⟨hbl, le_of_not_gt hlt⟩, hl, hr⟩
      · intro c hc
        exact ⟨hbl.mono hc, le_trans (le_of_not_gt hlt) hc⟩

end Rotations

/-! ## Insertion -/

/-- No assertion fails, and what comes out is a treap again but for the order between its root and
whatever stands above it. -/
theorem nodeInsert_spec (key : K) (value : V) {t : Tree K V} {lo hi : Option K}
    (ht : Sound ops hash lo hi t) (hlo : ∀ b ∈ lo, b < key) (hhi : ∀ b ∈ hi, key ≤ b) :
    ∃ t', nodeInsert ops hash key value t = some t' ∧ Sound ops hash lo hi t' ∧
      (∀ b, Below b t → Lifted b t') ∧ AddsOne (inorder t) (key, value) (inorder t') := by
  induction t generalizing lo hi with
  | nil =>
    refine ⟨_, rfl, ?_, fun b _ => ⟨trivial, trivial⟩, [], [], rfl, rfl⟩
    refine sound_node_iff.mpr ⟨⟨hlo, hhi⟩, rfl, ?_, ⟨trivial, trivial⟩, nil_sound _ _ _ _,
      nil_sound _ _ _ _⟩
    simp
  | node k v p tw l r ihl ihr =>
    obtain ⟨⟨hlok, hhik⟩, hp, -, ⟨hbl, hbr⟩, hsl, hsr⟩ := sound_node_iff.mp ht
    simp only [nodeInsert]
    by_cases hle : key ≤ k
    · obtain ⟨l', hl', hsl', hlift, hadds⟩ := ihl hsl hlo fun b hb => Option.some.inj hb ▸ hle
      obtain ⟨t', ht', hset⟩ :=
        maybeRotateRight_spec (v := v) hlok hhik hp hsl' (hlift p hbl) hsr hbr
      refine ⟨t', ?_, hset.sound, hset.lifted, ?_⟩
      · rw [if_pos hle, hl']
        exact ht'
      · rw [hset.entries]
        exact hadds.append_right _
    · obtain ⟨r', hr', hsr', hlift, hadds⟩ :=
        ihr hsr (fun b hb => Option.some.inj hb ▸ lt_of_not_ge hle) hhi
      obtain ⟨t', ht', hset⟩ :=
        maybeRotateLeft_spec (v := v) hlok hhik hp hsl hbl hsr' (hlift p hbr)
      refine ⟨t', ?_, hset.sound, hset.lifted, ?_⟩
      · rw [if_neg hle, hr']
        exact ht'
      · rw [hset.entries]
        exact (hadds.append_left [(k, v)]).append_left (inorder l)

theorem Valid.insert {t : Tree K V} (ht : Valid ops hash t) (key : K) {value : V}
    (hpos : 0 < ops.weight value) :
    ∃ t', nodeInsert ops hash key value t = some t' ∧ Valid ops hash t' ∧
      AddsOne (inorder t) (key, value) (inorder t') := by
  obtain ⟨t', hins, hsound, -, hadds⟩ :=
    nodeInsert_spec key value ht.sound (by simp) (by simp)
  refine ⟨t', hins, ⟨hsound, ?_⟩, hadds⟩
  intro e he
  rcases hadds.mem he with rfl | hold
  · exact hpos
  · exact ht.positive e hold

/-! ## Deletion -/

/-- The leftmost entry goes; the priorities that remain are as low as before. -/
theorem nodeDeleteMin_spec {t : Tree K V} {lo hi : Option K} (ht : Sound ops hash lo hi t)
    (hne : t ≠ nil) :
    ∃ e t', nodeDeleteMin ops t = some (e, t') ∧ Sound ops hash lo hi t' ∧
      (∀ b, Below b t → Below b t') ∧ inorder t = e :: inorder t' := by
  induction t generalizing lo hi with
  | nil => exact absurd rfl hne
  | node k v p tw l r ihl _ =>
    obtain ⟨⟨hlok, hhik⟩, hp, -, ⟨hbl, hbr⟩, hsl, hsr⟩ := sound_node_iff.mp ht
    cases l with
    | nil =>
      refine ⟨(k, v), r, rfl, ?_, fun b hb => hbr.mono hb, rfl⟩
      refine hsr.mono ?_ fun _ h => h
      intro k' hk' b hb
      exact lt_trans (hlok b hb) (hk' k rfl)
    | node kl vl pl twl ll rl =>
      obtain ⟨e, l', hdel, hsl', hbelow, horder⟩ := ihl hsl (by simp)
      refine ⟨e, fixWeights ops k v p l' r, ?_, ?_, fun b hb => hb, ?_⟩
      · simp only [nodeDeleteMin]
        rw [hdel]
        rfl
      · exact sound_node_iff.mpr ⟨⟨hlok, hhik⟩, hp, rfl, ⟨hbelow p hbl, hbr⟩, hsl', hsr⟩
      · rw [inorder, horder]
        rfl

theorem Within.lt_of_mem {t : Tree K V} {lo hi : Option K} (h : Within lo hi t) {e : K × V}
    (he : e ∈ inorder t) : (∀ b ∈ lo, b < e.1) ∧ ∀ b ∈ hi, e.1 ≤ b := by
  induction t generalizing lo hi with
  | nil => exact absurd he List.not_mem_nil
  | node k v p tw l r ihl ihr =>
    obtain ⟨hlo, hhi, hl, hr⟩ := h
    rw [inorder, List.mem_append, List.mem_cons] at he
    rcases he with he | rfl | he
    · obtain ⟨h₁, h₂⟩ := ihl hl he
      exact ⟨h₁, fun b hb => le_trans (h₂ k rfl) (hhi b hb)⟩
    · exact ⟨hlo, hhi⟩
    · obtain ⟨h₁, h₂⟩ := ihr hr he
      exact ⟨fun b hb => lt_trans (hlo b hb) (h₁ k rfl), h₂⟩

/-- The entries stand in the order of their keys. -/
theorem Within.sorted {t : Tree K V} {lo hi : Option K} (h : Within lo hi t) :
    (inorder t).Pairwise fun e e' => e.1 ≤ e'.1 := by
  induction t generalizing lo hi with
  | nil => exact List.Pairwise.nil
  | node k v p tw l r ihl ihr =>
    obtain ⟨-, -, hl, hr⟩ := h
    rw [inorder, List.pairwise_append, List.pairwise_cons]
    refine ⟨ihl hl, ⟨?_, ihr hr⟩, ?_⟩
    · intro e he
      exact le_of_lt ((hr.lt_of_mem he).1 k rfl)
    · intro e he e' he'
      have hek : e.1 ≤ k := (hl.lt_of_mem he).2 k rfl
      rcases List.mem_cons.mp he' with rfl | he'
      · exact hek
      · exact le_trans hek (le_of_lt ((hr.lt_of_mem he').1 k rfl))

theorem Valid.deleteMin {t : Tree K V} (ht : Valid ops hash t) (hne : t ≠ nil) :
    ∃ e t', nodeDeleteMin ops t = some (e, t') ∧ Valid ops hash t' ∧
      inorder t = e :: inorder t' ∧ ∀ e' ∈ inorder t, e.1 ≤ e'.1 := by
  obtain ⟨e, t', hdel, hsound, -, horder⟩ := nodeDeleteMin_spec ht.sound hne
  refine ⟨e, t', hdel, ⟨hsound, ?_⟩, horder, ?_⟩
  · intro e' he'
    apply ht.positive e'
    rw [horder]
    exact List.mem_cons_of_mem e he'
  · have hsorted := ht.sound.within.sorted
    rw [horder] at hsorted ⊢
    intro e' he'
    rcases List.mem_cons.mp he' with rfl | he'
    · exact le_rfl
    · exact (List.pairwise_cons.mp hsorted).1 e' he'

end PwsaStar.Treap.Tree
