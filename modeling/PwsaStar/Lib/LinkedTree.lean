/-
# PwsaStar.Lib.LinkedTree — binary trees of cells linked by two pointers.

A memory holds cells, and a cell holds some data and two pointers: `cell d l r` is one with the data `d`.
A `LinkedTree` says how cells hang together, with the address of each, and `Stored` that a memory has
them that way.  What is stored survives whatever happens at other addresses (`Stored.frame`), there is
only one tree at a pointer (`Stored.unique`), and its addresses are those the pointer leads to
(`Stored.leads_iff`).
-/
import Mathlib.Logic.Function.Basic
import Mathlib.Data.List.Basic
import Mathlib.Data.List.Perm.Basic

namespace PwsaStar.Lib

universe u v w

/-- A tree of cells, with the address and the data of each. -/
inductive LinkedTree (A : Type u) (D : Type v)
  | nil
  | node (a : A) (d : D) (left right : LinkedTree A D)

namespace LinkedTree

variable {A : Type u} {D : Type v} {N : Type w}

/-- The pointer to the tree. -/
def root : LinkedTree A D → Option A
  | nil => none
  | node a _ _ _ => some a

/-- The cells, each with its address. -/
def cells : LinkedTree A D → List (A × D)
  | nil => []
  | node a d left right => (a, d) :: (left.cells ++ right.cells)

def addrs (t : LinkedTree A D) : List A := t.cells.map Prod.fst

def size (t : LinkedTree A D) : ℕ := t.cells.length

@[simp] theorem root_nil : (nil : LinkedTree A D).root = none := rfl

@[simp] theorem root_node (a : A) (d : D) (l r : LinkedTree A D) : (node a d l r).root = some a := rfl

@[simp] theorem cells_nil : (nil : LinkedTree A D).cells = [] := rfl

@[simp] theorem cells_node (a : A) (d : D) (l r : LinkedTree A D) :
    (node a d l r).cells = (a, d) :: (l.cells ++ r.cells) := rfl

@[simp] theorem addrs_nil : (nil : LinkedTree A D).addrs = [] := rfl

@[simp] theorem addrs_node (a : A) (d : D) (l r : LinkedTree A D) :
    (node a d l r).addrs = a :: (l.addrs ++ r.addrs) := by
  simp [addrs]

@[simp] theorem size_nil : (nil : LinkedTree A D).size = 0 := rfl

@[simp] theorem size_node (a : A) (d : D) (l r : LinkedTree A D) :
    (node a d l r).size = l.size + r.size + 1 := by
  simp [size]

theorem length_addrs (t : LinkedTree A D) : t.addrs.length = t.size := List.length_map _

theorem root_eq_none {t : LinkedTree A D} : t.root = none ↔ t = nil := by
  cases t with
  | nil => simp
  | node a d l r => simp

section Memory

variable (cell : D → Option A → Option A → N)

/-- The memory has the cells of the tree, linked as they are there. -/
def Stored (m : A → Option N) : LinkedTree A D → Prop
  | nil => True
  | node a d left right =>
    m a = some (cell d left.root right.root) ∧ Stored m left ∧ Stored m right

/-- The addresses that a pointer leads to. -/
inductive Leads (m : A → Option N) : Option A → A → Prop
  | here {a : A} {d : D} {l r : Option A} : m a = some (cell d l r) → Leads m (some a) a
  | left {a b : A} {d : D} {l r : Option A} : m a = some (cell d l r) → Leads m l b → Leads m (some a) b
  | right {a b : A} {d : D} {l r : Option A} : m a = some (cell d l r) → Leads m r b →
      Leads m (some a) b

/-- A cell determines what it was made of. -/
def Readable : Prop := ∀ d l r d' l' r', cell d l r = cell d' l' r' → d = d' ∧ l = l' ∧ r = r'

variable {cell} {m m' : A → Option N}

/-- **Nothing but the addresses of the tree matters.** -/
theorem Stored.frame {t : LinkedTree A D} (h : t.Stored cell m) (hsame : ∀ a ∈ t.addrs, m' a = m a) :
    t.Stored cell m' := by
  induction t with
  | nil => trivial
  | node a d l r ihl ihr =>
    obtain ⟨ha, hl, hr⟩ := h
    rw [addrs_node] at hsame
    refine ⟨(hsame a List.mem_cons_self).trans ha, ihl hl fun b hb => ?_, ihr hr fun b hb => ?_⟩
    · exact hsame b (List.mem_cons_of_mem a (List.mem_append_left _ hb))
    · exact hsame b (List.mem_cons_of_mem a (List.mem_append_right _ hb))

theorem Stored.update [DecidableEq A] {t : LinkedTree A D} (h : t.Stored cell m) {a : A}
    (ha : a ∉ t.addrs) (x : Option N) : t.Stored cell (Function.update m a x) := by
  apply h.frame
  intro b hb
  apply Function.update_of_ne
  rintro rfl
  exact ha hb

/-- What is stored at a cell of the tree. -/
theorem Stored.get {t : LinkedTree A D} (h : t.Stored cell m) {a : A} {d : D} (had : (a, d) ∈ t.cells) :
    ∃ l r, m a = some (cell d l r) := by
  induction t with
  | nil => cases had
  | node b e left right ihl ihr =>
    obtain ⟨hb, hl, hr⟩ := h
    rcases List.mem_cons.mp had with heq | had
    · obtain ⟨rfl, rfl⟩ := Prod.mk.inj heq
      exact ⟨_, _, hb⟩
    · rcases List.mem_append.mp had with had | had
      · exact ihl hl had
      · exact ihr hr had

theorem Stored.isSome {t : LinkedTree A D} (h : t.Stored cell m) {a : A} (ha : a ∈ t.addrs) :
    (m a).isSome := by
  obtain ⟨⟨a, d⟩, had, rfl⟩ := List.mem_map.mp ha
  obtain ⟨l, r, hm⟩ := h.get had
  rw [hm]
  rfl

/-- **At a pointer there is only one tree.** -/
theorem Stored.unique (hcell : Readable cell) {t t' : LinkedTree A D} (h : t.Stored cell m)
    (h' : t'.Stored cell m) (hroot : t.root = t'.root) : t = t' := by
  induction t generalizing t' with
  | nil => exact (root_eq_none.mp hroot.symm).symm
  | node a d l r ihl ihr =>
    cases t' with
    | nil => cases hroot
    | node a' d' l' r' =>
      obtain rfl := Option.some.inj hroot
      obtain ⟨ha, hl, hr⟩ := h
      obtain ⟨ha', hl', hr'⟩ := h'
      obtain ⟨rfl, hleft, hright⟩ := hcell _ _ _ _ _ _ (Option.some.inj (ha.symm.trans ha'))
      rw [ihl hl hl' hleft, ihr hr hr' hright]

/-- **A pointer leads to the addresses of its tree.** -/
theorem Stored.leads_iff (hcell : Readable cell) {t : LinkedTree A D} (h : t.Stored cell m) {b : A} :
    Leads cell m t.root b ↔ b ∈ t.addrs := by
  induction t with
  | nil =>
    constructor
    · exact nofun
    · exact nofun
  | node a d l r ihl ihr =>
    obtain ⟨ha, hl, hr⟩ := h
    rw [addrs_node, List.mem_cons, List.mem_append, ← ihl hl, ← ihr hr]
    constructor
    · intro hb
      cases hb with
      | here => exact Or.inl rfl
      | left hm hb =>
        obtain ⟨-, hleft, -⟩ := hcell _ _ _ _ _ _ (Option.some.inj (ha.symm.trans hm))
        exact Or.inr (Or.inl (hleft ▸ hb))
      | right hm hb =>
        obtain ⟨-, -, hright⟩ := hcell _ _ _ _ _ _ (Option.some.inj (ha.symm.trans hm))
        exact Or.inr (Or.inr (hright ▸ hb))
    · rintro (rfl | hb | hb)
      · exact .here ha
      · exact .left ha hb
      · exact .right ha hb

end Memory

end LinkedTree

end PwsaStar.Lib
