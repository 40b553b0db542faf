import Mathlib.Data.Tree.Basic
import Mathlib.Data.List.Sort
import Mathlib.Data.List.Perm.Basic

namespace LanguageTest

/-- One of the two children of a node. -/
inductive Side where
  | left
  | right
  deriving DecidableEq, Repr

namespace Side

def other : Side → Side
  | left => right
  | right => left

@[simp] theorem other_other (d : Side) : d.other.other = d := by cases d <;> rfl

@[simp] theorem other_ne (d : Side) : d.other ≠ d := by cases d <;> simp [other]

@[simp] theorem ne_other (d : Side) : d ≠ d.other := d.other_ne.symm

theorem eq_or_other (d e : Side) : d = e ∨ d = e.other := by
  cases d <;> cases e <;> simp [other]

end Side

end LanguageTest

namespace BinaryTree
open LanguageTest

variable {α β : Type*}

/-- The values from left to right. -/
def inorder : BinaryTree α → List α
  | nil => []
  | node v l r => l.inorder ++ v :: r.inorder

@[simp] theorem inorder_nil : (nil : BinaryTree α).inorder = [] := rfl

@[simp] theorem inorder_node (v : α) (l r : BinaryTree α) :
    (node v l r).inorder = l.inorder ++ v :: r.inorder := rfl

@[simp] theorem length_inorder (t : BinaryTree α) : t.inorder.length = t.numNodes := by
  induction t with
  | nil => rfl
  | node v l r hl hr => simp [hl, hr, Nat.add_assoc]

/-- The values with every node before its subtrees. -/
def preorder : BinaryTree α → List α
  | nil => []
  | node v l r => v :: (l.preorder ++ r.preorder)

theorem preorder_perm (t : BinaryTree α) : t.preorder.Perm t.inorder := by
  induction t with
  | nil => exact List.Perm.refl _
  | node v l r hl hr => exact ((hl.append hr).cons v).trans List.perm_middle.symm

/-- The value at the root. -/
def value? : BinaryTree α → Option α
  | nil => none
  | node v _ _ => some v

@[simp] theorem value?_nil : (nil : BinaryTree α).value? = none := rfl

@[simp] theorem value?_node (v : α) (l r : BinaryTree α) : (node v l r).value? = some v := rfl

/-- The node whose child on side `d` is `a` and whose other child is `b`. -/
def branch (d : Side) (v : α) (a b : BinaryTree α) : BinaryTree α :=
  match d with
  | .left => node v a b
  | .right => node v b a

@[simp] theorem branch_left (v : α) (a b : BinaryTree α) : branch .left v a b = node v a b := rfl

@[simp] theorem branch_right (v : α) (a b : BinaryTree α) : branch .right v a b = node v b a := rfl

theorem branch_other (d : Side) (v : α) (a b : BinaryTree α) :
    branch d.other v a b = branch d v b a := by
  cases d <;> rfl

/-- Every node can be read from either side. -/
theorem exists_branch (d : Side) {t : BinaryTree α} (h : t ≠ nil) :
    ∃ v a b, t = branch d v a b := by
  cases t with
  | nil => contradiction
  | node v l r =>
    cases d with
    | left => exact ⟨v, l, r, rfl⟩
    | right => exact ⟨v, r, l, rfl⟩

@[simp] theorem branch_ne_nil (d : Side) (v : α) (a b : BinaryTree α) : branch d v a b ≠ nil := by
  cases d <;> simp

@[simp] theorem value?_branch (d : Side) (v : α) (a b : BinaryTree α) :
    (branch d v a b).value? = some v := by
  cases d <;> rfl

theorem inorder_branch_perm (d : Side) (v : α) (a b : BinaryTree α) :
    (branch d v a b).inorder.Perm (v :: (a.inorder ++ b.inorder)) := by
  cases d with
  | left => exact List.perm_middle
  | right => exact List.perm_middle.trans (List.perm_append_comm.cons v)

/-- A rotation keeps the in-order sequence. -/
theorem inorder_rotate (d : Side) (x y : α) (a b c : BinaryTree α) :
    (branch d y (branch d x a b) c).inorder = (branch d x a (branch d y b c)).inorder := by
  cases d <;> simp

/-- One step on the way from a subtree to the root: the subtree is child `side` of a node
holding `value`, whose other child is `other`. -/
structure Frame (α : Type*) where
  side : Side
  value : α
  other : BinaryTree α

/-- What surrounds a subtree, from its parent up to the root. -/
abbrev Context (α : Type*) := List (Frame α)

def plug : Context α → BinaryTree α → BinaryTree α
  | [], t => t
  | f :: c, t => plug c (branch f.side f.value t f.other)

namespace Context

/-- The values left of the hole. -/
def before : Context α → List α
  | [] => []
  | f :: c =>
    match f.side with
    | .left => before c
    | .right => before c ++ (f.other.inorder ++ [f.value])

/-- The values right of the hole. -/
def after : Context α → List α
  | [] => []
  | f :: c =>
    match f.side with
    | .left => f.value :: f.other.inorder ++ after c
    | .right => after c

/-- All the values of a context, from the parent upwards. -/
def values : Context α → List α
  | [] => []
  | f :: c => f.value :: (f.other.inorder ++ values c)

end Context

@[simp] theorem plug_nil (t : BinaryTree α) : plug [] t = t := rfl

@[simp] theorem plug_cons (f : Frame α) (c : Context α) (t : BinaryTree α) :
    plug (f :: c) t = plug c (branch f.side f.value t f.other) := rfl

/-- A node with a hole on one side is the node with a hole on the other, filled the other way. -/
theorem plug_swap (d : Side) (v : α) (a b : BinaryTree α) (c : Context α) :
    plug (⟨d.other, v, a⟩ :: c) b = plug (⟨d, v, b⟩ :: c) a := by
  simp [branch_other]

theorem plug_ne_nil (c : Context α) {t : BinaryTree α} (h : t ≠ nil) : plug c t ≠ nil := by
  induction c generalizing t with
  | nil => exact h
  | cons f c ih => exact ih (branch_ne_nil _ _ _ _)

theorem plug_append (c e : Context α) (t : BinaryTree α) :
    plug (c ++ e) t = plug e (plug c t) := by
  induction c generalizing t with
  | nil => rfl
  | cons f c ih => exact ih _

theorem inorder_plug (c : Context α) (t : BinaryTree α) :
    (plug c t).inorder = c.before ++ t.inorder ++ c.after := by
  induction c generalizing t with
  | nil => simp [Context.before, Context.after]
  | cons f c ih =>
    obtain ⟨d, v, u⟩ := f
    cases d <;> simp [ih, Context.before, Context.after]

theorem inorder_plug_perm (c : Context α) (t : BinaryTree α) :
    (plug c t).inorder.Perm (t.inorder ++ c.values) := by
  induction c generalizing t with
  | nil => simp [Context.values]
  | cons f c ih =>
    refine (ih _).trans ?_
    refine ((inorder_branch_perm f.side f.value t f.other).append_right _).trans ?_
    simp only [Context.values, List.cons_append, List.append_assoc]
    exact List.perm_middle.symm

/-- Joining the subtrees of a node takes exactly its value out. -/
theorem inorder_plug_remove (c : Context α) {v : α} {l r t : BinaryTree α}
    (h : t.inorder = l.inorder ++ r.inorder) :
    (plug c (node v l r)).inorder.Perm (v :: (plug c t).inorder) := by
  rw [inorder_plug, inorder_plug, h, inorder_node]
  simp only [List.append_assoc, List.cons_append]
  rw [← List.append_assoc, ← List.append_assoc c.before]
  exact List.perm_middle

theorem inorder_plug_sublist (c : Context α) {v : α} {l r t : BinaryTree α}
    (h : t.inorder = l.inorder ++ r.inorder) :
    (plug c t).inorder.Sublist (plug c (node v l r)).inorder := by
  rw [inorder_plug, inorder_plug, h, inorder_node]
  exact (((List.sublist_cons_self _ _).append_left _).append_left _).append_right _

theorem numNodes_plug (c : Context α) (t : BinaryTree α) :
    (plug c t).numNodes = t.numNodes + c.values.length := by
  have h := (inorder_plug_perm c t).length_eq
  simpa using h

theorem Context.length_le_values (c : Context α) : c.length ≤ c.values.length := by
  induction c with
  | nil => simp
  | cons f c ih => simp [Context.values]; omega

/-- A context is never deeper than the tree it is part of has nodes. -/
theorem length_le_numNodes (c : Context α) (t : BinaryTree α) :
    c.length + t.numNodes ≤ (plug c t).numNodes := by
  have := c.length_le_values
  rw [numNodes_plug]
  omega

end BinaryTree
