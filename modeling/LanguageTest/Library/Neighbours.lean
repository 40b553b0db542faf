import LanguageTest.Library.Tree

namespace BinaryTree
open LanguageTest

variable {α : Type*}

/-- The values in their order when `d` is the right side, and from right to left otherwise. -/
def towards (d : Side) (t : BinaryTree α) : List α :=
  match d with
  | .left => t.inorder.reverse
  | .right => t.inorder

/-- The values beyond the hole towards side `d`, the nearest first. -/
def Context.beyond (d : Side) : Context α → List α
  | [] => []
  | f :: c => if f.side = d then beyond d c else f.value :: (f.other.towards d ++ beyond d c)

section
variable {d : Side} {v : α} {a b t : BinaryTree α} {c : Context α}

@[simp] theorem towards_nil : towards d (nil : BinaryTree α) = [] := by
  cases d <;> rfl

theorem towards_branch : towards d (branch d v a b) = towards d b ++ v :: towards d a := by
  cases d <;> simp [towards]

theorem towards_branch_other :
    towards d (branch d.other v a b) = towards d a ++ v :: towards d b := by
  rw [branch_other, towards_branch]

theorem towards_ne_nil (ht : t ≠ nil) : towards d t ≠ [] := by
  obtain ⟨v, a, b, rfl⟩ := exists_branch d ht
  rw [towards_branch]
  simp

theorem numNodes_lt_branch : a.numNodes < (branch d v a b).numNodes := by
  cases d <;> simp only [branch_left, branch_right, numNodes] <;> omega

theorem towards_other : towards d.other t = (towards d t).reverse := by
  cases d <;> simp [towards, Side.other]

/-- Before, in and beyond the hole. -/
theorem towards_plug (c : Context α) (t : BinaryTree α) :
    towards d (plug c t) = (c.beyond d.other).reverse ++ (towards d t ++ c.beyond d) := by
  induction c generalizing t with
  | nil => simp [Context.beyond]
  | cons f c ih =>
    obtain ⟨e, v, u⟩ := f
    rw [plug_cons, ih]
    rcases e.eq_or_other d with rfl | rfl
    · simp [Context.beyond, towards_branch, towards_other]
    · simp [Context.beyond, towards_branch_other]

/-- Every value stands at a node. -/
theorem exists_node_of_mem (h : v ∈ t.inorder) : ∃ c l r, t = plug c (node v l r) := by
  have hplug (c : Context α) : ∃ c' l r, plug c t = plug c' (node v l r) := by
    induction t generalizing c with
    | nil => simp at h
    | node w l r hl hr =>
      rw [inorder_node, List.mem_append, List.mem_cons] at h
      rcases h with h | rfl | h
      · exact hl h (⟨.left, w, r⟩ :: c)
      · exact ⟨c, l, r, rfl⟩
      · exact hr h (⟨.right, w, l⟩ :: c)
  exact hplug []

end

end BinaryTree
