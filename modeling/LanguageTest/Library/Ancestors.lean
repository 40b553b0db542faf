import LanguageTest.Library.Tree

namespace LanguageTest
open BinaryTree

variable {α : Type*} {P : BinaryTree α → Prop} {t u w l r : BinaryTree α} {v : α} {n m : Nat}

/-- A subtree, with its depth. -/
inductive SubtreeAt : Nat → BinaryTree α → BinaryTree α → Prop where
  | root (t : BinaryTree α) : SubtreeAt 0 t t
  | left {n : Nat} {u l : BinaryTree α} (v : α) (r : BinaryTree α) (h : SubtreeAt n u l) :
      SubtreeAt (n + 1) u (node v l r)
  | right {n : Nat} {u r : BinaryTree α} (v : α) (l : BinaryTree α) (h : SubtreeAt n u r) :
      SubtreeAt (n + 1) u (node v l r)

/-- The subtree with the property at this depth, when every other one with it is less deep. -/
structure DeepestAt (P : BinaryTree α → Prop) (n : Nat) (u t : BinaryTree α) : Prop where
  subtree : SubtreeAt n u t
  holds : P u
  deepest : ∀ m w, SubtreeAt m w t → P w → m < n ∨ m = n ∧ w = u

/-- A property that a tree has when one of its subtrees does. -/
structure Upward (P : BinaryTree α → Prop) : Prop where
  left : ∀ v l r, P l → P (node v l r)
  right : ∀ v l r, P r → P (node v l r)

theorem Upward.of_subtree (hup : Upward P) (h : SubtreeAt n u t) (hu : P u) : P t := by
  induction h with
  | root => exact hu
  | left v r _ ih => exact hup.left v _ r (ih hu)
  | right v l _ ih => exact hup.right v l _ (ih hu)

theorem subtreeAt_node (h : SubtreeAt n u (node v l r)) :
    (n = 0 ∧ u = node v l r) ∨ ∃ k, n = k + 1 ∧ (SubtreeAt k u l ∨ SubtreeAt k u r) := by
  cases h with
  | root => exact Or.inl ⟨rfl, rfl⟩
  | left _ _ h => exact Or.inr ⟨_, rfl, Or.inl h⟩
  | right _ _ h => exact Or.inr ⟨_, rfl, Or.inr h⟩

namespace DeepestAt

/-- The whole tree, when neither subtree has the property. -/
theorem root (hup : Upward P) (hP : P (node v l r)) (hl : ¬ P l) (hr : ¬ P r) :
    DeepestAt P 0 (node v l r) (node v l r) := by
  refine ⟨SubtreeAt.root _, hP, fun m w hw hPw => ?_⟩
  obtain ⟨rfl, rfl⟩ | ⟨k, rfl, hw | hw⟩ := subtreeAt_node hw
  · exact Or.inr ⟨rfl, rfl⟩
  · exact absurd (hup.of_subtree hw hPw) hl
  · exact absurd (hup.of_subtree hw hPw) hr

theorem left (hup : Upward P) (h : DeepestAt P n u l) (hr : ¬ P r) :
    DeepestAt P (n + 1) u (node v l r) := by
  refine ⟨SubtreeAt.left v r h.subtree, h.holds, fun m w hw hPw => ?_⟩
  obtain ⟨rfl, rfl⟩ | ⟨k, rfl, hw | hw⟩ := subtreeAt_node hw
  · exact Or.inl (Nat.succ_pos n)
  · exact (h.deepest k w hw hPw).imp Nat.succ_lt_succ (And.imp_left (congrArg Nat.succ))
  · exact absurd (hup.of_subtree hw hPw) hr

theorem right (hup : Upward P) (h : DeepestAt P n u r) (hl : ¬ P l) :
    DeepestAt P (n + 1) u (node v l r) := by
  refine ⟨SubtreeAt.right v l h.subtree, h.holds, fun m w hw hPw => ?_⟩
  obtain ⟨rfl, rfl⟩ | ⟨k, rfl, hw | hw⟩ := subtreeAt_node hw
  · exact Or.inl (Nat.succ_pos n)
  · exact absurd (hup.of_subtree hw hPw) hl
  · exact (h.deepest k w hw hPw).imp Nat.succ_lt_succ (And.imp_left (congrArg Nat.succ))

end DeepestAt

end LanguageTest
