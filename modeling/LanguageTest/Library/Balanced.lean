import LanguageTest.Library.Tree

namespace BinaryTree
open LanguageTest

variable {α : Type*}

/-- At every node the heights of the two subtrees differ by at most one. -/
def HeightBalanced : BinaryTree α → Prop
  | nil => True
  | node _ l r =>
    l.height ≤ r.height + 1 ∧ r.height ≤ l.height + 1 ∧ l.HeightBalanced ∧ r.HeightBalanced

/-- The two subtrees of the root differ in height. -/
def Leaning : BinaryTree α → Prop
  | nil => False
  | node _ l r => l.height ≠ r.height

variable {d : Side} {v w x y z : α} {a b c e : BinaryTree α}

@[simp] theorem height_nil : (nil : BinaryTree α).height = 0 := rfl

@[simp] theorem height_branch (d : Side) (v : α) (a b : BinaryTree α) :
    (branch d v a b).height = max a.height b.height + 1 := by
  cases d
  · rfl
  · exact congrArg (· + 1) (max_comm _ _)

@[simp] theorem balanced_nil : (nil : BinaryTree α).HeightBalanced := trivial

theorem balanced_branch :
    (branch d v a b).HeightBalanced ↔
      a.height ≤ b.height + 1 ∧ b.height ≤ a.height + 1 ∧ a.HeightBalanced ∧ b.HeightBalanced := by
  cases d with
  | left => rfl
  | right => simp only [branch_right, HeightBalanced]; tauto

theorem leaning_branch : (branch d v a b).Leaning ↔ a.height ≠ b.height := by
  cases d with
  | left => rfl
  | right => exact ne_comm

/-- A single rotation repairs a node whose child on side `d` is two levels too high, unless that
child leans to the other side. -/
theorem HeightBalanced.rotate_single (hx : (branch d x a b).HeightBalanced) (hc : c.HeightBalanced)
    (hh : (branch d x a b).height = c.height + 2) (hab : b.height ≤ a.height) :
    (branch d y b c).HeightBalanced ∧ (branch d w a (branch d y b c)).HeightBalanced ∧
      (branch d w a (branch d y b c)).height =
        c.height + if a.height = b.height then 3 else 2 := by
  obtain ⟨h1, h2, ha, hb⟩ := balanced_branch.mp hx
  simp only [balanced_branch, height_branch] at hh ⊢
  refine ⟨⟨?_, ?_, hb, hc⟩, ⟨?_, ?_, ha, ?_, ?_, hb, hc⟩, ?_⟩
  case refine_7 => split_ifs <;> omega
  all_goals omega

/-- A double rotation repairs it when the child does lean to the other side. -/
theorem HeightBalanced.rotate_double (hx : (branch d x a (branch d z b e)).HeightBalanced)
    (hc : c.HeightBalanced)
    (hh : (branch d x a (branch d z b e)).height = c.height + 2)
    (hab : a.height < (branch d z b e).height) :
    (branch d v a b).HeightBalanced ∧ (branch d y e c).HeightBalanced ∧
      (branch d w (branch d v a b) (branch d y e c)).HeightBalanced ∧
      (branch d w (branch d v a b) (branch d y e c)).height = c.height + 2 := by
  obtain ⟨h1, h2, ha, hz⟩ := balanced_branch.mp hx
  obtain ⟨h3, h4, hb, he⟩ := balanced_branch.mp hz
  simp only [balanced_branch, height_branch] at hh hab h1 h2 ⊢
  refine ⟨⟨?_, ?_, ha, hb⟩, ⟨?_, ?_, he, hc⟩, ⟨?_, ?_, ⟨?_, ?_, ha, hb⟩, ?_, ?_, he, hc⟩, ?_⟩
  all_goals omega

end BinaryTree
