import LanguageTest.Library.Balanced
import LanguageTest.Library.Ordered
import LanguageTest.Tree.AVL

namespace LanguageTest.AVL
open BinaryTree

/-- Every node stores its real height. -/
def Exact : NodePtr → Prop
  | nil => True
  | node v l r => v.height = 1 + max (l.height : Int) r.height ∧ Exact l ∧ Exact r

def keys (t : NodePtr) : List Int := t.inorder.map Node.key

/-- The level had a balanced node, or one of the four rotations was made; either way it returned
a balanced tree with exact heights. -/
structure Visit.Handled (v : Visit) : Prop where
  taken : 1 < getBalance v.met ∨ getBalance v.met < -1 → v.branch.isSome = true
  exact : Exact v.returned
  balanced : v.returned.HeightBalanced

/-- The recursion does not touch the root and handles every level. -/
structure Continues (s u : State) : Prop where
  root : u.root = s.root
  handled : (∀ v ∈ s.visits, v.Handled) → ∀ v ∈ u.visits, v.Handled

/-- `updateHeight` with the child on side `d` first. -/
def updateAt (d : Side) (v : Node) (a b : NodePtr) : NodePtr :=
  match d with
  | .left => updateHeight v a b
  | .right => updateHeight v b a

def chooseAt (choose : NodePtr → NodePtr → Option Rotation) (d : Side) (a b : NodePtr) :
    Option Rotation :=
  match d with
  | .left => choose a b
  | .right => choose b a

def rebalanceAt (choose : NodePtr → NodePtr → Option Rotation) (d : Side) (v : Node)
    (a b : NodePtr) : Program State NodePtr :=
  match d with
  | .left => rebalance choose v a b
  | .right => rebalance choose v b a

def single : Side → Rotation
  | .left => .ll
  | .right => .rr

def double : Side → Rotation
  | .left => .lr
  | .right => .rl

variable {s : State} {d : Side} {v x y z : Node} {a b c e l r t : NodePtr}
  {choose : NodePtr → NodePtr → Option Rotation}

theorem Continues.refl (s : State) : Continues s s := ⟨rfl, id⟩

theorem Continues.trans {u w : State} (h : Continues s u) (h' : Continues u w) : Continues s w :=
  ⟨h'.root.trans h.root, h'.handled ∘ h.handled⟩

theorem getHeight_eq (h : Exact t) : getHeight t = t.height := by
  cases t with
  | nil => rfl
  | node v l r =>
    rw [getHeight, h.1, height]
    omega

theorem exact_branch :
    Exact (branch d v a b) ↔ v.height = 1 + max (a.height : Int) b.height ∧ Exact a ∧ Exact b := by
  cases d with
  | left => rfl
  | right => rw [branch_right, Exact, max_comm]; tauto

theorem getBalance_branch (ha : Exact a) (hb : Exact b) :
    getBalance (branch d v a b) =
      match d with
      | .left => (a.height : Int) - b.height
      | .right => (b.height : Int) - a.height := by
  cases d <;> simp [getBalance, getHeight_eq ha, getHeight_eq hb]

theorem updateAt_eq (ha : Exact a) (hb : Exact b) :
    updateAt d v a b = branch d { v with height := 1 + max (a.height : Int) b.height } a b := by
  cases d with
  | left => simp [updateAt, updateHeight, getHeight_eq ha, getHeight_eq hb, Int.add_comm]
  | right => simp [updateAt, updateHeight, getHeight_eq ha, getHeight_eq hb, Int.add_comm, max_comm]

theorem exact_updateAt (ha : Exact a) (hb : Exact b) : Exact (updateAt d v a b) := by
  rw [updateAt_eq ha hb, exact_branch]
  exact ⟨rfl, ha, hb⟩

@[simp] theorem keys_updateAt : keys (updateAt d v a b) = keys (branch d v a b) := by
  cases d <;> simp [keys, updateAt, updateHeight]

/-- A node whose stored height is right is left as it is. -/
theorem updateAt_of_exact (h : Exact (branch d v a b)) : updateAt d v a b = branch d v a b := by
  obtain ⟨hv, ha, hb⟩ := exact_branch.mp h
  rw [updateAt_eq ha hb, ← hv]

theorem applyRotation_single :
    applyRotation (some (single d)) (branch d y (branch d x a b) c) =
      pure (updateAt d x a (updateAt d y b c)) := by
  cases d <;> rfl

theorem applyRotation_double :
    applyRotation (some (double d)) (branch d y (branch d x a (branch d z b e)) c) =
      pure (updateAt d z (updateAt d x a b) (updateAt d y e c)) := by
  cases d <;> rfl

theorem height_updateAt : (updateAt d v a b).height = max a.height b.height + 1 := by
  cases d with
  | left => rfl
  | right => exact congrArg (· + 1) (max_comm _ _)

theorem balanced_updateAt : (updateAt d v a b).HeightBalanced ↔ (branch d v a b).HeightBalanced := by
  cases d <;> rfl

theorem rebalanceAt_other : rebalanceAt choose d.other v a b = rebalanceAt choose d v b a := by
  cases d <;> rfl

theorem rebalanceAt_eq :
    rebalanceAt choose d v a b = (do
      let returned ← applyRotation (chooseAt choose d a b) (updateAt d v a b)
      record ⟨updateAt d v a b, chooseAt choose d a b, returned⟩
      pure returned) := by
  cases d <;> rfl

/-- A level whose node is balanced only updates the height. -/
theorem rebalanceAt_near (hn : chooseAt choose d a b = none) (ha : Exact a) (hb : Exact b)
    (hbal : (branch d v a b).HeightBalanced) :
    Runs (rebalanceAt choose d v a b) s fun t u => Continues s u ∧ t = updateAt d v a b := by
  rw [rebalanceAt_eq, hn]
  simp only [applyRotation, record, runs_bind, runs_pure, runs_get, runs_set]
  refine ⟨⟨rfl, fun h w hw => ?_⟩, trivial⟩
  rcases List.mem_append.mp hw with hw | hw
  · exact h w hw
  · rw [List.mem_singleton.mp hw]
    refine ⟨fun hg => ?_, exact_updateAt ha hb, balanced_updateAt.mpr hbal⟩
    obtain ⟨h1, h2, -⟩ := balanced_branch.mp hbal
    rw [updateAt_eq ha hb, getBalance_branch ha hb] at hg
    cases d <;> simp only at hg <;> omega

/-- Recording a level that took a branch and returned a sound tree. -/
theorem continues_record {met : NodePtr} {k : Rotation} (ht : Exact t) (hb : t.HeightBalanced) :
    Runs (do record ⟨met, some k, t⟩; pure t) s fun u s' => Continues s s' ∧ u = t := by
  simp only [record, runs_bind, runs_get, runs_set, runs_pure]
  refine ⟨⟨rfl, fun h w hw => ?_⟩, trivial⟩
  rcases List.mem_append.mp hw with hw | hw
  · exact h w hw
  · rw [List.mem_singleton.mp hw]
    exact ⟨fun _ => rfl, ht, hb⟩

/-- A level whose child on side `d` is two levels too high is repaired by a rotation. -/
theorem rebalanceAt_repairs (ha : Exact (branch d x a b)) (hc : Exact c)
    (hab : (branch d x a b).HeightBalanced) (hcb : c.HeightBalanced)
    (hh : (branch d x a b).height = c.height + 2)
    (hch : chooseAt choose d (branch d x a b) c =
      some (if b.height ≤ a.height then single d else double d)) :
    Runs (rebalanceAt choose d y (branch d x a b) c) s fun t u => Continues s u ∧ Exact t ∧
      t.HeightBalanced ∧ keys t = keys (branch d y (branch d x a b) c) ∧
      t.height = c.height + if a.height = b.height then 3 else 2 := by
  obtain ⟨-, hae, hbe⟩ := exact_branch.mp ha
  obtain ⟨w, he, hw⟩ : ∃ w : Node,
      updateAt d y (branch d x a b) c = branch d w (branch d x a b) c ∧ w.key = y.key :=
    ⟨_, updateAt_eq ha hc, rfl⟩
  rw [rebalanceAt_eq, hch, he]
  by_cases hle : b.height ≤ a.height
  · obtain ⟨-, hb, hht⟩ := hab.rotate_single (w := x) (y := w) hcb hh hle
    rw [if_pos hle, applyRotation_single, pure_bind]
    refine (continues_record (exact_updateAt hae (exact_updateAt hbe hc)) ?_).mono ?_
    · simpa only [balanced_updateAt, balanced_branch, height_updateAt, height_branch] using hb
    · intro _ u hpost
      obtain ⟨hu, rfl⟩ := hpost
      refine ⟨hu, exact_updateAt hae (exact_updateAt hbe hc), ?_, ?_, ?_⟩
      · simpa only [balanced_updateAt, balanced_branch, height_updateAt, height_branch] using hb
      · cases d <;> simp [keys, updateAt, updateHeight, hw]
      · simpa only [height_updateAt, height_branch] using hht
  · have hne : b ≠ nil := by
      intro heq
      subst heq
      exact hle (Nat.zero_le _)
    obtain ⟨z, p, q, rfl⟩ := BinaryTree.exists_branch d hne
    obtain ⟨-, hpe, hqe⟩ := exact_branch.mp hbe
    obtain ⟨-, -, hb, hht⟩ := hab.rotate_double (v := x) (w := z) (y := w) hcb hh (not_le.mp hle)
    rw [if_neg hle, applyRotation_double, pure_bind]
    refine (continues_record (exact_updateAt (exact_updateAt hae hpe) (exact_updateAt hqe hc))
      ?_).mono ?_
    · simpa only [balanced_updateAt, balanced_branch, height_updateAt, height_branch] using hb
    · intro _ u hpost
      obtain ⟨hu, rfl⟩ := hpost
      refine ⟨hu, exact_updateAt (exact_updateAt hae hpe) (exact_updateAt hqe hc), ?_, ?_, ?_⟩
      · simpa only [balanced_updateAt, balanced_branch, height_updateAt, height_branch] using hb
      · cases d <;> simp [keys, updateAt, updateHeight, hw]
      · rw [if_neg (by omega)]
        simpa only [height_updateAt, height_branch] using hht

/-- Both sets of tests pass when no subtree is two levels higher than the other. -/
theorem insertBranch_near (ha : Exact a) (hb : Exact b) (hbal : (branch d v a b).HeightBalanced) :
    chooseAt insertBranch d a b = none := by
  obtain ⟨h1, h2, -⟩ := balanced_branch.mp hbal
  cases d <;> simp only [chooseAt, insertBranch, getHeight_eq ha, getHeight_eq hb]
  all_goals split_ifs <;> first | rfl | omega

theorem eraseBranch_near (ha : Exact a) (hb : Exact b) (hbal : (branch d v a b).HeightBalanced) :
    chooseAt eraseBranch d a b = none := by
  obtain ⟨h1, h2, -⟩ := balanced_branch.mp hbal
  cases d <;> simp only [chooseAt, eraseBranch, getHeight_eq ha, getHeight_eq hb]
  all_goals split_ifs <;> first | rfl | omega

/-- The strict tests of `insert_real` miss only a child whose subtrees are equally high. -/
theorem insertBranch_high (ha : Exact (branch d x a b)) (hc : Exact c)
    (hh : (branch d x a b).height = c.height + 2) (hne : a.height ≠ b.height) :
    chooseAt insertBranch d (branch d x a b) c =
      some (if b.height ≤ a.height then single d else double d) := by
  obtain ⟨-, hae, hbe⟩ := exact_branch.mp ha
  have hx := getHeight_eq ha
  have hg := getBalance_branch (d := d) (v := x) hae hbe
  cases d <;> simp only [chooseAt, insertBranch, hx, hg, getHeight_eq hc, hh, single, double]
  all_goals
    push_cast
    split_ifs <;> first | rfl | omega

theorem eraseBranch_high (ha : Exact (branch d x a b)) (hc : Exact c)
    (hh : (branch d x a b).height = c.height + 2) :
    chooseAt eraseBranch d (branch d x a b) c =
      some (if b.height ≤ a.height then single d else double d) := by
  obtain ⟨-, hae, hbe⟩ := exact_branch.mp ha
  have hx := getHeight_eq ha
  have hg := getBalance_branch (d := d) (v := x) hae hbe
  cases d <;> simp only [chooseAt, eraseBranch, hx, hg, getHeight_eq hc, hh, single, double]
  all_goals
    push_cast
    split_ifs <;> first | rfl | omega

end LanguageTest.AVL
