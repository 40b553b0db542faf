import LanguageTest.Library.Tree

namespace BinaryTree

variable {α : Type*}

/-- The values with every node after its subtrees. -/
def postorder : BinaryTree α → List α
  | nil => []
  | node v l r => l.postorder ++ (r.postorder ++ [v])

theorem postorder_perm (t : BinaryTree α) : t.postorder.Perm t.inorder := by
  induction t with
  | nil => exact List.Perm.refl _
  | node v l r hl hr => exact hl.append ((hr.append_right [v]).trans List.perm_append_comm)

end BinaryTree

namespace LanguageTest
open BinaryTree

variable {α : Type*} [LinearOrder α] {xs ls rs : List α} {v : α}

/-- The post-order sequences of the binary search trees. -/
def IsPostorder (xs : List α) : Prop :=
  ∃ t : BinaryTree α, t.inorder.Pairwise (· < ·) ∧ t.postorder = xs

theorem isPostorder_nil : IsPostorder ([] : List α) := ⟨nil, List.Pairwise.nil, rfl⟩

/-- Two sequences and the root that lies between them. -/
theorem isPostorder_node (hl : IsPostorder ls) (hr : IsPostorder rs) (hless : ∀ x ∈ ls, x < v)
    (hgreater : ∀ x ∈ rs, v < x) : IsPostorder (ls ++ (rs ++ [v])) := by
  obtain ⟨l, hlsorted, rfl⟩ := hl
  obtain ⟨r, hrsorted, rfl⟩ := hr
  have hleft {x : α} (hx : x ∈ l.inorder) : x < v := hless x (l.postorder_perm.mem_iff.mpr hx)
  have hright {x : α} (hx : x ∈ r.inorder) : v < x :=
    hgreater x (r.postorder_perm.mem_iff.mpr hx)
  refine ⟨node v l r, ?_, rfl⟩
  refine List.pairwise_append.mpr ⟨hlsorted, List.pairwise_cons.mpr ⟨fun x => hright, hrsorted⟩, ?_⟩
  intro x hx y hy
  rcases List.mem_cons.mp hy with rfl | hy
  · exact hleft hx
  · exact (hleft hx).trans (hright hy)

theorem isPostorder_singleton : IsPostorder [v] :=
  isPostorder_node isPostorder_nil isPostorder_nil (fun _ h => absurd h List.not_mem_nil)
    fun _ h => absurd h List.not_mem_nil

theorem IsPostorder.exists_split (h : IsPostorder (xs ++ [v])) :
    ∃ ls rs, xs = ls ++ rs ∧ IsPostorder ls ∧ IsPostorder rs ∧ (∀ x ∈ ls, x < v) ∧
      ∀ x ∈ rs, v < x := by
  obtain ⟨t, hsorted, hpost⟩ := h
  cases t with
  | nil => exact absurd hpost.symm (List.append_ne_nil_of_right_ne_nil xs (List.cons_ne_nil v []))
  | node w l r =>
    rw [postorder, ← List.append_assoc] at hpost
    obtain ⟨rfl, hroot⟩ := List.append_inj' hpost rfl
    obtain rfl := List.singleton_inj.mp hroot
    obtain ⟨hl, hwr, hbetween⟩ := List.pairwise_append.mp hsorted
    obtain ⟨hroot, hr⟩ := List.pairwise_cons.mp hwr
    refine ⟨_, _, rfl, ⟨l, hl, rfl⟩, ⟨r, hr, rfl⟩, fun x hx => ?_, fun x hx => ?_⟩
    · exact hbetween x (l.postorder_perm.mem_iff.mp hx) w List.mem_cons_self
    · exact hroot x (r.postorder_perm.mem_iff.mp hx)

/-- The left part ends before the first element that is not less than the root. -/
theorem isPostorder_iff (hless : ∀ x ∈ ls, x < v) (hnot : ∀ x ∈ rs.head?, ¬ x < v) :
    IsPostorder (ls ++ (rs ++ [v])) ↔ (∀ x ∈ rs, v < x) ∧ IsPostorder ls ∧ IsPostorder rs := by
  constructor
  · intro h
    rw [← List.append_assoc] at h
    obtain ⟨ls', rs', heq, hl, hr, hless', hgreater⟩ := h.exists_split
    obtain ⟨mid, rfl, rfl⟩ | ⟨mid, rfl, rfl⟩ := List.append_eq_append_iff.mp heq
    · cases mid with
      | nil =>
        rw [List.append_nil] at hl
        exact ⟨hgreater, hl, hr⟩
      | cons x mid => exact absurd (hless' x (by simp)) (hnot x rfl)
    · cases mid with
      | nil =>
        rw [List.append_nil]
        exact ⟨hgreater, hl, hr⟩
      | cons x mid => exact absurd (hless x (by simp)) (hgreater x (by simp)).not_gt
  · rintro ⟨hgreater, hl, hr⟩
    exact isPostorder_node hl hr hless hgreater

end LanguageTest
