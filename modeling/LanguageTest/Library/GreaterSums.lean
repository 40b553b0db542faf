import Mathlib.Algebra.Order.BigOperators.Group.List
import LanguageTest.Library.Ordered

namespace BinaryTree

variable {κ M : Type*} [AddCommGroup M] [LinearOrder M]

/-- The sum of all values. -/
def total (t : BinaryTree (κ × M)) : M := (t.inorder.map Prod.snd).sum

/-- The sum of the values that are greater. -/
def greaterSum (t : BinaryTree (κ × M)) (x : M) : M := ((t.inorder.map Prod.snd).filter (x < ·)).sum

/-- Along the left edge, every value gets the sum of those above it, and `s`. -/
def summed : M → BinaryTree (κ × M) → BinaryTree (κ × M)
  | _, nil => nil
  | s, node v l r => node (v.1, v.2 + s) (summed (v.2 + s) l) r

/-- No node has a right child. -/
def NoRight : BinaryTree (κ × M) → Prop
  | nil => True
  | node _ l r => r = nil ∧ NoRight l

/-- At most the root has a right child, which is then a leaf of value zero. -/
def Bare : BinaryTree (κ × M) → Prop
  | nil => True
  | node _ l r => NoRight l ∧ (r = nil ∨ ∃ k, r = node (k, 0) nil nil)

/-- All greater values are added to every value, and `s`. -/
def raised (s : M) (t : BinaryTree (κ × M)) : BinaryTree (κ × M) :=
  t.map fun v => (v.1, v.2 + greaterSum t v.2 + s)

@[simp] theorem raised_nil (s : M) : raised s (nil : BinaryTree (κ × M)) = nil := rfl

omit [LinearOrder M] in
@[simp] theorem total_nil : total (nil : BinaryTree (κ × M)) = 0 := rfl

omit [LinearOrder M] in
@[simp] theorem total_node (v : κ × M) (l r : BinaryTree (κ × M)) :
    total (node v l r) = total l + (v.2 + total r) := by
  simp [total]

@[simp] theorem inorder_map {α β : Type*} (f : α → β) (t : BinaryTree α) :
    (t.map f).inorder = t.inorder.map f := by
  induction t with
  | nil => rfl
  | node v l r hl hr => simp [map, hl, hr]

theorem map_congr {α β : Type*} {f g : α → β} {t : BinaryTree α}
    (h : ∀ x ∈ t.inorder, f x = g x) : t.map f = t.map g := by
  induction t with
  | nil => rfl
  | node v l r ihl ihr =>
    rw [map, map, h v (by simp), ihl fun x hx => h x (by simp [hx]),
      ihr fun x hx => h x (by simp [hx])]

section
variable {s x : M} {v : κ × M} {l r t : BinaryTree (κ × M)}

theorem greaterSum_node : greaterSum (node v l r) x =
    greaterSum l x + ((if x < v.2 then v.2 else 0) + greaterSum r x) := by
  unfold greaterSum
  by_cases h : x < v.2 <;> simp [h]

theorem greaterSum_eq_zero (h : ∀ y ∈ t.inorder.map Prod.snd, y ≤ x) : greaterSum t x = 0 := by
  have hnone : (t.inorder.map Prod.snd).filter (x < ·) = [] := by
    rw [List.filter_eq_nil_iff]
    intro y hy
    simpa using h y hy
  rw [greaterSum, hnone, List.sum_nil]

theorem greaterSum_eq_total (h : ∀ y ∈ t.inorder.map Prod.snd, x < y) :
    greaterSum t x = total t := by
  have hall : (t.inorder.map Prod.snd).filter (x < ·) = t.inorder.map Prod.snd := by
    rw [List.filter_eq_self]
    intro y hy
    simpa using h y hy
  rw [greaterSum, hall, total]

/-- From right to left, every value gets the sum of those before it. -/
theorem raised_node (h : Increasing Prod.snd (node v l r)) : raised s (node v l r) =
    node (v.1, v.2 + (total r + s)) (raised (v.2 + (total r + s)) l) (raised s r) := by
  obtain ⟨-, -, hl, hr⟩ := increasing_node.mp h
  have hroot : greaterSum (node v l r) v.2 = total r := by
    rw [greaterSum_node, greaterSum_eq_zero fun y hy => (hl y hy).le, if_neg (lt_irrefl _),
      greaterSum_eq_total hr, zero_add, zero_add]
  rw [raised, map, hroot, add_assoc]
  congr 1
  · refine map_congr fun x hx => ?_
    have hxv : x.2 < v.2 := hl x.2 (List.mem_map_of_mem hx)
    rw [greaterSum_node, if_pos hxv, greaterSum_eq_total fun y hy => hxv.trans (hr y hy)]
    simp only [add_assoc]
  · refine map_congr fun x hx => ?_
    have hvx : v.2 < x.2 := hr x.2 (List.mem_map_of_mem hx)
    rw [greaterSum_node, if_neg hvx.not_gt,
      greaterSum_eq_zero fun y hy => ((hl y hy).trans hvx).le, zero_add, zero_add]

/-- Without right children the values above a node are all greater ones. -/
theorem NoRight.raised_eq (ht : NoRight t) (h : Increasing Prod.snd t) :
    raised s t = summed s t := by
  induction t generalizing s with
  | nil => rfl
  | node v l r ih _ =>
    obtain ⟨rfl, hl⟩ := ht
    rw [raised_node h, summed, total_nil, zero_add, ih hl (increasing_node.mp h).1, raised_nil]

theorem Bare.raised_eq (ht : Bare t) (h : Increasing Prod.snd t) : raised 0 t = summed 0 t := by
  cases t with
  | nil => rfl
  | node v l r =>
    obtain ⟨hl, hr⟩ := ht
    have hsum : total r = 0 ∧ raised 0 r = r := by
      rcases hr with rfl | ⟨k, rfl⟩
      · exact ⟨rfl, rfl⟩
      · simp [raised, map, greaterSum]
    rw [raised_node h, summed, hsum.1, hsum.2, zero_add, hl.raised_eq (increasing_node.mp h).1]

theorem raised_eq_self_node (h : Increasing Prod.snd (node v l r))
    (he : raised s (node v l r) = node v l r) :
    total r + s = 0 ∧ raised v.2 l = l ∧ raised s r = r := by
  rw [raised_node h, node.injEq] at he
  obtain ⟨hv, hl, hr⟩ := he
  have hzero : total r + s = 0 := by simpa using congrArg Prod.snd hv
  rw [hzero, add_zero] at hl
  exact ⟨hzero, hl, hr⟩

/-- A sum that is not zero changes the greatest value. -/
theorem eq_nil_of_raised (h : Increasing Prod.snd t) (he : raised s t = t) (hs : s ≠ 0) :
    t = nil := by
  induction t with
  | nil => rfl
  | node v l r _ ih =>
    obtain ⟨hzero, -, hr⟩ := raised_eq_self_node h he
    obtain rfl := ih (increasing_node.mp h).2.1 hr
    rw [total_nil, zero_add] at hzero
    exact absurd hzero hs

variable [IsOrderedAddMonoid M]

theorem eq_nil_of_total_pos (h : ∀ y ∈ t.inorder.map Prod.snd, 0 < y) (ht : total t = 0) :
    t = nil := by
  cases t with
  | nil => rfl
  | node v l r => exact absurd ht (List.sum_pos _ h (by simp)).ne'

theorem eq_nil_of_total_neg (h : ∀ y ∈ t.inorder.map Prod.snd, y < 0) (ht : total t = 0) :
    t = nil := by
  cases t with
  | nil => rfl
  | node v l r =>
    have hlt : total (node v l r) < ((node v l r).inorder.map fun _ => (0 : M)).sum :=
      List.sum_lt_sum Prod.snd _ (fun x hx => (h x.2 (List.mem_map_of_mem hx)).le)
        ⟨v, by simp, h v.2 (by simp)⟩
    rw [ht, List.sum_map_zero] at hlt
    exact absurd hlt (lt_irrefl 0)

/-- Only a zero adds nothing to the others, and has nothing added. -/
theorem leaf_of_raised (h : Increasing Prod.snd t) (he : raised 0 t = t) (ht : total t = 0) :
    t = nil ∨ ∃ k, t = node (k, 0) nil nil := by
  cases t with
  | nil => exact Or.inl rfl
  | node v l r =>
    obtain ⟨hil, hir, hl, hr⟩ := increasing_node.mp h
    obtain ⟨hzero, hlself, -⟩ := raised_eq_self_node h he
    rw [add_zero] at hzero
    have hv : v.2 = 0 := by
      by_contra hv
      obtain rfl := eq_nil_of_raised hil hlself hv
      exact hv (by simpa [hzero] using ht)
    obtain ⟨k, x⟩ := v
    obtain rfl : x = 0 := hv
    rw [total_node, hzero, add_zero, add_zero] at ht
    obtain rfl := eq_nil_of_total_neg hl ht
    obtain rfl := eq_nil_of_total_pos hr hzero
    exact Or.inr ⟨k, rfl⟩

theorem noRight_of_raised (h : Increasing Prod.snd t) (he : raised s t = summed s t)
    (hs : ∀ x ∈ t.inorder.map Prod.snd, 0 ≤ x → 0 < s) : NoRight t := by
  induction t generalizing s with
  | nil => trivial
  | node v l r ih _ =>
    obtain ⟨hil, hir, hl, -⟩ := increasing_node.mp h
    rw [raised_node h, summed, node.injEq] at he
    obtain ⟨hv, hle, hr⟩ := he
    have hzero : total r = 0 := by simpa using congrArg Prod.snd hv
    have hnil : r = nil := by
      by_cases hsz : s = 0
      · subst hsz
        rcases leaf_of_raised hir hr hzero with hnil | ⟨k, rfl⟩
        · exact hnil
        · exact absurd (hs 0 (by simp) le_rfl) (lt_irrefl 0)
      · exact eq_nil_of_raised hir hr hsz
    rw [hzero, zero_add] at hle
    refine ⟨hnil, ih hil hle fun x hx hpos => ?_⟩
    have hvpos : 0 < v.2 := hpos.trans_lt (hl x hx)
    exact add_pos hvpos (hs v.2 (by simp) hvpos.le)

/-- The sums along the left edge are those of all greater values. -/
theorem raised_eq_summed_iff (h : Increasing Prod.snd t) :
    raised 0 t = summed 0 t ↔ Bare t := by
  refine ⟨fun he => ?_, fun ht => ht.raised_eq h⟩
  cases t with
  | nil => trivial
  | node v l r =>
    obtain ⟨hil, hir, hl, -⟩ := increasing_node.mp h
    rw [raised_node h, summed, node.injEq] at he
    obtain ⟨hv, hle, hr⟩ := he
    have hzero : total r = 0 := by simpa using congrArg Prod.snd hv
    rw [hzero, zero_add, add_zero] at hle
    refine ⟨noRight_of_raised hil hle fun x hx hpos => hpos.trans_lt (hl x hx), ?_⟩
    exact leaf_of_raised hir hr hzero

end

end BinaryTree
