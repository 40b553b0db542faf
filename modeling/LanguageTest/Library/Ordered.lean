import Mathlib.Order.Defs.LinearOrder
import LanguageTest.Library.Tree

namespace BinaryTree
open LanguageTest

variable {α κ : Type*} [LinearOrder κ] (key : α → κ)

/-- The keys never decrease from left to right. Equal keys may stand anywhere. -/
def Sorted (t : BinaryTree α) : Prop := t.inorder.Pairwise fun x y => key x ≤ key y

/-- The hole is where a descent for `k` that goes left exactly below greater keys ends. -/
structure InsertPoint (k : κ) (c : Context α) : Prop where
  before : ∀ x ∈ c.before, key x ≤ k
  after : ∀ x ∈ c.after, k < key x

/-- A key that occurs nowhere around the hole. -/
structure Avoids (k : κ) (c : Context α) : Prop where
  before : ∀ x ∈ c.before, key x ≠ k
  after : ∀ x ∈ c.after, key x ≠ k

variable {key} {k : κ} {c : Context α} {v : α} {l r t : BinaryTree α}

theorem Sorted.node (h : Sorted key (plug c (node v l r))) :
    (∀ x ∈ l.inorder, key x ≤ key v) ∧ ∀ x ∈ r.inorder, key v ≤ key x := by
  rw [Sorted, inorder_plug, List.append_assoc, List.pairwise_append] at h
  have hm := (List.pairwise_append.mp h.2.1).1
  rw [inorder_node, List.pairwise_append, List.pairwise_cons] at hm
  exact ⟨fun x hx => hm.2.2 x hx v (by simp), hm.2.1.1⟩

theorem insertPoint_nil : InsertPoint key k ([] : Context α) :=
  ⟨by simp [Context.before], by simp [Context.after]⟩

theorem InsertPoint.left (h : InsertPoint key k c) (hs : Sorted key (plug c (BinaryTree.node v l r)))
    (hk : k < key v) : InsertPoint key k (⟨.left, v, r⟩ :: c) := by
  refine ⟨h.before, fun x hx => ?_⟩
  simp only [Context.after, List.cons_append, List.mem_cons, List.mem_append] at hx
  rcases hx with rfl | hx | hx
  · exact hk
  · exact hk.trans_le (hs.node.2 x hx)
  · exact h.after x hx

theorem InsertPoint.right (h : InsertPoint key k c)
    (hs : Sorted key (plug c (BinaryTree.node v l r))) (hk : ¬ k < key v) :
    InsertPoint key k (⟨.right, v, l⟩ :: c) := by
  refine ⟨fun x hx => ?_, h.after⟩
  simp only [Context.before, List.mem_append, List.mem_singleton] at hx
  rcases hx with hx | hx | rfl
  · exact h.before x hx
  · exact (hs.node.1 x hx).trans (not_lt.mp hk)
  · exact not_lt.mp hk

/-- The side of the hole is the one that comparing with the parent gives. -/
theorem InsertPoint.side {f : Frame α} (h : InsertPoint key k (f :: c)) :
    k < key f.value ↔ f.side = .left := by
  obtain ⟨d, v, u⟩ := f
  cases d with
  | left => simpa using h.after v (by simp [Context.after])
  | right => simpa using h.before v (by simp [Context.before])

theorem InsertPoint.sorted (h : InsertPoint key (key v) c) (hs : Sorted key (plug c nil)) :
    Sorted key (plug c (BinaryTree.node v nil nil)) := by
  rw [Sorted, inorder_plug] at hs ⊢
  simp only [inorder_nil, List.append_nil, List.nil_append, inorder_node, List.append_assoc,
    List.cons_append] at hs ⊢
  obtain ⟨hb, ha, hx⟩ := List.pairwise_append.mp hs
  refine List.pairwise_append.mpr ⟨hb, List.pairwise_cons.mpr ⟨fun x m => (h.after x m).le, ha⟩, ?_⟩
  intro x hxm y hym
  rcases List.mem_cons.mp hym with rfl | hym
  · exact h.before x hxm
  · exact hx x hxm y hym

omit [LinearOrder κ] in
theorem avoids_nil : Avoids key k ([] : Context α) :=
  ⟨by simp [Context.before], by simp [Context.after]⟩

theorem Avoids.left (h : Avoids key k c) (hs : Sorted key (plug c (BinaryTree.node v l r)))
    (hk : k < key v) : Avoids key k (⟨.left, v, r⟩ :: c) := by
  refine ⟨h.before, fun x hx => ?_⟩
  simp only [Context.after, List.cons_append, List.mem_cons, List.mem_append] at hx
  rcases hx with rfl | hx | hx
  · exact hk.ne'
  · exact (hk.trans_le (hs.node.2 x hx)).ne'
  · exact h.after x hx

theorem Avoids.right (h : Avoids key k c) (hs : Sorted key (plug c (BinaryTree.node v l r)))
    (hk : key v < k) : Avoids key k (⟨.right, v, l⟩ :: c) := by
  refine ⟨fun x hx => ?_, h.after⟩
  simp only [Context.before, List.mem_append, List.mem_singleton] at hx
  rcases hx with hx | hx | rfl
  · exact h.before x hx
  · exact ((hs.node.1 x hx).trans_lt hk).ne
  · exact hk.ne

omit [LinearOrder κ] in
/-- A search that ends at an empty subtree has shown that the key is absent. -/
theorem Avoids.not_mem (h : Avoids key k c) : k ∉ (plug c nil).inorder.map key := by
  rw [inorder_plug]
  intro hm
  obtain ⟨x, hx, rfl⟩ := List.mem_map.mp hm
  simp only [inorder_nil, List.append_nil, List.mem_append] at hx
  exact hx.elim (fun hx => h.before x hx rfl) fun hx => h.after x hx rfl

/-- The keys increase from left to right, so no key occurs twice. -/
def Increasing (key : α → κ) (t : BinaryTree α) : Prop := (t.inorder.map key).Pairwise (· < ·)

theorem increasing_node :
    Increasing key (BinaryTree.node v l r) ↔
      Increasing key l ∧ Increasing key r ∧ (∀ k ∈ l.inorder.map key, k < key v) ∧
        ∀ k ∈ r.inorder.map key, key v < k := by
  simp only [Increasing, inorder_node, List.map_append, List.map_cons, List.pairwise_append,
    List.pairwise_cons, List.mem_cons, forall_eq_or_imp]
  constructor
  · intro hcase
    obtain ⟨hl, ⟨hv, hr⟩, hx⟩ := hcase
    exact ⟨hl, hr, fun k hk => (hx k hk).1, hv⟩
  · intro hcase
    obtain ⟨hl, hr, hlv, hv⟩ := hcase
    exact ⟨hl, ⟨hv, hr⟩, fun k hk => ⟨hlv k hk, fun j hj => (hlv k hk).trans (hv j hj)⟩⟩

omit [LinearOrder κ] in
theorem mem_keys_node {j : κ} :
    j ∈ (BinaryTree.node v l r).inorder.map key ↔
      j ∈ l.inorder.map key ∨ j = key v ∨ j ∈ r.inorder.map key := by
  simp only [inorder_node, List.map_append, List.map_cons, List.mem_append, List.mem_cons]

theorem Increasing.sorted (h : Increasing key t) : Sorted key t :=
  (List.pairwise_map.mp h).imp le_of_lt

theorem Increasing.nodup (h : Increasing key t) : (t.inorder.map key).Nodup := h.imp ne_of_lt

theorem Increasing.of_sublist {u : BinaryTree α} (h : Increasing key t)
    (hs : (u.inorder.map key).Sublist (t.inorder.map key)) : Increasing key u :=
  h.sublist hs

/-- A new key at the place where the descent for it ended. -/
theorem InsertPoint.increasing (h : InsertPoint key (key v) c) (ha : Avoids key (key v) c)
    (hi : Increasing key (plug c nil)) : Increasing key (plug c (BinaryTree.node v nil nil)) := by
  have hs := List.pairwise_map.mp hi
  refine List.pairwise_map.mpr ?_
  rw [inorder_plug] at hs ⊢
  simp only [inorder_nil, List.append_nil, List.nil_append, inorder_node, List.append_assoc,
    List.cons_append] at hs ⊢
  obtain ⟨hb, hf, hx⟩ := List.pairwise_append.mp hs
  refine List.pairwise_append.mpr ⟨hb, List.pairwise_cons.mpr ⟨h.after, hf⟩, ?_⟩
  intro x hxm y hym
  rcases List.mem_cons.mp hym with rfl | hym
  · exact lt_of_le_of_ne (h.before x hxm) (ha.before x hxm)
  · exact hx x hxm y hym

end BinaryTree
