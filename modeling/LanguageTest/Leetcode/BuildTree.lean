import LanguageTest.Library.Arithmetic
import LanguageTest.Library.Elements
import LanguageTest.Library.Traversal

namespace LanguageTest.BuildTree
open BinaryTree

structure TreeNode where
  val : Int
  left : Ptr
  right : Ptr

/-- The object is the variable that the reference `res` names. -/
abbrev State := Machine Ptr TreeNode

def search (fuel : Nat) (preorder inorder : List Int) (left : Int) : Program State Int :=
  loop (fun cur => do
    if (← itemAt preorder left) ≠ (← itemAt inorder cur) then pure (.again (← int (cur + 1)))
    else pure (.done cur)) fuel left

def build : Nat → List Int → List Int → Int → Int → Program State Ptr
  | 0, _, _, _, _ => fail .outOfFuel
  | fuel + 1, preorder, inorder, left, right => do
    if toSize left ≥ preorder.length then getObject
    else if right ≤ 0 then getObject
    else if left > right then getObject
    else
      if (← getObject).isNone then
        let node ← new ⟨← itemAt preorder left, none, none⟩
        setObject fun _ => node
      let cur ← search (fuel + 1) preorder inorder left
      let below ← build fuel preorder inorder left (← int (cur - 1))
      modify (← getObject) fun n => { n with left := below }
      let below ← build fuel preorder inorder (← int (cur + 1)) right
      modify (← getObject) fun n => { n with right := below }
      getObject

def buildTree (fuel : Nat) (preorder inorder : List Int) : Program State Ptr := do
  if preorder.length = 0 then pure none
  else if preorder.length ≠ inorder.length then pure none
  else
    setObject fun _ => none
    build fuel preorder inorder 0 (toInt (inorder.length - 1))

/-- The heap stores this tree below the pointer, at addresses of its own. -/
def Stores (t : BinaryTree Int) (h : Heap TreeNode) (p : Ptr) : Prop :=
  ∃ u : AddrTree Int, p = rootPtr u ∧ (addrs u).Nodup ∧ Laid TreeNode.mk h u ∧ u.map Prod.snd = t

/-- The node at this address is its own left child. -/
def OwnLeft (h : Heap TreeNode) (a : Addr) : Prop := ∃ n, h.cells a = some n ∧ n.left = some a

section
variable {s : State} {a : Addr} {fuel : Nat} {pre ino : List Int} {left right : Int}
  {h : Heap TreeNode} {t : BinaryTree Int}

/-- No tree has such a root. -/
theorem OwnLeft.not_laid (hown : OwnLeft h a) {u : AddrTree Int} (hu : rootPtr u = some a) :
    ¬ Laid TreeNode.mk h u := by
  obtain ⟨n, hn, hleft⟩ := hown
  induction u with
  | nil => cases hu
  | node v l r ihl ihr =>
    intro hlaid
    obtain ⟨hv, hl, -⟩ := laid_node.mp hlaid
    obtain rfl : v.1 = a := Option.some.inj hu
    obtain rfl := Option.some.inj (hv.symm.trans hn)
    exact ihl hleft hl

theorem ensures_search :
    Ensures (search fuel pre ino left) s fun _ u => u = s := by
  refine ensures_loop (fun _ u => u = s) ?_ rfl
  rintro cur _ rfl
  refine Ensures.bind (ensures_itemAt.mono ?_)
  rintro x _ ⟨rfl, -⟩
  refine Ensures.bind (ensures_itemAt.mono ?_)
  rintro y _ ⟨rfl, -⟩
  split_ifs
  · refine Ensures.bind (ensures_int.mono ?_)
    rintro _ _ ⟨-, -, rfl⟩
    exact ensures_pure rfl
  · exact ensures_pure rfl

/-- What a call leaves when `res` names a node already: another call gives the same node. -/
structure Bound (a : Addr) (s : State) (r : Ptr) (u : State) : Prop where
  result : r = some a
  object : u.object = some a
  kept : OwnLeft s.heap a → OwnLeft u.heap a

theorem OwnLeft.modify {f : TreeNode → TreeNode} (hown : OwnLeft h a)
    (hf : ∀ n, (f n).left = n.left) : OwnLeft (h.modify a f) a := by
  obtain ⟨n, hn, hleft⟩ := hown
  refine ⟨f n, ?_, (hf n).trans hleft⟩
  rw [Heap.modify_cells, if_pos rfl, hn, Option.map_some]

theorem ownLeft_modify (hcell : (h.cells a).isSome) :
    OwnLeft (h.modify a fun n => { n with left := some a }) a := by
  obtain ⟨n, hn⟩ := Option.isSome_iff_exists.mp hcell
  refine ⟨{ n with left := some a }, ?_, rfl⟩
  rw [Heap.modify_cells, if_pos rfl, hn, Option.map_some]

/-- The node that `res` names becomes its own left child, since both calls for the children give
it back. -/
theorem ensures_children
    (hbelow : ∀ {left right : Int} {s : State}, s.object = some a →
      Ensures (build fuel pre ino left right) s (Bound a s))
    (ha : s.object = some a) {cur : Int} :
    Ensures (do
      let below ← build fuel pre ino left (← int (cur - 1))
      modify (← getObject) fun n => { n with left := below }
      let below ← build fuel pre ino (← int (cur + 1)) right
      modify (← getObject) fun n => { n with right := below }
      getObject) s fun r u => r = some a ∧ u.object = some a ∧ OwnLeft u.heap a := by
  refine Ensures.bind (ensures_int.mono ?_)
  rintro low _ ⟨-, -, rfl⟩
  refine Ensures.bind ((hbelow ha).mono ?_)
  rintro _ t ⟨rfl, ht, -⟩
  refine Runs.bind_ensures (runs_getObject.mpr ?_)
  rw [ht]
  refine Ensures.bind (ensures_modify.mono ?_)
  rintro _ _ ⟨hcell, rfl⟩
  refine Ensures.bind (ensures_int.mono ?_)
  rintro high _ ⟨-, -, rfl⟩
  refine Ensures.bind (Ensures.mono (hbelow ?_) ?_)
  · exact ht
  rintro _ u ⟨rfl, hu, hkept⟩
  refine Runs.bind_ensures (runs_getObject.mpr ?_)
  rw [hu]
  refine Ensures.bind (ensures_modify.mono ?_)
  rintro _ _ ⟨-, rfl⟩
  have hown := (hkept (ownLeft_modify hcell)).modify
    (f := fun n => { n with right := some a }) fun _ => rfl
  exact (runs_getObject.mpr ⟨hu, hu, hown⟩).ensures

theorem ensures_build_bound (ha : s.object = some a) :
    Ensures (build fuel pre ino left right) s (Bound a s) := by
  induction fuel generalizing left right s with
  | zero => exact fails_fail.ensures
  | succ fuel ih =>
    have hret : Ensures getObject s (Bound a s) := (runs_getObject.mpr ⟨ha, ha, id⟩).ensures
    rw [build]
    split_ifs with hsize hright hleft
    · exact hret
    · exact hret
    · exact hret
    refine Runs.bind_ensures (runs_getObject.mpr ?_)
    rw [ha, if_neg (by simp)]
    refine Ensures.bind (ensures_search.mono ?_)
    rintro cur _ rfl
    exact (ensures_children ih ha).mono fun r u hu => ⟨hu.1, hu.2.1, fun _ => hu.2.2⟩

/-- A call gives no node, or a node that no tree has. -/
theorem ensures_build (hs : s.object = none) : Ensures (build fuel pre ino left right) s
    fun r u => r = none ∨ ∃ a, r = some a ∧ OwnLeft u.heap a := by
  cases fuel with
  | zero => exact fails_fail.ensures
  | succ fuel =>
    have hret : Ensures getObject s fun (r : Ptr) (u : State) =>
        r = none ∨ ∃ a, r = some a ∧ OwnLeft u.heap a :=
      (runs_getObject.mpr (Or.inl hs)).ensures
    rw [build]
    split_ifs with hsize hright hleft
    · exact hret
    · exact hret
    · exact hret
    refine Runs.bind_ensures (runs_getObject.mpr ?_)
    rw [hs, Option.isNone_none, if_pos rfl]
    refine Ensures.bind (ensures_itemAt.mono ?_)
    rintro x _ ⟨rfl, -⟩
    refine Runs.bind_ensures (runs_new.mpr (Runs.bind_ensures (runs_setObject.mpr ?_)))
    refine Ensures.bind (ensures_search.mono ?_)
    rintro cur _ rfl
    refine (ensures_children ensures_build_bound rfl).mono ?_
    exact fun r u hu => Or.inr ⟨_, hu.1, hu.2.2⟩

/-- Nothing but the empty tree is built again, since no tree has a root of its own as a child, and
a tree of one node is taken for an empty one. -/
theorem buildTree_stores_iff (t : BinaryTree Int) (fuel : Nat) (s : State) :
    (Runs (buildTree fuel t.preorder t.inorder) s fun r u => Stores t u.heap r) ↔ t = nil := by
  constructor
  · intro h
    have hlength : t.preorder.length = t.inorder.length := (preorder_perm t).length_eq
    rw [buildTree] at h
    split_ifs at h with hempty hne
    · obtain ⟨u, hu, -, -, rfl⟩ := runs_pure.mp h
      obtain rfl := rootPtr_eq_none.mp hu.symm
      rfl
    · exact absurd hlength hne
    rw [runs_bind, runs_setObject] at h
    obtain ⟨_, u, -, ⟨w, rfl, -, hlaid, rfl⟩, hr⟩ := (ensures_build rfl).runs h
    rcases hr with hnone | ⟨a, ha, hown⟩
    · obtain rfl := rootPtr_eq_none.mp hnone
      rfl
    · exact absurd hlaid (hown.not_laid ha)
  · rintro rfl
    exact runs_pure.mpr ⟨nil, rfl, List.nodup_nil, trivial, rfl⟩

/-- A tree of one node is not built again. -/
theorem buildTree_one : ∃ t : BinaryTree Int, t.inorder.Nodup ∧ ∀ fuel,
    ¬ Runs (buildTree fuel t.preorder t.inorder) ⟨none, Heap.empty⟩ fun r u =>
      Stores t u.heap r := by
  refine ⟨node 1 nil nil, List.nodup_singleton 1, fun fuel h => ?_⟩
  cases fuel with
  | zero => exact h.not_fails rfl
  | succ fuel =>
    rw [runs_of_ok (t := ⟨none, Heap.empty⟩) (a := none) rfl] at h
    obtain ⟨u, hu, -, -, ht⟩ := h
    obtain rfl := rootPtr_eq_none.mp hu.symm
    cases ht

end

end LanguageTest.BuildTree
