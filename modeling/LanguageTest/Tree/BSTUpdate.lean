import LanguageTest.Tree.BSTSearch

namespace LanguageTest.BST
open BinaryTree

variable {s : State} {c : AddrContext Int} {d : Side} {v w z : Addr × Int} {l r t b : Shape}
  {data : Int} {fuel : Nat}

/-- The assignment to the child pointer on one side. -/
def setChild (d : Side) (p : Ptr) : BTNode → BTNode :=
  match d with
  | .left => BTNode.setLchild p
  | .right => BTNode.setRchild p

@[simp] theorem setChild_cellAt (x : Int) (near far up p : Ptr) :
    setChild d p (cellAt cell d x near far up) = cellAt cell d x p far up := by
  cases d <;> rfl

/-- Rewriting the child pointer at the hole of a stored context. -/
theorem hung_setChild {h : Heap BTNode} {hole p : Ptr}
    (hc : Hung cell h none (⟨d, v, b⟩ :: c) hole) (hn : (contextAddrs (⟨d, v, b⟩ :: c)).Nodup) :
    Hung cell (h.modify v.1 (setChild d p)) none (⟨d, v, b⟩ :: c) p := by
  refine hc.hole_congr (by simp [hc.1]) ?_
  intro x hx
  rw [Heap.modify_cells, if_neg]
  intro heq
  subst heq
  rw [contextAddrs_cons, List.nodup_cons, List.mem_append] at hn
  exact hn.1 hx

theorem Stores.fresh (h : Stores s t) : s.heap.next ∉ addrs t := by
  intro hm
  have hd := (h.domain _).mpr hm
  rw [s.heap.next_fresh] at hd
  cases hd

theorem Stores.attach (h : Stores s (plug (⟨d, v, b⟩ :: c) nil)) (data : Int) :
    Runs (do modify (some v.1) (setChild d (← new ⟨data, none, none⟩))) s fun _ u =>
      u.object = s.object ∧ Stores u (plug (⟨d, v, b⟩ :: c) (node (s.heap.next, data) nil nil)) := by
  have hf := h.fresh
  have hn := h.nodup
  rw [mem_addrs_plug, not_or] at hf
  rw [nodup_plug] at hn
  have hc := (linked_plug.mp h.linked).1.alloc (n := ⟨data, none, none⟩) hf.2
  have hne : s.heap.next ≠ v.1 := fun he => hf.2 (by simp [he])
  simp only [runs_bind, runs_new, runs_modify, hc.1, Option.isSome_some, true_and]
  refine ⟨h.root.trans (rootPtr_plug_cons _ _ _ _),
    linked_plug.mpr ⟨hung_setChild hc hn.2.1, ?_⟩, ?_, fun a => ?_⟩
  · rw [linked_node, Heap.modify_cells, if_neg hne]
    simp [cell]
  · rw [nodup_plug]
    exact ⟨by simp, hn.2.1, by simpa [List.Disjoint] using hf.2⟩
  · have hd := h.domain a
    rw [mem_addrs_plug] at hd ⊢
    rw [Heap.modify_isSome, Heap.alloc_cells]
    by_cases ha : a = s.heap.next
    · simp [ha]
    · simpa [ha] using hd

/-- The heap stores a strict search tree, and `size` counts its nodes. -/
structure Represents (s : State) (t : Shape) : Prop extends Stores s t where
  size : s.object.size = t.numNodes
  bounded : t.numNodes ≤ 2147483647
  increasing : Increasing keyOf t

/-- What the loop of `insertNode` has done when it ends. -/
def Attached (s : State) (t : Shape) (data : Int) (b : Bool) (u : State) : Prop :=
  if b then data ∉ keys t ∧ u.object = s.object ∧ ∃ t', Stores u t' ∧ Increasing keyOf t' ∧
    ∃ a, t'.inorder.Perm ((a, data) :: t.inorder)
  else data ∈ keys t ∧ u = s

theorem perm_attach (c : AddrContext Int) (x : Addr × Int) :
    (plug c (node x nil nil)).inorder.Perm (x :: (plug c (nil : Shape)).inorder) := by
  simp only [inorder_plug, inorder_node, inorder_nil, List.nil_append, List.append_nil,
    List.append_assoc, List.cons_append]
  exact List.perm_middle

/-- The place where the loop of `insertNode` found no child. -/
theorem Stores.attached (h : Stores s (plug (⟨d, v, b⟩ :: c) nil))
    (hi : Increasing keyOf (plug (⟨d, v, b⟩ :: c) nil))
    (hp : InsertPoint keyOf data (⟨d, v, b⟩ :: c)) (ha : Avoids keyOf data (⟨d, v, b⟩ :: c)) :
    Runs (do
        modify (some v.1) (setChild d (← new ⟨data, none, none⟩))
        pure (.done true) : Program State (Step Ptr Bool)) s fun r u =>
      ∃ x, r = .done x ∧ Attached s (plug (⟨d, v, b⟩ :: c) nil) data x u := by
  have h' := h.attach data
  simp only [runs_bind, runs_pure] at h' ⊢
  refine h'.mono fun p u hu => hu.mono fun _ u hu => ?_
  obtain ⟨ho, hu⟩ := hu
  refine ⟨true, rfl, ha.not_mem, ho, _, hu, ?_, _, perm_attach _ _⟩
  exact InsertPoint.increasing (v := (s.heap.next, data)) hp ha hi

/-- The loop of `insertNode` goes down to the key, or to the place of a new leaf. -/
theorem Stores.runs_insertPass (h : Stores s t) (hi : Increasing keyOf t) (hne : t ≠ nil)
    (hf : t.numNodes < fuel) :
    Runs (loop (insertPass data) fuel (rootPtr t)) s (Attached s t data) := by
  refine runs_loop (k := t.numNodes) (fun k i u => u = s ∧ ∃ c v l r, plug c (node v l r) = t ∧
    i = some v.1 ∧ InsertPoint keyOf data c ∧ Avoids keyOf data c ∧ (node v l r).numNodes ≤ k)
    ?_ ?_ hf
  · intro k _ _ hpost
    obtain ⟨rfl, c, v, l, r, rfl, rfl, hp, ha, hk⟩ := hpost
    have hv := h.load
    have hs := hi.sorted
    simp only [numNodes] at hk
    rw [insertPass, runs_bind, runs_load]
    refine ⟨_, hv, ?_⟩
    split_ifs with hlt
    · rw [runs_bind, runs_load]
      refine ⟨_, hv, ?_⟩
      have hp' := hp.left hs hlt
      have ha' := ha.left hs hlt
      cases l with
      | nil =>
        refine (Stores.attached (d := .left) h hi hp' ha').mono ?_
        intro _ u hpost
        obtain ⟨b, rfl, hb⟩ := hpost
        exact hb
      | node y p q =>
        simp only [rootPtr_node, Option.isSome_some, ↓reduceIte, runs_bind, runs_load, hv,
          Option.some.injEq, exists_eq_left', runs_pure]
        refine ⟨_, ?_, trivial, ⟨.left, v, r⟩ :: c, y, p, q, rfl, rfl, hp', ha', le_rfl⟩
        simp only [numNodes] at hk ⊢
        omega
    rw [runs_bind, runs_load]
    refine ⟨_, hv, ?_⟩
    split_ifs with hgt
    · rw [runs_bind, runs_load]
      refine ⟨_, hv, ?_⟩
      have hp' := hp.right hs hlt
      have ha' := ha.right hs hgt
      cases r with
      | nil =>
        refine (Stores.attached (d := .right) h hi hp' ha').mono ?_
        intro _ u hpost
        obtain ⟨b, rfl, hb⟩ := hpost
        exact hb
      | node y p q =>
        simp only [rootPtr_node, Option.isSome_some, ↓reduceIte, runs_bind, runs_load, hv,
          Option.some.injEq, exists_eq_left', runs_pure]
        refine ⟨_, ?_, trivial, ⟨.right, v, l⟩ :: c, y, p, q, rfl, rfl, hp', ha', le_rfl⟩
        simp only [numNodes] at hk ⊢
        omega
    · rw [runs_pure]
      refine ⟨?_, rfl⟩
      have he : data = v.2 := le_antisymm (not_lt.mp hgt) (not_lt.mp hlt)
      simp [keys, inorder_plug, keyOf, he]
  · cases t with
    | nil => exact absurd rfl hne
    | node w x y => exact ⟨rfl, [], w, x, y, rfl, rfl, insertPoint_nil, avoids_nil, le_rfl⟩

theorem runs_addSize {k : Int} {Q : Unit → State → Prop} (h : IsInt (s.object.size + k)) :
    Runs (addSize k) s Q ↔
      Q () { s with object := { s.object with size := s.object.size + k } } := by
  rw [addSize, runs_bind, runs_getObject, runs_bind, runs_int h, runs_setObject]

/-- With one more node than `size` can count the increment has no value. -/
theorem fails_addSize (h : s.object.size = 2147483647) : Fails (addSize 1) s .overflow := by
  refine Runs.fails (runs_getObject.mpr (Fails.bind (fails_int ?_)))
  rw [h]
  decide

/-- A key is stored, or `size` has room for one more. -/
theorem insertNode_spec (h : Represents s t) (hroom : t.numNodes < 2147483647 ∨ data ∈ keys t)
    (hf : t.numNodes < fuel) :
    Runs (insertNode fuel data) s fun b u =>
      if b then data ∉ keys t ∧ ∃ t', Represents u t' ∧ ∃ a, t'.inorder.Perm ((a, data) :: t.inorder)
      else data ∈ keys t ∧ u = s := by
  by_cases ht : t = nil
  · subst ht
    have hroot := h.root
    have hsize : IsInt (s.object.size + 1) := by
      rw [h.size]
      decide
    simp only [insertNode, runs_bind, runs_getObject, hroot, rootPtr_nil, Option.isNone_none,
      ↓reduceIte, runs_new, setRoot, runs_setObject]
    refine (runs_addSize ?_).mpr ?_
    · exact hsize
    rw [runs_pure]
    refine ⟨by simp [keys], node (s.heap.next, data) nil nil, ⟨⟨rfl, ?_, by simp, fun a => ?_⟩, ?_,
      ?_, List.pairwise_singleton ..⟩, s.heap.next, List.Perm.refl _⟩
    · simp [linked_node, cell]
    · have hd := h.domain a
      rw [addrs_nil] at hd
      by_cases ha : a = s.heap.next <;> simp_all
    · simp [h.size]
    · simp [numNodes]
  · have hsome : (rootPtr t).isNone = false := by simpa [Option.isSome_iff_ne_none] using ht
    simp only [insertNode, runs_bind, runs_getObject, h.root, hsome, Bool.false_eq_true, ↓reduceIte]
    refine (h.runs_insertPass h.increasing ht hf).mono ?_
    intro b u hb
    cases b with
    | true =>
      obtain ⟨hm, ho, t', hu, hi, a, hp⟩ := hb
      have hlen := hp.length_eq
      rw [List.length_cons, length_inorder, length_inorder] at hlen
      have hlt := hroom.resolve_right hm
      have hsize : IsInt (u.object.size + 1) := by
        rw [ho, h.size]
        unfold IsInt
        omega
      simp only [↓reduceIte, runs_bind, runs_addSize hsize, runs_pure]
      refine ⟨hm, t', ⟨⟨hu.root, hu.linked, hu.nodup, hu.domain⟩, ?_, by omega, hi⟩, a, hp⟩
      simp only [ho, h.size]
      omega
    | false =>
      obtain ⟨hm, rfl⟩ := hb
      simpa using hm

/-- A new key that `size` has no room for. -/
theorem insertNode_full (h : Represents s t) (hfull : t.numNodes = 2147483647)
    (hm : data ∉ keys t) (hf : t.numNodes < fuel) :
    Fails (insertNode fuel data) s .overflow := by
  have ht : t ≠ nil := by
    rintro rfl
    contradiction
  have hsome : (rootPtr t).isNone = false := by simpa [Option.isSome_iff_ne_none] using ht
  refine Runs.fails (runs_getObject.mpr ?_)
  rw [h.root, hsome, if_neg Bool.false_ne_true]
  refine Runs.fails (runs_getObject.mpr ?_)
  rw [h.root]
  refine Runs.fails ((h.runs_insertPass h.increasing ht hf).mono ?_)
  intro b u hb
  cases b with
  | true =>
    obtain ⟨-, ho, -⟩ := hb
    refine Fails.bind (fails_addSize ?_)
    rw [ho, h.size, hfull]
    rfl
  | false => exact absurd hb.1 hm

end LanguageTest.BST
