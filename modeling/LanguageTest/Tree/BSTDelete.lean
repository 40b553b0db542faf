import LanguageTest.Tree.BSTUpdate

namespace LanguageTest.BST
open BinaryTree

variable {s : State} {c : AddrContext Int} {d : Side} {v w z : Addr × Int} {l r t b : Shape}
  {data : Int} {fuel : Nat}

/-- The frames of a context whose hole is the rightmost place. -/
def Rightmost (q : AddrContext Int) : Prop := ∀ f ∈ q, f.side = .right

theorem Rightmost.after_eq {q : AddrContext Int} (hq : Rightmost q) : q.after = [] := by
  induction q with
  | nil => rfl
  | cons f q ih =>
    obtain ⟨e, y, o⟩ := f
    obtain rfl : e = .right := hq _ (List.mem_cons_self ..)
    exact ih fun g hg => hq g (List.mem_cons_of_mem _ hg)

theorem Stores.runs_rightmost (h : Stores s (plug c l)) (hl : l ≠ nil) (hf : l.numNodes < fuel) :
    Runs (loop (fun (i : Ptr × Ptr) => do
      if (← LanguageTest.load i.2).rchild.isSome then
        pure (.again (i.2, (← LanguageTest.load i.2).rchild))
      else
        pure (.done (i.1, i.2))) fuel ((none : Ptr), rootPtr l)) s fun p u =>
      u = s ∧ ∃ q z zl, l = plug q (node z zl nil) ∧ Rightmost q ∧ p = (upPtr none q, some z.1) := by
  refine runs_loop (k := l.numNodes)
    (fun k i u => u = s ∧ ∃ q y a b, l = plug q (node y a b) ∧ Rightmost q ∧
      i = (upPtr none q, some y.1) ∧ b.numNodes < k) ?_ ?_ hf
  · intro k _ _ hpost
    obtain ⟨rfl, q, y, a, b, rfl, hq, rfl, hk⟩ := hpost
    rw [← plug_append] at h
    simp only [runs_bind, runs_load, h.load, Option.some.injEq, exists_eq_left']
    cases b with
    | nil =>
      simp only [rootPtr_nil, Option.isSome_none, Bool.false_eq_true, ↓reduceIte, runs_pure]
      exact ⟨trivial, q, y, a, rfl, hq, rfl⟩
    | node x m n =>
      simp only [rootPtr_node, Option.isSome_some, ↓reduceIte, runs_bind, runs_load, h.load,
        Option.some.injEq, exists_eq_left', runs_pure]
      refine ⟨_, hk, trivial, ⟨.right, y, a⟩ :: q, x, m, n, rfl, ?_, rfl, ?_⟩
      · simpa [Rightmost] using hq
      · simp only [numNodes]
        omega
  · cases l with
    | nil => contradiction
    | node y a b =>
      refine ⟨rfl, [], y, a, b, rfl, by simp [Rightmost], rfl, ?_⟩
      simp only [numNodes]
      omega

/-- The rightmost node `z` of the left subtree of `w` is taken out of it. -/
theorem unlinkReplacement_spec {q : AddrContext Int} {zl : Shape} {p : Ptr} {up : Ptr}
    (hw : s.heap.cells w.1 = some ⟨w.2, rootPtr (plug q (node z zl nil)), p⟩)
    (hl : Linked cell s.heap up (plug q (node z zl nil)))
    (hn : (addrs (plug q (node z zl nil))).Nodup) (hnw : w.1 ∉ addrs (plug q (node z zl nil)))
    (hq : Rightmost q) :
    Runs (unlinkReplacement (some w.1) (upPtr none q) (some z.1)) s fun _ u =>
      u.object = s.object ∧ u.heap.cells w.1 = some ⟨w.2, rootPtr (plug q zl), p⟩ ∧
        u.heap.cells z.1 = some ⟨z.2, rootPtr zl, none⟩ ∧ Linked cell u.heap none (plug q zl) ∧
        Heap.Within (w.1 :: addrs (plug q (node z zl nil))) s.heap u.heap := by
  obtain ⟨hc, hz, hzl, -⟩ := linked_plug.mp hl
  have hz' : s.heap.cells z.1 = some ⟨z.2, rootPtr zl, none⟩ := hz
  rw [mem_addrs_plug, addrs_node, addrs_nil, List.mem_append, List.mem_singleton] at hnw
  rw [nodup_plug, addrs_node, addrs_nil] at hn
  cases q with
  | nil =>
    have hne : w.1 ≠ z.1 := fun he => hnw (.inl (.inr he))
    simp only [upPtr_nil, unlinkReplacement, Option.isNone_none, ↓reduceIte, runs_bind, runs_load,
      hz', Option.some.injEq, exists_eq_left', runs_modify, hw, Option.isSome_some, true_and]
    refine ⟨by simp [hw, BTNode.setLchild], by simp [hne.symm, hz'], ?_, ?_⟩
    · exact (linked_up hzl).modify fun hm => hnw (.inl (.inl hm))
    · exact (Heap.within_modify _ _ _).mono (by simp)
  | cons f q =>
    obtain ⟨e, y, o⟩ := f
    obtain rfl : e = .right := hq _ (List.mem_cons_self ..)
    have hwy : w.1 ≠ y.1 := fun he => hnw (.inr (by simp [he]))
    have hzy : z.1 ≠ y.1 := fun he => hn.2.2 (show z.1 ∈ _ by simp) (by simp [he])
    have hyl : y.1 ∉ addrs zl := fun hm => hn.2.2 (show y.1 ∈ _ by simp [hm]) (by simp)
    have hcy := hc.1
    simp only [cellAt, cell] at hcy
    simp only [upPtr_cons, unlinkReplacement, Option.isNone_some, Bool.false_eq_true, ↓reduceIte,
      runs_bind, runs_load, hz', Option.some.injEq, exists_eq_left', runs_modify, hcy,
      Option.isSome_some, true_and, Heap.modify_cells, hwy, hzy, hw]
    refine ⟨?_, linked_plug.mpr ⟨?_, ?_⟩, ?_⟩
    · rw [rootPtr_plug_cons]
    · exact hung_setChild (d := .right) (hung_up hc) hn.2.1
    · exact (linked_up hzl).modify hyl
    · exact (Heap.within_modify _ _ _).mono (by simp [mem_addrs_plug])

/-- The replacement of a node carries both of its subtrees, in their order. -/
theorem takeReplacement_spec (h : Stores s (plug c (node w l r))) (hf : l.numNodes < fuel) :
    Runs (takeReplacement fuel (some w.1)) s fun p u => ∃ t', p = rootPtr t' ∧
      u.object = s.object ∧ Linked cell u.heap none t' ∧ t'.inorder = l.inorder ++ r.inorder ∧
      Heap.Within (w.1 :: addrs l) s.heap u.heap := by
  obtain ⟨hw, hl, hr⟩ := (linked_plug.mp h.linked).2
  have hw' : s.heap.cells w.1 = some ⟨w.2, rootPtr l, rootPtr r⟩ := hw
  have hn := ((nodup_plug _ _).mp h.nodup).1
  rw [← branch_left w l r, nodup_branch] at hn
  obtain ⟨hwl, hwr, hln, -, hlr⟩ := hn
  simp only [takeReplacement, runs_bind, runs_load, hw', Option.some.injEq, exists_eq_left']
  by_cases hne : l = nil
  · subst hne
    simp only [rootPtr_nil, Option.isSome_none, Bool.false_eq_true, ↓reduceIte, runs_bind,
      runs_load, hw', Option.some.injEq, exists_eq_left', runs_pure]
    exact ⟨r, rfl, trivial, linked_up hr, by simp, .refl _ _⟩
  · have hsome : (rootPtr l).isSome = true := by
      simpa [Option.isSome_iff_ne_none] using hne
    simp only [hsome, ↓reduceIte, runs_bind, runs_load, hw', Option.some.injEq, exists_eq_left']
    have hl0 : Stores s (plug (⟨.left, w, r⟩ :: c) l) := h
    refine (hl0.runs_rightmost hne hf).mono ?_
    intro _ u hpost
    obtain ⟨rfl, q, z, zl, rfl, hq, rfl⟩ := hpost
    refine (unlinkReplacement_spec hw' hl hln hwl hq).mono ?_
    intro _ s1 hpost
    obtain ⟨ho1, hw1, hz1, hl1, hin1⟩ := hpost
    have hzm : z.1 ∈ addrs (plug q (node z zl nil)) := by simp [mem_addrs_plug]
    have hwz : w.1 ≠ z.1 := fun he => hwl (he ▸ hzm)
    have hz : z.1 ∉ addrs (plug q zl) := by
      rw [nodup_plug, addrs_node, addrs_nil] at hln
      rw [mem_addrs_plug]
      intro hcase
      rcases hcase with hm | hm
      · exact (List.nodup_append.mp hln.1).2.2 _ hm _ (by simp) rfl
      · exact hln.2.2 (show z.1 ∈ _ by simp) hm
    have hrz : z.1 ∉ addrs r := fun hm => hlr hzm hm
    have hr1 := hr.within hin1 fun a ha hm =>
      (List.mem_cons.mp hm).elim (fun he => hwr (he ▸ ha)) fun hm => hlr hm ha
    simp only [hw1, hz1, Option.some.injEq, exists_eq_left', runs_modify,
      Option.isSome_some, true_and, Heap.modify_cells, hwz, ↓reduceIte, Option.map_some, runs_pure]
    refine ⟨node z (plug q zl) r, rfl, ho1, ⟨?_, ?_, ?_⟩, ?_, ?_⟩
    · simp [hz1, cell, BTNode.setLchild, BTNode.setRchild]
    · exact linked_up ((hl1.modify hz).modify hz)
    · exact linked_up ((hr1.modify hrz).modify hrz)
    · simp [inorder_plug, hq.after_eq]
    · refine hin1.trans (((Heap.within_modify _ _ _).trans (Heap.within_modify _ _ _)).mono ?_)
      simpa using .inr hzm

/-- The child pointer of the parent that named `w` names the replacement. -/
theorem replaceNode_spec {p : Ptr} (hc : Hung cell s.heap none (⟨d, v, b⟩ :: c) (some w.1))
    (hb : w.1 ∉ addrs b) (hn : (contextAddrs (⟨d, v, b⟩ :: c)).Nodup) :
    Runs (replaceNode (some v.1) (some w.1) p) s fun _ u => u.object = s.object ∧
      Hung cell u.heap none (⟨d, v, b⟩ :: c) p ∧ Heap.Within [v.1] s.heap u.heap := by
  have hne : rootPtr b ≠ some w.1 := fun he => hb (mem_addrs_of_rootPtr he)
  have hv := hc.1
  simp only [replaceNode, Option.isNone_some, Bool.false_eq_true, ↓reduceIte, runs_bind, runs_load,
    hv, Option.some.injEq, exists_eq_left']
  cases d with
  | left =>
    simp only [cellAt, cell, ↓reduceIte, runs_modify, hv, Option.isSome_some, true_and]
    exact ⟨hung_setChild (d := .left) hc hn, Heap.within_modify _ _ _⟩
  | right =>
    simp only [cellAt, cell, hne, ↓reduceIte, runs_modify, hv, Option.isSome_some, true_and]
    exact ⟨hung_setChild (d := .right) hc hn, Heap.within_modify _ _ _⟩

/-- The inner lines of `deleteNode`, from the parent of the node on. -/
theorem removeChild_spec (h : Represents s (plug (⟨d, v, b⟩ :: c) (node w l r)))
    (hf : l.numNodes < fuel) :
    Runs (do
        let temp ← takeReplacement fuel (some w.1)
        replaceNode (some v.1) (some w.1) temp
        delete (some w.1)
        addSize (-1)
        pure true) s fun x u => x = true ∧ ∃ t', Represents u t' ∧
      (plug (⟨d, v, b⟩ :: c) (node w l r)).inorder.Perm (w :: t'.inorder) := by
  have hn := h.nodup
  rw [nodup_plug, ← branch_left w l r, nodup_branch] at hn
  obtain ⟨⟨hwl, hwr, hln, hrn, hlr⟩, hcn, hd⟩ := hn
  simp only [List.Disjoint, mem_addrs_branch] at hd
  have hwc : w.1 ∉ contextAddrs (⟨d, v, b⟩ :: c) := hd (.inl rfl)
  have hwb : w.1 ∉ addrs b := fun hm => hwc (by simp [hm])
  have hvw : v.1 ≠ w.1 := fun he => hwc (by simp [he])
  rw [runs_bind]
  refine (takeReplacement_spec h.toStores hf).mono ?_
  intro _ s1 hpost
  obtain ⟨t', rfl, ho1, ht1, hi, hw1⟩ := hpost
  have ha : addrs t' = addrs l ++ addrs r := by
    rw [addrs, hi, List.map_append]
    rfl
  have hwt : w.1 ∉ addrs t' := by simp [ha, hwl, hwr]
  have hdt : List.Disjoint (addrs t') (contextAddrs (⟨d, v, b⟩ :: c)) := fun a hm =>
    hd (.inr (List.mem_append.mp (ha ▸ hm)))
  have hc1 := (linked_plug.mp h.linked).1.within hw1 fun a hm hw =>
    hd ((List.mem_cons.mp hw).imp_right .inl) hm
  rw [runs_bind]
  refine (replaceNode_spec hc1 hwb hcn).mono ?_
  intro _ s2 hpost
  obtain ⟨ho2, hc2, hw2⟩ := hpost
  have ht2 := ht1.within hw2 fun a hm hv =>
    hdt hm (by rw [List.mem_singleton.mp hv]; simp)
  have hsome : ∀ a, (s2.heap.cells a).isSome = (s.heap.cells a).isSome := fun a =>
    (hw2.isSome a).trans (hw1.isSome a)
  have hp := inorder_plug_remove (v := w) (⟨d, v, b⟩ :: c) hi
  have hlen := hp.length_eq
  rw [List.length_cons, length_inorder, length_inorder] at hlen
  have hbounded := h.bounded
  have hsize : IsInt (s2.object.size + -1) := by
    rw [ho2, ho1, h.size]
    unfold IsInt
    omega
  simp only [runs_bind, runs_delete, hsome, h.domain]
  refine ⟨by simp [mem_addrs_plug], (runs_addSize ?_).mpr ?_⟩
  · exact hsize
  rw [runs_pure]
  refine ⟨rfl, _, ⟨⟨?_, linked_plug.mpr
    ⟨hc2.release hwc, (linked_up ht2).release hwt⟩, ?_, fun a => ?_⟩, ?_, by omega, ?_⟩, hp⟩
  · rw [ho2, ho1, h.root]
    exact rootPtr_plug_cons _ _ _ _
  · rw [nodup_plug, ha]
    exact ⟨List.nodup_append'.mpr ⟨hln, hrn, hlr⟩, hcn, ha ▸ hdt⟩
  · have hdom := h.domain a
    rw [← hsome] at hdom
    rw [Heap.release_cells]
    split_ifs with he
    · simp only [Option.isSome_none, Bool.false_eq_true, false_iff]
      rw [he, mem_addrs_plug]
      exact fun hm => hm.elim hwt hwc
    · rw [hdom]
      simp [mem_addrs_plug, ha, he]
  · simp only [ho2, ho1, h.size]
    omega
  · exact h.increasing.of_sublist ((inorder_plug_sublist _ hi).map _)

theorem deleteNode_spec (h : Represents s t) (hr : t.value?.map keyOf ≠ some data)
    (hf : 2 * t.numNodes < fuel) :
    Runs (deleteNode fuel data) s fun x u =>
      if x then ∃ t', Represents u t' ∧ ∃ a, t.inorder.Perm ((a, data) :: t'.inorder)
      else data ∉ keys t ∧ u = s := by
  simp only [deleteNode, runs_bind, runs_empty h.toStores]
  split_ifs with hn
  · obtain rfl : t = nil := by simpa using hn
    simp [keys]
  rw [runs_bind]
  refine (search_spec h.toStores h.increasing (by omega)).mono ?_
  intro _ _ hpost
  obtain ⟨rfl, rfl⟩ := hpost
  by_cases hm : data ∈ keys t
  · simp only [hm, decide_true, Bool.not_true, Bool.false_eq_true, ↓reduceIte]
    rw [runs_bind]
    refine (parent_spec h.toStores hm hr hf).mono ?_
    intro _ _ hpost
    obtain ⟨rfl, c, v, l, r, rfl, rfl, hchild⟩ := hpost
    have hv := h.load
    have hl : Stores _ (plug (⟨.left, v, r⟩ :: c) l) := h.toStores
    have hpos := length_le_numNodes c (node v l r)
    simp only [numNodes] at hpos
    rw [runs_bind, runs_load]
    refine ⟨_, hv, ?_⟩
    rw [runs_bind, runs_holds hl]
    by_cases hleft : l.value?.map keyOf = some data
    · cases l with
      | nil => simp at hleft
      | node w x y =>
        obtain rfl : w.2 = data := by simpa [keyOf] using hleft
        rw [if_pos (by simpa using hleft), runs_bind, runs_load]
        refine ⟨_, hv, ?_⟩
        rw [runs_bind, runs_pure]
        simp only [numNodes] at hpos
        refine (removeChild_spec (d := .left) h (by omega)).mono ?_
        intro _ u hpost
        obtain ⟨rfl, t', hu, hp⟩ := hpost
        exact ⟨t', hu, w.1, hp⟩
    · have hright := hchild.resolve_left hleft
      cases r with
      | nil => simp at hright
      | node w x y =>
        obtain rfl : w.2 = data := by simpa [keyOf] using hright
        rw [if_neg (by simpa using hleft), runs_bind, runs_load]
        refine ⟨_, hv, ?_⟩
        rw [runs_bind, runs_pure]
        simp only [numNodes] at hpos
        refine (removeChild_spec (d := .right) h (by omega)).mono ?_
        intro _ u hpost
        obtain ⟨rfl, t', hu, hp⟩ := hpost
        exact ⟨t', hu, w.1, hp⟩
  · simp [hm]

/-- Deleting the key of the root reads a child of its parent, which is NULL. -/
theorem deleteNode_root (h : Represents s t) (hr : t.value?.map keyOf = some data)
    (hf : t.numNodes < fuel) : Fails (deleteNode fuel data) s .nullPointer := by
  cases t with
  | nil => simp at hr
  | node v l r =>
    obtain rfl : v.2 = data := by simpa [keyOf] using hr
    have h0 : Stores s (plug [] (node v l r)) := h.toStores
    refine Runs.fails ((runs_empty h.toStores).mpr ?_)
    rw [rootPtr_node, Option.isNone_some, if_neg (by simp)]
    refine Runs.fails ((search_spec h.toStores h.increasing hf).mono ?_)
    intro _ _ hpost
    obtain ⟨rfl, rfl⟩ := hpost
    rw [decide_eq_true (mem_keys.mpr (.inr (.inl rfl))), if_neg (by simp)]
    refine Runs.fails ?_
    simp only [parent, runs_bind, runs_empty h.toStores, rootPtr_node, Option.isNone_some,
      Bool.false_eq_true, ↓reduceIte, runs_getObject, h.root, runs_load, h0.load,
      Option.some.injEq, exists_eq_left', runs_pure]
    exact Fails.bind rfl

end LanguageTest.BST
