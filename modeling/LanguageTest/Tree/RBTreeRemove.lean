import LanguageTest.Tree.RBTreeRemoveFixUp

namespace LanguageTest.RBTree
open BinaryTree

variable {s : State} {spare : Ptr} {c : AddrContext Item} {d : Side}

/-- The frames of a context whose hole is the leftmost place. -/
def Leftmost (q : AddrContext Item) : Prop := ∀ f ∈ q, f.side = .left

theorem Represents.runs_leftmost {r : Shape} {fuel : Nat} (h : Represents s (plug c r) spare)
    (hr : r ≠ nil) (hf : r.numNodes < fuel) :
    Runs (loop (fun replace => do
      if (← LanguageTest.load replace).left.isSome then
        pure (.again (← LanguageTest.load replace).left)
      else
        pure (.done replace)) fuel (rootPtr r)) s fun p u =>
      u = s ∧ ∃ q z zr, r = plug q (node z nil zr) ∧ Leftmost q ∧ p = some z.1 := by
  refine runs_loop (k := r.numNodes)
    (fun k i u => u = s ∧ ∃ q v a b, r = plug q (node v a b) ∧ Leftmost q ∧ i = some v.1 ∧
      a.numNodes < k) ?_ ?_ hf
  · intro k _ _ hpost
    obtain ⟨rfl, q, v, a, b, rfl, hq, rfl, hk⟩ := hpost
    rw [← plug_append] at h
    have hv := h.load (d := .left)
    simp only [runs_bind, runs_load, hv, Option.some.injEq, exists_eq_left']
    cases a with
    | nil =>
      simp only [cellAt, cell, rootPtr_nil, Option.isSome_none, Bool.false_eq_true, ↓reduceIte,
        runs_pure]
      exact ⟨trivial, q, v, b, rfl, hq, rfl⟩
    | node w x y =>
      simp only [cellAt, cell, rootPtr_node, Option.isSome_some, ↓reduceIte, runs_bind, runs_load,
        hv, Option.some.injEq, exists_eq_left', runs_pure]
      refine ⟨_, hk, trivial, ⟨.left, v, b⟩ :: q, w, x, y, rfl, ?_, rfl, ?_⟩
      · simpa [Leftmost] using hq
      · simp only [numNodes]
        omega
  · cases r with
    | nil => contradiction
    | node v a b =>
      refine ⟨rfl, [], v, a, b, rfl, by simp [Leftmost], rfl, ?_⟩
      simp only [numNodes]
      omega

/-- Taking the leftmost node `z` out of the right subtree of `v` and hanging the rest below `z`. -/
theorem detachReplace_spec {v z : Addr × Item} {q : AddrContext Item} {zr : Shape} {pl pv : Ptr}
    (hv : s.heap.cells v.1 = some (cell v.2 pl (rootPtr (plug q (node z nil zr))) pv))
    (hl : Linked cell s.heap (some v.1) (plug q (node z nil zr)))
    (hn : (addrs (plug q (node z nil zr))).Nodup) (hnv : v.1 ∉ addrs (plug q (node z nil zr)))
    (hq : Leftmost q) :
    Runs (detachReplace (some v.1) (some z.1) (rootPtr zr) (upPtr (some v.1) q)) s fun p u =>
      p = upPtr (some z.1) q ∧ u.object = s.object ∧ Linked cell u.heap (some z.1) (plug q zr) ∧
        (∃ x y, u.heap.cells z.1 = some (cell z.2 x (rootPtr (plug q zr)) y)) ∧
        Heap.Within (addrs (plug q (node z nil zr))) s.heap u.heap := by
  obtain ⟨hc, hz, -, hzr⟩ := linked_plug.mp hl
  cases q with
  | nil =>
    simp only [upPtr_nil, detachReplace, ↓reduceIte, runs_pure]
    exact ⟨trivial, trivial, hzr, ⟨_, _, hz⟩, Heap.Within.refl _ _⟩
  | cons f q =>
    obtain ⟨e, w, o⟩ := f
    obtain rfl : e = .left := hq _ (List.mem_cons_self ..)
    rw [nodup_plug, addrs_node, addrs_nil, List.nil_append, List.nodup_cons, List.disjoint_cons_left]
      at hn
    rw [mem_addrs_plug, addrs_node, addrs_nil, List.nil_append, List.mem_cons] at hnv
    obtain ⟨⟨hzzr, hzrn⟩, hqn, hzq, hzrq⟩ := hn
    have hvz : v.1 ≠ z.1 := fun he => hnv (.inl (.inl he))
    have hvzr : v.1 ∉ addrs zr := fun hm => hnv (.inl (.inr hm))
    have hvw : v.1 ≠ w.1 := fun he => hnv (.inr (by simp [he]))
    have hwzr : w.1 ∉ addrs zr := fun hm => hzrq hm (by simp)
    have hzw : z.1 ≠ w.1 := fun he => hzq (by simp [he])
    have hzp : z.1 ∉ addrs (plug (⟨.left, w, o⟩ :: q) zr) := by
      rw [mem_addrs_plug]
      exact fun hm => hm.elim hzzr hzq
    have hpn : (addrs (plug (⟨.left, w, o⟩ :: q) zr)).Nodup :=
      (nodup_plug _ _).mpr ⟨hzrn, hqn, hzrq⟩
    simp only [upPtr_cons, detachReplace, Option.some.injEq, hvw.symm, ↓reduceIte, runs_bind]
    refine (runs_adopt hzr hzrn).mono ?_
    intro _ s1 hpost
    obtain ⟨ho1, hzr1, hw1⟩ := hpost
    have hc1 := hc.within hw1 fun a ha hm => hzrq hm ha
    have hv1 : s1.heap.cells v.1 = _ := (hw1.same _ hvzr).trans hv
    have hz1 : s1.heap.cells z.1 = _ := (hw1.same _ hzzr).trans hz
    have hc2 : Hung cell (s1.heap.modify w.1 (RBTNode.setChild .left (rootPtr zr))) (some v.1)
        (⟨.left, w, o⟩ :: q) (rootPtr zr) := by
      refine hc1.hole_congr (by simp [hc1.1, cellAt, cell, RBTNode.setChild]) ?_
      intro x hx
      rw [Heap.modify_cells, if_neg]
      intro heq
      subst heq
      rw [contextAddrs_cons, List.nodup_cons, List.mem_append] at hqn
      exact hqn.1 hx
    have hl2 := (linked_plug.mpr ⟨hc2, hzr1.modify (f := RBTNode.setChild .left (rootPtr zr)) hwzr⟩)
    simp only [runs_modify, hc1.1, Option.isSome_some, true_and, runs_load, Heap.modify_cells,
      hvw, ↓reduceIte, hv1, Option.some.injEq, exists_eq_left', hzw, hz1, hvz, cell]
    rw [rootPtr_plug_cons _ _ _ zr]
    refine (runs_setParent (hl2.modify hzp) hpn
      (plug_ne_nil q (branch_ne_nil .left w zr o))).mono ?_
    intro _ s4 hpost
    obtain ⟨ho4, hl4, hw4⟩ := hpost
    rw [runs_pure]
    refine ⟨rfl, ho4.trans ho1, hl4, ?_, ?_⟩
    · rw [hw4.same _ hzp]
      simp [hzw, hz1, cell, RBTNode.setChild]
    · refine (hw1.mono ?_).trans (((Heap.within_modify _ _ _).mono ?_).trans
        (((Heap.within_modify _ _ _).mono ?_).trans (hw4.mono ?_)))
      all_goals
        intro a ha
        simp only [mem_addrs_plug, addrs_node, addrs_nil, contextAddrs_cons, List.mem_append,
          List.mem_cons] at ha ⊢
        grind

theorem addrs_eq_entries (t : Shape) : addrs t = (entries t).map Prod.fst := by
  simp [addrs, entries, Function.comp_def]

theorem Represents.delete {T : Shape} {a : Addr} (h : Represents s T (some a)) (ha : a ∉ addrs T) :
    Runs (LanguageTest.delete (some a)) s fun _ u => Represents u T none := by
  rw [runs_delete]
  refine ⟨(h.domain a).mpr (.inr rfl), h.root, h.linked.release ha, h.nodup, fun x => ?_⟩
  have hd := h.domain x
  rw [Heap.release_cells]
  split_ifs with hx
  · simp [hx, ha]
  · simpa [show a ≠ x from fun he => hx he.symm] using hd

/-- After a node with the colour `color` was spliced out, the fix-up, when there is one, leaves a
red-black tree, and the node itself is released. -/
theorem removeEnd_spec {v z : Addr × Item} {t : Shape} {fuel : Nat}
    (h : Represents s (plug c t) (some v.1)) (hv : v.1 ∉ addrs (plug c t))
    (ht : if isRed z then ∃ m, RedBlack isRed false m (plug c t)
      else ∃ b n, RedBlack isRed b n t ∧ Fits isRed (n + 1) c) (hf : c.length < fuel) :
    Runs (removeEnd fuel z.2.1 (some v.1) (rootPtr t) (upPtr none c)) s fun _ u =>
      ∃ T m, Represents u T none ∧ RedBlack isRed false m T ∧ entries T = entries (plug c t) := by
  obtain ⟨a, k, x⟩ := z
  cases k with
  | red =>
    obtain ⟨m, hm⟩ := ht
    simp only [removeEnd, reduceCtorEq, ↓reduceIte]
    exact (h.delete hv).mono fun _ u hu => ⟨_, m, hu, hm, rfl⟩
  | black =>
    obtain ⟨b, n, ht, hc⟩ := ht
    simp only [removeEnd, ↓reduceIte, runs_bind]
    refine (removeFixUp_spec h ht hc hf).mono ?_
    intro _ s1 hpost
    obtain ⟨T, m, h1, hm, hE⟩ := hpost
    refine (h1.delete ?_).mono fun _ u hu => ⟨T, m, hu, hm, hE⟩
    rwa [addrs_eq_entries, hE, ← addrs_eq_entries]

/-- What removing the node `v` from `T` leaves: the entries of `T` without the one of `v`. -/
def Without (v : Addr × Item) (T : Shape) (u : State) : Prop :=
  ∃ T' m, Represents u T' none ∧ RedBlack isRed false m T' ∧
    ∃ xs ys, entries T = xs ++ (v.1, v.2.2) :: ys ∧ entries T' = xs ++ ys

theorem removeOuter_spec {v : Addr × Item} {t : Shape} {m fuel : Nat}
    (h : Represents s (plug c (branch d v t nil)) none)
    (hT : RedBlack isRed false m (plug c (branch d v t nil))) (hf : c.length < fuel) :
    Runs (removeOuter fuel (some v.1) (rootPtr t)) s fun _ u =>
      Without v (plug c (branch d v t nil)) u := by
  have hn := h.nodup
  have hl := h.linked
  rw [linked_plug, rootPtr_branch, linked_branch] at hl
  obtain ⟨hc, hv, ht, -⟩ := hl
  simp only [nodup_plug, nodup_branch, List.Disjoint, mem_addrs_branch, addrs_nil,
    List.not_mem_nil, or_false] at hn
  obtain ⟨⟨hvt, -, htn, -⟩, hcn, hd⟩ := hn
  have hvc : v.1 ∉ contextAddrs c := hd (.inl rfl)
  simp only [removeOuter, runs_bind, runs_load, hv, Option.some.injEq, exists_eq_left',
    cellAt_color, cellAt_parent]
  refine (runs_adopt ht htn).mono ?_
  intro _ s1 hpost
  obtain ⟨ho1, ht1, hw1⟩ := hpost
  have hc1 := hc.within hw1 fun a ha hm => hd (.inr hm) ha
  refine (runs_replaceChild hc1 hvc hcn).mono ?_
  intro _ s2 hpost
  obtain ⟨hr2, hc2, hw2⟩ := hpost
  have ht2 := ht1.within hw2 fun a ha hm => hd (.inr ha) hm
  have hm : v.1 ∉ addrs (plug c t) := by simp [mem_addrs_plug, hvt, hvc]
  have h2 : Represents s2 (plug c t) (some v.1) := by
    refine ⟨?_, linked_plug.mpr ⟨hc2, ht2⟩, ?_, fun a => ?_⟩
    · rw [hr2, ho1, h.root]
      cases c with
      | nil => simp
      | cons f c => exact rootPtr_plug_cons f c _ _
    · rw [nodup_plug]
      exact ⟨htn, hcn, fun _ ha => hd (.inr ha)⟩
    · rw [hw2.isSome, hw1.isSome, h.domain]
      simp only [mem_addrs_plug, mem_addrs_branch, addrs_nil, List.not_mem_nil, Option.some.injEq,
        reduceCtorEq]
      grind
  refine (removeEnd_spec h2 hm hT.splice hf).mono ?_
  intro _ u hpost
  obtain ⟨T, m, hu, hT', hE⟩ := hpost
  refine ⟨T, m, hu, hT', ?_⟩
  cases d with
  | left =>
    refine ⟨(c.before ++ t.inorder).map fun v => (v.1, v.2.2), c.after.map fun v => (v.1, v.2.2),
      ?_, ?_⟩
    · simp [entries, inorder_plug]
    · rw [hE]
      simp [entries, inorder_plug]
  | right =>
    refine ⟨c.before.map fun v => (v.1, v.2.2), (t.inorder ++ c.after).map fun v => (v.1, v.2.2),
      ?_, ?_⟩
    · simp [entries, inorder_plug]
    · rw [hE]
      simp [entries, inorder_plug]

theorem Leftmost.before_eq {q : AddrContext Item} (hq : Leftmost q) : q.before = [] := by
  induction q with
  | nil => rfl
  | cons f q ih =>
    obtain ⟨e, w, o⟩ := f
    obtain rfl : e = .left := hq _ (List.mem_cons_self ..)
    exact ih fun g hg => hq g (List.mem_cons_of_mem _ hg)

theorem addrs_plug_detach (q : AddrContext Item) (z : Addr × Item) (t : Shape) :
    (addrs (plug q (node z nil t))).Perm (z.1 :: addrs (plug q t)) := by
  simp only [addrs, inorder_plug, inorder_node, inorder_nil, List.nil_append, List.append_assoc,
    List.cons_append, ← List.map_cons]
  exact List.perm_middle.map Prod.fst

theorem removeInner_spec {v : Addr × Item} {l r : Shape} {m fuel : Nat}
    (h : Represents s (plug c (node v l r)) none)
    (hT : RedBlack isRed false m (plug c (node v l r))) (hl : l ≠ nil) (hr : r ≠ nil)
    (hf : (plug c (node v l r)).numNodes < fuel) :
    Runs (removeInner fuel (some v.1)) s fun _ u => Without v (plug c (node v l r)) u := by
  obtain ⟨hc, hv, hll, hlr⟩ := linked_plug.mp h.linked
  have hn := h.nodup
  rw [← branch_left v l r, nodup_plug, nodup_branch] at hn
  simp only [List.Disjoint, mem_addrs_branch] at hn
  obtain ⟨⟨hvl, hvr, hln, hrn, hlr'⟩, hcn, hd⟩ := hn
  have hvc : v.1 ∉ contextAddrs c := hd (.inl rfl)
  simp only [removeInner, runs_bind, runs_load, hv, Option.some.injEq, exists_eq_left']
  have hr0 : Represents s (plug (⟨.right, v, l⟩ :: c) r) none := h
  refine (hr0.runs_leftmost hr ?_).mono ?_
  · rw [numNodes_plug, numNodes] at hf
    omega
  intro _ s hpost
  obtain ⟨rfl, q, z, zr, rfl, hq, rfl⟩ := hpost
  obtain ⟨-, hz, -⟩ := linked_plug.mp hlr
  have hzr : z.1 ∈ addrs (plug q (node z nil zr)) := by simp [mem_addrs_plug]
  have hzc : z.1 ∉ contextAddrs c := hd (.inr (.inr hzr))
  have hzl : z.1 ∉ addrs l := fun hm => hlr' hm hzr
  have hvz : v.1 ≠ z.1 := fun he => hvr (he ▸ hzr)
  -- The successor takes the place of `v` in the parent of `v`.
  simp only [hv, Option.some.injEq, exists_eq_left', cell]
  refine (runs_replaceChild hc hvc hcn).mono ?_
  intro _ s1 hpost
  obtain ⟨hr1, hc1, hw1⟩ := hpost
  have hv1 : s1.heap.cells v.1 = _ := (hw1.same _ hvc).trans hv
  have hz1 : s1.heap.cells z.1 = _ := (hw1.same _ hzc).trans hz
  have hll1 := hll.within hw1 fun a ha hm => hd (.inr (.inl ha)) hm
  have hlr1 := hlr.within hw1 fun a ha hm => hd (.inr (.inr ha)) hm
  simp only [runs_load, hz1, Option.some.injEq, exists_eq_left', cell]
  refine (detachReplace_spec hv1 hlr1 hrn hvr hq).mono ?_
  intro _ s2 hpost
  obtain ⟨rfl, ho2, hzr2, ⟨x, y, hz2⟩, hw2⟩ := hpost
  have hv2 : s2.heap.cells v.1 = _ := (hw2.same _ hvr).trans hv1
  have hll2 := hll1.within hw2 fun a ha hm => hlr' ha hm
  have hc2 := hc1.within hw2 fun a ha hm => hd (.inr (.inr hm)) ha
  -- It takes over the parent, the colour and the left subtree of `v`.
  simp only [rbSetParent, rbSetColor, runs_modify, hv2, hz2, Option.isSome_some, true_and,
    Option.some.injEq, exists_eq_left', Heap.modify_cells, hvz, ↓reduceIte, Option.map_some, cell]
  refine (runs_setParent (((hll2.modify hzl).modify hzl).modify hzl) hln hl).mono ?_
  intro _ s3 hpost
  obtain ⟨ho3, hll3, hw3⟩ := hpost
  have hp := addrs_plug_detach q z zr
  have hpn := List.nodup_cons.mp (hp.nodup_iff.mp hrn)
  let w : Addr × Item := (z.1, v.2.1, z.2.2)
  have hshape : ∀ t, plug (q ++ ⟨.right, w, l⟩ :: c) t = plug c (node w l (plug q t)) := fun t => by
    simp [plug_append]
  have hz3 : s3.heap.cells w.1 = some (cell w.2 (rootPtr l) (rootPtr (plug q zr)) (upPtr none c)) := by
    rw [hw3.same _ hzl]
    simp [hz2, cell, RBTNode.setChild, RBTNode.setColor, RBTNode.setParent, w]
  have h3 : Represents s3 (plug (q ++ ⟨.right, w, l⟩ :: c) zr) (some v.1) := by
    rw [hshape]
    refine ⟨?_, linked_plug.mpr ⟨?_, hz3, hll3, ?_⟩, ?_, fun a => ?_⟩
    · rw [ho3, ho2, hr1, h.root]
      cases c with
      | nil => simp [w]
      | cons f c => exact rootPtr_plug_cons f c _ _
    · exact (((hc2.modify hzc).modify hzc).modify hzc).within hw3 fun a ha hm =>
        hd (.inr (.inl hm)) ha
    · exact (((hzr2.modify hpn.1).modify hpn.1).modify hpn.1).within hw3 fun a ha hm =>
        hlr' hm (hp.mem_iff.mpr (.tail _ ha))
    · rw [← branch_left w, nodup_plug, nodup_branch]
      refine ⟨⟨hzl, hpn.1, hln, hpn.2, fun a ha hm => hlr' ha (hp.mem_iff.mpr (.tail _ hm))⟩, hcn, ?_⟩
      intro a ha
      rw [mem_addrs_branch] at ha
      rcases ha with rfl | ha | ha
      · exact hzc
      · exact fun hm => hd (.inr (.inl ha)) hm
      · exact fun hm => hd (.inr (.inr (hp.mem_iff.mpr (.tail _ ha)))) hm
    · rw [hw3.isSome]
      simp only [Heap.modify_isSome, hw2.isSome, hw1.isSome, h.domain, mem_addrs_plug, addrs_node,
        hp.mem_iff, List.mem_append, List.mem_cons, Option.some.injEq, reduceCtorEq, w]
      grind
  have hm : v.1 ∉ addrs (plug (q ++ ⟨.right, w, l⟩ :: c) zr) := by
    rw [hp.mem_iff, List.mem_cons, not_or] at hvr
    rw [hshape, mem_addrs_plug, addrs_node, List.mem_append, List.mem_cons]
    intro hcase
    rcases hcase with (hm | hm | hm) | hm
    · exact hvl hm
    · exact hvr.1 hm
    · exact hvr.2 hm
    · exact hvc hm
  obtain ⟨m', hT'⟩ := RedBlack.recolor (d := .left) (w := w) hT rfl
  rw [branch_left, ← hshape] at hT'
  have hlen := length_le_numNodes (q ++ ⟨.right, w, l⟩ :: c) (node z nil zr)
  rw [hshape] at hlen
  simp only [numNodes_plug, numNodes] at hlen hf
  rw [← upPtr_append none q ⟨.right, w, l⟩ c]
  refine (removeEnd_spec h3 hm (hT'.splice (d := .right)) (by omega)).mono ?_
  intro _ u hpost
  obtain ⟨T, m, hu, hT', hE⟩ := hpost
  refine ⟨T, m, hu, hT', (c.before ++ l.inorder).map fun v => (v.1, v.2.2),
    ((plug q (node z nil zr)).inorder ++ c.after).map fun v => (v.1, v.2.2), ?_, ?_⟩
  · simp [entries, inorder_plug]
  · rw [hE, hshape]
    simp [entries, inorder_plug, hq.before_eq, w]

/-- The private `remove` takes exactly the node it is given out of the tree. -/
theorem removeNode_spec {v : Addr × Item} {l r : Shape} {m fuel : Nat}
    (h : Represents s (plug c (node v l r)) none)
    (hT : RedBlack isRed false m (plug c (node v l r)))
    (hf : (plug c (node v l r)).numNodes < fuel) :
    Runs (removeNode fuel (some v.1)) s fun _ u => Without v (plug c (node v l r)) u := by
  have hv := h.load (d := .left)
  have hlen := length_le_numNodes c (node v l r)
  simp only [removeNode, runs_bind, runs_load, hv, Option.some.injEq, exists_eq_left']
  cases l with
  | nil =>
    simp only [cellAt, cell, rootPtr_nil, Option.isSome_none, Bool.false_and, Bool.false_eq_true,
      ↓reduceIte, runs_bind, runs_load, hv, Option.some.injEq, exists_eq_left']
    exact removeOuter_spec (d := .right) h hT (by omega)
  | node a x y =>
    cases r with
    | nil =>
      simp only [cellAt, cell, rootPtr_nil, rootPtr_node, Option.isSome_none, Option.isSome_some,
        Bool.and_false, Bool.false_eq_true, ↓reduceIte, runs_bind, runs_load, hv,
        Option.some.injEq, exists_eq_left']
      exact removeOuter_spec (d := .left) (t := node a x y) h hT (by omega)
    | node b x' y' =>
      simp only [cellAt, cell, rootPtr_node, Option.isSome_some, Bool.and_self, ↓reduceIte]
      exact removeInner_spec h hT (by simp) (by simp) hf

end LanguageTest.RBTree
