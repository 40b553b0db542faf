import LanguageTest.Tree.RBTreeHeap

namespace LanguageTest.RBTree
open BinaryTree

variable {s : State} {spare : Ptr} {c : AddrContext Item} {d : Side}

/-- What every pass of the loop of `insertFixUp` keeps: the node is red, its subtree is well
coloured, and only the edge to its parent may join two red nodes. -/
structure Climbing (E : List (Addr × Int)) (spare : Ptr) (k : Nat) (node : Ptr) (s : State)
    (c : AddrContext Item) (t : Shape) (n : Nat) : Prop where
  represents : Represents s (plug c t) spare
  node : node = rootPtr t
  subtree : RedBlack isRed true n t
  context : Fits isRed n c
  depth : c.length ≤ k
  entries : entries (plug c t) = E

theorem insertFixUpOuter_climbs {E : List (Addr × Int)} {p g : Addr × Item} {sib u t : Shape}
    {n : Nat} (h : Represents s (plug (⟨d, p, sib⟩ :: ⟨d, g, u⟩ :: c) t) spare)
    (ht : RedBlack isRed true n t) (hs : RedBlack isRed false n sib)
    (hu : RedBlack isRed false n u) (hc : Fits isRed (n + 1) c)
    (hE : entries (plug (⟨d, p, sib⟩ :: ⟨d, g, u⟩ :: c) t) = E) :
    Runs (insertFixUpOuter d (rootPtr t) (some p.1) (some g.1)) s fun r s' =>
      ∃ j c' t' n', r = .again j ∧ Climbing E spare (c.length + 1) j s' c' t' n' := by
  simp only [insertFixUpOuter, runs_bind, rbSetBlack, rbSetRed]
  have h0 : Represents s (plug (⟨d, g, u⟩ :: c) (branch d p t sib)) spare := h
  refine (h0.setColor .black).mono fun _ s1 h1 => ?_
  have h1' : Represents s1 (plug c (branch d g (branch d (p.1, .black, p.2.2) t sib) u)) spare := h1
  refine (h1'.setColor .red).mono fun _ s2 h2 => ?_
  rw [← branch_other, ← branch_other d (p.1, _)] at h2
  refine h2.rotate.mono fun _ s3 h3 => ?_
  rw [branch_other, branch_other] at h3
  rw [runs_pure]
  refine ⟨_, ⟨d, _, _⟩ :: c, t, n, rfl, h3, rfl, ht, ?_, by simp, ?_⟩
  · exact .black rfl ((redBlack_branch_red rfl).mpr ⟨rfl, hs, hu⟩) hc
  · rw [← hE]
    cases d <;> simp [entries, inorder_plug]

theorem insertFixUpSide_climbs {E : List (Addr × Int)} {e : Side} {p g : Addr × Item}
    {sib u t : Shape} {n : Nat} (h : Represents s (plug (⟨e, p, sib⟩ :: ⟨d, g, u⟩ :: c) t) spare)
    (ht : RedBlack isRed true n t) (hp : isRed p = true) (hs : RedBlack isRed false n sib)
    {b : Bool} (hu : RedBlack isRed b n u) (hc : Fits isRed (n + 1) c)
    (hE : entries (plug (⟨e, p, sib⟩ :: ⟨d, g, u⟩ :: c) t) = E) :
    Runs (insertFixUpSide d (rootPtr t) (some p.1) (some g.1)) s fun r s' =>
      ∃ j c' t' n', r = .again j ∧ Climbing E spare (c.length + 1) j s' c' t' n' := by
  have hgc := (show Represents s (plug c (branch d g (branch e p t sib) u)) spare from h).load
  simp only [insertFixUpSide, runs_bind, runs_load, hgc, Option.some.injEq, exists_eq_left',
    cellAt_child_other]
  have hur : Represents s (plug (⟨d.other, g, branch e p t sib⟩ :: c) u) spare := by
    rw [plug_swap]
    exact h
  rw [hur.runs_presentAndRed, hu.rootRed]
  cases b with
  | true =>
    -- Case 1: recolouring moves the conflict two levels up.
    cases hu with
    | @red _ w x y hw hx hy =>
    simp only [↓reduceIte, runs_bind, rbSetBlack, rbSetRed]
    refine (hur.setColor (d := .left) .black).mono fun _ s1 h1 => ?_
    rw [plug_swap] at h1
    have h1' : Represents s1 (plug (⟨d, g, _⟩ :: c) (branch e p t sib)) spare := h1
    refine (h1'.setColor .black).mono fun _ s2 h2 => ?_
    have h2' : Represents s2 (plug c (branch d g (branch e (p.1, .black, p.2.2) t sib) _)) spare :=
      h2
    refine (h2'.setColor .red).mono fun _ s3 h3 => ?_
    rw [runs_pure]
    refine ⟨_, c, _, n + 1, rfl, h3, by simp, ?_, hc, by simp, ?_⟩
    · refine (redBlack_branch_red rfl).mpr ⟨rfl, ?_, .black rfl hx hy⟩
      exact (redBlack_branch_black rfl).mpr ⟨rfl, n, rfl, ⟨_, ht⟩, _, hs⟩
    · rw [← hE]
      cases d <;> cases e <;> simp [entries, inorder_plug]
  | false =>
    have hpc := (show Represents s (plug (⟨d, g, u⟩ :: c) (branch e p t sib)) spare from h).load
    have hne := h.sibling_ne (.inl (by rintro rfl; cases ht))
    simp only [Bool.false_eq_true, ↓reduceIte, runs_bind, runs_load, hpc, Option.some.injEq,
      exists_eq_left', cellAt_child_eq]
    rcases e.eq_or_other d with rfl | rfl
    · simp only [Side.other_ne, ↓reduceIte, hne]
      exact insertFixUpOuter_climbs h ht hs hu hc hE
    · cases ht with
      | @red _ v l r hv hl hr =>
      obtain ⟨x, y, hxy⟩ : ∃ x y, node v l r = branch d v x y := by
        cases d
        · exact ⟨l, r, rfl⟩
        · exact ⟨r, l, rfl⟩
      have ht : RedBlack isRed true n (branch d v x y) := hxy ▸ .red hv hl hr
      rw [hxy] at h hE ⊢
      obtain ⟨-, hx, hy⟩ := (redBlack_branch_red hv).mp ht
      simp only [↓reduceIte, runs_bind, rootPtr_branch]
      have h0 : Represents s (plug (⟨d, g, u⟩ :: c) (branch d p sib (branch d v x y))) spare := by
        rw [← branch_other]
        exact h
      refine h0.rotate.mono fun _ s1 h1 => ?_
      have h1' : Represents s1 (plug (⟨d, v, y⟩ :: ⟨d, g, u⟩ :: c) (branch d p sib x)) spare := h1
      have hpx : RedBlack isRed true n (branch d p sib x) :=
        (redBlack_branch_red hp).mpr ⟨rfl, hs, hx⟩
      have hE1 : entries (plug (⟨d, v, y⟩ :: ⟨d, g, u⟩ :: c) (branch d p sib x)) = E := by
        rw [← hE]
        cases d <;> simp [entries, inorder_plug, Side.other]
      simpa using insertFixUpOuter_climbs h1' hpx hy hu hc hE1

theorem Represents.blackenRoot {T : Shape} {b : Bool} {m : Nat} (h : Represents s T spare)
    (hT : RedBlack isRed b m T) (hne : T ≠ nil) :
    Runs (rbSetBlack s.object.mRoot) s fun _ s' =>
      ∃ T' m', Represents s' T' spare ∧ RedBlack isRed false m' T' ∧ entries T' = entries T := by
  rw [h.root]
  cases hT with
  | nil => contradiction
  | @red _ v l r hv hl hr =>
    have h0 : Represents s (plug [] (branch .left v l r)) spare := h
    exact (h0.setColor .black).mono fun _ s1 h1 =>
      ⟨_, m + 1, h1, .black rfl hl hr, entries_recolor .left v .black l r⟩
  | @black _ _ n v l r hv hl hr =>
    have h0 : Represents s (plug [] (branch .left v l r)) spare := h
    exact (h0.setColor .black).mono fun _ s1 h1 =>
      ⟨_, n + 1, h1, .black rfl hl hr, entries_recolor .left v .black l r⟩

/-- `insertFixUp` ends, follows no null pointer, and turns a tree whose only defect is a red
node under a red parent, or a red root, into a red-black tree of the same entries. -/
theorem insertFixUp_spec {n : Nat} {t : Shape} {fuel : Nat} (h : Represents s (plug c t) spare)
    (ht : RedBlack isRed true n t) (hc : Fits isRed n c) (hf : c.length < fuel) :
    Runs (insertFixUp fuel (rootPtr t)) s fun _ s' =>
      ∃ T m, Represents s' T spare ∧ RedBlack isRed false m T ∧
        entries T = entries (plug c t) := by
  simp only [insertFixUp, runs_bind]
  refine (runs_loop (k := c.length)
    (Q := fun _ s' => ∃ T b m, Represents s' T spare ∧ RedBlack isRed b m T ∧ T ≠ nil ∧
      entries T = entries (plug c t))
    (fun k node s' => ∃ c' t' n', Climbing (entries (plug c t)) spare k node s' c' t' n')
    ?_ ⟨c, t, n, h, rfl, ht, hc, le_rfl, rfl⟩ hf).mono ?_
  · intro k _ s1 hpost
    obtain ⟨c1, t1, n1, h1, rfl, ht1, hc1, hk, hE⟩ := hpost
    cases ht1 with
    | @red _ v l r hv hl hr =>
    have ht1 : RedBlack isRed true n1 (node v l r) := .red hv hl hr
    have hv1 := h1.load (d := .left)
    simp only [rootPtr_node, runs_bind, runs_load, hv1, Option.some.injEq, exists_eq_left',
      cellAt_parent]
    cases c1 with
    | nil =>
      simp only [upPtr_nil, presentAndRed, runs_pure, Bool.false_eq_true, ↓reduceIte]
      exact ⟨_, true, n1, h1, ht1, by simp, hE⟩
    | cons f c1 =>
      obtain ⟨e, p, sib⟩ := f
      have hp : Represents s1 (plug c1 (branch e p (node v l r) sib)) spare := h1
      simp only [upPtr_cons, hp.runs_presentAndRed_branch]
      cases hpr : isRed p with
      | false =>
        obtain ⟨m, hm⟩ := hc1.plug ht1 (.inr hpr)
        simp only [Bool.false_eq_true, ↓reduceIte, runs_pure]
        exact ⟨_, false, m, h1, hm, plug_ne_nil _ (by simp), hE⟩
      | true =>
        -- A red parent is not the root, so there is a grandparent, and it is black.
        obtain ⟨hs, hc2, hb⟩ := hc1.blackAbove_of_red hpr
        cases c1 with
        | nil => exact hb.elim
        | cons f c2 =>
        obtain ⟨d, g, u⟩ := f
        obtain ⟨⟨b, hu⟩, hc3⟩ := hc2.of_black hb
        have hg : Represents s1 (plug c2 (branch d g (branch e p (node v l r) sib) u)) spare := hp
        have hne := hp.sibling_ne (.inl (branch_ne_nil _ _ _ _))
        rw [rootPtr_branch] at hne
        simp only [↓reduceIte, runs_bind, runs_load, hp.load, hg.load, Option.some.injEq,
          exists_eq_left', cellAt_parent, upPtr_cons, rootPtr_branch, eq_comm (a := some p.1)]
        rw [ite_left_eq (F := fun e => insertFixUpSide e (some v.1) (some p.1) (some g.1))
          (h := hne)]
        refine (insertFixUpSide_climbs h1 ht1 hpr hs hu hc3 hE).mono ?_
        intro _ s2 hpost
        obtain ⟨j, c', t', n', rfl, hj⟩ := hpost
        exact ⟨c2.length + 1, by simp at hk; omega, c', t', n', hj⟩
  · intro _ s1 hpost
    obtain ⟨T, b, m, h1, hT, hne, hE⟩ := hpost
    rw [runs_getObject]
    refine (h1.blackenRoot hT hne).mono ?_
    intro _ s2 hpost
    obtain ⟨T', m', h2, hT', hE'⟩ := hpost
    exact ⟨T', m', h2, hT', hE'.trans hE⟩

theorem linkNode_spec {z : Addr} {k : RBTColor} {key : Int} {p : Ptr}
    (h : Represents s (plug c nil) (some z)) (hz : z ∉ contextAddrs c)
    (hv : s.heap.cells z = some (cell (k, key) none none p)) (hp : InsertPoint keyOf key c) :
    Runs (linkNode (some z) (upPtr none c)) s fun _ u =>
      Represents u (plug c (node (z, k, key) nil nil)) none := by
  have hl := (linked_plug.mp h.linked).1
  have hn := h.nodup
  have hnodup : (addrs (plug c (node (z, k, key) nil nil))).Nodup := by
    rw [nodup_plug] at hn ⊢
    exact ⟨by simp, hn.2.1, by simpa [List.Disjoint] using hz⟩
  have hdom : ∀ u : State, (∀ a, (u.heap.cells a).isSome = (s.heap.cells a).isSome) → ∀ a,
      (u.heap.cells a).isSome = true ↔
        a ∈ addrs (plug c (node (z, k, key) nil nil)) ∨ none = some a := by
    intro u hu a
    simp [hu, h.domain, mem_addrs_plug, eq_comm, or_comm]
  simp only [linkNode, rbSetParent, runs_bind, runs_modify, hv, Option.isSome_some, true_and]
  cases c with
  | nil =>
    simp only [upPtr_nil, Option.isSome_none, Bool.false_eq_true, ↓reduceIte, setRoot,
      runs_setObject]
    refine ⟨rfl, ?_, hnodup, hdom _ fun a => s.heap.modify_isSome _ _ _⟩
    simp [linked_node, hv, cell, RBTNode.setParent]
  | cons f c =>
    have hf := hl.1
    have hne : f.value.1 ≠ z := by
      intro heq
      subst heq
      simp at hz
    have hz' : z ∉ addrs f.other ∧ z ∉ contextAddrs c := by simpa [hne.symm] using hz
    simp only [upPtr_cons, Option.isSome_some, ↓reduceIte, runs_bind, runs_load,
      Heap.modify_cells, hv, hf, hne, Option.map_some, Option.some.injEq, exists_eq_left',
      cellAt_key]
    have hside : (if (RBTNode.setParent (some f.value.1) (cell (k, key) none none p)).key <
          f.value.2.2
        then modify (some f.value.1) (RBTNode.setChild .left (some z))
        else modify (some f.value.1) (RBTNode.setChild .right (some z)) : Program State Unit) =
        modify (some f.value.1) (RBTNode.setChild f.side (some z)) := by
      have hp' : key < f.value.2.2 ↔ f.side = .left := hp.side
      by_cases hk : key < f.value.2.2
      · simp [cell, RBTNode.setParent, hk, hp'.mp hk]
      · have hd : f.side = .right := by
          cases hd : f.side <;> simp_all
        simp [cell, RBTNode.setParent, hk, hd]
    rw [hside, runs_modify]
    refine ⟨by simp [hne, hf], ?_, linked_plug.mpr ⟨?_, ?_⟩, hnodup, hdom _ fun a => ?_⟩
    · exact h.root.trans (rootPtr_plug_cons f c _ _)
    · rw [nodup_plug, contextAddrs_cons, List.nodup_cons, List.mem_append] at hn
      refine (hl.modify (f := RBTNode.setParent (some f.value.1)) hz).hole_congr
        (by simp [hne, hf]) ?_
      intro x hx
      rw [Heap.modify_cells, if_neg]
      intro heq
      subst heq
      exact hn.2.1.1 hx
    · simp [linked_node, hv, cell, RBTNode.setParent, hne.symm]
    · rw [Heap.modify_isSome, Heap.modify_isSome]

/-- The private `insert` puts a detached node at the place where a descent for its key ends
and rebalances. -/
theorem insertNode_spec {T : Shape} {m fuel : Nat} {z : Addr} {k : RBTColor} {key : Int} {p : Ptr}
    (h : Represents s T (some z)) (hz : z ∉ addrs T)
    (hv : s.heap.cells z = some (cell (k, key) none none p)) (hs : Sorted keyOf T)
    (hT : RedBlack isRed false m T) (hf : T.numNodes < fuel) :
    Runs (insertNode fuel (some z)) s fun _ u =>
      ∃ T' m', Represents u T' none ∧ RedBlack isRed false m' T' ∧ Sorted keyOf T' ∧
        (entries T').Perm ((z, key) :: entries T) := by
  simp only [insertNode, runs_bind, runs_getObject]
  refine (runs_loop (k := T.numNodes)
    (Q := fun y u => u = s ∧ ∃ c, plug c nil = T ∧ y = upPtr none c ∧ InsertPoint keyOf key c)
    (fun j i u => u = s ∧ ∃ c t, plug c t = T ∧ i = (upPtr none c, rootPtr t) ∧
      InsertPoint keyOf key c ∧ t.numNodes ≤ j)
    ?_ ⟨rfl, [], T, rfl, by simp [h.root], insertPoint_nil, le_rfl⟩ hf).mono ?_
  · intro j _ _ hpost
    obtain ⟨rfl, c, t, rfl, rfl, hp, hj⟩ := hpost
    cases t with
    | nil =>
      simp only [rootPtr_nil, Option.isSome_none, Bool.false_eq_true, ↓reduceIte, runs_pure]
      exact ⟨trivial, c, rfl, rfl, hp⟩
    | node v l r =>
      have hload := h.load (d := .left)
      simp only [rootPtr_node, Option.isSome_some, ↓reduceIte, runs_bind, runs_load, hv, hload,
        Option.some.injEq, exists_eq_left', cellAt_key]
      simp only [numNodes] at hj
      split_ifs with hk
      · simp only [runs_bind, runs_load, hload, Option.some.injEq, exists_eq_left', runs_pure]
        exact ⟨l.numNodes, by omega, trivial, ⟨.left, v, r⟩ :: c, l, rfl, rfl, hp.left hs hk, le_rfl⟩
      · simp only [runs_bind, runs_load, hload, Option.some.injEq, exists_eq_left', runs_pure]
        exact ⟨r.numNodes, by omega, trivial, ⟨.right, v, l⟩ :: c, r, rfl, rfl, hp.right hs hk,
          le_rfl⟩
  · intro _ _ hpost
    obtain ⟨rfl, c, rfl, rfl, hp⟩ := hpost
    rw [mem_addrs_plug, not_or] at hz
    refine (linkNode_spec h hz.2 hv hp).mono fun _ s1 h1 => ?_
    have h1' : Represents s1 (plug c (branch .left (z, k, key) nil nil)) none := h1
    refine (h1'.setColor .red).mono fun _ s2 h2 => ?_
    obtain ⟨n, b, hn, hc, hb⟩ := hT.fits
    cases hn
    have hlen := length_le_numNodes c (nil : Shape)
    refine (insertFixUp_spec (t := node (z, .red, key) nil nil) h2 (.red rfl .nil .nil) hc
      (by omega)).mono ?_
    intro _ s3 hpost
    obtain ⟨T', m', h3, hT', hE⟩ := hpost
    refine ⟨T', m', h3, hT', ?_, ?_⟩
    · exact sorted_of_entries (InsertPoint.sorted (v := (z, .red, key)) hp hs) hE
    · rw [hE]
      simp only [entries, inorder_plug, inorder_node, inorder_nil, List.nil_append, List.map_append,
        List.map_cons, List.append_nil, List.append_assoc, List.cons_append]
      exact List.perm_middle

theorem insert_spec {T : Shape} {m fuel : Nat} {key : Int} (h : Represents s T none)
    (hs : Sorted keyOf T) (hT : RedBlack isRed false m T) (hf : T.numNodes < fuel) :
    Runs (insert fuel key) s fun _ u =>
      ∃ T' m' z, Represents u T' none ∧ RedBlack isRed false m' T' ∧ Sorted keyOf T' ∧
        z ∉ addrs T ∧ (entries T').Perm ((z, key) :: entries T) := by
  have hfresh : s.heap.next ∉ addrs T := by
    intro hm
    have := (h.domain _).mpr (.inl hm)
    rw [s.heap.next_fresh] at this
    cases this
  let s1 : State := { s with heap := s.heap.alloc (cell (.black, key) none none none) }
  have hv : s1.heap.cells s.heap.next = some (cell (.black, key) none none none) := by simp [s1]
  have h1 : Represents s1 T (some s.heap.next) := by
    refine ⟨h.root, h.linked.alloc hfresh, h.nodup, fun a => ?_⟩
    by_cases ha : a = s.heap.next
    · simp [s1, ha]
    · simpa [s1, ha, Ne.symm ha] using h.domain a
  simp only [insert, runs_bind, runs_new]
  refine (insertNode_spec h1 hfresh hv hs hT hf).mono ?_
  intro _ u hpost
  obtain ⟨T', m', h2, hT', hs', hE⟩ := hpost
  exact ⟨T', m', _, h2, hT', hs', hfresh, hE⟩

end LanguageTest.RBTree
