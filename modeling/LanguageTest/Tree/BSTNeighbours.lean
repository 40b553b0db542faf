import LanguageTest.Library.Neighbours
import LanguageTest.Library.Traversal
import LanguageTest.Tree.BSTRuns

namespace LanguageTest.BST
open BinaryTree

/-- A pass of the two loops that look for a neighbour. The variable `plastVisit` is one of the first
loop only, and the other answer does not depend on it. -/
def neighbourPass (answer : Ptr → BTNode → Ptr) (ended : Ptr → Ptr) (data : Int) :
    List Ptr × Ptr × Ptr → Program State (Step (List Ptr × Ptr × Ptr) Ptr)
  | (s, pcur, plastVisit) => do
    if !s.isEmpty || pcur.isSome then
      if pcur.isSome then pure (.again (pcur :: s, (← load pcur).lchild, plastVisit))
      else
        let pcur ← topOf s
        let s ← popOf s
        let n ← load pcur
        if n.data = data then pure (.done (answer plastVisit n))
        else pure (.again (s, n.rchild, pcur))
    else pure (.done (ended plastVisit))

def predecessor (fuel : Nat) (data : Int) : Program State Ptr := do
  if ← empty then pure none
  else
    loop (neighbourPass (fun plastVisit _ => plastVisit) id data) fuel
      ([], (← getObject).root, none)

def successor (fuel : Nat) (data : Int) : Program State Ptr := do
  if ← empty then pure none
  else
    loop (neighbourPass (fun _ pcur => pcur.rchild) (fun _ => none) data) fuel
      ([], (← getObject).root, none)

/-- The node with the greatest key that is less, or NULL. -/
def IsPredecessor (t : Shape) (data : Int) : Ptr → Prop
  | none => ∀ k ∈ keys t, data ≤ k
  | some a => ∃ k, (a, k) ∈ t.inorder ∧ k < data ∧ ∀ j ∈ keys t, j < data → j ≤ k

/-- The node with the least key that is greater, or NULL. -/
def IsSuccessor (t : Shape) (data : Int) : Ptr → Prop
  | none => ∀ k ∈ keys t, k ≤ data
  | some a => ∃ k, (a, k) ∈ t.inorder ∧ data < k ∧ ∀ j ∈ keys t, data < j → k ≤ j

/-- Both functions find the neighbours of a key, and from the next greater key the one leads back
to where the other came from. -/
structure FindsNeighbours (fuel : Nat) (s : State) (t : Shape) (data : Int) : Prop where
  predecessor : Runs (predecessor fuel data) s fun p u => u = s ∧ IsPredecessor t data p
  successor : Runs (successor fuel data) s fun p u => u = s ∧ IsSuccessor t data p
  inverse : ∀ a b k, (a, data) ∈ t.inorder → (b, k) ∈ t.inorder → data < k →
    (∀ j ∈ keys t, data < j → k ≤ j) →
      Runs (BST.successor fuel data) s (fun p _ => p = some b) ∧
        Runs (BST.predecessor fuel k) s fun p _ => p = some a

/-- What the right subtree of the node with a key must be like. -/
def StartsNext (t : Shape) (data : Int) : Shape → Prop
  | .nil => ∀ k ∈ keys t, k ≤ data
  | .node _ l _ => l = nil

/-- The node with the key has a right child that has no left child, or it has no right child and
no key is greater. -/
def RightChildNext (t : Shape) (data : Int) : Prop :=
  ∃ c v l r, t = plug c (node v l r) ∧ v.2 = data ∧ StartsNext t data r

/-- The state of the loop: the nodes visited have other keys. -/
structure Seeking (data : Int) (s : State) (all : List (Ptr × BTNode)) (i : List Ptr × Ptr × Ptr)
    (past : List (Ptr × BTNode)) (t : Shape) (stack : List Shape) : Prop where
  owes : Owes BTNode.mk s.heap (fun _ u => u) all () ⟨i.1, i.2.1, past.map Prod.fst, ()⟩ past t
    stack
  last : i.2.2 = lastVisited (past.map Prod.fst)
  other : ∀ x ∈ past, x.2.data ≠ data

/-- The answer for the first visit of a node with the key. -/
def Sought (answer : Ptr → BTNode → Ptr) (data : Int) (all : List (Ptr × BTNode)) (p : Ptr) :
    Prop :=
  ∃ before x after, all = before ++ x :: after ∧ x.2.data = data ∧
    p = answer (lastVisited (before.map Prod.fst)) x.2

section
variable {s : State} {t l r : Shape} {v : Addr × Int} {stack : List Shape} {data : Int}
  {fuel : Nat} {all past : List (Ptr × BTNode)} {i : List Ptr × Ptr × Ptr}
  {answer : Ptr → BTNode → Ptr} {ended : Ptr → Ptr}

theorem Seeking.descend (h : Seeking data s all i past (node v l r) stack) :
    Seeking data s all (i.2.1 :: i.1, rootPtr l, i.2.2) past l (node v l r :: stack) where
  owes := h.owes.descend
  last := h.last
  other := h.other

theorem Seeking.take (h : Seeking data s all i past nil (node v l r :: stack)) (hv : v.2 ≠ data) :
    Seeking data s all (stack.map rootPtr, rootPtr r, some v.1)
      (past ++ [(some v.1, ⟨v.2, rootPtr l, rootPtr r⟩)]) r stack := by
  constructor
  case owes =>
    rw [List.map_append]
    exact h.owes.take
  case last => rw [List.map_append, List.map_singleton, lastVisited_concat]
  case other => exact List.forall_mem_append.mpr ⟨h.other, List.forall_mem_singleton.mpr hv⟩

theorem runs_neighbourPass (hmem : ∃ x ∈ all, x.2.data = data)
    (h : Seeking data s all i past t stack) :
    Runs (neighbourPass answer ended data i) s fun r u => u = s ∧ match r with
      | .again j => ∃ past' t' stack', passes t' stack' < passes t stack ∧
          Seeking data s all j past' t' stack'
      | .done p => Sought answer data all p := by
  obtain ⟨st, pcur, plastVisit⟩ := i
  obtain rfl : pcur = rootPtr t := h.owes.cur
  obtain rfl : st = stack.map rootPtr := h.owes.st
  cases t with
  | node v l r =>
    have hv := (laid_node.mp h.owes.linked).1
    simp only [neighbourPass, rootPtr_node, Option.isSome_some, Bool.or_true, if_true, runs_bind,
      runs_load, hv, Option.some.injEq, exists_eq_left', runs_pure, true_and]
    exact ⟨past, l, node v l r :: stack, passes_descend v l r, h.descend⟩
  | nil =>
    cases stack with
    | nil =>
      have hpast : past = all := by simpa [visits] using h.owes.all
      obtain ⟨x, hx, hdata⟩ := hmem
      exact absurd hdata (h.other x (hpast ▸ hx))
    | cons u stack =>
      cases u with
      | nil => exact absurd rfl (h.owes.stacked nil List.mem_cons_self).1
      | node v l r =>
        have hv := h.owes.top.2
        simp only [neighbourPass, List.map_cons, rootPtr_nil, rootPtr_node, List.isEmpty_cons,
          Bool.not_false, Bool.true_or, if_true, Option.isSome_none, Bool.false_eq_true, if_false,
          runs_bind, runs_topOf, runs_popOf, runs_load, hv, Option.some.injEq, exists_eq_left']
        split_ifs with hdata
        · refine runs_pure.mpr ⟨rfl, past, (some v.1, ⟨v.2, rootPtr l, rootPtr r⟩),
            visits BTNode.mk r ++ stack.flatMap (owed BTNode.mk), ?_, hdata, ?_⟩
          · rw [← h.owes.all]
            simp [visits, owed]
          · rw [← h.last]
        · exact runs_pure.mpr ⟨rfl, _, r, stack, passes_take v l r, h.take hdata⟩

theorem map_visits (t : Shape) :
    (visits BTNode.mk t).map (fun x => (x.1, x.2.data)) =
      t.inorder.map fun v => (some v.1, v.2) := by
  induction t with
  | nil => rfl
  | node v l r hl hr =>
    rw [visits, inorder_node, List.map_append, List.map_append, List.map_cons, List.map_cons, hl,
      hr]

theorem keys_eq (t : Shape) : keys t = (visits BTNode.mk t).map fun x => x.2.data := by
  have hmap := congrArg (List.map Prod.snd) (map_visits t)
  rw [List.map_map, List.map_map] at hmap
  exact hmap.symm

theorem mem_keys_iff {k : Int} : k ∈ keys t ↔ ∃ x ∈ visits BTNode.mk t, x.2.data = k := by
  rw [keys_eq, List.mem_map]

theorem exists_mem_inorder {x : Ptr × BTNode} (hx : x ∈ visits BTNode.mk t) :
    ∃ v ∈ t.inorder, x.1 = some v.1 ∧ x.2.data = v.2 := by
  have hmap := List.mem_map_of_mem (f := fun x : Ptr × BTNode => (x.1, x.2.data)) hx
  rw [map_visits, List.mem_map] at hmap
  obtain ⟨v, hv, heq⟩ := hmap
  obtain ⟨haddr, hdata⟩ := Prod.mk.inj heq
  exact ⟨v, hv, haddr.symm, hdata.symm⟩

theorem runs_neighbours (h : Represents s t) (hf : 2 * t.numNodes < fuel) (hd : data ∈ keys t)
    {e : Ptr} :
    Runs (do
      if ← empty then pure e
      else loop (neighbourPass answer ended data) fuel ([], (← getObject).root, none)) s fun p u =>
        u = s ∧ Sought answer data (visits BTNode.mk t) p := by
  have hne : (rootPtr t).isNone = false := by
    cases t with
    | nil => exact absurd hd List.not_mem_nil
    | node v l r => rfl
  rw [runs_bind, runs_empty h.toStores, hne, if_neg Bool.false_ne_true, runs_bind, runs_getObject,
    h.root]
  refine runs_loop (k := 2 * t.numNodes) (fun k i u => u = s ∧ ∃ past t' stack,
    k = passes t' stack ∧ Seeking data s (visits BTNode.mk t) i past t' stack) ?_
    ⟨rfl, [], t, [], rfl, owes_start h.linked, rfl, fun _ hx => absurd hx List.not_mem_nil⟩ hf
  rintro k i _ ⟨rfl, past, t', stack, rfl, hi⟩
  refine (runs_neighbourPass (mem_keys_iff.mp hd) hi).mono ?_
  rintro (j | p) _ ⟨rfl, hr⟩
  · obtain ⟨past', t'', stack', hlt, h'⟩ := hr
    exact ⟨_, hlt, rfl, past', t'', stack', rfl, h'⟩
  · exact ⟨rfl, hr⟩

/-- The node visited last before that of the key is the one with the next lesser key. -/
theorem isPredecessor_of_sought (hi : Increasing keyOf t) {p : Ptr}
    (h : Sought (fun plastVisit _ => plastVisit) data (visits BTNode.mk t) p) :
    IsPredecessor t data p := by
  obtain ⟨before, x, after, hall, rfl, rfl⟩ := h
  have hkeys := keys_eq t
  rw [hall, List.map_append, List.map_cons] at hkeys
  have hsorted : (keys t).Pairwise (· < ·) := hi
  rw [hkeys, List.pairwise_append, List.pairwise_cons] at hsorted
  obtain ⟨hbefore, ⟨hafter, -⟩, hacross⟩ := hsorted
  -- A key that is less was visited before.
  have hless : ∀ j ∈ keys t, j < x.2.data → j ∈ before.map fun x => x.2.data := by
    intro j hj hlt
    rw [hkeys, List.mem_append, List.mem_cons] at hj
    rcases hj with hj | rfl | hj
    · exact hj
    · exact absurd hlt (lt_irrefl _)
    · exact absurd hlt (hafter j hj).not_gt
  rcases List.eq_nil_or_concat before with rfl | ⟨q, y, rfl⟩
  · exact fun k hk => not_lt.mp fun hlt => List.not_mem_nil (hless k hk hlt)
  · rw [List.concat_eq_append] at *
    obtain ⟨v, hv, haddr, hdata⟩ := exists_mem_inorder (x := y) (t := t) (by simp [hall])
    rw [List.map_append, List.map_singleton, lastVisited_concat, haddr]
    refine ⟨v.2, hv, ?_, fun j hj hlt => ?_⟩
    · rw [← hdata]
      exact hacross _ (by simp) _ List.mem_cons_self
    · have hmem := hless j hj hlt
      rw [List.map_append, List.map_singleton, List.mem_append, List.mem_singleton] at hmem
      rw [List.map_append, List.map_singleton, List.pairwise_append] at hbefore
      rw [← hdata]
      rcases hmem with hmem | rfl
      · exact (hbefore.2.2 j hmem _ List.mem_cons_self).le
      · exact le_rfl

/-- A right child is next exactly when it has no left child, and NULL is right after the greatest
key only. -/
theorem isSuccessor_right_iff {c : AddrContext Int} (hi : Increasing keyOf (plug c (node v l r)))
    (hn : (addrs (plug c (node v l r))).Nodup) :
    IsSuccessor (plug c (node v l r)) v.2 (rootPtr r) ↔
      StartsNext (plug c (node v l r)) v.2 r := by
  cases r with
  | nil => exact Iff.rfl
  | node w rl rr =>
    obtain ⟨low, high, hsplit⟩ : ∃ low high, (plug c (node v l (node w rl rr))).inorder =
        low ++ v :: (rl.inorder ++ w :: high) :=
      ⟨c.before ++ l.inorder, rr.inorder ++ c.after, by rw [inorder_plug]; simp⟩
    rw [rootPtr_node, StartsNext]
    generalize plug c (node v l (node w rl rr)) = t at *
    have hkeys : keys t = t.inorder.map keyOf := rfl
    have hsorted : (keys t).Pairwise (· < ·) := hi
    rw [hkeys, hsplit, List.map_append, List.map_cons, List.map_append, List.map_cons,
      List.pairwise_append, List.pairwise_cons, List.pairwise_append, List.pairwise_cons] at hsorted
    obtain ⟨-, ⟨hright, -, ⟨hbeyond, -⟩, hbetween⟩, hleft⟩ := hsorted
    have hw : w ∈ t.inorder := by simp [hsplit]
    have hvw : v.2 < w.2 := hright _ (by simp [keyOf])
    constructor
    · rintro ⟨k, hk, -, hleast⟩
      have hwk : (w.1, k) = w := List.inj_on_of_nodup_map hn hk hw rfl
      obtain rfl : k = w.2 := congrArg Prod.snd hwk
      cases rl with
      | nil => rfl
      | node x a b =>
        have hx : x ∈ t.inorder := by simp [hsplit]
        have hvx : v.2 < x.2 := hright _ (by simp [keyOf])
        have hxw : x.2 < w.2 := hbetween _ (List.mem_map_of_mem (by simp)) _ List.mem_cons_self
        exact absurd (hleast x.2 (List.mem_map_of_mem hx) hvx) hxw.not_ge
    · rintro rfl
      refine ⟨w.2, hw, hvw, fun j hj hlt => ?_⟩
      rw [hkeys, hsplit, List.map_append, List.mem_append] at hj
      rcases hj with hj | hj
      · exact absurd hlt (hleft j hj _ List.mem_cons_self).not_gt
      · simp only [inorder_nil, List.nil_append, List.map_cons, List.mem_cons] at hj
        rcases hj with rfl | rfl | hj
        · exact absurd hlt (lt_irrefl _)
        · exact le_rfl
        · exact (hbeyond j hj).le

theorem eq_of_keyOf_eq (hi : Increasing keyOf t) {v w : Addr × Int} (hv : v ∈ t.inorder)
    (hw : w ∈ t.inorder) (hkey : v.2 = w.2) : v = w :=
  List.inj_on_of_nodup_map hi.nodup hv hw hkey

theorem runs_predecessor (h : Represents s t) (hf : 2 * t.numNodes < fuel) (hd : data ∈ keys t) :
    Runs (predecessor fuel data) s fun p u => u = s ∧ IsPredecessor t data p := by
  refine (runs_neighbours h hf hd).mono ?_
  rintro p _ ⟨rfl, hp⟩
  exact ⟨rfl, isPredecessor_of_sought h.increasing hp⟩

/-- The answer of `successor` is the right child. -/
theorem runs_successor {c : AddrContext Int} (h : Represents s (plug c (node v l r)))
    (hf : 2 * (plug c (node v l r)).numNodes < fuel) :
    Runs (successor fuel v.2) s fun p u => u = s ∧ p = rootPtr r := by
  have hv : v ∈ (plug c (node v l r)).inorder := by simp [inorder_plug]
  refine (runs_neighbours h hf (List.mem_map_of_mem hv)).mono ?_
  rintro _ _ ⟨rfl, before, x, after, hall, hdata, rfl⟩
  refine ⟨rfl, ?_⟩
  have hx : x ∈ visits BTNode.mk (plug c (node v l r)) := by simp [hall]
  obtain ⟨c', w, l', r', hplug, rfl⟩ := exists_plug_of_mem_visits hx
  have hw : w ∈ (plug c (node v l r)).inorder := by simp [hplug, inorder_plug]
  obtain rfl := eq_of_keyOf_eq h.increasing hw hv hdata
  have hload := h.load
  rw [hplug] at h
  exact congrArg BTNode.rchild (Option.some.inj (h.load.symm.trans hload))

theorem IsSuccessor.eq_some (hi : Increasing keyOf t) {p : Ptr} {b : Addr} {k : Int}
    (h : IsSuccessor t data p) (hb : (b, k) ∈ t.inorder) (hk : data < k)
    (hleast : ∀ j ∈ keys t, data < j → k ≤ j) : p = some b := by
  have hkey : k ∈ keys t := List.mem_map_of_mem hb
  cases p with
  | none => exact absurd hk (h k hkey).not_gt
  | some a =>
    obtain ⟨j, hj, hlt, hle⟩ := h
    have hjk : j = k := le_antisymm (hle k hkey hk) (hleast j (List.mem_map_of_mem hj) hlt)
    exact congrArg (fun v : Addr × Int => some v.1) (eq_of_keyOf_eq hi hj hb hjk)

theorem IsPredecessor.eq_some (hi : Increasing keyOf t) {p : Ptr} {a : Addr} {k : Int}
    (h : IsPredecessor t k p) (ha : (a, data) ∈ t.inorder) (hk : data < k)
    (hleast : ∀ j ∈ keys t, data < j → k ≤ j) : p = some a := by
  have hkey : data ∈ keys t := List.mem_map_of_mem ha
  cases p with
  | none => exact absurd hk (h data hkey).not_gt
  | some b =>
    obtain ⟨j, hj, hlt, hle⟩ := h
    have hjd : j = data := by
      refine le_antisymm (not_lt.mp fun hgt => ?_) (hle data hkey hk)
      exact absurd (hleast j (List.mem_map_of_mem hj) hgt) hlt.not_ge
    exact congrArg (fun v : Addr × Int => some v.1) (eq_of_keyOf_eq hi hj ha hjd)

theorem findsNeighbours_iff (h : Represents s t) (hf : 2 * t.numNodes < fuel)
    (hd : data ∈ keys t) : FindsNeighbours fuel s t data ↔ RightChildNext t data := by
  constructor
  · intro hfinds
    obtain ⟨v, hv, rfl⟩ := List.mem_map.mp hd
    obtain ⟨c, l, r, rfl⟩ := exists_node_of_mem hv
    obtain ⟨_, _, -, ⟨-, hp⟩, -, rfl⟩ := hfinds.successor.and (runs_successor h hf)
    exact ⟨c, v, l, r, rfl, rfl, (isSuccessor_right_iff h.increasing h.nodup).mp hp⟩
  · rintro ⟨c, v, l, r, rfl, rfl, hnext⟩
    have hsuccessor : Runs (successor fuel v.2) s fun p u =>
        u = s ∧ IsSuccessor (plug c (node v l r)) v.2 p := by
      refine (runs_successor h hf).mono ?_
      rintro _ _ ⟨rfl, rfl⟩
      exact ⟨rfl, (isSuccessor_right_iff h.increasing h.nodup).mpr hnext⟩
    constructor
    case predecessor => exact runs_predecessor h hf hd
    case successor => exact hsuccessor
    case inverse =>
      intro a b k ha hb hk hleast
      constructor
      · exact hsuccessor.mono fun p u hp => hp.2.eq_some h.increasing hb hk hleast
      · refine (runs_predecessor h hf (List.mem_map_of_mem hb)).mono ?_
        exact fun p u hp => hp.2.eq_some h.increasing ha hk hleast

theorem setAfter_insertions (datas : List Int) :
    setAfter (datas.map .insertNode) = datas.toFinset := by
  induction datas using List.reverseRecOn with
  | nil => rfl
  | append_singleton datas data ih =>
    rw [List.map_append, List.map_singleton, setAfter_append, ih, Op.onSet, List.toFinset_append]
    ext k
    simp

/-- Among insertions of no more keys than `size` can count each one finds its key or room. -/
theorem ActsAsSet.room {pre post : List Op} {rs : List Bool} {datas : List Int}
    (h : ActsAsSet pre rs s t) (hkeys : datas.toFinset.card ≤ 2147483647)
    (he : datas.map .insertNode = pre ++ .insertNode data :: post) :
    t.numNodes < 2147483647 ∨ data ∈ BST.keys t := by
  obtain ⟨before, after, rfl, rfl, hafter⟩ := List.map_eq_append_iff.mp he
  obtain ⟨k, after, rfl, hk, -⟩ := List.map_eq_cons_iff.mp hafter
  obtain rfl := Op.insertNode.inj hk
  by_cases hm : k ∈ BST.keys t
  · exact .inr hm
  · left
    rw [← List.mem_toFinset] at hm
    calc t.numNodes < (insert k (BST.keys t).toFinset).card := by
          rw [Finset.card_insert_of_notMem hm, ← numNodes_eq_card h.represents]
          exact Nat.lt_succ_self _
      _ ≤ (before ++ k :: after).toFinset.card := by
          refine Finset.card_le_card ?_
          rw [h.keys, setAfter_insertions, List.toFinset_append, List.toFinset_cons]
          exact Finset.insert_subset (by simp) Finset.subset_union_left
      _ ≤ 2147483647 := hkeys

/-- A tree of insertions finds the neighbours of exactly the keys whose next one, if there is one,
is in the right child. -/
theorem run_neighbours_iff (datas : List Int) (fuel : Nat) (hf : 2 * datas.length < fuel)
    (hkeys : datas.toFinset.card ≤ 2147483647) :
    Runs (run fuel (datas.map .insertNode)) initial fun rs s => ∃ t,
      ActsAsSet (datas.map .insertNode) rs s t ∧
        ∀ data ∈ keys t, FindsNeighbours fuel s t data ↔ RightChildNext t data := by
  refine Runs.mono (runs_all (fun pre rs s => ∃ t, ActsAsSet pre rs s t) _ ?_
    ⟨nil, initial_acts⟩) ?_
  · rintro pre op post rs s he ⟨t, h⟩
    have hlength := congrArg List.length he
    rw [List.length_map, List.length_append, List.length_cons] at hlength
    have hop : op ∈ datas.map Op.insertNode := by simp [he]
    obtain ⟨data, -, rfl⟩ := List.mem_map.mp hop
    have hle := h.numNodes_le
    exact insertNode_acts h (h.room hkeys he) (by omega)
  · rintro rs s ⟨t, h⟩
    have hle := h.numNodes_le
    rw [List.length_map] at hle
    exact ⟨t, h, fun data hd => findsNeighbours_iff h.represents (by omega) hd⟩

theorem run_neighbours_iff_three :
    Runs (run 7 ([2, 1, 3].map .insertNode)) initial fun rs s => ∃ t,
      ActsAsSet ([2, 1, 3].map .insertNode) rs s t ∧
        ∀ data ∈ keys t, FindsNeighbours 7 s t data ↔ RightChildNext t data :=
  run_neighbours_iff [2, 1, 3] 7 (by decide) (by decide)

/-- The successor of a left leaf is its parent, which is not found. -/
theorem run_neighbours_leaf :
    ¬ ∀ (datas : List Int) (fuel : Nat), 2 * datas.length < fuel →
      datas.toFinset.card ≤ 2147483647 →
        Runs (run fuel (datas.map .insertNode)) initial fun rs s => ∃ t,
          ActsAsSet (datas.map .insertNode) rs s t ∧
            ∀ data ∈ keys t, FindsNeighbours fuel s t data := by
  intro h
  let s : State := ⟨⟨some 0, 2⟩, ((Heap.empty.alloc ⟨2, none, none⟩).alloc
    ⟨1, none, none⟩).modify 0 (BTNode.setLchild (some 1))⟩
  have hrun : run 5 [.insertNode 2, .insertNode 1] initial = .ok ([true, true], s) := rfl
  obtain ⟨t, hacts, hfinds⟩ := (runs_of_ok hrun).mp (h [2, 1] 5 (by decide) (by decide))
  have hkeys : ∀ k, k ∈ keys t ↔ k ∈ setAfter ([2, 1].map .insertNode) := by
    intro k
    rw [← hacts.keys, List.mem_toFinset]
  have hsuccessor : successor 5 1 s = .ok (none, s) := rfl
  obtain ⟨-, hnone⟩ := (runs_of_ok hsuccessor).mp
    (hfinds 1 ((hkeys 1).mpr (by decide))).successor
  exact absurd (hnone 2 ((hkeys 2).mpr (by decide))) (by decide)

end

end LanguageTest.BST
