import Mathlib.Algebra.Order.Ring.Int
import LanguageTest.Library.Arithmetic
import LanguageTest.Library.GreaterSums
import LanguageTest.Library.Traversal

namespace LanguageTest.ConvertBST
open BinaryTree

structure TreeNode where
  val : Int
  left : Ptr
  right : Ptr

abbrev State := Machine Unit TreeNode

/-- `p->val = v`. -/
def assignVal (p : Ptr) (v : Int) : Program State Unit := modify p fun n => { n with val := v }

/-- The first argument bounds the depth of the recursion. The result is the value of `sum` after
the call. -/
def helper : Nat → Ptr → Int → Program State Int
  | 0, _, _ => fail .outOfFuel
  | fuel + 1, root, sum => do
    if root.isNone then pure sum
    else
      let sum ← helper fuel (← load root).right sum
      assignVal root (← int ((← load root).val + sum))
      let sum := (← load root).val
      helper fuel (← load root).left sum

def convertBST (fuel : Nat) (root : Ptr) : Program State Ptr := do
  let _ ← helper fuel root 0
  pure root

/-- A pass of the loop over `s`, `data` and `cur`. -/
def collect : List Ptr × List Ptr × Ptr →
    Program State (Step (List Ptr × List Ptr × Ptr) (List Ptr))
  | (st, data, cur) => do
    if cur.isSome || !st.isEmpty then
      if cur.isSome then pure (.again (cur :: st, data, (← load cur).left))
      else
        let top ← topOf st
        let st ← popOf st
        -- `cur = cur->right` assigns to the variable of the block, not to that of the loop.
        let _ := (← load top).right
        pure (.again (st, top :: data, cur))
    else pure (.done data)

/-- A pass of the loop over `data` and `pre`. -/
def addPrevious : List Ptr × Ptr → Program State (Step (List Ptr × Ptr) Unit)
  | (data, pre) => do
    if !data.isEmpty then
      let cur ← topOf data
      let data ← popOf data
      assignVal cur (← int ((← load cur).val + (← load pre).val))
      pure (.again (data, cur))
    else pure (.done ())

def convertBST2 (fuel : Nat) (root : Ptr) : Program State Ptr := do
  if root.isNone then pure none
  else
    let data ← loop collect fuel ([], [], root)
    let pre ← topOf data
    let data ← popOf data
    loop addPrevious fuel (data, pre)
    pure root

/-- The Greater Tree: every value with the sum of all greater ones. -/
def greaterTree (t : AddrTree Int) : AddrTree Int := t.map fun v => (v.1, v.2 + greaterSum t v.2)

/-- The call returns the root, and the nodes of the tree hold the Greater Tree. -/
def Converts (m : Program State Ptr) (s : State) (t : AddrTree Int) : Prop :=
  Runs m s fun r u => r = rootPtr t ∧ Laid TreeNode.mk u.heap (greaterTree t)

/-- The nodes on the left edge, from the root on. -/
def leftEdge : AddrTree Int → List Ptr
  | .nil => []
  | .node v l _ => some v.1 :: leftEdge l

/-- The state of the first loop, with the rest of the left edge below the current node. -/
structure Collecting (h : Heap TreeNode) (t : AddrTree Int) (i : List Ptr × List Ptr × Ptr)
    (rest : AddrTree Int) : Prop where
  cur : i.2.2 = rootPtr rest
  laid : Laid TreeNode.mk h rest
  data : rest = nil ∨ i.2.1 = []
  edge : i.1.reverse ++ leftEdge rest ++ i.2.1 = leftEdge t
  st : ∀ p ∈ i.1, ∃ a n, p = some a ∧ h.cells a = some n

/-- The state after `p->val = v`. -/
def assigned (s : State) (a : Addr) (v : Int) : State :=
  { s with heap := s.heap.modify a fun n => { n with val := v } }

/-- The state when the sums along the left edge are assigned. -/
def edgeAssigned (s : State) : Int → AddrTree Int → State
  | _, .nil => s
  | sum, .node v l _ => edgeAssigned (assigned s v.1 (v.2 + sum)) (v.2 + sum) l

/-- The sums along the left edge can be computed. -/
def EdgeExact : Int → AddrTree Int → Prop
  | _, .nil => True
  | sum, .node v l _ => IsInt (v.2 + sum) ∧ EdgeExact (v.2 + sum) l

section
variable {s : State} {h : Heap TreeNode} {t l r : AddrTree Int} {v : Addr × Int} {n : TreeNode}
  {a : Addr} {sum x : Int} {fuel : Nat}

theorem greaterTree_eq (t : AddrTree Int) : greaterTree t = raised 0 t := by
  simp only [greaterTree, raised, add_zero]

@[simp] theorem rootPtr_raised : rootPtr (raised sum t) = rootPtr t := by
  cases t <;> rfl

@[simp] theorem rootPtr_summed : rootPtr (summed sum t) = rootPtr t := by
  cases t <;> rfl

@[simp] theorem addrs_raised : addrs (raised sum t) = addrs t := by
  simp [addrs, raised, Function.comp_def]

theorem runs_assignVal {Q : Unit → State → Prop} (hv : s.heap.cells a = some n) :
    Runs (assignVal (some a) x) s Q ↔ Q () (assigned s a x) := by
  rw [assignVal, runs_modify, hv]
  exact and_iff_right rfl

theorem assigned_cells (hv : s.heap.cells a = some n) :
    (assigned s a x).heap.cells a = some { n with val := x } := by
  rw [assigned, Heap.modify_cells, if_pos rfl, hv, Option.map_some]

theorem within_assigned : Heap.Within [a] s.heap (assigned s a x).heap :=
  Heap.within_modify _ _ _

theorem laid_assigned (hl : Laid TreeNode.mk s.heap t) (ha : a ∉ addrs t) :
    Laid TreeNode.mk (assigned s a x).heap t :=
  hl.modify ha

/-- The nodes are visited from right to left, and `sum` is the sum of the values so far. -/
theorem runs_helper (hl : Laid TreeNode.mk s.heap t) (hn : (addrs t).Nodup)
    (hi : Increasing Prod.snd t) (hexact : ∀ v ∈ (raised sum t).inorder, IsInt v.2)
    (hf : t.numNodes < fuel) :
    Runs (helper fuel (rootPtr t) sum) s fun x u => x = total t + sum ∧
      Laid TreeNode.mk u.heap (raised sum t) ∧ Heap.Within (addrs t) s.heap u.heap := by
  induction t generalizing sum s fuel with
  | nil =>
    obtain ⟨fuel, rfl⟩ : ∃ f, fuel = f + 1 := ⟨fuel - 1, by omega⟩
    rw [helper, rootPtr_nil, if_pos Option.isNone_none, runs_pure]
    exact ⟨(zero_add sum).symm, trivial, Heap.Within.refl _ _⟩
  | node v l r ihl ihr =>
    obtain ⟨fuel, rfl⟩ : ∃ f, fuel = f + 1 := ⟨fuel - 1, by omega⟩
    obtain ⟨hcell, hll, hlr⟩ := laid_node.mp hl
    obtain ⟨hvl, hvr, hnl, hnr, hdisjoint⟩ := (nodup_branch .left v l r).mp hn
    obtain ⟨hil, hir, -, -⟩ := increasing_node.mp hi
    rw [raised_node hi] at hexact ⊢
    rw [numNodes] at hf
    simp only [inorder_node, List.forall_mem_append, List.forall_mem_cons] at hexact
    obtain ⟨hexl, hexv, hexr⟩ := hexact
    rw [helper, rootPtr_node, Option.isNone_some, if_neg Bool.false_ne_true, runs_bind, runs_load]
    refine ⟨_, hcell, ?_⟩
    rw [runs_bind]
    refine (ihr hlr hnr hir hexr (by omega)).mono ?_
    rintro _ u ⟨rfl, hru, hwr⟩
    have hcellu := (hwr.same v.1 hvr).trans hcell
    rw [runs_bind, runs_load]
    refine ⟨_, hcellu, ?_⟩
    rw [runs_bind, runs_int hexv, runs_bind, runs_assignVal hcellu, runs_bind, runs_load]
    have hcella := assigned_cells (x := v.2 + (total r + sum)) hcellu
    refine ⟨_, hcella, ?_⟩
    rw [runs_bind, runs_load]
    refine ⟨_, hcella, ?_⟩
    have hla := laid_assigned (x := v.2 + (total r + sum))
      (hll.within hwr fun a ha har => hdisjoint ha har) hvl
    refine (ihl hla hnl hil hexl (by omega)).mono ?_
    rintro _ w ⟨rfl, hlw, hwl⟩
    have hcellw := (hwl.same v.1 hvl).trans hcella
    have hra := laid_assigned (x := v.2 + (total r + sum)) hru (by rwa [addrs_raised])
    refine ⟨?_, laid_node.mpr ⟨?_, hlw, hra.within hwl ?_⟩, ?_⟩
    · rw [total_node]
      omega
    · rw [rootPtr_raised, rootPtr_raised]
      exact hcellw
    · intro a ha hal
      rw [addrs_raised] at ha
      exact hdisjoint hal ha
    · refine ((hwr.mono ?_).trans (within_assigned.mono ?_)).trans (hwl.mono ?_)
      all_goals simp +contextual

theorem runs_convertBST (hl : Laid TreeNode.mk s.heap t) (hn : (addrs t).Nodup)
    (hi : Increasing Prod.snd t) (hexact : ∀ v ∈ (greaterTree t).inorder, IsInt v.2)
    (hf : t.numNodes < fuel) : Converts (convertBST fuel (rootPtr t)) s t := by
  rw [greaterTree_eq] at hexact
  rw [Converts, convertBST, runs_bind, greaterTree_eq]
  refine (runs_helper hl hn hi hexact hf).mono ?_
  rintro x u ⟨-, hu, -⟩
  exact runs_pure.mpr ⟨rfl, hu⟩

theorem length_leftEdge_le (t : AddrTree Int) : (leftEdge t).length ≤ t.numNodes := by
  induction t with
  | nil => exact Nat.zero_le 0
  | node v l r ih _ =>
    rw [leftEdge, List.length_cons, numNodes]
    omega

theorem collect_spec {rest : AddrTree Int} {i : List Ptr × List Ptr × Ptr}
    (hc : Collecting s.heap t i rest) :
    Runs (collect i) s fun step u => u = s ∧ match step with
      | .again j => ∃ rest', 2 * (leftEdge rest').length + j.1.length <
          2 * (leftEdge rest).length + i.1.length ∧ Collecting s.heap t j rest'
      | .done data => data = leftEdge t := by
  obtain ⟨st, data, cur⟩ := i
  obtain ⟨rfl, hl, hdata, hedge, hst⟩ := hc
  cases rest with
  | node v l r =>
    obtain ⟨hcell, hll, -⟩ := laid_node.mp hl
    obtain rfl : data = [] := hdata.resolve_left nofun
    rw [collect, rootPtr_node, Option.isSome_some, Bool.true_or, if_pos rfl, if_pos rfl, runs_bind,
      runs_load]
    refine ⟨_, hcell, runs_pure.mpr ⟨rfl, l, ?_, rfl, hll, Or.inr rfl, ?_, ?_⟩⟩
    · simp only [leftEdge, List.length_cons]
      omega
    · simpa [leftEdge] using hedge
    · exact List.forall_mem_cons.mpr ⟨⟨v.1, _, rfl, hcell⟩, hst⟩
  | nil =>
    cases st with
    | nil =>
      rw [collect, rootPtr_nil, if_neg (by simp), runs_pure]
      exact ⟨rfl, by simpa [leftEdge] using hedge⟩
    | cons p st =>
      obtain ⟨⟨a, n, rfl, hcell⟩, hrest⟩ := List.forall_mem_cons.mp hst
      rw [collect, rootPtr_nil, if_pos (by simp), if_neg (by simp), runs_bind, runs_topOf,
        runs_bind, runs_popOf, runs_bind, runs_load]
      refine ⟨_, hcell, runs_pure.mpr ⟨rfl, nil, ?_, rfl, trivial, Or.inl rfl, ?_, hrest⟩⟩
      · simp
      · simpa [leftEdge] using hedge

/-- The first loop. No right child becomes the current node, so that `data` gets the nodes of the
left edge alone, the root last. -/
theorem runs_collect (hl : Laid TreeNode.mk s.heap t) (hf : 2 * t.numNodes < fuel) :
    Runs (loop collect fuel ([], [], rootPtr t)) s fun data u => u = s ∧ data = leftEdge t := by
  have hlength := length_leftEdge_le t
  refine runs_loop (k := 2 * (leftEdge t).length) (fun k i u => u = s ∧ ∃ rest,
    k = 2 * (leftEdge rest).length + i.1.length ∧ Collecting s.heap t i rest) ?_
    ⟨rfl, t, rfl, rfl, hl, Or.inr rfl, by simp, by simp⟩ (by omega)
  rintro k i u ⟨rfl, rest, rfl, hc⟩
  refine (collect_spec hc).mono ?_
  rintro (j | data) _ ⟨rfl, hstep⟩
  · obtain ⟨rest', hlt, hc'⟩ := hstep
    exact ⟨_, hlt, rfl, rest', rfl, hc'⟩
  · exact ⟨rfl, hstep⟩

/-- The second loop, exactly. -/
theorem runs_addPrevious {Q : Unit → State → Prop} (hl : Laid TreeNode.mk s.heap t)
    (hn : (addrs t).Nodup) (ha : a ∉ addrs t) (hcell : s.heap.cells a = some n)
    (hf : t.numNodes < fuel) :
    Runs (loop addPrevious fuel (leftEdge t, some a)) s Q ↔
      EdgeExact n.val t ∧ Q () (edgeAssigned s n.val t) := by
  induction t generalizing s a n fuel with
  | nil =>
    obtain ⟨fuel, rfl⟩ : ∃ f, fuel = f + 1 := ⟨fuel - 1, by omega⟩
    rw [runs_loop_succ, addPrevious, leftEdge, if_neg (by simp), runs_pure]
    exact (and_iff_right trivial).symm
  | node v l r ih _ =>
    obtain ⟨fuel, rfl⟩ : ∃ f, fuel = f + 1 := ⟨fuel - 1, by omega⟩
    obtain ⟨hv, hll, -⟩ := laid_node.mp hl
    obtain ⟨hvl, -, hnl, -⟩ := (nodup_branch .left v l r).mp hn
    rw [numNodes] at hf
    rw [runs_loop_succ, addPrevious, leftEdge, if_pos (by simp), runs_bind, runs_topOf, runs_bind,
      runs_popOf, runs_bind, runs_load]
    simp only [hv, hcell, Option.some.injEq, exists_eq_left', runs_bind, runs_load, runs_int_iff,
      runs_assignVal hv, runs_pure]
    rw [ih (laid_assigned hll hvl) hnl hvl (assigned_cells hv) (by omega)]
    exact and_assoc.symm

theorem laid_edgeAssigned (sum : Int) (hl : Laid TreeNode.mk s.heap t) (hn : (addrs t).Nodup) :
    Laid TreeNode.mk (edgeAssigned s sum t).heap (summed sum t) ∧
      Heap.Within (addrs t) s.heap (edgeAssigned s sum t).heap := by
  induction t generalizing s sum with
  | nil => exact ⟨trivial, Heap.Within.refl _ _⟩
  | node v l r ih _ =>
    obtain ⟨hv, hll, hlr⟩ := laid_node.mp hl
    obtain ⟨hvl, hvr, hnl, hnr, hdisjoint⟩ := (nodup_branch .left v l r).mp hn
    obtain ⟨hlaid, hwl⟩ := ih (v.2 + sum) (laid_assigned hll hvl) hnl
    rw [edgeAssigned, summed, laid_node]
    refine ⟨⟨?_, hlaid, (laid_assigned hlr hvr).within hwl fun a har hal => hdisjoint hal har⟩, ?_⟩
    · rw [hwl.same v.1 hvl, assigned_cells hv, rootPtr_summed]
    · refine (within_assigned.mono ?_).trans (hwl.mono ?_)
      all_goals simp +contextual

theorem edgeExact_of_summed (h : ∀ v ∈ (summed sum t).inorder, IsInt v.2) : EdgeExact sum t := by
  induction t generalizing sum with
  | nil => trivial
  | node v l r ih _ =>
    simp only [summed, inorder_node, List.forall_mem_append, List.forall_mem_cons] at h
    exact ⟨h.2.1, ih h.1⟩

/-- Of the nodes on the left edge those below the root are changed, as far as the sums are exact. -/
theorem runs_convertBST2 {Q : Ptr → State → Prop} {v : Addr × Int}
    (hl : Laid TreeNode.mk s.heap (node v l r)) (hn : (addrs (node v l r)).Nodup)
    (hf : 2 * (node v l r).numNodes < fuel) :
    Runs (convertBST2 fuel (some v.1)) s Q ↔
      EdgeExact v.2 l ∧ Q (some v.1) (edgeAssigned s v.2 l) := by
  obtain ⟨hv, hll, -⟩ := laid_node.mp hl
  obtain ⟨hvl, -, hnl, -⟩ := (nodup_branch .left v l r).mp hn
  obtain ⟨_, _, hrun, rfl, rfl⟩ := runs_collect hl hf
  rw [numNodes] at hf
  rw [convertBST2, Option.isNone_some, if_neg Bool.false_ne_true, runs_bind, ← rootPtr_node v l r,
    runs_of_ok hrun, leftEdge, runs_bind, runs_topOf, runs_bind, runs_popOf, runs_bind,
    runs_addPrevious hll hnl hvl hv (by omega), runs_pure]

/-- The tree that the second function leaves. -/
theorem laid_convertBST2 {v : Addr × Int} (hl : Laid TreeNode.mk s.heap (node v l r))
    (hn : (addrs (node v l r)).Nodup) :
    Laid TreeNode.mk (edgeAssigned s v.2 l).heap (summed 0 (node v l r)) := by
  obtain ⟨hv, hll, hlr⟩ := laid_node.mp hl
  obtain ⟨hvl, -, hnl, -, hdisjoint⟩ := (nodup_branch .left v l r).mp hn
  obtain ⟨hlaid, hwl⟩ := laid_edgeAssigned v.2 hll hnl
  rw [summed, add_zero, laid_node, rootPtr_summed, hwl.same v.1 hvl]
  exact ⟨hv, hlaid, hlr.within hwl fun a har hal => hdisjoint hal har⟩

end

/-- Both functions make the Greater Tree exactly of a tree in which no node has a right child,
except that of the root may be a leaf of value 0. -/
theorem converts_iff (t : AddrTree Int) (s : State) (fuel : Nat)
    (hl : Laid TreeNode.mk s.heap t) (hn : (addrs t).Nodup) (hi : Increasing Prod.snd t)
    (hexact : ∀ v ∈ (greaterTree t).inorder, IsInt v.2) (hf : 2 * t.numNodes < fuel) :
    (Converts (convertBST fuel (rootPtr t)) s t ∧ Converts (convertBST2 fuel (rootPtr t)) s t) ↔
      Bare t := by
  rw [and_iff_right (runs_convertBST hl hn hi hexact (by omega)), ← raised_eq_summed_iff hi]
  cases t with
  | nil => exact iff_of_true (runs_pure.mpr ⟨rfl, trivial⟩) rfl
  | node v l r =>
    have hlaid := laid_convertBST2 hl hn
    rw [greaterTree_eq] at hexact
    rw [Converts, rootPtr_node, runs_convertBST2 hl hn hf, greaterTree_eq]
    constructor
    · rintro ⟨-, -, hraised⟩
      exact hraised.unique (by simp +contextual) hlaid (by rw [rootPtr_raised, rootPtr_summed])
    · intro he
      rw [he] at hexact ⊢
      obtain ⟨-, hedge⟩ := edgeExact_of_summed hexact
      rw [add_zero] at hedge
      exact ⟨hedge, rfl, hlaid⟩

/-- The heap of a tree `[2,1]`. -/
def sample : State := ⟨(), (Heap.empty.alloc ⟨2, some 1, none⟩).alloc ⟨1, none, none⟩⟩

theorem converts_iff_sample :
    Converts (convertBST 5 (some 0)) sample (node (0, 2) (node (1, 1) nil nil) nil) ∧
      Converts (convertBST2 5 (some 0)) sample (node (0, 2) (node (1, 1) nil nil) nil) :=
  (converts_iff (node (0, 2) (node (1, 1) nil nil) nil) sample 5
    ⟨rfl, ⟨rfl, trivial, trivial⟩, trivial⟩ (by decide) (by simp [Increasing]) (by decide)
    (by decide)).mpr ⟨⟨rfl, trivial⟩, Or.inl rfl⟩

/-- A right child is not added to the root. -/
theorem converts_right : ∃ (t : AddrTree Int) (s : State) (fuel : Nat),
    Laid TreeNode.mk s.heap t ∧ (addrs t).Nodup ∧ Increasing Prod.snd t ∧
      (∀ v ∈ (greaterTree t).inorder, IsInt v.2) ∧ 2 * t.numNodes < fuel ∧
      ¬ (Converts (convertBST fuel (rootPtr t)) s t ∧
        Converts (convertBST2 fuel (rootPtr t)) s t) := by
  let s : State := ⟨(), (Heap.empty.alloc ⟨1, none, some 1⟩).alloc ⟨2, none, none⟩⟩
  refine ⟨node (0, 1) nil (node (1, 2) nil nil), s, 5, ⟨rfl, trivial, rfl, trivial, trivial⟩,
    by decide, by simp [Increasing], by decide, by decide, ?_⟩
  have hrun : convertBST2 5 (some 0) s = .ok (some 0, s) := rfl
  rintro ⟨-, h⟩
  obtain ⟨-, hroot, -⟩ := (runs_of_ok hrun).mp h
  cases hroot

end LanguageTest.ConvertBST
