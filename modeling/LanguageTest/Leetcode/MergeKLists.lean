import Mathlib.Data.List.Forall2
import Mathlib.Data.List.Nodup
import LanguageTest.Library.Counting
import LanguageTest.Library.Elements
import LanguageTest.Library.SinglyLinked
import LanguageTest.Library.Sorting

namespace LanguageTest.MergeKLists

structure ListNode where
  val : Int
  next : Ptr

abbrev State := Machine Unit ListNode

/-- The assignment to the field `next`. -/
def setNext (q : Ptr) (n : ListNode) : ListNode := { n with next := q }

/-- The first argument bounds the depth of the recursion. -/
def mergeTwoLists : Nat → Ptr → Ptr → Program State Ptr
  | 0, _, _ => fail .outOfFuel
  | fuel + 1, l1, l2 => do
    if l1.isNone then pure l2
    else if l2.isNone then pure l1
    else if (← load l1).val < (← load l2).val then
      let next ← mergeTwoLists fuel (← load l1).next l2
      modify l1 (setNext next)
      pure l1
    else
      let next ← mergeTwoLists fuel l1 (← load l2).next
      modify l2 (setNext next)
      pure l2

def mergeKLists (fuel : Nat) (lists : List Ptr) : Program State Ptr := do
  let head ← new ⟨-1, none⟩
  let cur := head
  countUp fuel 0 (pure lists.length) fun i => do
    let next ← mergeTwoLists fuel (← load cur).next (← itemAt lists i)
    modify cur (setNext next)
  pure (← load head).next

/-- The nodes of two lists, of which the second goes first where the values are equal. -/
def merged (xs ys : List (Addr × Int)) : List (Addr × Int) :=
  List.merge ys xs fun y x => y.2 ≤ x.2

def Sorted (xs : List (Addr × Int)) : Prop := xs.Pairwise fun x y => x.2 ≤ y.2

/-- The state when the first lists are merged behind the node in front. No other list was
changed. -/
structure Merging (h : Heap ListNode) (nodes : List (List (Addr × Int))) (i : Nat) (u : State) :
    Prop where
  list : ∃ next ys, u.heap.cells h.next = some ⟨-1, next⟩ ∧
    Chained ListNode.mk u.heap next ys ∧ ys.Perm (nodes.take i).flatten ∧ Sorted ys
  same : ∀ a, a ≠ h.next → a ∉ (nodes.take i).flatten.map Prod.fst → u.heap.cells a = h.cells a

section
variable {s : State} {p q : Ptr} {x : Addr × Int} {xs ys : List (Addr × Int)} {fuel : Nat}

theorem setNext_mk (v : Int) (p q : Ptr) : setNext q ⟨v, p⟩ = ⟨v, q⟩ := rfl

theorem merged_perm : (merged xs ys).Perm (xs ++ ys) :=
  (List.merge_perm_append ..).trans List.perm_append_comm

theorem Sorted.merged (hx : Sorted xs) (hy : Sorted ys) : Sorted (merged xs ys) :=
  Sorting.pairwise_merge_key Prod.snd hy hx

/-- After the inner call the first node is put in front of the others. -/
theorem runs_relink {u : State} {next : Ptr} {zs ws : List (Addr × Int)}
    (hx : s.heap.cells x.1 = some ⟨x.2, q⟩) (hnot : x.1 ∉ ws.map Prod.fst)
    (hz : Chained ListNode.mk u.heap next zs) (hperm : zs.Perm ws)
    (hw : Heap.Within (ws.map Prod.fst) s.heap u.heap) :
    Runs (do modify (some x.1) (setNext next); pure (some x.1)) u fun r v =>
      Chained ListNode.mk v.heap r (x :: zs) ∧
        Heap.Within ((x :: ws).map Prod.fst) s.heap v.heap := by
  have hcell := (hw.same x.1 hnot).trans hx
  have hnotz : x.1 ∉ zs.map Prod.fst := by rwa [(hperm.map Prod.fst).mem_iff]
  rw [runs_bind, runs_modify, hcell]
  refine ⟨rfl, runs_pure.mpr ⟨hz.push setNext_mk hcell hnotz, ?_⟩⟩
  refine (hw.mono fun a ha => List.mem_cons_of_mem _ ha).trans ?_
  exact (Heap.within_modify _ _ _).mono fun a ha => List.mem_singleton.mp ha ▸ List.mem_cons_self

theorem mergeTwoLists_spec (hx : Chained ListNode.mk s.heap p xs)
    (hy : Chained ListNode.mk s.heap q ys) (hn : ((xs ++ ys).map Prod.fst).Nodup)
    (hf : xs.length + ys.length < fuel) :
    Runs (mergeTwoLists fuel p q) s fun r u => Chained ListNode.mk u.heap r (merged xs ys) ∧
      Heap.Within ((xs ++ ys).map Prod.fst) s.heap u.heap := by
  induction fuel generalizing s p q xs ys with
  | zero => exact absurd hf (Nat.not_lt_zero _)
  | succ fuel ih =>
    cases xs with
    | nil =>
      obtain rfl : p = none := hx
      rw [mergeTwoLists, if_pos Option.isNone_none, runs_pure, merged, List.merge_right]
      exact ⟨hy, Heap.Within.refl _ _⟩
    | cons x xs =>
      cases ys with
      | nil =>
        obtain rfl : q = none := hy
        obtain rfl : p = some x.1 := hx.1
        rw [mergeTwoLists, if_neg (by simp), if_pos Option.isNone_none, runs_pure, merged,
          List.nil_merge]
        exact ⟨hx, Heap.Within.refl _ _⟩
      | cons y ys =>
        obtain ⟨rfl, px, hcx, hxs⟩ := id hx
        obtain ⟨rfl, py, hcy, hys⟩ := id hy
        simp only [List.length_cons] at hf
        rw [mergeTwoLists, if_neg (by simp), if_neg (by simp), runs_bind, runs_load]
        refine ⟨_, hcx, ?_⟩
        rw [runs_bind, runs_load]
        refine ⟨_, hcy, ?_⟩
        dsimp only
        split_ifs with hlt
        · obtain ⟨hnot, hrest⟩ := List.nodup_cons.mp hn
          rw [runs_bind, runs_load]
          refine ⟨_, hcx, ?_⟩
          rw [runs_bind]
          refine (ih hxs hy hrest (by simp only [List.length_cons]; omega)).mono ?_
          rintro next u ⟨hz, hw⟩
          rw [merged, List.cons_merge_cons_neg _ _ _ (by simpa using hlt)]
          exact runs_relink hcx hnot hz merged_perm hw
        · have hmiddle : (x :: xs ++ y :: ys).Perm (y :: (x :: xs ++ ys)) := List.perm_middle
          obtain ⟨hnot, hrest⟩ := List.nodup_cons.mp ((hmiddle.map Prod.fst).nodup_iff.mp hn)
          rw [runs_bind, runs_load]
          refine ⟨_, hcy, ?_⟩
          rw [runs_bind]
          refine (ih hx hys hrest (by simp only [List.length_cons]; omega)).mono ?_
          rintro next u ⟨hz, hw⟩
          rw [merged, List.cons_merge_cons_pos _ _ _ (by simpa using hlt)]
          refine (runs_relink hcy hnot hz merged_perm hw).mono ?_
          rintro r v ⟨hr, hv⟩
          exact ⟨hr, hv.mono fun a ha => (hmiddle.map Prod.fst).mem_iff.mpr ha⟩

section
variable {h : Heap ListNode} {lists : List Ptr} {nodes : List (List (Addr × Int))} {i : Nat}
  {u : State}

theorem take_succ_flatten (hi : i < nodes.length) :
    (nodes.take (i + 1)).flatten = (nodes.take i).flatten ++ nodes[i]! := by
  rw [take_succ_eq hi, List.flatten_append, List.flatten_singleton]

theorem chained_of_forall₂ (hstored : List.Forall₂ (Chained ListNode.mk h) lists nodes)
    (hi : i < nodes.length) : Chained ListNode.mk h lists[i]! nodes[i]! := by
  have hl : i < lists.length := hstored.length_eq ▸ hi
  rw [getElem!_pos lists i hl, getElem!_pos nodes i hi]
  exact hstored.get hl hi

/-- The node that `mergeKLists` allocates is none of the others. -/
theorem ne_next_of_mem (hstored : List.Forall₂ (Chained ListNode.mk h) lists nodes)
    {y : Addr × Int} (hy : y ∈ nodes.flatten) : y.1 ≠ h.next := by
  obtain ⟨xs, hxs, hy⟩ := List.mem_flatten.mp hy
  obtain ⟨i, hi, rfl⟩ := List.mem_iff_getElem.mp hxs
  have hl : i < lists.length := hstored.length_eq ▸ hi
  obtain ⟨n, hcell⟩ := (hstored.get hl hi).allocated y hy
  exact Heap.ne_next hcell

/-- The list that comes next has nodes of its own. -/
theorem Merging.chained (hu : Merging h nodes i u) {p : Ptr}
    (hp : Chained ListNode.mk h p nodes[i]!)
    (hn : (((nodes.take i).flatten ++ nodes[i]!).map Prod.fst).Nodup) :
    Chained ListNode.mk u.heap p nodes[i]! := by
  rw [List.map_append, List.nodup_append'] at hn
  refine hp.congr fun y hy => hu.same y.1 ?_ fun hmem => hn.2.2 hmem (List.mem_map_of_mem hy)
  obtain ⟨n, hcell⟩ := hp.allocated y hy
  exact Heap.ne_next hcell

theorem merging_step (hu : Merging h nodes i u)
    (hstored : List.Forall₂ (Chained ListNode.mk h) lists nodes) (hi : i < nodes.length)
    (hn : (nodes.flatten.map Prod.fst).Nodup) (hsorted : ∀ xs ∈ nodes, Sorted xs)
    (hf : nodes.flatten.length < fuel) :
    Runs (do
      let next ← mergeTwoLists fuel (← load (some h.next)).next (← itemAt lists i)
      modify (some h.next) (setNext next)) u fun _ v => Merging h nodes (i + 1) v := by
  obtain ⟨next, ys, hhead, hys, hperm, hord⟩ := hu.list
  have hall : (ys ++ nodes[i]!).Perm (nodes.take (i + 1)).flatten := by
    rw [take_succ_flatten hi]
    exact hperm.append_right _
  have hsplit : (nodes.take (i + 1)).flatten ++ (nodes.drop (i + 1)).flatten = nodes.flatten := by
    rw [← List.flatten_append, List.take_append_drop]
  have hsub : (nodes.take (i + 1)).flatten.Sublist nodes.flatten :=
    hsplit ▸ List.sublist_append_left _ _
  have hnodup := (hsub.map Prod.fst).nodup hn
  have hchained := chained_of_forall₂ hstored hi
  have hnew := hu.chained hchained (by rwa [← take_succ_flatten hi])
  have hfuel : ys.length + nodes[i]!.length < fuel := by
    rw [← List.length_append, hall.length_eq]
    exact Nat.lt_of_le_of_lt hsub.length_le hf
  have hne : ∀ y ∈ ys ++ nodes[i]!, y.1 ≠ h.next :=
    fun y hy => ne_next_of_mem hstored (hsub.subset (hall.mem_iff.mp hy))
  have hnext : h.next ∉ (ys ++ nodes[i]!).map Prod.fst := by
    rintro hmem
    obtain ⟨y, hy, he⟩ := List.mem_map.mp hmem
    exact hne y hy he
  rw [runs_bind, runs_load]
  refine ⟨_, hhead, ?_⟩
  rw [runs_bind, runs_itemAt (hstored.length_eq ▸ hi), runs_bind]
  refine (mergeTwoLists_spec hys hnew ((hall.map Prod.fst).nodup_iff.mpr hnodup) hfuel).mono ?_
  rintro r v ⟨hr, hw⟩
  have hheadv := (hw.same h.next hnext).trans hhead
  rw [runs_modify, hheadv]
  refine ⟨rfl, ⟨r, merged ys nodes[i]!, ?_, ?_, merged_perm.trans hall, ?_⟩, ?_⟩
  · rw [Heap.modify_cells, if_pos rfl, hheadv, Option.map_some, setNext_mk]
  · refine hr.congr fun y hy => ?_
    rw [Heap.modify_cells, if_neg (hne y (merged_perm.mem_iff.mp hy))]
  · exact hord.merged (hsorted _ (mem_iff_getElem!.mpr ⟨i, hi, rfl⟩))
  · intro a ha hmem
    rw [Heap.modify_cells, if_neg ha]
    rw [← (hall.map Prod.fst).mem_iff] at hmem
    refine (hw.same a hmem).trans (hu.same a ha fun hearlier => hmem ?_)
    rw [List.map_append, List.mem_append]
    exact Or.inl ((hperm.map Prod.fst).mem_iff.mpr hearlier)

/-- Nothing is merged behind the node in front yet. -/
theorem merging_start :
    Merging s.heap nodes 0 { s with heap := s.heap.alloc ⟨-1, none⟩ } := by
  refine ⟨⟨none, [], ?_, rfl, List.Perm.refl _, List.Pairwise.nil⟩, fun a ha _ => ?_⟩
  · rw [Heap.alloc_cells, if_pos rfl]
  · rw [Heap.alloc_cells, if_neg ha]

end

/-- The result is a list of the nodes of all lists, which ends and so has no cycle. At most as many
lists as an `int` counts. -/
theorem mergeKLists_sorted (lists : List Ptr) (nodes : List (List (Addr × Int))) (s : State)
    (fuel : Nat) (hstored : List.Forall₂ (Chained ListNode.mk s.heap) lists nodes)
    (hn : (nodes.flatten.map Prod.fst).Nodup) (hsorted : ∀ xs ∈ nodes, Sorted xs)
    (hlen : lists.length ≤ 2147483647) (hf : lists.length + nodes.flatten.length < fuel) :
    Runs (mergeKLists fuel lists) s fun r u => ∃ ys, Chained ListNode.mk u.heap r ys ∧
      ys.Perm nodes.flatten ∧ (ys.map Prod.fst).Nodup ∧ Sorted ys := by
  have hlength := hstored.length_eq
  rw [mergeKLists, runs_bind, runs_new, runs_bind]
  refine (runs_countUp (l := 0) (n := lists.length) (Merging s.heap nodes)
    (fun i t _ => runs_pure.mpr ⟨Int.toNat_natCast _, rfl⟩) (by omega)
    (fun i _ hi t ht => merging_step ht hstored (by omega) hn hsorted (by omega)) merging_start
    (by omega)).mono ?_
  rintro _ u hu
  obtain ⟨next, ys, hhead, hys, hperm, hord⟩ := hu.list
  rw [Nat.max_eq_right (Nat.zero_le _), hlength, List.take_length] at hperm
  rw [runs_bind, runs_load]
  refine ⟨_, hhead, runs_pure.mpr ⟨ys, hys, hperm, ?_, hord⟩⟩
  exact (hperm.map Prod.fst).nodup_iff.mpr hn

end

/-- The heap of the lists `[1,3]` and `[2]`. -/
def sample : State :=
  ⟨(), ((Heap.empty.alloc ⟨1, some 1⟩).alloc ⟨3, none⟩).alloc ⟨2, none⟩⟩

theorem mergeKLists_sorted_sample :
    Runs (mergeKLists 10 [some 0, none, some 2]) sample fun r u =>
      ∃ ys, Chained ListNode.mk u.heap r ys ∧
        ys.Perm [[(0, 1), (1, 3)], [], [(2, 2)]].flatten ∧ (ys.map Prod.fst).Nodup ∧ Sorted ys := by
  have hfirst : Chained ListNode.mk sample.heap (some 0) [(0, 1), (1, 3)] :=
    ⟨rfl, some 1, rfl, rfl, none, rfl, rfl⟩
  have hlast : Chained ListNode.mk sample.heap (some 2) [(2, 2)] := ⟨rfl, none, rfl, rfl⟩
  exact mergeKLists_sorted [some 0, none, some 2] [[(0, 1), (1, 3)], [], [(2, 2)]] sample 10
    (.cons hfirst (.cons rfl (.cons hlast .nil))) (by decide) (by simp [Sorted]) (by decide)
    (by decide)

/-- Empty lists, one more than an `int` counts. -/
def empties : List Ptr := List.replicate 2147483648 none

theorem mergeKLists_empties : ∃ (nodes : List (List (Addr × Int))) (s : State),
    List.Forall₂ (Chained ListNode.mk s.heap) empties nodes ∧
      (nodes.flatten.map Prod.fst).Nodup ∧ (∀ xs ∈ nodes, Sorted xs) ∧
      ∀ fuel, ¬ Runs (mergeKLists fuel empties) s fun r u => ∃ ys,
        Chained ListNode.mk u.heap r ys ∧ ys.Perm nodes.flatten ∧ (ys.map Prod.fst).Nodup ∧
          Sorted ys := by
  let s : State := ⟨(), Heap.empty⟩
  have hstored (n : Nat) : List.Forall₂ (Chained ListNode.mk s.heap) (List.replicate n none)
      (List.replicate n []) := by
    induction n with
    | zero => exact .nil
    | succ n ih => exact .cons rfl ih
  refine ⟨List.replicate 2147483648 [], s, hstored 2147483648, ?_, ?_, fun fuel h => ?_⟩
  · rw [List.flatten_replicate_nil]
    exact List.nodup_nil
  · rintro xs hxs
    rw [List.eq_of_mem_replicate hxs]
    exact List.Pairwise.nil
  · have hlength : empties.length = 2147483648 := List.length_replicate
    rw [mergeKLists, runs_bind, runs_new, runs_bind] at h
    refine not_runs_countUp (fun _ => True) (fun t _ => ?_) (fun _ _ _ _ _ _ => trivial) trivial
      (by decide) h
    exact ensures_pure ⟨by omega, trivial⟩

end LanguageTest.MergeKLists
