import LanguageTest.Library.SinglyLinked

namespace LanguageTest.RevertLink

structure ListNode where
  val : Int
  next : Ptr

/-- The object is what has been printed. -/
abbrev State := Machine (List Char) ListNode

/-- The assignment to the field `next`. -/
def setNext (q : Ptr) (n : ListNode) : ListNode := { n with next := q }

def cout (text : List Char) : Program State Unit := setObject fun out => out ++ text

/-- A value and two blanks. -/
def shown (v : Int) : List Char := (toString v).toList ++ [' ', ' ']

def printStep (p : Ptr) : Program State (Step Ptr Unit) := do
  if p.isNone then pure (.done ())
  else
    let n ← load p
    cout (shown n.val)
    pure (.again n.next)

def print (fuel : Nat) (pHead : Ptr) : Program State Unit := do
  loop printStep fuel pHead
  cout ['\n']

/-- A new node behind the last one, with both of its fields assigned. -/
def initStep (p : Ptr) (v : Int) : Program State Ptr := do
  let pNewNode ← new ⟨v, none⟩
  modify p (setNext pNewNode)
  pure (← load p).next

def initListNode (vec : List Int) : Program State Ptr := do
  let demo ← new ⟨0, none⟩
  let _ ← vec.foldlM initStep demo
  pure demo

/-- The variables of the loop in `ReverseList`. -/
structure Cursors where
  res : Ptr
  pNode : Ptr
  pPrev : Ptr

def reverseStep (w : Cursors) : Program State (Step Cursors Ptr) := do
  if w.pNode.isNone then pure (.done w.res)
  else
    let pNext := (← load w.pNode).next
    let res := if pNext.isNone then w.pNode else w.res
    modify w.pNode (setNext w.pPrev)
    pure (.again ⟨res, pNext, w.pNode⟩)

def reverseList (fuel : Nat) (pHead : Ptr) : Program State Ptr :=
  loop reverseStep fuel ⟨none, pHead, none⟩

/-- `vec` is 1, 2, 3, 4, 5 in the source. -/
def main (fuel : Nat) (vec : List Int) : Program State Unit := do
  let demo ← initListNode vec
  print fuel demo
  let res ← reverseList fuel demo
  print fuel res

/-- The line that `print` writes for a list. -/
def line (vals : List Int) : List Char := vals.flatMap shown ++ ['\n']

/-- The nodes so far, one behind the other from the address `a` on. -/
structure Built (a : Addr) (vals : List Int) (p : Ptr) (u : State) : Prop where
  row : Row ListNode.mk u.heap a 0 vals
  last : p = some (a + vals.length)
  next : u.heap.next = a + vals.length + 1

/-- The first nodes have been turned round, the others are as before. -/
structure Turning (s : State) (xs : List (Addr × Int)) (w : Cursors)
    (before rest : List (Addr × Int)) (u : State) : Prop where
  nodes : before.reverse ++ rest = xs
  turned : Chained ListNode.mk u.heap w.pPrev before
  left : Chained ListNode.mk u.heap w.pNode rest
  res : rest = [] → w.res = w.pPrev
  within : Heap.Within (xs.map Prod.fst) s.heap u.heap
  object : u.object = s.object

/-- The list has been reversed in place. -/
structure Reversed (s : State) (xs : List (Addr × Int)) (r : Ptr) (u : State) : Prop where
  list : Chained ListNode.mk u.heap r xs.reverse
  within : Heap.Within (xs.map Prod.fst) s.heap u.heap
  object : u.object = s.object

section
variable {s u : State} {p q : Ptr} {v : Int} {vec : List Int} {xs before rest : List (Addr × Int)}
  {w : Cursors} {fuel : Nat}

theorem setNext_mk (v : Int) (p q : Ptr) : setNext q ⟨v, p⟩ = ⟨v, q⟩ := rfl

theorem mk_inj (v : Int) (p : Ptr) (w : Int) (q : Ptr) (h : ListNode.mk v p = ListNode.mk w q) :
    v = w ∧ p = q := by
  cases h
  exact ⟨rfl, rfl⟩

theorem Built.runs_initStep {a : Addr} {vals : List Int} (h : Built a vals p s) :
    Runs (initStep p v) s fun q u => Built a (vals ++ [v]) q u ∧ u.object = s.object := by
  have hrow := h.row.append (v := v) setNext_mk h.next
  obtain ⟨x, hlast⟩ := h.row.last
  have hlast : (s.heap.alloc ⟨v, none⟩).cells (a + vals.length) = some ⟨x, none⟩ := by
    rw [Heap.alloc_cells, if_neg (Heap.ne_next hlast), hlast]
  rw [initStep, runs_bind, runs_new, runs_bind, h.last, runs_modify]
  refine ⟨by rw [hlast]; rfl, ?_⟩
  rw [runs_bind, runs_load]
  refine ⟨setNext (some s.heap.next) ⟨x, none⟩, ?_, runs_pure.mpr ⟨⟨hrow, ?_, ?_⟩, rfl⟩⟩
  · dsimp only
    rw [Heap.modify_cells, if_pos rfl, hlast, Option.map_some]
  · show some s.heap.next = _
    rw [h.next, List.length_append, List.length_singleton, Nat.add_assoc]
  · show s.heap.next + 1 = _
    rw [h.next, List.length_append, List.length_singleton, Nat.add_assoc a]

theorem Built.runs_fold {a : Addr} {vals : List Int} (h : Built a vals p s) :
    Runs (vec.foldlM initStep p) s fun q u => Built a (vals ++ vec) q u ∧ u.object = s.object := by
  induction vec generalizing p s vals with
  | nil => exact runs_pure.mpr ⟨by rwa [List.append_nil], rfl⟩
  | cons v vec ih =>
    rw [List.foldlM_cons, runs_bind]
    refine h.runs_initStep.mono fun q u hu => ?_
    refine (ih hu.1).mono fun r t ht => ?_
    rw [List.append_cons]
    exact ⟨ht.1, ht.2.trans hu.2⟩

theorem runs_initListNode : Runs (initListNode vec) s fun r u =>
    ∃ xs, Chained ListNode.mk u.heap r xs ∧ xs.map Prod.snd = 0 :: vec ∧ u.object = s.object := by
  have hbuilt : Built s.heap.next [] (some s.heap.next)
      (⟨s.object, s.heap.alloc ⟨0, none⟩⟩ : State) := by
    refine ⟨?_, rfl, rfl⟩
    show (s.heap.alloc ⟨0, none⟩).cells s.heap.next = _
    rw [Heap.alloc_cells, if_pos rfl]
  rw [initListNode, runs_bind, runs_new, runs_bind]
  refine hbuilt.runs_fold.mono fun _ u hu => runs_pure.mpr ?_
  obtain ⟨xs, hxs, hvals⟩ := hu.1.row.chained
  exact ⟨xs, hxs, hvals, hu.2⟩

theorem runs_printLoop (h : Chained ListNode.mk s.heap p xs) (hf : xs.length < fuel) :
    Runs (loop printStep fuel p) s fun _ u =>
      u = { s with object := s.object ++ (xs.map Prod.snd).flatMap shown } := by
  induction xs generalizing s p fuel with
  | nil =>
    obtain rfl : p = none := h
    obtain ⟨fuel, rfl⟩ := Nat.exists_eq_add_one_of_ne_zero (Nat.ne_of_gt hf)
    simp [runs_loop_succ, printStep]
  | cons x xs ih =>
    obtain ⟨rfl, next, hx, hrest⟩ := h
    obtain ⟨fuel, rfl⟩ := Nat.exists_eq_add_one_of_ne_zero (Nat.ne_of_gt (Nat.zero_lt_of_lt hf))
    rw [runs_loop_succ, printStep, if_neg (by simp), runs_bind, runs_load]
    refine ⟨_, hx, ?_⟩
    rw [runs_bind, cout, runs_setObject, runs_pure]
    have hnext := ih (s := { s with object := s.object ++ shown x.2 }) hrest
      (Nat.lt_of_succ_lt_succ hf)
    refine hnext.mono fun _ u hu => ?_
    rw [hu, List.map_cons, List.flatMap_cons, ← List.append_assoc]

theorem runs_print (h : Chained ListNode.mk s.heap p xs) (hf : xs.length < fuel) :
    Runs (print fuel p) s fun _ u =>
      u = { s with object := s.object ++ line (xs.map Prod.snd) } := by
  rw [print, runs_bind]
  refine (runs_printLoop h hf).mono fun _ u hu => ?_
  rw [cout, runs_setObject, hu, line, ← List.append_assoc]

/-- Each pass turns the next node round. -/
theorem runs_reverseStep (h : Turning s xs w before rest u) (hn : (xs.map Prod.fst).Nodup) :
    Runs (reverseStep w) u fun r v =>
      match r with
      | .again w' => ∃ y ys, rest = y :: ys ∧ Turning s xs w' (y :: before) ys v
      | .done r => Reversed s xs r v := by
  cases rest with
  | nil =>
    have hnode : w.pNode = none := h.left
    have hnodes := h.nodes
    rw [List.append_nil] at hnodes
    rw [reverseStep, if_pos (by simp [hnode]), runs_pure]
    refine ⟨?_, h.within, h.object⟩
    rw [← hnodes, List.reverse_reverse, h.res rfl]
    exact h.turned
  | cons y ys =>
    obtain ⟨hnode, next, hy, hys⟩ := id h.left
    have hmem : y.1 ∈ xs.map Prod.fst := by
      rw [← h.nodes]
      simp
    have hmiddle : (before.reverse ++ y :: ys).Perm (y :: (before.reverse ++ ys)) :=
      List.perm_middle
    rw [← h.nodes] at hn
    obtain ⟨hnot, -⟩ := List.nodup_cons.mp ((hmiddle.map Prod.fst).nodup_iff.mp hn)
    rw [List.map_append, List.mem_append, not_or, List.map_reverse, List.mem_reverse] at hnot
    rw [reverseStep, if_neg (by simp [hnode]), hnode, runs_bind, runs_load]
    refine ⟨_, hy, ?_⟩
    rw [runs_bind, runs_modify, runs_pure]
    refine ⟨by rw [hy]; rfl, y, ys, rfl, ?_⟩
    constructor
    case nodes => rw [List.reverse_cons, List.append_assoc]; exact h.nodes
    case turned => exact h.turned.push setNext_mk hy hnot.1
    case left =>
      refine hys.congr fun z hz => ?_
      rw [Heap.modify_cells, if_neg]
      intro he
      exact hnot.2 (he ▸ List.mem_map_of_mem hz)
    case res =>
      rintro rfl
      obtain rfl : next = none := hys
      rfl
    case within =>
      exact h.within.trans ((Heap.within_modify _ _ _).mono fun a ha =>
        List.mem_singleton.mp ha ▸ hmem)
    case object => exact h.object

theorem runs_reverseList (h : Chained ListNode.mk s.heap p xs) (hf : xs.length < fuel) :
    Runs (reverseList fuel p) s fun r u => Reversed s xs r u := by
  refine runs_loop (fun k w u => ∃ before rest, k = rest.length ∧ Turning s xs w before rest u) ?_
    ⟨[], xs, rfl, ?_⟩ hf
  · rintro k w u ⟨before, rest, rfl, hw⟩
    refine (runs_reverseStep hw (h.nodup mk_inj)).mono fun r v hr => ?_
    cases r with
    | done r => exact hr
    | again w' =>
      obtain ⟨y, ys, rfl, hnext⟩ := hr
      exact ⟨ys.length, Nat.lt_succ_self _, y :: before, ys, rfl, hnext⟩
  · exact ⟨rfl, rfl, h, fun _ => rfl, Heap.Within.refl _ _, rfl⟩

/-- The list is reversed in place. Reversing it once more gives back every node as it was. -/
theorem reverse_back (h : Chained ListNode.mk s.heap p xs) (hf : xs.length < fuel) :
    Runs (reverseList fuel p) s fun r u => Reversed s xs r u ∧
      Runs (reverseList fuel r) u fun q v =>
        q = p ∧ v.object = s.object ∧ ∀ a, v.heap.cells a = s.heap.cells a := by
  refine (runs_reverseList h hf).mono fun r u hu => ⟨hu, ?_⟩
  refine (runs_reverseList hu.list (by rwa [List.length_reverse])).mono fun q v hv => ?_
  have hlist := hv.list
  rw [List.reverse_reverse] at hlist
  obtain ⟨hq, hcells⟩ := hlist.same h
  refine ⟨hq, hv.object.trans hu.object, fun a => ?_⟩
  by_cases ha : a ∈ xs.map Prod.fst
  · obtain ⟨x, hx, rfl⟩ := List.mem_map.mp ha
    exact hcells x hx
  · have hrev : a ∉ xs.reverse.map Prod.fst := by rwa [List.map_reverse, List.mem_reverse]
    exact (hv.within.same a hrev).trans (hu.within.same a ha)

/-- Two nodes, turned round and back. -/
theorem reverse_back_sample :
    let h : Heap ListNode := (Heap.empty.alloc ⟨7, some 1⟩).alloc ⟨8, none⟩
    Runs (reverseList 3 (some 0)) ⟨[], h⟩ fun r u => Reversed ⟨[], h⟩ [(0, 7), (1, 8)] r u ∧
      Runs (reverseList 3 r) u fun q v =>
        q = some 0 ∧ v.object = [] ∧ ∀ a, v.heap.cells a = h.cells a :=
  reverse_back ⟨rfl, some 1, rfl, rfl, none, rfl, rfl⟩ (by decide)

/-- The program prints the list and then its reverse. -/
theorem main_prints (hf : vec.length + 1 < fuel) :
    Runs (main fuel vec) s fun _ u =>
      u.object = s.object ++ line (0 :: vec) ++ line (0 :: vec).reverse := by
  rw [main, runs_bind]
  refine runs_initListNode.mono fun p u hu => ?_
  obtain ⟨xs, hxs, hvals, hobject⟩ := hu
  have hlen : xs.length = vec.length + 1 := by
    rw [← List.length_map (f := Prod.snd), hvals, List.length_cons]
  rw [runs_bind]
  refine (runs_print hxs (hlen ▸ hf)).mono fun _ v hv => ?_
  subst hv
  let printed : State := ⟨u.object ++ line (xs.map Prod.snd), u.heap⟩
  have hprinted : Chained ListNode.mk printed.heap p xs := hxs
  rw [runs_bind]
  refine (runs_reverseList hprinted (hlen ▸ hf)).mono fun r w hw => ?_
  refine (runs_print hw.list (by rwa [List.length_reverse, hlen])).mono fun _ t ht => ?_
  have hout : w.object = u.object ++ line (xs.map Prod.snd) := hw.object
  rw [ht, hout, List.map_reverse, hvals, hobject]

end

end LanguageTest.RevertLink
