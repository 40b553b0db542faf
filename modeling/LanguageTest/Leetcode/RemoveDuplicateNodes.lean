import Mathlib.Data.List.Destutter
import LanguageTest.Library.SinglyLinked

namespace LanguageTest.RemoveDuplicateNodes

structure ListNode where
  val : Int
  next : Ptr

abbrev State := Machine Unit ListNode

/-- The assignment to the field `next`. -/
def setNext (q : Ptr) (n : ListNode) : ListNode := { n with next := q }

def skipStep (cur nextNode : Ptr) : Program State (Step Ptr Ptr) := do
  if nextNode.isNone then pure (.done nextNode)
  else if (← load cur).val = (← load nextNode).val then pure (.again (← load nextNode).next)
  else pure (.done nextNode)

/-- The test of the `if`, which reads the next node only when there is one. -/
def repeated (cur : Ptr) : Program State Bool := do
  let next := (← load cur).next
  if next.isNone then pure false
  else pure ((← load cur).val = (← load next).val)

def removeStep (fuel : Nat) (cur : Ptr) : Program State (Step Ptr Unit) := do
  if cur.isNone then pure (.done ())
  else
    if ← repeated cur then
      let nextNode ← loop (skipStep cur) fuel (← load cur).next
      modify cur (setNext nextNode)
    pure (.again (← load cur).next)

def removeDuplicateNodes (fuel : Nat) (head : Ptr) : Program State Ptr := do
  if head.isNone then pure none
  else
    loop (removeStep fuel) fuel head
    pure head

/-- The first node of each run of equal values. -/
def firsts (xs : List (Addr × Int)) : List (Addr × Int) := xs.destutter fun x y => x.2 ≠ y.2

/-- What is left after the run that the value belongs to. -/
def afterRun (v : Int) (xs : List (Addr × Int)) : List (Addr × Int) := xs.dropWhile fun y => y.2 = v

section
variable {s u : State} {p q : Ptr} {x y : Addr × Int} {v : Int} {xs ys : List (Addr × Int)}
  {fuel : Nat}

theorem setNext_mk (v : Int) (p q : Ptr) : setNext q ⟨v, p⟩ = ⟨v, q⟩ := rfl

theorem mk_inj (v : Int) (p : Ptr) (w : Int) (q : Ptr) (h : ListNode.mk v p = ListNode.mk w q) :
    v = w ∧ p = q := by
  cases h
  exact ⟨rfl, rfl⟩

theorem afterRun_suffix : afterRun v xs <:+ xs := List.dropWhile_suffix _

theorem firsts_cons : firsts (x :: xs) = x :: firsts (afterRun x.2 xs) := by
  unfold firsts afterRun
  rw [List.destutter_cons']
  induction xs with
  | nil => rfl
  | cons y ys ih =>
    by_cases hy : x.2 = y.2
    · rw [List.destutter'_cons_neg _ (not_not.mpr hy), ih,
        List.dropWhile_cons_of_pos (by simp [hy])]
    · rw [List.destutter'_cons_pos _ hy, List.dropWhile_cons_of_neg (by simp [Ne.symm hy]),
        List.destutter_cons']

theorem firsts_map : (firsts xs).map Prod.snd = (xs.map Prod.snd).destutter (· ≠ ·) :=
  List.map_destutter fun _ _ _ _ => Iff.rfl

/-- The inner loop comes to the first node with another value. -/
theorem runs_skip (hcur : s.heap.cells x.1 = some ⟨x.2, q⟩)
    (h : Chained ListNode.mk s.heap p xs) (hf : xs.length < fuel) :
    Runs (loop (skipStep (some x.1)) fuel p) s fun r u =>
      u = s ∧ Chained ListNode.mk s.heap r (afterRun x.2 xs) := by
  induction xs generalizing p fuel with
  | nil =>
    obtain rfl : p = none := h
    obtain ⟨fuel, rfl⟩ := Nat.exists_eq_add_one_of_ne_zero (Nat.ne_of_gt hf)
    rw [runs_loop_succ, skipStep, if_pos Option.isNone_none, runs_pure]
    exact ⟨rfl, rfl⟩
  | cons y ys ih =>
    obtain ⟨rfl, next, hy, hys⟩ := id h
    obtain ⟨fuel, rfl⟩ := Nat.exists_eq_add_one_of_ne_zero (Nat.ne_of_gt (Nat.zero_lt_of_lt hf))
    rw [runs_loop_succ, skipStep, if_neg (by simp), runs_bind, runs_load]
    refine ⟨_, hcur, ?_⟩
    rw [runs_bind, runs_load]
    refine ⟨_, hy, ?_⟩
    dsimp only
    split_ifs with hval
    · rw [runs_bind, runs_load]
      refine ⟨_, hy, runs_pure.mpr ?_⟩
      rw [afterRun, List.dropWhile_cons_of_pos (by simp [hval])]
      exact ih hys (Nat.lt_of_succ_lt_succ hf)
    · rw [runs_pure, afterRun, List.dropWhile_cons_of_neg (by simp [Ne.symm hval])]
      exact ⟨rfl, h⟩

/-- Without a repetition there is no run to leave out. -/
theorem runs_repeated (h : Chained ListNode.mk s.heap p (x :: xs)) :
    Runs (repeated p) s fun b u => u = s ∧ (b = false → afterRun x.2 xs = xs) := by
  obtain ⟨rfl, next, hx, hxs⟩ := h
  rw [repeated, runs_bind, runs_load]
  refine ⟨_, hx, ?_⟩
  cases xs with
  | nil =>
    obtain rfl : next = none := hxs
    rw [if_pos Option.isNone_none, runs_pure]
    exact ⟨rfl, fun _ => rfl⟩
  | cons y ys =>
    obtain ⟨rfl, next', hy, hys⟩ := hxs
    rw [if_neg (by simp), runs_bind, runs_load]
    refine ⟨_, hx, ?_⟩
    rw [runs_bind, runs_load]
    refine ⟨_, hy, runs_pure.mpr ⟨rfl, fun hne => ?_⟩⟩
    have hne : x.2 ≠ y.2 := of_decide_eq_false hne
    rw [afterRun, List.dropWhile_cons_of_neg (by simp [Ne.symm hne])]

/-- Behind the node that is looked at, the list goes on with another value. -/
theorem runs_removeStep (h : Chained ListNode.mk s.heap p (x :: xs)) (hf : xs.length < fuel) :
    Runs (removeStep fuel p) s fun r u => ∃ next, r = .again next ∧
      u.heap.cells x.1 = some ⟨x.2, next⟩ ∧
      Chained ListNode.mk u.heap next (afterRun x.2 xs) ∧ Heap.Within [x.1] s.heap u.heap := by
  have hnot := (List.nodup_cons.mp (h.nodup mk_inj)).1
  obtain ⟨hp, next, hx, hxs⟩ := id h
  rw [removeStep, if_neg (by simp [hp]), runs_bind]
  refine (runs_repeated h).mono ?_
  rintro b u ⟨rfl, hsame⟩
  subst hp
  cases b with
  | false =>
    simp only [Bool.false_eq_true, ↓reduceIte, runs_bind, runs_pure, runs_load]
    refine ⟨_, hx, next, rfl, hx, ?_, Heap.Within.refl _ _⟩
    rwa [hsame rfl]
  | true =>
    simp only [↓reduceIte]
    rw [runs_bind, runs_load]
    refine ⟨_, hx, ?_⟩
    rw [runs_bind]
    refine (runs_skip hx hxs hf).mono ?_
    rintro r u ⟨rfl, hr⟩
    rw [runs_bind, runs_modify]
    refine ⟨by rw [hx]; rfl, ?_⟩
    have hcell : (u.heap.modify x.1 (setNext r)).cells x.1 = some ⟨x.2, r⟩ := by
      rw [Heap.modify_cells, if_pos rfl, hx, Option.map_some, setNext_mk]
    rw [runs_bind, runs_load]
    refine ⟨_, hcell, runs_pure.mpr ⟨r, rfl, hcell, hr.congr fun z hz => ?_,
      Heap.within_modify _ _ _⟩⟩
    rw [Heap.modify_cells, if_neg]
    rintro he
    exact hnot (he ▸ List.mem_map_of_mem (afterRun_suffix.subset hz))

theorem runs_removeLoop {bound : Nat} (h : Chained ListNode.mk s.heap p xs)
    (hb : xs.length < bound) (hf : xs.length < fuel) :
    Runs (loop (removeStep bound) fuel p) s fun _ u =>
      Chained ListNode.mk u.heap p (firsts xs) ∧
        Heap.Within (xs.map Prod.fst) s.heap u.heap := by
  induction fuel generalizing s p xs with
  | zero => exact absurd hf (Nat.not_lt_zero _)
  | succ fuel ih =>
    rw [runs_loop_succ]
    cases xs with
    | nil =>
      obtain rfl : p = none := h
      rw [removeStep, if_pos Option.isNone_none, runs_pure]
      exact ⟨rfl, Heap.Within.refl _ _⟩
    | cons x xs =>
      have hnot := (List.nodup_cons.mp (h.nodup mk_inj)).1
      have hlen : (afterRun x.2 xs).length ≤ xs.length := afterRun_suffix.length_le
      have hsub : ∀ a ∈ (afterRun x.2 xs).map Prod.fst, a ∈ xs.map Prod.fst :=
        fun a ha => List.map_subset _ afterRun_suffix.subset ha
      refine (runs_removeStep h (Nat.lt_of_succ_lt hb)).mono ?_
      rintro _ u ⟨next, rfl, hx, hnext, hw⟩
      refine (ih hnext (by simp only [List.length_cons] at hb; omega)
        (by simp only [List.length_cons] at hf; omega)).mono ?_
      rintro _ t ⟨ht, hw'⟩
      have hxt := (hw'.same x.1 fun hmem => hnot (hsub _ hmem)).trans hx
      refine ⟨?_, (hw.mono ?_).trans (hw'.mono ?_)⟩
      · rw [firsts_cons]
        exact ⟨h.1, next, hxt, ht⟩
      · exact fun a ha => List.mem_singleton.mp ha ▸ List.mem_cons_self
      · exact fun a ha => List.mem_cons_of_mem _ (hsub a ha)

/-- Of equal values one after the other the first node stays. No other node changes, and what is
taken out of the list is not released. -/
theorem removes_repeated (h : Chained ListNode.mk s.heap p xs) (hf : xs.length < fuel) :
    Runs (removeDuplicateNodes fuel p) s fun r u =>
      r = p ∧ Chained ListNode.mk u.heap r (firsts xs) ∧
        (firsts xs).map Prod.snd = (xs.map Prod.snd).destutter (· ≠ ·) ∧
        Heap.Within (xs.map Prod.fst) s.heap u.heap := by
  rw [removeDuplicateNodes]
  cases p with
  | none =>
    cases xs with
    | nil => exact runs_pure.mpr ⟨rfl, rfl, rfl, Heap.Within.refl _ _⟩
    | cons x xs => cases h.1
  | some a =>
    rw [if_neg (by simp), runs_bind]
    exact (runs_removeLoop h hf hf).mono fun _ u hu =>
      runs_pure.mpr ⟨rfl, hu.1, firsts_map, hu.2⟩

theorem removes_repeated_sample :
    let h : Heap ListNode := (Heap.empty.alloc ⟨7, some 1⟩).alloc ⟨7, none⟩
    Runs (removeDuplicateNodes 3 (some 0)) ⟨(), h⟩ fun r u =>
      r = some 0 ∧ Chained ListNode.mk u.heap r (firsts [(0, 7), (1, 7)]) ∧
        (firsts [(0, 7), (1, 7)]).map Prod.snd = [7, 7].destutter (· ≠ ·) ∧
        Heap.Within [0, 1] h u.heap :=
  removes_repeated ⟨rfl, some 1, rfl, rfl, none, rfl, rfl⟩ (by decide)

end

end LanguageTest.RemoveDuplicateNodes
