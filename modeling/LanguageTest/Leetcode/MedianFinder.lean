import LanguageTest.Library.Arithmetic
import LanguageTest.Library.PriorityQueue

namespace LanguageTest.MedianFinder
open PriorityQueue

/-- The two `std::priority_queue`s, which are taken to be correct heaps: `maxHeap` orders by
`less<int>` and `minHeap` by `greater<int>`. -/
structure State where
  maxHeap : List Int
  minHeap : List Int
  count : Int
  deriving Repr

def initial : State := ⟨[], [], 0⟩

/-- `top()`, which an empty queue does not have. -/
def top (r : Int → Int → Prop) [DecidableRel r] (q : List Int) : Program State Int :=
  match top? r q with
  | some x => pure x
  | none => fail .outOfRange

def maxTop : Program State Int := do
  top (· ≤ ·) (← get).maxHeap

def minTop : Program State Int := do
  top (· ≥ ·) (← get).minHeap

def pushMax (num : Int) : Program State Unit := do
  let s ← get
  set { s with maxHeap := num :: s.maxHeap }

def pushMin (num : Int) : Program State Unit := do
  let s ← get
  set { s with minHeap := num :: s.minHeap }

def popMax : Program State Unit := do
  let x ← maxTop
  let s ← get
  set { s with maxHeap := s.maxHeap.erase x }

def popMin : Program State Unit := do
  let x ← minTop
  let s ← get
  set { s with minHeap := s.minHeap.erase x }

/-- `addNum` up to the counting. -/
def passNum (num : Int) : Program State Unit := do
  if (← get).count % 2 = 0 then
    pushMax num
    pushMin (← maxTop)
    popMax
  else
    pushMin num
    pushMax (← minTop)
    popMin

def addNum (num : Int) : Program State Unit := do
  passNum num
  let s ← get
  let count ← int (s.count + 1)
  set { s with count := count }

/-- The numbers that `findMedian` averages. -/
def findMedian : Program State (List Int) := do
  if (← get).count % 2 = 0 then
    pure [← maxTop, ← minTop]
  else
    pure [← minTop]

def run (nums : List Int) : Program State (List Unit) := runAll addNum nums

/-- The state after some numbers were added. -/
structure Balanced (nums : List Int) (s : State) : Prop where
  perm : (s.maxHeap ++ s.minHeap).Perm nums
  separated : Separated (· ≤ ·) s.maxHeap s.minHeap
  count : s.count = nums.length
  sizes : s.minHeap.length = s.maxHeap.length + nums.length % 2

variable {s : State} {nums : List Int} {num x : Int}

theorem runs_top {r : Int → Int → Prop} [DecidableRel r] {q : List Int}
    {Q : Int → State → Prop} (h : top? r q = some x) : Runs (top r q) s Q ↔ Q x s := by
  rw [top, h, runs_pure]

theorem exists_max {q : List Int} (hq : q ≠ []) : ∃ x, top? (· ≤ ·) q = some x :=
  exists_top? (fun a b => le_total a b) (fun _ _ _ h1 h2 => le_trans h1 h2) hq

theorem exists_min {q : List Int} (hq : q ≠ []) : ∃ x, top? (· ≥ ·) q = some x :=
  exists_top? (fun a b => le_total b a) (fun _ _ _ h1 h2 => le_trans h2 h1) hq

theorem length_pass {q : List Int} (h : x ∈ num :: q) :
    ((num :: q).erase x).length = q.length := by
  rw [List.length_erase_of_mem h]
  rfl

/-- The number goes through one heap to the other, which is then one larger, or as large. -/
theorem passNum_balanced (h : Balanced nums s) (num : Int) :
    Runs (passNum num) s fun _ u =>
      u.count = s.count ∧ Balanced (nums ++ [num]) { u with count := u.count + 1 } := by
  have hcount := h.count
  have hsizes := h.sizes
  rw [passNum, runs_bind, runs_get]
  by_cases heven : s.count % 2 = 0
  · obtain ⟨x, hx⟩ := exists_max (List.cons_ne_nil num s.maxHeap)
    obtain ⟨hmem, hmax⟩ := top?_spec hx
    simp only [heven, ↓reduceIte, pushMax, pushMin, popMax, maxTop, runs_bind, runs_get, runs_set,
      runs_top hx]
    refine ⟨trivial, ?_, ?_, ?_, ?_⟩
    · apply (pass_perm hmem).trans
      exact (h.perm.cons num).trans (List.perm_append_singleton num nums).symm
    · exact h.separated.pass (fun _ _ _ h1 h2 => le_trans h1 h2) hmem hmax
    · simp [hcount]
    · simp only [length_pass hmem, List.length_cons, List.length_append, List.length_nil]
      omega
  · obtain ⟨x, hx⟩ := exists_min (List.cons_ne_nil num s.minHeap)
    obtain ⟨hmem, hmin⟩ := top?_spec hx
    simp only [heven, ↓reduceIte, pushMax, pushMin, popMin, minTop, runs_bind, runs_get, runs_set,
      runs_top hx]
    have hflip : Separated (· ≥ ·) s.minHeap s.maxHeap := fun a ha b hb => h.separated b hb a ha
    have hpass : Separated (· ≥ ·) ((num :: s.minHeap).erase x) (x :: s.maxHeap) :=
      hflip.pass (fun _ _ _ h1 h2 => le_trans h2 h1) hmem hmin
    refine ⟨trivial, ?_, ?_, ?_, ?_⟩
    · apply List.perm_append_comm.trans
      apply (pass_perm hmem).trans
      apply (List.perm_append_comm.cons num).trans
      exact (h.perm.cons num).trans (List.perm_append_singleton num nums).symm
    · exact fun a ha b hb => hpass b hb a ha
    · simp [hcount]
    · simp only [length_pass hmem, List.length_cons, List.length_append, List.length_nil]
      omega

theorem addNum_balanced (h : Balanced nums s) (hroom : nums.length < 2147483647) (num : Int) :
    Runs (addNum num) s fun _ u => Balanced (nums ++ [num]) u := by
  rw [addNum, runs_bind]
  refine (passNum_balanced h num).mono ?_
  rintro _ u ⟨hu, hbalanced⟩
  have hcount := h.count
  rw [runs_bind, runs_get, runs_int_bind (by omega) (by omega), runs_set]
  exact hbalanced

/-- The count cannot go on after the greatest `int`. -/
theorem addNum_full (h : Balanced nums s) (hfull : nums.length = 2147483647) (num : Int) :
    Fails (addNum num) s .overflow := by
  refine Runs.fails ((passNum_balanced h num).mono ?_)
  rintro _ u ⟨hu, -⟩
  refine Runs.fails (runs_get.mpr (Fails.bind (fails_int ?_)))
  rw [hu, h.count, hfull]
  decide

/-- The one or two middle elements of a sorted list. -/
def middle (l : List Int) : List (Option Int) :=
  if l.length % 2 = 0 then [l[l.length / 2 - 1]?, l[l.length / 2]?] else [l[l.length / 2]?]

theorem findMedian_spec (h : Balanced nums s) (hne : nums ≠ []) {l : List Int}
    (hp : l.Perm nums) (hl : l.Pairwise (· ≤ ·)) :
    Runs findMedian s fun r u => u = s ∧ r.map some = middle l := by
  have hcount := h.count
  have hsizes := h.sizes
  have hlen := hp.length_eq
  have hall := h.perm.length_eq
  have hpos := List.length_pos_of_ne_nil hne
  have hparts := hp.trans h.perm.symm
  rw [List.length_append] at hall
  have hminne : s.minHeap ≠ [] := by
    apply List.ne_nil_of_length_pos
    omega
  obtain ⟨y, hy⟩ := exists_min hminne
  obtain ⟨hymem, hmin⟩ := top?_spec hy
  have hfirst := getElem?_first h.separated hl hparts hymem hmin
  rw [findMedian, runs_bind, runs_get, middle]
  by_cases heven : s.count % 2 = 0
  · have hmaxne : s.maxHeap ≠ [] := by
      apply List.ne_nil_of_length_pos
      omega
    obtain ⟨x, hx⟩ := exists_max hmaxne
    obtain ⟨hxmem, hmax⟩ := top?_spec hx
    have hlast := getElem?_last h.separated hl hparts hxmem hmax
    simp only [heven, ↓reduceIte, maxTop, minTop, runs_bind, runs_get, runs_top hx, runs_top hy,
      runs_pure]
    refine ⟨trivial, ?_⟩
    rw [if_pos (by omega), show l.length / 2 = s.maxHeap.length by omega, hlast, hfirst]
    rfl
  · simp only [heven, ↓reduceIte, minTop, runs_bind, runs_get, runs_top hy, runs_pure]
    refine ⟨trivial, ?_⟩
    rw [if_neg (by omega), show l.length / 2 = s.maxHeap.length by omega, hfirst]
    rfl

theorem runs_balanced (hlength : nums.length ≤ 2147483647) :
    Runs (run nums) initial fun _ s => Balanced nums s := by
  apply runs_all (fun pre _ s => Balanced pre s) nums
  · intro pre num post _ s he h
    refine addNum_balanced h ?_ num
    rw [he, List.length_append, List.length_cons] at hlength
    omega
  · exact ⟨List.Perm.refl [], fun a ha => absurd ha List.not_mem_nil, rfl, rfl⟩

/-- After as many numbers as an `int` can count the two heaps hold them, in halves, and
`findMedian` looks at the middle of their sorted sequence. -/
theorem run_median (nums : List Int) (hne : nums ≠ []) (hlength : nums.length ≤ 2147483647) :
    Runs (run nums) initial fun _ s => Balanced nums s ∧
      ∀ l : List Int, l.Perm nums → l.Pairwise (· ≤ ·) →
        Runs findMedian s fun r u => u = s ∧ r.map some = middle l :=
  (runs_balanced hlength).mono fun _ _ h => ⟨h, fun _ hp hl => findMedian_spec h hne hp hl⟩

theorem run_median_three :
    Runs (run [5, 1, 3]) initial fun _ s => Balanced [5, 1, 3] s ∧
      ∀ l : List Int, l.Perm [5, 1, 3] → l.Pairwise (· ≤ ·) →
        Runs findMedian s fun r u => u = s ∧ r.map some = middle l :=
  run_median [5, 1, 3] (by decide) (by decide)

/-- Of one number more the last call overflows. -/
theorem run_median_full :
    Fails (run (List.replicate 2147483647 0 ++ [0])) initial .overflow ∧
      ¬ ∀ nums : List Int, nums ≠ [] → Runs (run nums) initial fun _ s => Balanced nums s ∧
        ∀ l : List Int, l.Perm nums → l.Pairwise (· ≤ ·) →
          Runs findMedian s fun r u => u = s ∧ r.map some = middle l := by
  have hlength : (List.replicate 2147483647 (0 : Int)).length = 2147483647 := List.length_replicate
  have hfails : Fails (run (List.replicate 2147483647 0 ++ [0])) initial .overflow :=
    fails_runAll ((runs_balanced hlength.le).mono fun _ _ h => addNum_full h hlength 0)
  exact ⟨hfails, fun h => (h _ (List.append_ne_nil_of_right_ne_nil _ (by simp))).not_fails hfails⟩

end LanguageTest.MedianFinder
