import LanguageTest.Library.MaxHeap

namespace LanguageTest.HeapSort
open Sorting

abbrev State := Vec Unit Int

/-- `if (c < len && vec[c] > vec[maxId]) maxId = c`. -/
def greater (len c maxId : Int) : Program State Int := do
  if c < len then
    if (← element c) > (← element maxId) then pure c else pure maxId
  else pure maxId

/-- The first statements of `heapify` and of `heapify2`, up to the value of `maxId`. The
multiplication is the shift `index << 1`, which has the same range. -/
def maxIdOf (index len : Int) : Program State Int := do
  let left ← int ((← int (index * 2)) + 1)
  let right ← int ((← int (index * 2)) + 2)
  let maxId ← greater len left index
  greater len right maxId

def heapify : Nat → Int → Int → Program State Unit
  | 0, _, _ => fail .outOfFuel
  | fuel + 1, index, len => do
    let maxId ← maxIdOf index len
    if maxId ≠ index then
      swapElements index maxId
      heapify fuel maxId len

def heapify2 (fuel : Nat) (index len : Int) : Program State Unit := do
  let maxId ← maxIdOf index len
  if maxId ≠ index then
    swapElements maxId index
    heapify fuel maxId len

/-- The first loop of `heapSort`. -/
def build (fuel : Nat) (len : Int) : Program State Unit :=
  countDown fuel (len.tdiv 2 - 1) 0 1 fun i => heapify fuel i len

/-- The second loop of `heapSort`, which goes down to 1. -/
def extract (fuel : Nat) (len last : Int) : Program State Unit := do
  let first ← int (len - 1)
  countDown fuel first last 1 fun i => do
    swapElements 0 i
    heapify2 fuel 0 i

def heapSort (fuel : Nat) : Program State Unit := do
  let len := toInt (← size)
  build fuel len
  extract fuel len 1

/-- Before the pass that takes the element at `p - 1`: the first `p` elements are a heap, the
others are in order, and none of the first is greater than one of the others. -/
structure Extracting (data : List Int) (p : Nat) (xs : List Int) : Prop where
  perm : xs.Perm data
  heap : HeapFrom 0 p xs
  sorted : SortedFrom p xs

section
variable {s : State} {fuel i n p q m : Nat} {data : List Int}

theorem runs_greater (hi : m < s.items.length) (hn : n ≤ s.items.length) :
    Runs (greater n i m) s fun p t => t.items = s.items ∧
      p = (if i < n ∧ s.items[i]! > s.items[m]! then i else m : Nat) := by
  rw [greater]
  by_cases hlt : i < n
  · rw [if_pos (by omega), runs_elements (by omega) hi]
    by_cases hgt : s.items[i]! > s.items[m]!
    · rw [if_pos hgt, if_pos ⟨hlt, hgt⟩, runs_pure]
      exact ⟨rfl, rfl⟩
    · rw [if_neg hgt, if_neg fun h => hgt h.2, runs_pure]
      exact ⟨rfl, rfl⟩
  · rw [if_neg (by omega), if_neg fun h => hlt h.1, runs_pure]
    exact ⟨rfl, rfl⟩

/-- Before this index the indices of both children are of type `int`. -/
theorem runs_maxIdOf (hi : i < n) (hn : n ≤ s.items.length) (hsmall : i < 1073741823) :
    Runs (maxIdOf i n) s fun p t => t.items = s.items ∧ p = maxChild n i s.items := by
  have hleft : (i : Int) * 2 + 1 = (2 * i + 1 : Nat) := by omega
  have hright : (i : Int) * 2 + 2 = (2 * i + 2 : Nat) := by omega
  rw [maxIdOf, runs_int_bind (by omega) (by omega), runs_int_bind (by omega) (by omega),
    runs_int_bind (by omega) (by omega), runs_int_bind (by omega) (by omega), runs_bind, hleft,
    hright]
  refine (runs_greater (by omega) hn).mono ?_
  rintro _ t ⟨ht, rfl⟩
  have hm : (if 2 * i + 1 < n ∧ s.items[2 * i + 1]! > s.items[i]! then 2 * i + 1 else i) <
      t.items.length := by
    rw [ht]
    split_ifs <;> omega
  refine (runs_greater hm (ht ▸ hn)).mono ?_
  rintro _ u ⟨hu, rfl⟩
  rw [ht] at hu ⊢
  exact ⟨hu, rfl⟩

theorem runs_heapify (hi : i < n) (hn : n ≤ s.items.length) (hsmall : n < 1073741824)
    (hf : n - i ≤ fuel) : Runs (heapify fuel i n) s fun _ t =>
      t.items = siftDown fuel n i s.items := by
  induction fuel generalizing i s with
  | zero => omega
  | succ fuel ih =>
    rw [heapify, runs_bind]
    refine (runs_maxIdOf hi hn (by omega)).mono ?_
    rintro _ t ⟨ht, rfl⟩
    rw [← ht] at hn ⊢
    by_cases hm : maxChild n i t.items = i
    · rw [if_neg (by omega), siftDown_of_eq hm, runs_pure]
    · obtain ⟨hlt, hmn⟩ := lt_maxChild hm
      rw [if_pos (by omega), siftDown_of_ne hm, runs_bind, runs_swapElements (by omega) (by omega)]
      exact ih (s := t.swap i _) hmn (by rwa [Vec.swap_items, length_swapped]) (by omega)

/-- One level, and then `heapify`, is the same as `heapify`. -/
theorem runs_heapify2 (hi : i < n) (hn : n ≤ s.items.length) (hsmall : n < 1073741824)
    (hf : n - i ≤ fuel + 1) : Runs (heapify2 fuel i n) s fun _ t =>
      t.items = siftDown (fuel + 1) n i s.items := by
  rw [heapify2, runs_bind]
  refine (runs_maxIdOf hi hn (by omega)).mono ?_
  rintro _ t ⟨ht, rfl⟩
  rw [← ht] at hn ⊢
  by_cases hm : maxChild n i t.items = i
  · rw [if_neg (by omega), siftDown_of_eq hm, runs_pure]
  · obtain ⟨hlt, hmn⟩ := lt_maxChild hm
    rw [if_pos (by omega), siftDown_of_ne hm, runs_bind, runs_swapElements (by omega) (by omega),
      swapped_comm]
    refine runs_heapify (s := t.swap _ i) hmn ?_ hsmall (by omega)
    rwa [Vec.swap_items, length_swapped]

/-- The subtrees below `i` are heaps before the pass for `i`. -/
theorem runs_build (hsmall : s.items.length < 1073741824) (hf : s.items.length < fuel) :
    Runs (build fuel s.items.length) s fun _ t => Extracting s.items s.items.length t.items := by
  have hhalf : (s.items.length : Int).tdiv 2 = (s.items.length / 2 : Nat) := rfl
  rw [build, hhalf]
  refine (runs_countDown (f := s.items.length / 2) (l := 0) (g := 1) Nat.one_pos
    (fun p t => t.items.Perm s.items ∧ HeapFrom p s.items.length t.items) ?_
    ⟨List.Perm.refl _, heapFrom_half⟩ (by omega)).mono ?_
  · rintro p hp hle t ⟨hperm, hheap⟩
    have hlength := hperm.length_eq
    have hi : p - 1 < s.items.length := by omega
    have hpred : p - 1 + 1 = p := by omega
    refine (runs_heapify hi hlength.ge hsmall (by omega)).mono ?_
    intro _ u hu
    rw [← hpred] at hheap
    rw [hu]
    exact ⟨(rearranged_siftDown hi hlength.ge).perm.trans hperm,
      heapFrom_siftDown hheap.except le_rfl hi hlength.ge (by omega)⟩
  · rintro _ t ⟨p, hp, hperm, hheap⟩
    have hzero : p = 0 := by omega
    subst hzero
    have hlength := hperm.length_eq
    exact ⟨hperm, hheap, hlength ▸ sortedFrom_length⟩

theorem runs_extractPass (h : Extracting data (p + 1) s.items) (hp : 1 ≤ p)
    (hn : p < s.items.length) (hsmall : s.items.length < 1073741824)
    (hf : s.items.length < fuel) :
    Runs (do swapElements 0 (p : Int); heapify2 fuel 0 p) s fun _ t =>
      Extracting data p t.items := by
  have hzero : (0 : Int) = (0 : Nat) := rfl
  have hle : p ≤ (s.swap 0 p).items.length := by
    rw [Vec.swap_items, length_swapped]
    exact hn.le
  rw [runs_bind, hzero, runs_swapElements (by omega) hn]
  refine (runs_heapify2 hp hle (by omega) (by omega)).mono ?_
  intro _ u hu
  rw [Vec.swap_items] at hle hu
  have hsift : Rearranged 0 p (swapped s.items 0 p) u.items := hu ▸ rearranged_siftDown hp hle
  rw [hu] at hsift ⊢
  have hperm : (swapped s.items 0 p).Perm data :=
    (perm_swapped (by omega) hn).trans h.perm
  exact ⟨hsift.perm.trans hperm,
    heapFrom_siftDown (h.heap.extract hn) le_rfl hp hle (by omega),
    (h.sorted.extract hn h.heap.root).rearranged hsift hle⟩

/-- The second loop, stopped after the pass for `q`. -/
theorem runs_extract (h : Extracting data s.items.length s.items) (hq : 1 ≤ q)
    (hsmall : s.items.length < 1073741824) (hf : s.items.length < fuel) :
    Runs (extract fuel s.items.length q) s fun _ t =>
      Extracting data (min q s.items.length) t.items := by
  have hlength := h.perm.length_eq
  have hone : (s.items.length : Int) - 1 = (s.items.length : Int) - (1 : Nat) := rfl
  rw [extract, runs_int_bind (by omega) (by omega), hone]
  refine (runs_countDown (l := q) (g := 1) Nat.one_pos (fun p t => min q s.items.length ≤ p ∧
    p ≤ s.items.length ∧ Extracting data p t.items) ?_ ⟨by omega, le_rfl, h⟩ hf).mono ?_
  · rintro p hp hle t ⟨hqp, hpn, ht⟩
    have hsame := ht.perm.length_eq
    have hpred : p - 1 + 1 = p := by omega
    rw [← hpred] at ht
    refine (runs_extractPass ht (by omega) (by omega) (by omega) (by omega)).mono ?_
    exact fun _ u hu => ⟨by omega, by omega, hu⟩
  · rintro _ t ⟨p, hp, hqp, hpn, ht⟩
    have heq : p = min q s.items.length := by omega
    exact heq ▸ ht

theorem runs_stopped (hq : 1 ≤ q) (hsmall : s.items.length < 1073741824)
    (hf : s.items.length < fuel) :
    Runs (do build fuel s.items.length; extract fuel s.items.length q) s fun _ t =>
      Extracting s.items (min q s.items.length) t.items := by
  rw [runs_bind]
  refine (runs_build hsmall hf).mono ?_
  intro _ t ht
  have hlength := ht.perm.length_eq
  rw [← hlength] at hsmall hf ⊢
  exact runs_extract (hlength ▸ ht) hq hsmall hf

theorem runs_heapSort (hsmall : s.items.length < 1073741824) (hf : s.items.length < fuel) :
    Runs (heapSort fuel) s fun _ t => t.items = s.items.insertionSort (· ≤ ·) := by
  rw [heapSort, runs_bind, runs_size, toInt_of_lt (by omega)]
  refine (runs_stopped (q := 1) le_rfl hsmall hf).mono ?_
  intro _ t ht
  exact eq_insertionSort ht.perm (ht.sorted.sorted (by omega))

theorem fails_maxIdOf : Fails (maxIdOf 1073741823 n) s .overflow := by
  refine Runs.fails ((runs_int (by decide)).mpr (Runs.fails ((runs_int (by decide)).mpr ?_)))
  refine Runs.fails ((runs_int (by decide)).mpr ?_)
  exact (fails_int (by decide)).bind

/-- The last element of such an array goes up at the first call, whose second level then computes
the index of a right child that is no `int`. -/
theorem not_runs_build (hlength : s.items.length = 1073741824)
    (hgt : s.items[536870911]! < s.items[1073741823]!) {Q : Unit → State → Prop} :
    ¬ Runs (build fuel 1073741824) s Q := by
  intro hruns
  cases fuel with
  | zero => exact hruns.not_fails fails_fail
  | succ fuel =>
    have hchild : maxChild 1073741824 536870911 s.items = 1073741823 := by
      have hright : ¬ 2 * 536870911 + 2 < 1073741824 := by decide
      rw [maxChild, if_neg fun h => hright h.1, if_pos ⟨by decide, hgt⟩]
    have hfirst : (1073741824 : Int).tdiv 2 - 1 = (536870911 : Nat) := by decide
    rw [build, hfirst] at hruns
    simp only [countDown, loop, runs_bind] at hruns
    rw [if_pos (by decide), runs_bind, heapify, runs_bind] at hruns
    have hmax := runs_maxIdOf (i := 536870911) (n := 1073741824) (by decide) hlength.ge (by decide)
    obtain ⟨_, t, -, hrest, ht, rfl⟩ := hruns.and hmax
    rw [hchild, if_pos (by decide), runs_bind, runs_swapElements (by rw [ht]; omega)
      (by rw [ht]; omega)] at hrest
    cases fuel with
    | zero => exact hrest.not_fails fails_fail
    | succ fuel => exact hrest.not_fails fails_maxIdOf.bind

end

/-- It sorts. The whole array is a heap after the first loop, and the second loop keeps a heap
before the elements in order. The two functions that restore a heap do the same. -/
theorem heapSort_sorts (data : List Int) (fuel : Nat) (hn : data.length < 1073741824)
    (hf : data.length < fuel) :
    Runs (heapSort fuel) ⟨(), data, []⟩ (fun _ t => t.items = data.insertionSort (· ≤ ·)) ∧
    Runs (build fuel data.length) ⟨(), data, []⟩ (fun _ t =>
      t.items.Perm data ∧ HeapFrom 0 data.length t.items) ∧
    (∀ q : Nat, 1 ≤ q → q ≤ data.length →
      Runs (do build fuel data.length; extract fuel data.length q) ⟨(), data, []⟩ fun _ t =>
        t.items.Perm data ∧ HeapFrom 0 q t.items ∧ SortedFrom q t.items) ∧
    ∀ (s : State) (i n : Nat), s.items.length = data.length → i < n → n ≤ data.length →
      ∃ xs, Runs (heapify fuel i n) s (fun _ t => t.items = xs) ∧
        Runs (heapify2 fuel i n) s (fun _ t => t.items = xs) := by
  refine ⟨runs_heapSort hn hf, ?_, ?_, ?_⟩
  · exact (runs_build (s := ⟨(), data, []⟩) hn hf).mono fun _ t ht => ⟨ht.perm, ht.heap⟩
  · intro q hq hqn
    refine (runs_stopped (s := ⟨(), data, []⟩) hq hn hf).mono ?_
    intro _ t ht
    rw [Nat.min_eq_left hqn] at ht
    exact ⟨ht.perm, ht.heap, ht.sorted⟩
  · intro s i n hs hi hle
    have hfuel : n - i ≤ fuel := by omega
    refine ⟨siftDown fuel n i s.items, runs_heapify hi (hs ▸ hle) (by omega) hfuel, ?_⟩
    rw [← siftDown_succ hfuel hi]
    exact runs_heapify2 hi (hs ▸ hle) (by omega) (by omega)

def sample : List Int := [4, 2, 6, 7, 1, 3, 5, 8]

theorem heapSort_sample :
    Runs (heapSort 9) ⟨(), sample, []⟩ (fun _ t => t.items = sample.insertionSort (· ≤ ·)) ∧
    Runs (build 9 sample.length) ⟨(), sample, []⟩ (fun _ t =>
      t.items.Perm sample ∧ HeapFrom 0 sample.length t.items) ∧
    (∀ q : Nat, 1 ≤ q → q ≤ sample.length →
      Runs (do build 9 sample.length; extract 9 sample.length q) ⟨(), sample, []⟩ fun _ t =>
        t.items.Perm sample ∧ HeapFrom 0 q t.items ∧ SortedFrom q t.items) ∧
    ∀ (s : State) (i n : Nat), s.items.length = sample.length → i < n → n ≤ sample.length →
      ∃ xs, Runs (heapify 9 i n) s (fun _ t => t.items = xs) ∧
        Runs (heapify2 9 i n) s (fun _ t => t.items = xs) :=
  heapSort_sorts sample 9 (by decide) (by decide)

/-- Zeros before a one, `2 ^ 30` elements. -/
def long : List Int := List.replicate 1073741823 0 ++ [1]

theorem heapSort_long : long.length = 1073741824 ∧
    ∀ fuel, ¬ Runs (heapSort fuel) ⟨(), long, []⟩ fun _ t =>
      t.items = long.insertionSort (· ≤ ·) := by
  have hzeros : (List.replicate 1073741823 (0 : Int)).length = 1073741823 := List.length_replicate
  have hlength : long.length = 1073741824 := by
    rw [long, List.length_append, hzeros, List.length_singleton]
  have hmid : long[536870911]! = 0 := by
    rw [long, List.getElem!_eq_getElem?_getD, List.getElem?_append_left (by omega),
      List.getElem?_replicate_of_lt (by decide), Option.getD_some]
  have hlast : long[1073741823]! = 1 := by
    rw [long, List.getElem!_eq_getElem?_getD, List.getElem?_append_right hzeros.le, hzeros]
    rfl
  have hcast : toInt 1073741824 = 1073741824 := by decide
  refine ⟨hlength, fun fuel hruns => ?_⟩
  rw [heapSort, runs_bind, runs_size, runs_bind, hlength, hcast] at hruns
  exact not_runs_build hlength (by rw [hmid, hlast]; decide) hruns

end LanguageTest.HeapSort
