import LanguageTest.Sort.BubbleSort
import LanguageTest.Sort.InsertSort

namespace LanguageTest.SelectSort
open Sorting

abbrev State := Vec Unit Int

/-- The index `minIndex` after the loop over `j`. -/
def minIndexFrom (fuel : Nat) (i : Int) : Program State Int :=
  loop (fun (j, minIndex) => do
    if j < (← sizeBound) then
      if (← element j) < (← element minIndex) then pure (.again (← int (j + 1), j))
      else pure (.again (← int (j + 1), minIndex))
    else pure (.done minIndex)) fuel (i, i)

def selectSort (fuel : Nat) : Program State Unit :=
  countUp fuel 0 sizeBound fun i => do
    let minIndex ← minIndexFrom fuel i
    swapElements minIndex i

/-- The index after the loop over `j` of `selectSort2`. It runs for an `i` that is less than
`data.size()`, so that `data.size() - 1` does not wrap around. -/
def indexAfter (fuel : Nat) (i : Int) : Program State Int := do
  let last := toInt ((← size) - 1)
  loop (fun (j, index) => do
    if j > i then
      if (← element index) ≥ (← element j) then pure (.again (j - 1, j))
      else pure (.again (j - 1, index))
    else pure (.done index)) fuel (last, last)

def selectSort2 (fuel : Nat) : Program State Unit :=
  countUp fuel 0 sizeBound fun i => do
    let index ← indexAfter fuel i
    swapElements i index

/-- The index of the first of the least elements. -/
def leastAt (xs : List Int) : Nat := xs.findIdx fun x => xs.all fun y => x ≤ y

/-- Some later element is not greater than the first one, unless it is the only one, and the rest
is selectable when the first one has taken the place of the first of its least elements. -/
def Selectable : List Int → Prop
  | [] => True
  | x :: rest => (rest ≠ [] → ∃ y ∈ rest, y ≤ x) ∧ Selectable (rest.set (leastAt rest) x)
termination_by xs => xs.length
decreasing_by simp

section
variable {s : State} {fuel i m n : Nat} {xs : List Int}

theorem runs_minIndexFrom (hi : i < s.items.length) (hn : s.items.length < 2147483648)
    (hf : s.items.length < fuel) : Runs (minIndexFrom fuel i) s fun p t => t.items = s.items ∧
      ∃ m : Nat, p = m ∧ i ≤ m ∧ m < s.items.length ∧
        ∀ k, i ≤ k → k < s.items.length → s.items[m]! ≤ s.items[k]! := by
  refine runs_loop (k := s.items.length - i) (fun k (p : Int × Int) t => t.items = s.items ∧
    ∃ j m : Nat, p = (↑j, ↑m) ∧ k = s.items.length - j ∧ i ≤ m ∧ m < s.items.length ∧ i ≤ j ∧
      j ≤ s.items.length ∧ ∀ k, i ≤ k → k < j → s.items[m]! ≤ s.items[k]!) ?_
    ⟨rfl, i, i, rfl, rfl, le_rfl, hi, le_rfl, hi.le, fun k h1 h2 => absurd h2 (by omega)⟩
    (by omega)
  rintro k _ t ⟨ht, j, m, rfl, rfl, him, hm, hij, hjn, hmin⟩
  have hlength : t.items.length = s.items.length := congrArg List.length ht
  rw [runs_bind, runs_sizeBound, hlength]
  by_cases hj : j < s.items.length
  · have hint : IsInt ((j : Int) + 1) := by
      unfold IsInt
      omega
    rw [if_pos (by omega), runs_elements (by omega) (by omega), ht]
    by_cases hlt : s.items[j]! < s.items[m]!
    · rw [if_pos hlt, runs_bind, runs_int hint, runs_pure]
      refine ⟨_, by omega, ht, j + 1, j, rfl, rfl, hij, hj, by omega, hj, fun k hik hkj => ?_⟩
      rcases Nat.lt_succ_iff_lt_or_eq.mp hkj with h | rfl
      · exact hlt.le.trans (hmin k hik h)
      · exact le_rfl
    · rw [if_neg hlt, runs_bind, runs_int hint, runs_pure]
      refine ⟨_, by omega, ht, j + 1, m, rfl, rfl, him, hm, by omega, hj, fun k hik hkj => ?_⟩
      rcases Nat.lt_succ_iff_lt_or_eq.mp hkj with h | rfl
      · exact hmin k hik h
      · exact not_lt.mp hlt
  · rw [if_neg (by omega), runs_pure]
    exact ⟨ht, m, rfl, him, hm, fun k hik hk => hmin k hik (by omega)⟩

theorem runs_selectSort (hn : s.items.length < 2147483648) (hf : s.items.length < fuel) :
    Runs (selectSort fuel) s fun _ t => t.items = s.items.insertionSort (· ≤ ·) := by
  refine (runs_countUp (l := 0) (n := s.items.length) (fun i t => t.items.Perm s.items ∧
    SortedUpTo i t.items) ?_ hn ?_ ⟨List.Perm.refl _, sortedUpTo_zero⟩ (by omega)).mono ?_
  · rintro i t ⟨hperm, -⟩
    exact runs_sizeBound.mpr ⟨hperm.length_eq, rfl⟩
  · rintro i - hi t ⟨hperm, hsorted⟩
    have hlength := hperm.length_eq
    rw [runs_bind]
    refine (runs_minIndexFrom (by omega) (by omega) (by omega)).mono ?_
    rintro _ u ⟨hu, m, rfl, him, hm, hmin⟩
    rw [← hu] at hperm hsorted hm hmin hlength
    rw [runs_swapElements hm (by omega), Vec.swap_items, swapped_comm]
    exact ⟨(perm_swapped (by omega) hm).trans hperm, hsorted.swap him hm hmin⟩
  · rintro _ t ⟨hperm, hsorted⟩
    have hlength := hperm.length_eq
    exact eq_insertionSort hperm (hsorted.sorted (by omega))

/-- What the loop over `j` of `selectSort2` finds. It does not look at `i`, except as the last
index. -/
structure FirstLeast (i m : Nat) (xs : List Int) : Prop where
  lower : i ≤ m
  upper : m < xs.length
  after : i + 1 < xs.length → i < m
  least : ∀ k, i < k → k < xs.length → xs[m]! ≤ xs[k]!
  first : ∀ k, i < k → k < m → xs[m]! < xs[k]!

theorem runs_indexAfter (hi : i < s.items.length) (hn : s.items.length < 2147483648)
    (hf : s.items.length < fuel) : Runs (indexAfter fuel i) s fun p t => t.items = s.items ∧
      ∃ m : Nat, p = m ∧ FirstLeast i m s.items := by
  have hlast : toInt (s.items.length - 1) = (s.items.length - 1 : Nat) := toInt_of_lt (by omega)
  rw [indexAfter, runs_bind, runs_size, hlast]
  refine runs_loop (k := s.items.length - 1) (fun k (p : Int × Int) t => t.items = s.items ∧
    ∃ m : Nat, p = (↑k, ↑m) ∧ i ≤ k ∧ k ≤ m ∧ m < s.items.length ∧
      (m = s.items.length - 1 ∨ k < m) ∧
      (∀ j, k < j → j < s.items.length → s.items[m]! ≤ s.items[j]!) ∧
      ∀ j, k < j → j < m → s.items[m]! < s.items[j]!) ?_ ?_ (by omega)
  · rintro j _ t ⟨ht, m, rfl, hij, hjm, hm, hlater, hleast, hfirst⟩
    have hlength : t.items.length = s.items.length := congrArg List.length ht
    dsimp only
    by_cases hgt : i < j
    · have hpred : (j : Int) - 1 = (j - 1 : Nat) := by omega
      rw [if_pos (by omega), runs_elements (by omega) (by omega), ht, hpred]
      by_cases hge : s.items[m]! ≥ s.items[j]!
      · rw [if_pos hge, runs_pure]
        refine ⟨j - 1, by omega, ht, j, rfl, by omega, by omega, by omega, by omega, ?_, by omega⟩
        intro k hk hkn
        rcases Nat.eq_or_lt_of_le (show j ≤ k by omega) with rfl | hjk
        · exact le_rfl
        · exact hge.trans (hleast k hjk hkn)
      · rw [if_neg hge, runs_pure]
        refine ⟨j - 1, by omega, ht, m, rfl, by omega, by omega, hm, by omega, ?_, ?_⟩
        · intro k hk hkn
          rcases Nat.eq_or_lt_of_le (show j ≤ k by omega) with rfl | hjk
          · exact (not_le.mp hge).le
          · exact hleast k hjk hkn
        · intro k hk hkm
          rcases Nat.eq_or_lt_of_le (show j ≤ k by omega) with rfl | hjk
          · exact not_le.mp hge
          · exact hfirst k hjk hkm
    · have hend : j = i := by omega
      subst hend
      rw [if_neg (by omega), runs_pure]
      exact ⟨ht, m, rfl, hjm, hm, by omega, hleast, hfirst⟩
  · exact ⟨rfl, s.items.length - 1, rfl, by omega, le_rfl, by omega, by omega, by omega, by omega⟩

namespace FirstLeast

theorem leastAt_eq (h : FirstLeast i m xs) (hi : i + 1 < xs.length) :
    leastAt (xs.drop (i + 1)) = m - (i + 1) := by
  have him := h.after hi
  have hm := h.upper
  have hrange : m - (i + 1) < (xs.drop (i + 1)).length := by
    rw [List.length_drop]
    omega
  have hat : ∀ k, (xs.drop (i + 1))[k]! = xs[i + 1 + k]! := fun k => getElem!_drop
  rw [leastAt, List.findIdx_eq hrange]
  constructor
  · rw [← getElem!_pos (xs.drop (i + 1)) _ hrange, hat, Nat.add_sub_cancel' him, List.all_eq_true]
    intro y hy
    obtain ⟨k, hk, hkn, rfl⟩ := mem_drop_iff.mp hy
    exact decide_eq_true (h.least k hk hkn)
  · intro k hk
    have hk' := hk.trans hrange
    rw [← getElem!_pos (xs.drop (i + 1)) k hk', hat, List.all_eq_false]
    refine ⟨xs[m]!, mem_drop_iff.mpr ⟨m, him, hm, rfl⟩, ?_⟩
    have hlt := h.first (i + 1 + k) (by omega) (by omega)
    simpa using hlt

/-- The rest after the swap is the one that the condition speaks about. -/
theorem drop_swapped (h : FirstLeast i m xs) (hi : i + 1 < xs.length) :
    (swapped xs i m).drop (i + 1) =
      (xs.drop (i + 1)).set (leastAt (xs.drop (i + 1))) xs[i]! := by
  have him := h.after hi
  rw [h.leastAt_eq hi, swapped, List.drop_set, if_neg (Nat.not_lt.mpr him),
    List.drop_set_of_lt (Nat.lt_succ_self i)]

/-- One pass, in which the array so far stays in order if and only if the first element of the
rest is not less than all the others. -/
theorem step (h : FirstLeast i m xs) (hi : i < xs.length) :
    SortedUpTo i xs ∧ Selectable (xs.drop i) ↔
      SortedUpTo (i + 1) (swapped xs i m) ∧ Selectable ((swapped xs i m).drop (i + 1)) := by
  have hlower := h.lower
  have hm := h.upper
  by_cases hlast : i + 1 < xs.length
  · have him := h.after hlast
    have hrest : xs.drop (i + 1) ≠ [] ∧ xs[m]! ∈ xs.drop (i + 1) :=
      ⟨by simpa using hlast, mem_drop_iff.mpr ⟨m, him, hm, rfl⟩⟩
    have hle : (xs.drop (i + 1) ≠ [] → ∃ y ∈ xs.drop (i + 1), y ≤ xs[i]!) ↔ xs[m]! ≤ xs[i]! := by
      constructor
      · intro hsome
        obtain ⟨y, hy, hyi⟩ := hsome hrest.1
        obtain ⟨k, hk, hkn, rfl⟩ := mem_drop_iff.mp hy
        exact (h.least k hk hkn).trans hyi
      · exact fun hle _ => ⟨_, hrest.2, hle⟩
    rw [drop_eq_cons hi, Selectable, hle, h.drop_swapped hlast,
      sortedUpTo_swapped him hm h.least, and_assoc]
  · have heq : m = i := by omega
    have hend : xs.drop (i + 1) = [] := List.drop_eq_nil_of_le (Nat.not_lt.mp hlast)
    have hsorted : SortedUpTo i xs ↔ SortedUpTo (i + 1) xs := by
      constructor
      · exact fun hs => hs.succ fun k hk hkn => absurd hkn (by omega)
      · exact fun hs a b hab hb hai => hs a b hab hb (by omega)
    rw [heq, swapped_self hi, drop_eq_cons hi, hend, hsorted]
    simp [Selectable]

end FirstLeast

theorem runs_selectSort2 (hn : s.items.length < 2147483648) (hf : s.items.length < fuel) :
    Runs (selectSort2 fuel) s fun _ t =>
      t.items = s.items.insertionSort (· ≤ ·) ↔ Selectable s.items := by
  refine (runs_countUp (l := 0) (n := s.items.length) (fun i t => t.items.Perm s.items ∧
    (SortedUpTo i t.items ∧ Selectable (t.items.drop i) ↔ Selectable s.items)) ?_ hn ?_
    ⟨List.Perm.refl _, by simp [sortedUpTo_zero]⟩ (by omega)).mono ?_
  · rintro i t ⟨hperm, -⟩
    exact runs_sizeBound.mpr ⟨hperm.length_eq, rfl⟩
  · rintro i - hi t ⟨hperm, hsame⟩
    have hlength := hperm.length_eq
    rw [runs_bind]
    refine (runs_indexAfter (by omega) (by omega) (by omega)).mono ?_
    rintro _ u ⟨hu, m, rfl, hleast⟩
    rw [← hu] at hperm hsame hleast hlength
    rw [runs_swapElements (by omega) hleast.upper, Vec.swap_items, ← hleast.step (by omega)]
    exact ⟨(perm_swapped (by omega) hleast.upper).trans hperm, hsame⟩
  · rintro _ t ⟨hperm, hsame⟩
    have hlength := hperm.length_eq
    rw [Nat.max_eq_right (Nat.zero_le _), ← hlength, List.drop_length] at hsame
    rw [← hsame]
    constructor
    · intro ht
      have hsorted : SortedIn 0 s.items.length t.items := ht ▸ sortedIn_insertionSort
      refine ⟨fun a b hab hb _ => hsorted a b (Nat.zero_le a) hab (hlength ▸ hb), ?_⟩
      simp [Selectable]
    · exact fun hboth => eq_insertionSort hperm (hboth.1.sorted (Nat.le_succ _))

theorem ensures_indexAfter {i : Int} (h : HasSize n s) :
    Ensures (indexAfter fuel i) s fun _ t => HasSize n t := by
  refine Runs.bind_ensures (runs_size.mpr ?_)
  refine ensures_loop (fun _ t => HasSize n t) ?_ h
  rintro ⟨j, index⟩ t ht
  dsimp only
  split_ifs
  · refine Ensures.bind ((ensures_element ht).mono fun x u hu => ?_)
    refine Ensures.bind ((ensures_element hu).mono fun y v hv => ?_)
    split_ifs
    · exact ensures_pure hv
    · exact ensures_pure hv
  · exact ensures_pure ht

theorem not_runs_selectSort2 (hn : 2147483648 ≤ s.items.length) {Q : Unit → State → Prop} :
    ¬ Runs (selectSort2 fuel) s Q := by
  refine not_runs_countUp (HasSize s.items.length) ?_ ?_ rfl (by decide)
  · intro t ht
    refine (runs_sizeBound.mpr ⟨?_, ht⟩).ensures
    rw [ht]
    omega
  · intro i t ht
    exact Ensures.bind ((ensures_indexAfter ht).mono fun _ _ => ensures_swapElements)

end

open InsertSort BubbleSort in
/-- The four end with the same vector. An array has an index of type `int` for each element. -/
theorem sorts_agree (data : List Int) (fuel : Nat) (hn : data.length ≤ 2147483647)
    (hf : data.length < fuel) :
    Runs (insertSort fuel) ⟨(), data, []⟩ (fun _ t => t.items = data.insertionSort (· ≤ ·)) ∧
    Runs (insertSort2 fuel) ⟨(), data, []⟩ (fun _ t => t.items = data.insertionSort (· ≤ ·)) ∧
    Runs (bubbleSort fuel data.length) ⟨(), data, []⟩
      (fun _ t => t.items = data.insertionSort (· ≤ ·)) ∧
    Runs (selectSort fuel) ⟨(), data, []⟩ (fun _ t => t.items = data.insertionSort (· ≤ ·)) := by
  have hlt : data.length < 2147483648 := Nat.lt_succ_of_le hn
  exact ⟨runs_insertSort hlt hf, runs_insertSort2 hlt hf,
    runs_bubbleSort (s := ⟨(), data, []⟩) hlt hf, runs_selectSort hlt hf⟩

def sample : List Int := [4, 7, 8, 3, 1, 1, 2, 6, 5]

open InsertSort BubbleSort in
theorem sorts_agree_sample :
    Runs (insertSort 10) ⟨(), sample, []⟩ (fun _ t => t.items = sample.insertionSort (· ≤ ·)) ∧
    Runs (insertSort2 10) ⟨(), sample, []⟩ (fun _ t => t.items = sample.insertionSort (· ≤ ·)) ∧
    Runs (bubbleSort 10 sample.length) ⟨(), sample, []⟩
      (fun _ t => t.items = sample.insertionSort (· ≤ ·)) ∧
    Runs (selectSort 10) ⟨(), sample, []⟩ (fun _ t => t.items = sample.insertionSort (· ≤ ·)) :=
  sorts_agree sample 10 (by decide) (by decide)

/-- Zeros, one more than the greatest `int`. -/
def zeros : List Int := List.replicate 2147483648 0

theorem sorts_agree_zeros : zeros.length = 2147483648 ∧
    ∀ fuel, ¬ Runs (InsertSort.insertSort fuel) ⟨(), zeros, []⟩ fun _ t =>
      t.items = zeros.insertionSort (· ≤ ·) := by
  have hlength : zeros.length = 2147483648 := List.length_replicate
  exact ⟨hlength, fun fuel => InsertSort.not_runs_insertSort hlength.ge⟩

/-- `selectSort2` does what `selectSort` does exactly of the selectable arrays. -/
theorem selectSort2_iff (data : List Int) (fuel : Nat) (hf : data.length < fuel) :
    (Runs (selectSort2 fuel) ⟨(), data, []⟩ fun _ t => t.items = data.insertionSort (· ≤ ·) ∧
      Runs (selectSort fuel) ⟨(), data, []⟩ fun _ u => u.items = t.items) ↔
    data.length ≤ 2147483647 ∧ Selectable data := by
  constructor
  · intro hruns
    have hn : data.length < 2147483648 := by
      by_contra hge
      exact not_runs_selectSort2 (Nat.not_lt.mp hge) hruns
    obtain ⟨_, t, -, ⟨hsorted, -⟩, hiff⟩ := hruns.and (runs_selectSort2 hn hf)
    exact ⟨Nat.le_of_lt_succ hn, hiff.mp hsorted⟩
  · rintro ⟨hn, hselectable⟩
    have hlt : data.length < 2147483648 := Nat.lt_succ_of_le hn
    refine (runs_selectSort2 (s := ⟨(), data, []⟩) hlt hf).mono ?_
    intro _ t ht
    have hsorted := ht.mpr hselectable
    refine ⟨hsorted, (runs_selectSort (s := ⟨(), data, []⟩) hlt hf).mono ?_⟩
    exact fun _ u hu => hu.trans hsorted.symm

theorem selectSort2_iff_sample :
    (Runs (selectSort2 10) ⟨(), sample, []⟩ fun _ t => t.items = sample.insertionSort (· ≤ ·) ∧
      Runs (selectSort 10) ⟨(), sample, []⟩ fun _ u => u.items = t.items) ↔
    sample.length ≤ 2147483647 ∧ Selectable sample :=
  selectSort2_iff sample 10 (by decide)

theorem selectSort2_ordered :
    Runs (selectSort 3) ⟨(), [1, 2], []⟩ (fun _ t => t.items = [1, 2]) ∧
    ∀ fuel, 2 < fuel → ¬ Runs (selectSort2 fuel) ⟨(), [1, 2], []⟩ fun _ t =>
      t.items = [1, 2].insertionSort (· ≤ ·) ∧
      Runs (selectSort fuel) ⟨(), [1, 2], []⟩ fun _ u => u.items = t.items := by
  refine ⟨runs_selectSort (s := ⟨(), [1, 2], []⟩) (by decide) (by decide), ?_⟩
  intro fuel hf hruns
  obtain ⟨_, t, -, ⟨hsorted, -⟩, hiff⟩ :=
    hruns.and (runs_selectSort2 (s := ⟨(), [1, 2], []⟩) (by decide) hf)
  have hselectable := hiff.mp hsorted
  simp [Selectable] at hselectable

end LanguageTest.SelectSort
