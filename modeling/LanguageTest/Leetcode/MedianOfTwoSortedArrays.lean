import LanguageTest.Library.Doubles
import LanguageTest.Library.Ranks

namespace LanguageTest.MedianOfTwoSortedArrays
open Doubles Sorting

variable {σ : Type}

/-- `nums[i]`, where `i` is converted to `size_t`. -/
def read (nums : List Int) (i : Int) : Program σ Int :=
  match nums[toSize i]? with
  | none => fail .outOfRange
  | some x => pure x

/-- `midVal1` and `midVal2`, with `INT_MAX` where the array has no such element. -/
def midVal (nums : List Int) (i k : Int) : Program σ Int := do
  let p ← int ((← int (i + k.tdiv 2)) - 1)
  if toSize p < nums.length then read nums p else pure 2147483647

def findKth : Nat → List Int → Int → List Int → Int → Int → Program σ Int
  | 0, _, _, _, _, _ => fail .outOfFuel
  | fuel + 1, nums1, i, nums2, j, k => do
    if nums1.length ≤ toSize i then read nums2 (← int ((← int (j + k)) - 1))
    else if nums2.length ≤ toSize j then read nums1 (← int ((← int (i + k)) - 1))
    else if k = 1 then pure (min (← read nums1 i) (← read nums2 j))
    else
      let midVal1 ← midVal nums1 i k
      let midVal2 ← midVal nums2 j k
      if midVal1 < midVal2 then
        findKth fuel nums1 (← int (i + k.tdiv 2)) nums2 j (← int (k - k.tdiv 2))
      else
        findKth fuel nums1 i nums2 (← int (j + k.tdiv 2)) (← int (k - k.tdiv 2))

def findMedianSortedArrays (fuel : Nat) (nums1 nums2 : List Int) : Program σ Rat := do
  let m := toInt nums1.length
  let n := toInt nums2.length
  let left := (← int ((← int (m + n)) + 1)) >>> (1 : Nat)
  let right := (← int ((← int (m + n)) + 2)) >>> (1 : Nat)
  let data1 := double (← findKth fuel nums1 0 nums2 0 left)
  let data2 := double (← findKth fuel nums1 0 nums2 0 right)
  pure (double (double (data1 + data2) / 2))

/-- The value that stands for an element, or for the lack of one. -/
def probe (nums : List Int) (p : Nat) : Int := if p < nums.length then nums[p]! else 2147483647

section
variable {nums nums1 nums2 : List Int} {s : σ} {Q : Int → σ → Prop} {fuel i j k : Nat}

theorem toSize_index (h : i ≤ 2147483647) : toSize i = i := toSize_natCast (by omega)

theorem half_natCast : (k : Int).tdiv 2 = (k / 2 : Nat) := rfl

theorem runs_read (hi : i < nums.length) (hmax : i ≤ 2147483647) :
    Runs (read nums i) s Q ↔ Q nums[i]! s := by
  rw [read, toSize_index hmax, getElem!_of_lt hi, runs_pure]

/-- `nums[i + k - 1]`. -/
theorem runs_read_last (hk : 1 ≤ k) (hi : i + k ≤ nums.length) (hmax : i + k ≤ 2147483647) :
    Runs (do read nums (← int ((← int ((i : Int) + k)) - 1))) s Q ↔ Q nums[i + k - 1]! s := by
  have hindex : (i : Int) + k - 1 = (i + k - 1 : Nat) := by omega
  rw [runs_int_bind (by omega) (by omega), runs_int_bind (by omega) (by omega), hindex,
    runs_read (by omega) (by omega)]

theorem runs_midVal (hk : 2 ≤ k) (hmax : i + k ≤ 2147483647) :
    Runs (midVal nums i k) s Q ↔ Q (probe nums (i + k / 2 - 1)) s := by
  have hindex : (i : Int) + (k / 2 : Nat) - 1 = (i + k / 2 - 1 : Nat) := by omega
  rw [midVal, half_natCast, runs_int_bind (by omega) (by omega),
    runs_int_bind (by omega) (by omega), hindex, toSize_index (by omega), probe]
  split_ifs with hp
  · rw [runs_read hp (by omega)]
  · rw [runs_pure]

theorem findKth_right (hi : nums1.length ≤ i) (hk : 1 ≤ k) (hj : j + k ≤ nums2.length)
    (hmaxi : i ≤ 2147483647) (hmax : j + k ≤ 2147483647) :
    Runs (findKth (fuel + 1) nums1 i nums2 j k) s Q ↔ Q nums2[j + k - 1]! s := by
  rw [findKth, toSize_index hmaxi, if_pos hi]
  exact runs_read_last hk hj hmax

theorem findKth_left (hj : nums2.length ≤ j) (hi : i < nums1.length) (hk : 1 ≤ k)
    (hlen : i + k ≤ nums1.length) (hmaxj : j ≤ 2147483647) (hmax : i + k ≤ 2147483647) :
    Runs (findKth (fuel + 1) nums1 i nums2 j k) s Q ↔ Q nums1[i + k - 1]! s := by
  rw [findKth, toSize_index (by omega), if_neg (by omega), toSize_index hmaxj, if_pos hj]
  exact runs_read_last hk hlen hmax

theorem findKth_least (hi : i < nums1.length) (hj : j < nums2.length) (hmaxi : i ≤ 2147483647)
    (hmaxj : j ≤ 2147483647) :
    Runs (findKth (fuel + 1) nums1 i nums2 j 1) s Q ↔ Q (min nums1[i]! nums2[j]!) s := by
  rw [findKth, toSize_index hmaxi, if_neg (by omega), toSize_index hmaxj, if_neg (by omega),
    if_pos rfl, runs_bind, runs_read hi hmaxi, runs_bind, runs_read hj hmaxj, runs_pure]

/-- A call that compares two elements and leaves half of `k` elements of one array out. -/
theorem findKth_step (hi : i < nums1.length) (hj : j < nums2.length) (hk : 2 ≤ k)
    (hmax : i + j + k ≤ 2147483647) :
    Runs (findKth (fuel + 1) nums1 i nums2 j k) s Q ↔
      if probe nums1 (i + k / 2 - 1) < probe nums2 (j + k / 2 - 1) then
        Runs (findKth fuel nums1 (i + k / 2 : Nat) nums2 j (k - k / 2 : Nat)) s Q
      else Runs (findKth fuel nums1 i nums2 (j + k / 2 : Nat) (k - k / 2 : Nat)) s Q := by
  have hone : (k : Int) ≠ 1 := by omega
  have hrest : (k : Int) - (k / 2 : Nat) = (k - k / 2 : Nat) := by omega
  rw [findKth, toSize_index (by omega), if_neg (by omega), toSize_index (by omega),
    if_neg (by omega), if_neg hone, runs_bind, runs_midVal hk (by omega), runs_bind,
    runs_midVal hk (by omega), half_natCast, hrest]
  split_ifs with hlt
  · rw [runs_int_bind (by omega) (by omega), runs_int_bind (by omega) (by omega), ← Nat.cast_add]
  · rw [runs_int_bind (by omega) (by omega), runs_int_bind (by omega) (by omega), ← Nat.cast_add]

end

section
variable {nums nums1 nums2 : List Int} {s : σ} {fuel i j k : Nat} {x : Int}

theorem probe_of_lt {p : Nat} (hp : p < nums.length) : probe nums p = nums[p]! := if_pos hp

theorem probe_of_le {p : Nat} (hp : nums.length ≤ p) : probe nums p = 2147483647 :=
  if_neg (Nat.not_lt.mpr hp)

theorem le_intMax (hint : ∀ x ∈ nums, IsInt x) (hx : x ∈ nums) : x ≤ 2147483647 :=
  Int.le_of_lt_add_one (hint x hx).2

theorem probe_le (hint : ∀ x ∈ nums, IsInt x) (p : Nat) : probe nums p ≤ 2147483647 := by
  rcases Nat.lt_or_ge p nums.length with hp | hp
  · rw [probe_of_lt hp]
    exact le_intMax hint (mem_iff_getElem!.mpr ⟨p, hp, rfl⟩)
  · rw [probe_of_le hp]

theorem kth_drop (h : SortedIn 0 nums.length nums) (hk : 1 ≤ k) (hlen : i + k ≤ nums.length) :
    Kth k nums[i + k - 1]! (nums.drop i) := by
  have hkth := (h.drop i).kth hk (by rw [List.length_drop]; omega)
  rwa [getElem!_drop, ← Nat.add_sub_assoc hk] at hkth

theorem average_exact {y : Int} (hx : IsInt x) (hy : IsInt y) :
    double (double (double x + double y) / 2) = ((x + y : Int) : Rat) / 2 := by
  have hdigits : ∀ {z : Int}, -4294967296 ≤ z → z ≤ 4294967296 → |z| < 2 ^ 53 := by
    intro z hlow hhigh
    exact (abs_le.mpr ⟨hlow, hhigh⟩).trans_lt (by decide)
  unfold IsInt at hx hy
  have hsum : |x + y| < 2 ^ 53 := hdigits (by omega) (by omega)
  rw [double_intCast (hdigits (by omega) (by omega)),
    double_intCast (hdigits (by omega) (by omega)), ← Int.cast_add, double_intCast hsum,
    double_half hsum]

/-- The second array has no probed element, and the one of the first is as great as an `int` can
be. Fewer than `k` elements are less than that. -/
theorem kth_intMax (h1 : SortedIn 0 nums1.length nums1) (hint1 : ∀ x ∈ nums1, IsInt x)
    (hint2 : ∀ x ∈ nums2, IsInt x) (hk : 2 ≤ k) (hi : i ≤ nums1.length) (hj : j ≤ nums2.length)
    (hend : nums2.length ≤ j + k / 2 - 1) (hmax : 2147483647 ≤ nums1[i + k / 2 - 1]!)
    (hlen : k + i + j ≤ nums1.length + nums2.length) :
    Kth k 2147483647 (nums1.drop i ++ nums2.drop j) := by
  refine kth_greatest (fun y hy => ?_) ?_ ?_
  · rcases List.mem_append.mp hy with hy | hy
    · exact le_intMax hint1 (List.mem_of_mem_drop hy)
    · exact le_intMax hint2 (List.mem_of_mem_drop hy)
  · have hleft : less 2147483647 (nums1.drop i) ≤ k / 2 - 1 := by
      refine (h1.drop i).less_le ?_
      rwa [getElem!_drop, ← Nat.add_sub_assoc (by omega)]
    have hright : less 2147483647 (nums2.drop j) ≤ (nums2.drop j).length := List.countP_le_length
    rw [List.length_drop] at hright
    rw [less_append]
    omega
  · rw [List.length_append, List.length_drop, List.length_drop]
    omega

variable (h1 : SortedIn 0 nums1.length nums1) (h2 : SortedIn 0 nums2.length nums2)
include h1 h2

theorem kth_min (hi : i < nums1.length) (hj : j < nums2.length) :
    Kth 1 (min nums1[i]! nums2[j]!) (nums1.drop i ++ nums2.drop j) := by
  refine kth_least ?_ fun y hy => ?_
  · rw [List.mem_append, drop_eq_cons hi, drop_eq_cons hj]
    rcases min_choice nums1[i]! nums2[j]! with h | h
    · rw [h]
      exact Or.inl (List.mem_cons_self ..)
    · rw [h]
      exact Or.inr (List.mem_cons_self ..)
  · rcases List.mem_append.mp hy with hy | hy
    · obtain ⟨p, hp, hlast, rfl⟩ := mem_drop_iff.mp hy
      exact (min_le_left _ _).trans (h1.mono_getElem! hp hlast)
    · obtain ⟨q, hq, hlast, rfl⟩ := mem_drop_iff.mp hy
      exact (min_le_right _ _).trans (h2.mono_getElem! hq hlast)

/-- The probed element of the first array is not the greater one, and half of `k` elements of that
array are left out. -/
theorem kth_discard (hk : 2 ≤ k) (hp : i + k / 2 - 1 < nums1.length)
    (hle : nums1[i + k / 2 - 1]! ≤ probe nums2 (j + k / 2 - 1))
    (hrest : Kth (k - k / 2) x (nums1.drop (i + k / 2) ++ nums2.drop j)) :
    Kth k x (nums1.drop i ++ nums2.drop j) := by
  rw [← List.drop_drop] at hrest
  refine Kth.discard (h1.drop i) (by omega) ?_ (by omega) ?_ hrest
  · rw [List.length_drop]
    omega
  · intro q hq hlast
    rw [List.length_drop] at hlast
    rw [getElem!_drop, getElem!_drop, ← Nat.add_sub_assoc (by omega)]
    rw [probe_of_lt (by omega)] at hle
    exact hle.trans (h2.mono_getElem! (by omega) (by omega))

theorem runs_findKth (hint1 : ∀ x ∈ nums1, IsInt x) (hint2 : ∀ x ∈ nums2, IsInt x) (hk : 1 ≤ k)
    (hfuel : k ≤ fuel) (hi : i ≤ nums1.length) (hj : j ≤ nums2.length)
    (hlen : k + i + j ≤ nums1.length + nums2.length) (hmax : i + j + k ≤ 2147483647) :
    Runs (findKth fuel nums1 i nums2 j k) s fun r t =>
      t = s ∧ Kth k r (nums1.drop i ++ nums2.drop j) := by
  induction fuel generalizing i j k with
  | zero => omega
  | succ fuel ih =>
    rcases hi.eq_or_lt with rfl | hi
    · refine (findKth_right le_rfl hk (by omega) (by omega) (by omega)).mpr ⟨rfl, ?_⟩
      rw [List.drop_length, List.nil_append]
      exact kth_drop h2 hk (by omega)
    rcases hj.eq_or_lt with rfl | hj
    · refine (findKth_left le_rfl hi hk (by omega) (by omega) (by omega)).mpr ⟨rfl, ?_⟩
      rw [List.drop_length, List.append_nil]
      exact kth_drop h1 hk (by omega)
    rcases hk.eq_or_lt with rfl | hk
    · exact (findKth_least hi hj (by omega) (by omega)).mpr ⟨rfl, kth_min h1 h2 hi hj⟩
    rw [findKth_step hi hj hk hmax]
    split_ifs with hlt
    · -- A value below another `int` is not the one that stands for the lack of an element.
      have hp : i + k / 2 - 1 < nums1.length := by
        by_contra hend
        rw [probe_of_le (Nat.le_of_not_lt hend)] at hlt
        exact absurd hlt (not_lt.mpr (probe_le hint2 _))
      rw [probe_of_lt hp] at hlt
      refine (ih (by omega) (by omega) (by omega) hj.le (by omega) (by omega)).mono ?_
      exact fun r t h => ⟨h.1, kth_discard h1 h2 hk hp hlt.le h.2⟩
    rw [not_lt] at hlt
    rcases Nat.lt_or_ge (j + k / 2 - 1) nums2.length with hp | hend
    · rw [probe_of_lt hp] at hlt
      refine (ih (by omega) (by omega) hi.le (by omega) (by omega) (by omega)).mono ?_
      intro r t h
      have hrest := h.2.perm List.perm_append_comm
      exact ⟨h.1, (kth_discard h2 h1 hk hp hlt hrest).perm List.perm_append_comm⟩
    · -- More than the rest of the second array is left out, and the next call returns at once.
      rw [probe_of_le hend, probe_of_lt (by omega)] at hlt
      obtain ⟨fuel, rfl⟩ : ∃ n, fuel = n + 1 := ⟨fuel - 1, by omega⟩
      refine (findKth_left (by omega) hi (by omega) (by omega) (by omega) (by omega)).mpr
        ⟨rfl, ?_⟩
      have hlast : nums1[i + (k - k / 2) - 1]! = 2147483647 := by
        apply le_antisymm
        · exact le_intMax hint1 (mem_iff_getElem!.mpr ⟨_, by omega, rfl⟩)
        · exact hlt.trans (h1.mono_getElem! (by omega) (by omega))
      rw [hlast]
      exact kth_intMax h1 hint1 hint2 hk hi.le hj.le hend hlt hlen

theorem runs_findMedian (hint1 : ∀ x ∈ nums1, IsInt x) (hint2 : ∀ x ∈ nums2, IsInt x)
    (hpos : 1 ≤ nums1.length + nums2.length) (hmax : nums1.length + nums2.length ≤ 2147483645)
    (hfuel : nums1.length + nums2.length ≤ fuel) :
    Runs (findMedianSortedArrays fuel nums1 nums2) s fun r t => t = s ∧ ∃ x y : Int,
      Kth ((nums1.length + nums2.length + 1) / 2) x (nums1 ++ nums2) ∧
      Kth ((nums1.length + nums2.length + 2) / 2) y (nums1 ++ nums2) ∧
      r = ((x + y : Int) : Rat) / 2 := by
  have hcall : ∀ k : Nat, 1 ≤ k → k ≤ nums1.length + nums2.length → ∀ u : σ,
      Runs (findKth fuel nums1 0 nums2 0 k) u fun r t => t = u ∧ Kth k r (nums1 ++ nums2) :=
    fun k hk hlen u => runs_findKth (i := 0) (j := 0) h1 h2 hint1 hint2 hk (hlen.trans hfuel)
      (Nat.zero_le _) (Nat.zero_le _) hlen (by omega)
  have hint : ∀ {k : Nat} {x : Int}, Kth k x (nums1 ++ nums2) → IsInt x := by
    intro k x hkth
    rcases List.mem_append.mp hkth.mem with hx | hx
    · exact hint1 x hx
    · exact hint2 x hx
  have hleft : ((nums1.length : Int) + nums2.length + 1) >>> (1 : Nat) =
      ((nums1.length + nums2.length + 1) / 2 : Nat) := by
    rw [Int.shiftRight_eq_div_pow]
    omega
  have hright : ((nums1.length : Int) + nums2.length + 2) >>> (1 : Nat) =
      ((nums1.length + nums2.length + 2) / 2 : Nat) := by
    rw [Int.shiftRight_eq_div_pow]
    omega
  rw [findMedianSortedArrays, toInt_of_lt (by omega), toInt_of_lt (by omega)]
  dsimp only
  rw [runs_int_bind (by omega) (by omega), runs_int_bind (by omega) (by omega),
    runs_int_bind (by omega) (by omega), runs_int_bind (by omega) (by omega), hleft, hright,
    runs_bind]
  refine (hcall _ (by omega) (by omega) s).mono fun x t hx => ?_
  obtain ⟨rfl, hx⟩ := hx
  rw [runs_bind]
  refine (hcall _ (by omega) (by omega) t).mono fun y u hy => ?_
  obtain ⟨rfl, hy⟩ := hy
  exact runs_pure.mpr ⟨rfl, x, y, hx, hy, average_exact (hint hx) (hint hy)⟩

end

/-- The call for the whole of two sorted arrays gives the element of that rank, and the median is
half the exact sum of the two in the middle. -/
theorem findKth_ranks {σ : Type} (s : σ) (nums1 nums2 : List Int) (h1 : nums1.Pairwise (· ≤ ·))
    (h2 : nums2.Pairwise (· ≤ ·)) (hint : ∀ x ∈ nums1 ++ nums2, IsInt x) (fuel : Nat)
    (hfuel : nums1.length + nums2.length ≤ fuel) :
    (∀ k : Nat, 1 ≤ k → k ≤ nums1.length + nums2.length → k ≤ 2147483647 →
      Runs (findKth fuel nums1 0 nums2 0 k) s fun r t =>
        t = s ∧ ((nums1 ++ nums2).insertionSort (· ≤ ·))[k - 1]? = some r) ∧
    (1 ≤ nums1.length + nums2.length → nums1.length + nums2.length ≤ 2147483645 →
      Runs (findMedianSortedArrays fuel nums1 nums2) s fun r t => t = s ∧ ∃ x y : Int,
        ((nums1 ++ nums2).insertionSort (· ≤ ·))[
          (nums1.length + nums2.length + 1) / 2 - 1]? = some x ∧
        ((nums1 ++ nums2).insertionSort (· ≤ ·))[
          (nums1.length + nums2.length + 2) / 2 - 1]? = some y ∧
        r = ((x + y : Int) : Rat) / 2) := by
  have hint1 : ∀ x ∈ nums1, IsInt x := fun x hx => hint x (List.mem_append_left _ hx)
  have hint2 : ∀ x ∈ nums2, IsInt x := fun x hx => hint x (List.mem_append_right _ hx)
  have hs1 := sortedIn_of_pairwise h1
  have hs2 := sortedIn_of_pairwise h2
  constructor
  · intro k hk hlen hmax
    refine (runs_findKth (i := 0) (j := 0) hs1 hs2 hint1 hint2 hk (hlen.trans hfuel)
      (Nat.zero_le _) (Nat.zero_le _) hlen (by omega)).mono ?_
    exact fun r t h => ⟨h.1, h.2.insertionSort⟩
  · intro hpos hmax
    refine (runs_findMedian hs1 hs2 hint1 hint2 hpos hmax hfuel).mono ?_
    rintro r t ⟨rfl, x, y, hx, hy, rfl⟩
    exact ⟨rfl, x, y, hx.insertionSort, hy.insertionSort, rfl⟩

theorem findKth_ranks_sample :
    (∀ k : Nat, 1 ≤ k → k ≤ 3 → k ≤ 2147483647 →
      Runs (findKth 3 [1, 2147483647] 0 [2] 0 k) () fun r t =>
        t = () ∧ (([1, 2147483647, 2] : List Int).insertionSort (· ≤ ·))[k - 1]? = some r) ∧
    (1 ≤ 3 → 3 ≤ 2147483645 →
      Runs (findMedianSortedArrays 3 [1, 2147483647] [2]) () fun r t => t = () ∧ ∃ x y : Int,
        (([1, 2147483647, 2] : List Int).insertionSort (· ≤ ·))[1]? = some x ∧
        (([1, 2147483647, 2] : List Int).insertionSort (· ≤ ·))[1]? = some y ∧
        r = ((x + y : Int) : Rat) / 2) :=
  findKth_ranks () [1, 2147483647] [2] (by decide) (by decide) (by decide) 3 (by decide)

/-- With this many elements `m + n + 2` is beyond the range of an `int`. -/
def long : List Int := List.replicate 2147483646 0

theorem median_long : long.length = 2147483646 ∧ long.Pairwise (· ≤ ·) ∧
    (∀ x ∈ long, IsInt x) ∧
    ∀ fuel, Fails (findMedianSortedArrays fuel long []) () .overflow := by
  have hlen : long.length = 2147483646 := List.length_replicate
  refine ⟨hlen, List.pairwise_replicate.mpr (Or.inr le_rfl), ?_, ?_⟩
  · intro x hx
    rw [List.eq_of_mem_replicate hx]
    decide
  · intro fuel
    have hm : toInt 2147483646 = 2147483646 := by decide
    have hn : toInt 0 = 0 := by decide
    rw [findMedianSortedArrays, hlen, List.length_nil, hm, hn]
    dsimp only
    refine Runs.fails ((runs_int (by decide)).mpr ?_)
    refine Runs.fails ((runs_int (by decide)).mpr ?_)
    refine Runs.fails ((runs_int (by decide)).mpr ?_)
    exact (fails_int (by decide)).bind

end LanguageTest.MedianOfTwoSortedArrays
