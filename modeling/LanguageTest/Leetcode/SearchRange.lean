import LanguageTest.Base.Atoi
import LanguageTest.Library.Bisection
import LanguageTest.Library.Ranks

namespace LanguageTest.SearchRange
open Atoi (wrap wrap_of_isInt)
open Bisection Sorting

variable {σ : Type}

/-- `lower_bound`. -/
def lowerBound (fuel : Nat) (nums : List Int) (target : Int) : Program σ Int :=
  loop (fun v : Int × Int => do
    let (left, right) := v
    if left ≤ right then
      let mid := wrap (left + (wrap (right - left)).tdiv 2)
      if (← itemAt nums mid) < target then pure (.again (wrap (mid + 1), right))
      else pure (.again (left, wrap (mid - 1)))
    else pure (.done left)) fuel (0, toInt (toSize ((nums.length : Int) - 1)))

def searchRange (fuel : Nat) (nums : List Int) (target : Int) : Program σ (List Int) := do
  let idx1 ← lowerBound fuel nums target
  let idx2 := wrap ((← lowerBound fuel nums (wrap (target + 1))) - 1)
  if ← (pure (decide (toSize idx1 < nums.length)) <&&>
      (do pure (decide ((← itemAt nums idx1) = target)))) then
    pure [idx1, idx2]
  else pure [-1, -1]

/-- The first and the last index of `target`, or twice -1. -/
def IsRange (nums : List Int) (target : Int) (r : List Int) : Prop :=
  (∃ a b : Nat, r = [(a : Int), (b : Int)] ∧ b < nums.length ∧ nums[a]! = target ∧
    nums[b]! = target ∧ ∀ k < nums.length, nums[k]! = target → a ≤ k ∧ k ≤ b) ∨
  r = [-1, -1] ∧ target ∉ nums

/-- How many elements the size as an `int` lets the search see. -/
def searched (nums : List Int) : Nat := (toInt (toSize ((nums.length : Int) - 1)) + 1).toNat

/-- The greatest number of elements that a search counts right. -/
def limit (nums : List Int) : Nat := min (searched nums) 2147483647

/-- What the results need: the elements that are counted are not too many, and the successor of a
target that is there is an `int`. -/
def Fits (nums : List Int) (target : Int) : Prop :=
  less target nums ≤ limit nums ∧
    (target ∈ nums → target ≠ 2147483647 ∧ nums.countP (· ≤ target) ≤ limit nums)

instance (nums : List Int) (target : Int) : Decidable (Fits nums target) :=
  inferInstanceAs (Decidable (_ ∧ _))

section
variable {nums : List Int} {target x : Int} {s : σ} {fuel l r m : Nat}

theorem searched_le : searched nums ≤ nums.length := by
  unfold searched toInt toSize
  split_ifs <;> omega

theorem searched_le_intMax : searched nums ≤ 2147483648 := by
  unfold searched toInt
  split_ifs <;> omega

theorem limit_eq_length (h : nums.length ≤ 2147483647) : limit nums = nums.length := by
  unfold limit searched toInt toSize
  split_ifs <;> omega

/-- For a vector whose size is an `int`, only the greatest `int` is a wrong target. -/
theorem fits_iff (h : nums.length ≤ 2147483647) :
    Fits nums target ↔ (target ∈ nums → target ≠ 2147483647) := by
  have hlow : less target nums ≤ nums.length := List.countP_le_length
  have hhigh : nums.countP (· ≤ target) ≤ nums.length := List.countP_le_length
  rw [Fits, limit_eq_length h]
  exact ⟨fun hf ht => (hf.2 ht).1, fun hf => ⟨hlow, fun ht => ⟨hf ht, hhigh⟩⟩⟩

/-- The variables at the start, when there is an element to be searched. -/
theorem start_eq (h : 0 < searched nums) :
    ((0 : Int), toInt (toSize ((nums.length : Int) - 1))) = ends 0 (searched nums) := by
  refine Prod.ext rfl ?_
  dsimp only [ends]
  unfold searched at h ⊢
  omega

theorem wrap_middle (hlt : l < r) (hr : r ≤ 2147483648) :
    wrap ((l : Int) + (wrap ((r : Int) - 1 - l)).tdiv 2) = middle l r := by
  have hdiff : (r : Int) - 1 - l = (r - 1 - l : Nat) := by omega
  have hhalf : ((r - 1 - l : Nat) : Int).tdiv 2 = ((r - 1 - l) / 2 : Nat) := rfl
  have hsum : (l : Int) + ((r - 1 - l) / 2 : Nat) = middle l r := by
    unfold middle
    omega
  have hm := middle_lt hlt
  have hdiffInt : IsInt (r - 1 - l : Nat) := ⟨by omega, by omega⟩
  have hmiddleInt : IsInt (middle l r) := ⟨by omega, by omega⟩
  rw [hdiff, wrap_of_isInt hdiffInt, hhalf, hsum, wrap_of_isInt hmiddleInt]

/-- The search ends with the number of lesser elements among those that it sees. -/
theorem lowerBound_spec (hs : SortedIn 0 nums.length nums)
    (hc : searched nums ≤ 2147483647 ∨ less x nums < searched nums) (hf : nums.length < fuel) :
    Runs (lowerBound fuel nums x) s fun v t =>
      v = (min (less x nums) (searched nums) : Nat) ∧ t = s := by
  have hsize : searched nums ≤ nums.length := searched_le
  have hmax : searched nums ≤ 2147483648 := searched_le_intMax
  rcases Nat.eq_zero_or_pos (searched nums) with hzero | hpos
  · obtain ⟨fuel, rfl⟩ := Nat.exists_eq_succ_of_ne_zero (Nat.ne_zero_of_lt hf)
    have hneg : ¬ 0 ≤ toInt (toSize ((nums.length : Int) - 1)) := by
      unfold searched at hzero
      omega
    rw [lowerBound, runs_loop_succ]
    dsimp only
    rw [if_neg hneg, runs_pure, hzero, Nat.min_zero]
    exact ⟨rfl, rfl⟩
  · rw [lowerBound, start_eq hpos]
    refine runs_bisect (c := min (less x nums) (searched nums)) (fun _ _ t => t = s) ?_ ?_
      (Nat.min_le_right _ _) rfl (by omega)
    · rintro l r t hl hr hrn hlt rfl
      have hm := middle_lt hlt
      have hiff := hs.lt_less_iff (x := x) (p := middle l r) (by omega)
      dsimp only [ends]
      rw [if_pos (by omega), wrap_middle hlt (by omega), runs_bind, runs_itemAt (by omega)]
      by_cases hless : nums[middle l r]! < x
      · have hlow := hiff.mpr hless
        have hint : IsInt ((middle l r : Int) + 1) := ⟨by omega, by omega⟩
        rw [if_pos hless, runs_pure, wrap_of_isInt hint]
        exact Or.inl ⟨by omega, rfl, rfl⟩
      · have hhigh := mt hiff.mp hless
        have hint : IsInt ((middle l r : Int) - 1) := ⟨by omega, by omega⟩
        rw [if_neg hless, runs_pure, wrap_of_isInt hint]
        exact Or.inr (Or.inl ⟨by omega, rfl, rfl⟩)
    · rintro t rfl
      dsimp only [LastPass, ends]
      rw [if_neg (by omega), runs_pure]
      exact ⟨rfl, rfl⟩

/-- When all of as many elements as an `int` has no number for are less, the left end wraps
around, and what follows is an access out of range. -/
theorem not_runs_lowerBound (hs : SortedIn 0 nums.length nums)
    (hmax : searched nums = 2147483648) (hc : searched nums ≤ less x nums)
    {Q : Int → σ → Prop} : ¬ Runs (lowerBound fuel nums x) s Q := by
  have hsize : searched nums ≤ nums.length := searched_le
  refine Ensures.not_runs ?_
  rw [lowerBound, start_eq (by omega), hmax]
  refine ensures_loop (fun v _ => (∃ l < 2147483648, v = ends l 2147483648) ∨
    v = (-2147483648, 2147483647)) ?_ (Or.inl ⟨0, by decide, rfl⟩)
  rintro _ t (⟨l, hl, rfl⟩ | rfl)
  · have hm := middle_lt hl
    have hless := (hs.lt_less_iff (x := x) (p := middle l 2147483648) (by omega)).mp (by omega)
    dsimp only [ends]
    rw [if_pos (by omega), wrap_middle hl (by omega)]
    refine Runs.bind_ensures ((runs_itemAt (by omega)).mpr ?_)
    rw [if_pos hless]
    refine ensures_pure ?_
    by_cases hlast : middle l 2147483648 = 2147483647
    · rw [hlast]
      exact Or.inr rfl
    · have hint : IsInt ((middle l 2147483648 : Int) + 1) := ⟨by omega, by omega⟩
      rw [wrap_of_isInt hint]
      exact Or.inl ⟨middle l 2147483648 + 1, by omega, rfl⟩
  · have hread : Fails (itemAt nums (-2147483648) : Program σ Int) t .outOfRange := fails_fail
    exact hread.bind.ensures

theorem runs_lowerBound {Q : Int → σ → Prop} (hs : SortedIn 0 nums.length nums)
    (hc : less x nums ≤ limit nums) (hf : nums.length < fuel) :
    Runs (lowerBound fuel nums x) s Q ↔ Q (less x nums) s := by
  obtain ⟨_, _, hm, rfl, rfl⟩ :=
    lowerBound_spec (s := s) (x := x) hs (by unfold limit at hc; omega) hf
  rw [Nat.min_eq_left (by unfold limit at hc; omega)] at hm
  exact runs_of_ok hm

/-- Of too many lesser elements, the search counts fewer if it ends. -/
theorem ensures_lowerBound (hs : SortedIn 0 nums.length nums)
    (hc : limit nums < less x nums) (hf : nums.length < fuel) :
    Ensures (lowerBound fuel nums x) s fun v t => v = searched nums ∧ searched nums < less x nums ∧
      t = s := by
  have hmax : searched nums ≤ 2147483648 := searched_le_intMax
  unfold limit at hc
  by_cases hfits : searched nums ≤ 2147483647 ∨ less x nums < searched nums
  · refine (lowerBound_spec hs hfits hf).ensures.mono ?_
    rintro _ _ ⟨rfl, rfl⟩
    rw [Nat.min_eq_right (by omega)]
    exact ⟨rfl, by omega, rfl⟩
  · rw [not_or, Nat.not_le, Nat.not_lt] at hfits
    exact ensures_of_not_runs (not_runs_lowerBound hs (by omega) hfits.2)

/-- The range of a target that is there. -/
theorem isRange_iff (hs : SortedIn 0 nums.length nums) (ht : target ∈ nums) {r : List Int} :
    IsRange nums target r ↔
      r = [(less target nums : Int), (nums.countP (· ≤ target) : Int) - 1] := by
  have hcount : 0 < nums.count target := List.count_pos_iff.mpr ht
  have hlength := less_add_count_le target nums
  have hrange {k : Nat} (hk : k < nums.length) (heq : nums[k]! = target) :
      less target nums ≤ k ∧ k < less target nums + nums.count target := heq ▸ hs.range hk
  have hfirst := hs.eq_of_range le_rfl (Nat.lt_add_of_pos_right hcount)
  have hlast := hs.eq_of_range (x := target) (p := less target nums + nums.count target - 1)
    (by omega) (by omega)
  have hb : (nums.countP (· ≤ target) : Int) - 1 =
      (less target nums + nums.count target - 1 : Nat) := by
    rw [countP_le]
    omega
  rw [hb]
  constructor
  · rintro (⟨a, b, rfl, hb, ha, hbt, hall⟩ | ⟨-, habsent⟩)
    · have hless := hall (less target nums) (by omega) hfirst
      have hgreater := hall _ (by omega) hlast
      have hra := hrange (by omega) ha
      have hrb := hrange hb hbt
      obtain rfl : a = less target nums := by omega
      obtain rfl : b = less target nums + nums.count target - 1 := by omega
      rfl
    · exact absurd ht habsent
  · rintro rfl
    refine Or.inl ⟨_, _, rfl, by omega, hfirst, hlast, fun k hk heq => ?_⟩
    have hr := hrange hk heq
    omega

/-- The test of the result tells whether the target is there. -/
theorem runs_test {Q : Bool → σ → Prop} (hs : SortedIn 0 nums.length nums)
    (hc : less target nums ≤ limit nums) :
    Runs (pure (decide (toSize (less target nums : Int) < nums.length)) <&&>
        (do pure (decide ((← itemAt nums (less target nums : Int)) = target)))) s Q ↔
      Q (decide (target ∈ nums)) s := by
  have hmem := hs.mem_iff (x := target)
  have hsize : toSize (less target nums : Int) = less target nums :=
    toSize_natCast (by unfold limit at hc; omega)
  rw [runs_andM, runs_pure, hsize]
  by_cases hlt : less target nums < nums.length
  · rw [if_pos (decide_eq_true hlt), runs_bind, runs_itemAt hlt, runs_pure]
    simp only [hmem, hlt, true_and]
  · rw [if_neg (by simpa using hlt)]
    simp only [hmem, hlt, false_and, decide_false]

theorem less_succ (x : Int) (nums : List Int) : less (x + 1) nums = nums.countP (· ≤ x) := by
  simp only [less, Int.lt_add_one_iff]

/-- The search for the successor of the greatest `int` finds nothing that is less. -/
theorem less_wrap_intMax (hint : ∀ x ∈ nums, IsInt x) :
    less (wrap (2147483647 + 1)) nums = 0 :=
  less_eq_zero fun y hy => (hint y hy).1

theorem wrap_succ (ht : IsInt target) (hne : target ≠ 2147483647) :
    wrap (target + 1) = target + 1 := by
  have hhigh := ht.2
  have hlow := ht.1
  exact wrap_of_isInt ⟨by omega, by omega⟩

theorem runs_searchRange_absent (hs : SortedIn 0 nums.length nums) (hint : ∀ x ∈ nums, IsInt x)
    (ht : IsInt target) (habsent : target ∉ nums) (hc : less target nums ≤ limit nums)
    (hf : nums.length < fuel) :
    Runs (searchRange fuel nums target) s fun r _ => IsRange nums target r := by
  have hnext : less (wrap (target + 1)) nums ≤ limit nums := by
    by_cases hmax : target = 2147483647
    · rw [hmax, less_wrap_intMax hint]
      exact Nat.zero_le _
    · rw [wrap_succ ht hmax, less_succ, countP_le, List.count_eq_zero.mpr habsent]
      exact hc
  rw [searchRange, runs_bind, runs_lowerBound hs hc hf, runs_bind, runs_lowerBound hs hnext hf,
    runs_bind, runs_test hs hc, if_neg (by simpa using habsent), runs_pure]
  exact Or.inr ⟨rfl, habsent⟩

theorem runs_searchRange_present (hs : SortedIn 0 nums.length nums) (hint : ∀ x ∈ nums, IsInt x)
    (ht : IsInt target) (hmem : target ∈ nums) (hc : less target nums ≤ limit nums)
    (hf : nums.length < fuel) :
    (Runs (searchRange fuel nums target) s fun r _ => IsRange nums target r) ↔
      target ≠ 2147483647 ∧ nums.countP (· ≤ target) ≤ limit nums := by
  have hcount : 0 < nums.count target := List.count_pos_iff.mpr hmem
  have hle := countP_le target nums
  rw [searchRange, runs_bind, runs_lowerBound hs hc hf]
  by_cases hmax : target = 2147483647
  · have hnext : less (wrap (target + 1)) nums = 0 := by rw [hmax, less_wrap_intMax hint]
    rw [runs_bind, runs_lowerBound hs (hnext ▸ Nat.zero_le _) hf, hnext, runs_bind,
      runs_test hs hc, if_pos (decide_eq_true hmem), runs_pure, isRange_iff hs hmem]
    refine iff_of_false (fun heq => ?_) fun h => h.1 hmax
    have hwrong : wrap ((0 : Nat) - 1) = (nums.countP (· ≤ target) : Int) - 1 := by
      simpa using heq
    rw [wrap_of_isInt (by decide)] at hwrong
    omega
  · rw [wrap_succ ht hmax, ← less_succ]
    constructor
    · intro h
      refine ⟨hmax, Nat.not_lt.mp fun hlarge => ?_⟩
      obtain ⟨_, _, -, hr, rfl, hfew, rfl⟩ :=
        (ensures_lowerBound (s := s) hs hlarge hf).runs (runs_bind.mp h)
      have hmany : searched nums ≤ 2147483648 := searched_le_intMax
      have hint : IsInt ((searched nums : Int) - 1) := ⟨by omega, by omega⟩
      rw [runs_bind, runs_test hs hc, if_pos (decide_eq_true hmem), runs_pure,
        isRange_iff hs hmem, wrap_of_isInt hint, ← less_succ] at hr
      have hwrong : (searched nums : Int) - 1 = (less (target + 1) nums : Int) - 1 := by
        simpa using hr
      omega
    · rintro ⟨-, hlarge⟩
      have hint : IsInt ((less (target + 1) nums : Int) - 1) := by
        unfold limit at hlarge
        exact ⟨by omega, by omega⟩
      rw [runs_bind, runs_lowerBound hs hlarge hf, runs_bind, runs_test hs hc,
        if_pos (decide_eq_true hmem), runs_pure, isRange_iff hs hmem, wrap_of_isInt hint,
        less_succ]

end

theorem searchRange_iff (s : σ) (nums : List Int) (target : Int)
    (hs : SortedIn 0 nums.length nums) (hint : ∀ x ∈ nums, IsInt x) (ht : IsInt target)
    (fuel : Nat) (hf : nums.length < fuel) :
    ((Runs (searchRange fuel nums target) s fun r _ => IsRange nums target r) ∧
      Runs (lowerBound fuel nums target) s fun r _ => r = less target nums) ↔
      Fits nums target := by
  by_cases hc : less target nums ≤ limit nums
  · have hlower : Runs (lowerBound fuel nums target) s fun r _ => r = less target nums :=
      (runs_lowerBound hs hc hf).mpr rfl
    rw [and_iff_left hlower, Fits, and_iff_right hc]
    by_cases hmem : target ∈ nums
    · rw [runs_searchRange_present hs hint ht hmem hc hf, imp_iff_right hmem]
    · exact iff_of_true (runs_searchRange_absent hs hint ht hmem hc hf) fun h => absurd h hmem
  · refine iff_of_false (fun h => ?_) fun h => hc h.1
    obtain ⟨_, _, -, hright, hfew, hlt, -⟩ :=
      (ensures_lowerBound (s := s) hs (Nat.not_le.mp hc) hf).runs h.2
    omega

/-- `{5, 7, 7, 8, 8, 10}` and 8. -/
theorem searchRange_iff_sample :
    ((Runs (searchRange 7 [5, 7, 7, 8, 8, 10] 8) () fun r _ => IsRange [5, 7, 7, 8, 8, 10] 8 r) ∧
      Runs (lowerBound 7 [5, 7, 7, 8, 8, 10] 8) () fun r _ => r = less 8 [5, 7, 7, 8, 8, 10]) ↔
      Fits [5, 7, 7, 8, 8, 10] 8 :=
  searchRange_iff () [5, 7, 7, 8, 8, 10] 8 (sortedIn_of_pairwise (by decide)) (by decide)
    (by decide) 7 (by decide)

/-- The greatest `int` has no successor. -/
theorem searchRange_intMax : [(2147483647 : Int)].Pairwise (· ≤ ·) ∧ ∀ fuel, 1 < fuel →
    ¬ ((Runs (searchRange fuel [2147483647] 2147483647) () fun r _ =>
        IsRange [2147483647] 2147483647 r) ∧
      Runs (lowerBound fuel [2147483647] 2147483647) () fun r _ =>
        r = less 2147483647 [2147483647]) := by
  have hs : [(2147483647 : Int)].Pairwise (· ≤ ·) := by decide
  refine ⟨hs, fun fuel hf h => ?_⟩
  have hmem : (2147483647 : Int) ∈ [(2147483647 : Int)] := List.mem_singleton.mpr rfl
  have hpresent := (runs_searchRange_present (s := ()) (sortedIn_of_pairwise hs) (by decide)
    (by decide) hmem (by decide) hf).mp h.1
  exact hpresent.1 rfl

end LanguageTest.SearchRange
