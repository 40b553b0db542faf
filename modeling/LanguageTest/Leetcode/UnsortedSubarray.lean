import LanguageTest.Library.Blocks
import Mathlib.Order.MinMax

namespace LanguageTest.UnsortedSubarray
open Sorting

structure State where
  left : Int
  right : Int
  maxVal : Int
  minVal : Int

/-- The body of the loop. -/
def visit (nums : List Int) (len i : Int) : Program State Unit := do
  let j ← int (len - 1 - i)
  let x ← itemAt nums i
  let y ← itemAt nums j
  let s ← get
  let maxVal := max s.maxVal x
  let minVal := min s.minVal y
  set (⟨if y ≠ minVal then j else s.left, if x ≠ maxVal then i else s.right, maxVal,
    minVal⟩ : State)

def findUnsortedSubarray (fuel : Nat) (nums : List Int) : Program State Int := do
  if nums.isEmpty then pure 0
  else
    let len := toInt nums.length
    let maxVal ← itemAt nums 0
    let minVal ← itemAt nums (← int (len - 1))
    set (⟨-1, -2, maxVal, minVal⟩ : State)
    countUp fuel 0 (pure len) (visit nums len)
    let s ← get
    int (s.right - s.left + 1)

/-- The greatest index below `i` with the property, or `none`. -/
def IsLast (P : Nat → Prop) (i : Nat) (none r : Int) : Prop :=
  (r = none ∧ ∀ q < i, ¬ P q) ∨ ∃ k : Nat, r = k ∧ k < i ∧ P k ∧ ∀ q, k < q → q < i → ¬ P q

/-- The least index from `j` on, below `n`, with the property, or `none`. -/
def IsFirst (P : Nat → Prop) (j n : Nat) (none r : Int) : Prop :=
  (r = none ∧ ∀ q, j ≤ q → q < n → ¬ P q) ∨
    ∃ k : Nat, r = k ∧ j ≤ k ∧ k < n ∧ P k ∧ ∀ q, j ≤ q → q < k → ¬ P q

/-- An element before it is greater. -/
def Below (nums : List Int) (q : Nat) : Prop := ∃ p, Inverted nums p q

/-- An element after it is less. -/
def Above (nums : List Int) (p : Nat) : Prop := ∃ q, Inverted nums p q

/-- The two scans after `i` passes. -/
structure Scanned (nums : List Int) (i : Nat) (s : State) : Prop where
  maxVal : ∃ k < nums.length, (k = 0 ∨ k < i) ∧ nums[k]! = s.maxVal
  le_max : ∀ k < i, nums[k]! ≤ s.maxVal
  minVal : ∃ k < nums.length, (k + 1 = nums.length ∨ nums.length - i ≤ k) ∧ nums[k]! = s.minVal
  min_le : ∀ k < nums.length, nums.length - i ≤ k → s.minVal ≤ nums[k]!
  right : IsLast (Below nums) i (-2) s.right
  left : IsFirst (Above nums) (nums.length - i) nums.length (-1) s.left

section
variable {P : Nat → Prop} {nums : List Int} {i j n fuel : Nat} {none r : Int} {s : State}

theorem IsLast.succ (h : IsLast P i none r) [Decidable (P i)] :
    IsLast P (i + 1) none (if P i then (i : Int) else r) := by
  by_cases hi : P i
  · rw [if_pos hi]
    exact Or.inr ⟨i, rfl, Nat.lt_succ_self i, hi, fun q hiq hqi => by omega⟩
  · rw [if_neg hi]
    have hnot {q : Nat} (hq : q < i + 1) (hlt : q < i → ¬ P q) : ¬ P q := by
      rcases Nat.lt_succ_iff_lt_or_eq.mp hq with hqi | rfl
      · exact hlt hqi
      · exact hi
    rcases h with ⟨hr, hnone⟩ | ⟨k, hr, hk, hP, hafter⟩
    · exact Or.inl ⟨hr, fun q hq => hnot hq (hnone q)⟩
    · exact Or.inr ⟨k, hr, by omega, hP, fun q hkq hq => hnot hq (hafter q hkq)⟩

theorem IsFirst.pred (h : IsFirst P (j + 1) n none r) (hj : j < n) [Decidable (P j)] :
    IsFirst P j n none (if P j then (j : Int) else r) := by
  by_cases hP : P j
  · rw [if_pos hP]
    exact Or.inr ⟨j, rfl, Nat.le_refl j, hj, hP, fun q hjq hqj => by omega⟩
  · rw [if_neg hP]
    have hnot {q : Nat} (hq : j ≤ q) (hlt : j + 1 ≤ q → ¬ P q) : ¬ P q := by
      rcases Nat.eq_or_lt_of_le hq with rfl | hjq
      · exact hP
      · exact hlt hjq
    rcases h with ⟨hr, hnone⟩ | ⟨k, hr, hjk, hk, hPk, hbefore⟩
    · exact Or.inl ⟨hr, fun q hq hqn => hnot hq fun hjq => hnone q hjq hqn⟩
    · exact Or.inr ⟨k, hr, by omega, hk, hPk, fun q hq hqk => hnot hq fun hjq => hbefore q hjq hqk⟩

theorem scanned_start (hpos : 0 < nums.length) :
    Scanned nums 0 ⟨-1, -2, nums[0]!, nums[nums.length - 1]!⟩ where
  maxVal := ⟨0, hpos, Or.inl rfl, rfl⟩
  le_max k hk := absurd hk (Nat.not_lt_zero k)
  minVal := ⟨nums.length - 1, by omega, Or.inl (by omega), rfl⟩
  min_le k hk hle := by omega
  right := Or.inl ⟨rfl, fun q hq => absurd hq (Nat.not_lt_zero q)⟩
  left := Or.inl ⟨rfl, fun q hq hqn => by omega⟩

/-- The element is less than the greatest one so far exactly when one before it is greater. -/
theorem Scanned.below_iff (h : Scanned nums i s) (hi : i < nums.length) :
    nums[i]! ≠ max s.maxVal nums[i]! ↔ Below nums i := by
  rw [ne_comm, ne_eq, max_eq_right_iff, not_le]
  constructor
  · intro hlt
    obtain ⟨k, hk, hki, hmax⟩ := h.maxVal
    rw [← hmax] at hlt
    have hne : k ≠ i := fun heq => lt_irrefl _ (heq ▸ hlt)
    exact ⟨k, by omega, hi, hlt⟩
  · rintro ⟨p, hp⟩
    exact hp.greater.trans_le (h.le_max p hp.lt)

theorem Scanned.above_iff (h : Scanned nums i s) (hj : j + i + 1 = nums.length) :
    nums[j]! ≠ min s.minVal nums[j]! ↔ Above nums j := by
  rw [ne_comm, ne_eq, min_eq_right_iff, not_le]
  constructor
  · intro hlt
    obtain ⟨k, hk, hik, hmin⟩ := h.minVal
    rw [← hmin] at hlt
    have hne : k ≠ j := fun heq => lt_irrefl _ (heq ▸ hlt)
    exact ⟨k, by omega, hk, hlt⟩
  · rintro ⟨q, hq⟩
    have hjq := hq.lt
    exact (h.min_le q hq.inside (by omega)).trans_lt hq.greater

theorem visit_spec (h : Scanned nums i s) (hi : i < nums.length) (hn : nums.length < 2147483648) :
    Runs (visit nums nums.length i) s fun _ t => Scanned nums (i + 1) t := by
  classical
  obtain ⟨j, hj⟩ : ∃ j, j + i + 1 = nums.length := ⟨nums.length - 1 - i, by omega⟩
  have hcast : (nums.length : Int) - 1 - i = j := by omega
  have hrest : nums.length - i = j + 1 := by omega
  have hnext : nums.length - (i + 1) = j := by omega
  rw [visit, hcast, runs_int_bind (by omega) (by omega), runs_bind, runs_itemAt hi, runs_bind,
    runs_itemAt (by omega), runs_bind, runs_get, runs_set]
  constructor
  case maxVal =>
    rcases max_choice s.maxVal nums[i]! with hmax | hmax
    · obtain ⟨k, hk, hki, hval⟩ := h.maxVal
      exact ⟨k, hk, by omega, hval.trans hmax.symm⟩
    · exact ⟨i, hi, by omega, hmax.symm⟩
  case le_max =>
    intro k hk
    rcases Nat.lt_succ_iff_lt_or_eq.mp hk with hlt | rfl
    · exact (h.le_max k hlt).trans (le_max_left _ _)
    · exact le_max_right _ _
  case minVal =>
    rcases min_choice s.minVal nums[j]! with hmin | hmin
    · obtain ⟨k, hk, hik, hval⟩ := h.minVal
      exact ⟨k, hk, by omega, hval.trans hmin.symm⟩
    · exact ⟨j, by omega, by omega, hmin.symm⟩
  case min_le =>
    intro k hk hle
    rw [hnext] at hle
    rcases Nat.eq_or_lt_of_le hle with rfl | hlt
    · exact min_le_right _ _
    · exact (min_le_left _ _).trans (h.min_le k hk (by omega))
  case right =>
    have hright := h.right.succ
    simp only [← h.below_iff hi] at hright
    exact hright
  case left =>
    have hleft := h.left
    rw [hrest] at hleft
    have hleft := hleft.pred (show j < nums.length by omega)
    simp only [← h.above_iff hj] at hleft
    rw [hnext]
    exact hleft

/-- What the two scans say about the whole array. -/
theorem Scanned.isLeast (h : Scanned nums nums.length s) :
    ∃ n : Nat, s.right - s.left + 1 = n ∧ n ≤ nums.length ∧ IsLeast (sufficient nums) n ∧
      (n = 0 ↔ nums.Pairwise (· ≤ ·)) := by
  have hleft := h.left
  rw [Nat.sub_self] at hleft
  rcases h.right with ⟨hr, hnone⟩ | ⟨last, hr, hlast, ⟨p, hp⟩, hafter⟩
  · have hsorted : nums.Pairwise (· ≤ ·) :=
      pairwise_iff_inverted.mpr fun i j hinv => hnone j hinv.inside ⟨i, hinv⟩
    rcases hleft with ⟨hl, -⟩ | ⟨first, -, -, -, ⟨q, hq⟩, -⟩
    · exact ⟨0, by omega, Nat.zero_le _, isLeast_sufficient_of_sorted hsorted,
        iff_of_true rfl hsorted⟩
    · exact absurd ⟨first, hq⟩ (hnone q hq.inside)
  · have hunsorted : ¬ nums.Pairwise (· ≤ ·) := fun hsorted =>
      pairwise_iff_inverted.mp hsorted p last hp
    have hpl := hp.lt
    rcases hleft with ⟨-, hnone⟩ | ⟨first, hl, -, hfirst, hq, hbefore⟩
    · exact absurd ⟨last, hp⟩ (hnone p (Nat.zero_le p) (by omega))
    · have hall (i j : Nat) (hinv : Inverted nums i j) : first ≤ i ∧ j ≤ last := by
        constructor
        · exact Nat.not_lt.mp fun hlt => hbefore i (Nat.zero_le i) hlt ⟨j, hinv⟩
        · exact Nat.not_lt.mp fun hlt => hafter j hlt hinv.inside ⟨i, hinv⟩
      have hle := (hall p last hp).1
      exact ⟨last + 1 - first, by omega, by omega, isLeast_sufficient hq ⟨p, hp⟩ hall,
        iff_of_false (by omega) hunsorted⟩

end

/-- The length of the shortest block to sort. -/
theorem findUnsortedSubarray_least (s : State) (nums : List Int) (hn : nums.length ≤ 2147483647)
    (fuel : Nat) (hf : nums.length < fuel) :
    Runs (findUnsortedSubarray fuel nums) s fun r _ =>
      ∃ n : Nat, r = n ∧ IsLeast (sufficient nums) n ∧ (n = 0 ↔ nums.Pairwise (· ≤ ·)) := by
  rw [findUnsortedSubarray]
  rcases Nat.eq_zero_or_pos nums.length with hzero | hpos
  · obtain rfl := List.length_eq_zero_iff.mp hzero
    exact runs_pure.mpr ⟨0, rfl, isLeast_sufficient_of_sorted List.Pairwise.nil,
      iff_of_true rfl List.Pairwise.nil⟩
  · have hne : ¬ nums.isEmpty := by
      rw [List.isEmpty_iff]
      exact List.ne_nil_of_length_pos hpos
    have hlast : (nums.length : Int) - 1 = (nums.length - 1 : Nat) := by omega
    rw [if_neg hne, toInt_of_lt (by omega), runs_bind]
    refine (runs_itemAt (i := 0) hpos).mpr ?_
    rw [hlast, runs_int_bind (by omega) (by omega), runs_bind, runs_itemAt (by omega), runs_bind,
      runs_set, runs_bind]
    refine (runs_countUp (l := 0) (n := nums.length) (Scanned nums)
      (fun i t _ => runs_pure.mpr ⟨Int.toNat_natCast _, rfl⟩) (by omega)
      (fun i _ hi t ht => visit_spec ht hi (by omega)) (scanned_start hpos) (by omega)).mono ?_
    intro _ t ht
    rw [Nat.max_eq_right (Nat.zero_le _)] at ht
    obtain ⟨n, hr, hle, hleast, hzero⟩ := ht.isLeast
    have hint : IsInt (t.right - t.left + 1) := ⟨by omega, by omega⟩
    rw [runs_bind, runs_get, runs_int hint]
    exact ⟨n, hr, hleast, hzero⟩

theorem findUnsortedSubarray_least_sample :
    Runs (findUnsortedSubarray 8 [2, 6, 4, 8, 10, 9, 15]) ⟨0, 0, 0, 0⟩ fun r _ =>
      ∃ n : Nat, r = n ∧ IsLeast (sufficient [(2 : Int), 6, 4, 8, 10, 9, 15]) n ∧
        (n = 0 ↔ [(2 : Int), 6, 4, 8, 10, 9, 15].Pairwise (· ≤ ·)) :=
  findUnsortedSubarray_least ⟨0, 0, 0, 0⟩ [2, 6, 4, 8, 10, 9, 15] (by decide) 8 (by decide)

/-- One zero more than an `int` can index. -/
def zeros : List Int := List.replicate 2147483648 0

/-- The size is the least `int`, and its predecessor none. -/
theorem findUnsortedSubarray_zeros : zeros.Pairwise (· ≤ ·) ∧
    ∀ (fuel : Nat) (s : State), ¬ Runs (findUnsortedSubarray fuel zeros) s fun r _ => r = 0 := by
  have hlength : zeros.length = 2147483648 := List.length_replicate
  have hne : ¬ zeros.isEmpty := by
    rw [List.isEmpty_iff]
    exact List.ne_nil_of_length_pos (by omega)
  refine ⟨List.pairwise_replicate.mpr (Or.inr le_rfl), fun fuel s h => ?_⟩
  have hover : ¬ IsInt (toInt zeros.length - 1) := by
    rw [hlength]
    decide
  have hfirst : 0 < zeros.length := by omega
  rw [findUnsortedSubarray, if_neg hne, runs_bind] at h
  have h := (runs_itemAt (i := 0) hfirst).mp h
  exact h.not_fails (fails_int hover).bind

end LanguageTest.UnsortedSubarray
