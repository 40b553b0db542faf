import Mathlib.Data.Int.Log
import Mathlib.Data.Rat.Floor
import Mathlib.Algebra.Order.Field.Power
import Mathlib.Tactic.Linarith
import Mathlib.Tactic.NormNum

namespace LanguageTest.Doubles

/-- The nearest integer, and of two that are as near the even one. -/
def nearest (x : Rat) : Int :=
  if x - ⌊x⌋ < 1 / 2 ∨ x - ⌊x⌋ = 1 / 2 ∧ ⌊x⌋ % 2 = 0 then ⌊x⌋ else ⌊x⌋ + 1

/-- The exponent of the last of the 53 digits that a `double` has for a number. -/
def lastDigit (x : Rat) : Int := max (Int.log 2 |x| - 52) (-1074)

/-- The number that a `double` is after a conversion or an operation of exact value `x`, as long
as that is below the largest `double`. Infinities and the sign of zero are left out. -/
def double (x : Rat) : Rat := nearest (x / 2 ^ lastDigit x) * 2 ^ lastDigit x

theorem nearest_intCast (n : Int) : nearest n = n := by
  have hfract : (n : Rat) - ⌊(n : Rat)⌋ < 1 / 2 := by
    rw [Int.floor_intCast, sub_self]
    norm_num
  rw [nearest, if_pos (Or.inl hfract), Int.floor_intCast]

theorem lastDigit_le {n p : Int} (hn : |n| < 2 ^ 53) (hne : n ≠ 0) (hp : -1074 ≤ p) :
    lastDigit (n * 2 ^ p) ≤ p := by
  have hpos : (0 : Rat) < |(n : Rat) * 2 ^ p| := by
    rw [abs_pos]
    exact mul_ne_zero (Int.cast_ne_zero.mpr hne) (zpow_ne_zero p two_ne_zero)
  have hlog : (2 : Rat) ^ Int.log 2 |(n : Rat) * 2 ^ p| ≤ |(n : Rat) * 2 ^ p| :=
    mod_cast Int.zpow_log_le_self one_lt_two hpos
  have hbound : |(n : Rat) * 2 ^ p| < 2 ^ (53 + p) := by
    have hcast : |(n : Rat)| < 2 ^ (53 : Int) := by exact_mod_cast hn
    have htwo : (0 : Rat) < 2 ^ p := zpow_pos two_pos p
    rw [abs_mul, abs_of_pos htwo, zpow_add₀ two_ne_zero]
    exact mul_lt_mul_of_pos_right hcast htwo
  have hlt := (zpow_lt_zpow_iff_right₀ one_lt_two).mp (hlog.trans_lt hbound)
  rw [lastDigit, max_le_iff]
  exact ⟨by linarith, hp⟩

/-- A number of at most 53 digits is a `double`. -/
theorem double_exact {n p : Int} (hn : |n| < 2 ^ 53) (hp : -1074 ≤ p) :
    double (n * 2 ^ p) = n * 2 ^ p := by
  by_cases hne : n = 0
  · have hzero : nearest 0 = 0 := mod_cast nearest_intCast 0
    rw [hne, Int.cast_zero, zero_mul, double, zero_div, hzero, Int.cast_zero, zero_mul]
  · obtain ⟨d, hd⟩ := Int.le.dest (lastDigit_le hn hne hp)
    have htwo : (2 : Rat) ^ lastDigit (n * 2 ^ p) ≠ 0 := zpow_ne_zero _ two_ne_zero
    have hdigits : (n : Rat) * 2 ^ p / 2 ^ lastDigit (n * 2 ^ p) = (n * 2 ^ d : Int) := by
      rw [div_eq_iff htwo]
      nth_rewrite 1 [← hd]
      rw [zpow_add₀ two_ne_zero, zpow_natCast]
      push_cast
      ring
    rw [double, hdigits, nearest_intCast, ← hdigits, div_mul_cancel₀ _ htwo]

theorem double_intCast {n : Int} (hn : |n| < 2 ^ 53) : double n = n := by
  have hexact := double_exact hn (show -1074 ≤ 0 by decide)
  rwa [zpow_zero, mul_one] at hexact

theorem double_half {n : Int} (hn : |n| < 2 ^ 53) : double (n / 2) = n / 2 := by
  have hexact := double_exact hn (show -1074 ≤ -1 by decide)
  rwa [zpow_neg_one, ← div_eq_mul_inv] at hexact

/-- Halfway between two `double`s the last digit is the even one. -/
example : double (2 ^ 53 + 1) = 2 ^ 53 ∧ double (2 ^ 53 + 3) = 2 ^ 53 + 4 := by decide +kernel

end LanguageTest.Doubles
