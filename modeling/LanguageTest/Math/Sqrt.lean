import LanguageTest.Library.Bisection
import Mathlib.Data.Nat.Sqrt
import Mathlib.Order.Bounds.Basic

namespace LanguageTest.Sqrt
open Bisection

variable {σ : Type}

/-- The value of a `long long` expression. -/
def longLong (v : Int) : Program σ Int :=
  if -9223372036854775808 ≤ v ∧ v < 9223372036854775808 then pure v else fail .overflow

/-- The `int` that is returned for a `long long`. -/
def toResult (v : Int) : Int := toInt (toUnsigned v)

/-- One pass over `i` and `j`. -/
def pass (x : Int) (v : Int × Int) : Program σ (Step (Int × Int) Int) := do
  let (i, j) := v
  if i ≤ j then
    let mid := (← longLong (i + j)).tdiv 2
    let sq ← longLong (mid * mid)
    if sq = x then pure (.done (toResult mid))
    else if sq < x then pure (.again (← longLong (mid + 1), j))
    else pure (.again (i, ← longLong (mid - 1)))
  else pure (.done (toResult j))

def sqrt (fuel : Nat) (x : Int) : Program σ Int := do
  let j ← int (x.tdiv 2 + 1)
  loop (pass x) fuel (0, j)

section
variable {n l r m : Nat} {s : σ} {v : Int}

theorem runs_longLong_bind {α : Type} {k : Int → Program σ α} {Q : α → σ → Prop}
    (hlow : -9223372036854775808 ≤ v) (hhigh : v < 9223372036854775808) :
    Runs (longLong v >>= k) s Q ↔ Runs (k v) s Q := by
  rw [longLong, if_pos ⟨hlow, hhigh⟩, runs_bind, runs_pure]

theorem toResult_natCast (hm : m < 2147483648) : toResult m = m := by
  rw [toResult, toUnsigned_of_nonneg (by omega) (by omega), Int.toNat_natCast, toInt_of_lt hm]

theorem isGreatest_sqrt : IsGreatest {q : Int | q * q ≤ n} (Nat.sqrt n) := by
  constructor
  · have hle : (Nat.sqrt n : Int) * Nat.sqrt n ≤ n := by exact_mod_cast Nat.sqrt_le n
    exact hle
  · intro q hq
    have hsq : q * q ≤ n := hq
    rcases Int.le_total q 0 with hneg | hpos
    · omega
    · obtain ⟨q, rfl⟩ := Int.eq_ofNat_of_zero_le hpos
      have hle : q * q ≤ n := by exact_mod_cast hsq
      exact_mod_cast Nat.le_sqrt.mpr hle

/-- The bound that the search starts from is not less than the square root. -/
theorem sqrt_le_half : Nat.sqrt n ≤ n / 2 + 1 := by
  have hsq := Nat.sqrt_le n
  rcases Nat.lt_or_ge (Nat.sqrt n) 2 with hlt | hge
  · omega
  · have htwo := Nat.mul_le_mul_right (Nat.sqrt n) hge
    omega

/-- A middle of a range of the search, and its square. -/
theorem middle_sq_lt (hn : n < 2147483648) (hlt : l < r) (hr : r ≤ n / 2 + 2) :
    middle l r ≤ 1073741824 ∧ middle l r * middle l r ≤ 1152921504606846976 := by
  have hm := middle_lt hlt
  have hle : middle l r ≤ 1073741824 := by omega
  exact ⟨hle, Nat.mul_le_mul hle hle⟩

theorem pass_middle (hn : n < 2147483648) (hlt : l < r) (hr : r ≤ n / 2 + 2) :
    Runs (pass n (ends l r)) s fun v _ => match v with
      | .again j => middle l r < Nat.sqrt n + 1 ∧ j = ends (middle l r + 1) r ∨
          Nat.sqrt n + 1 ≤ middle l r ∧ j = ends l (middle l r)
      | .done q => IsGreatest {q : Int | q * q ≤ n} q := by
  obtain ⟨hm, hsq⟩ := middle_sq_lt hn hlt hr
  have hmid : ((l : Int) + ((r : Int) - 1)).tdiv 2 = middle l r := by
    have hsum : (l : Int) + ((r : Int) - 1) = (l + r - 1 : Nat) := by omega
    rw [hsum]
    rfl
  have hcast : (middle l r : Int) * middle l r = (middle l r * middle l r : Nat) :=
    (Int.natCast_mul ..).symm
  rw [ends, pass]
  dsimp only
  rw [if_pos (by omega), runs_longLong_bind (by omega) (by omega), hmid,
    runs_longLong_bind (by omega) (by omega), hcast]
  by_cases heq : middle l r * middle l r = n
  · have hresult : Nat.sqrt n = middle l r := by rw [← heq, Nat.sqrt_eq]
    rw [if_pos (congrArg Nat.cast heq), runs_pure, toResult_natCast (by omega), ← hresult]
    exact isGreatest_sqrt
  rw [if_neg fun h => heq (by exact_mod_cast h)]
  by_cases hless : middle l r * middle l r < n
  · rw [if_pos (by exact_mod_cast hless), runs_longLong_bind (by omega) (by omega), runs_pure]
    exact Or.inl ⟨Nat.lt_succ_of_le (Nat.le_sqrt.mpr hless.le), rfl⟩
  · have hgreater : Nat.sqrt n < middle l r := Nat.sqrt_lt.mpr (by omega)
    rw [if_neg fun h => hless (by exact_mod_cast h), runs_longLong_bind (by omega) (by omega),
      runs_pure]
    exact Or.inr ⟨hgreater, rfl⟩

/-- The ends have passed each other, and `j` is the square root. -/
theorem pass_last (hn : n < 2147483648) :
    LastPass (pass n) (fun q _ => IsGreatest {q : Int | q * q ≤ n} q)
      (ends (Nat.sqrt n + 1) (Nat.sqrt n + 1)) s := by
  have hroot : Nat.sqrt n ≤ n := Nat.sqrt_le_self n
  have hresult : ((Nat.sqrt n + 1 : Nat) : Int) - 1 = Nat.sqrt n := by omega
  rw [LastPass, ends, pass]
  dsimp only
  rw [if_neg (by omega), runs_pure, hresult, toResult_natCast (by omega)]
  exact isGreatest_sqrt

end

theorem sqrt_greatest (s : σ) (x : Int) (hpos : 0 ≤ x) (hx : IsInt x) (fuel : Nat)
    (hf : x.toNat / 2 + 2 < fuel) :
    Runs (sqrt fuel x) s fun r _ => IsGreatest {q : Int | q * q ≤ x} r := by
  obtain ⟨n, rfl⟩ := Int.eq_ofNat_of_zero_le hpos
  have hn : n < 2147483648 := by
    have hlt := hx.2
    omega
  have hhalf : ((n : Int).tdiv 2) = (n / 2 : Nat) := rfl
  have hroot := sqrt_le_half (n := n)
  have hends : ((0 : Int), ((n / 2 : Nat) : Int) + 1) = ends 0 (n / 2 + 2) :=
    Prod.ext rfl (by dsimp only [ends]; omega)
  rw [Int.toNat_natCast] at hf
  rw [sqrt, hhalf, runs_int_bind (by omega) (by omega), hends]
  refine runs_bisect (c := Nat.sqrt n + 1) (fun _ _ _ => True) ?_ (fun _ _ => pass_last hn)
    (by omega) trivial hf
  intro l r s _ _ hrn hlt _
  refine (pass_middle hn hlt hrn).mono ?_
  rintro (j | q) t h
  · rcases h with ⟨hless, hj⟩ | ⟨hgreater, hj⟩
    · exact Or.inl ⟨hless, hj, trivial⟩
    · exact Or.inr (Or.inl ⟨hgreater, hj, trivial⟩)
  · exact h

theorem sqrt_greatest_eight :
    Runs (sqrt 7 8) () fun r _ => IsGreatest {q : Int | q * q ≤ 8} r :=
  sqrt_greatest () 8 (by decide) (by decide) 7 (by decide)

end LanguageTest.Sqrt
