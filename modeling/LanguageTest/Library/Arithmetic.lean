import LanguageTest.Library.Program

namespace LanguageTest

variable {σ : Type}

/-- The numbers that an `int` of 32 bits holds. -/
def IsInt (v : Int) : Prop := -2147483648 ≤ v ∧ v < 2147483648

instance (v : Int) : Decidable (IsInt v) := inferInstanceAs (Decidable (_ ∧ _))

/-- The value of an `int` expression. Beyond the range it has none. -/
def int (v : Int) : Program σ Int := if IsInt v then pure v else fail .overflow

/-- The `int` that a value of an unsigned type is converted to. -/
def toInt (n : Nat) : Int :=
  if n % 4294967296 < 2147483648 then n % 4294967296 else n % 4294967296 - 4294967296

/-- The `unsigned` that an `int` is converted to. -/
def toUnsigned (v : Int) : Nat := (v % 4294967296).toNat

/-- The `size_t` that an `int` is converted to. -/
def toSize (v : Int) : Nat := (v % 18446744073709551616).toNat

/-- `a % b`. A division by zero, or with a quotient beyond the range, has no value. -/
def rem (a b : Int) : Program σ Int :=
  if b = 0 ∨ ¬ IsInt (a.tdiv b) then fail .overflow else pure (a.tmod b)

section
variable {v : Int} {n : Nat} {s : σ}

theorem runs_int {Q : Int → σ → Prop} (h : IsInt v) : Runs (int v) s Q ↔ Q v s := by
  rw [int, if_pos h, runs_pure]

/-- An expression within the range, and what follows. -/
theorem runs_int_bind {α : Type} {k : Int → Program σ α} {Q : α → σ → Prop}
    (hlow : -2147483648 ≤ v) (hhigh : v ≤ 2147483647) :
    Runs (int v >>= k) s Q ↔ Runs (k v) s Q := by
  rw [runs_bind, runs_int ⟨hlow, Int.lt_add_one_of_le hhigh⟩]

theorem fails_int (h : ¬ IsInt v) : Fails (int v) s .overflow := by
  rw [int, if_neg h]
  exact fails_fail

theorem runs_int_iff {Q : Int → σ → Prop} : Runs (int v) s Q ↔ IsInt v ∧ Q v s := by
  by_cases h : IsInt v
  · rw [runs_int h, and_iff_right h]
  · exact iff_of_false (fun hruns => hruns.not_fails (fails_int h)) fun hand => h hand.1

theorem ensures_int : Ensures (int v) s fun r t => r = v ∧ IsInt v ∧ t = s := by
  by_cases h : IsInt v
  · exact ((runs_int h).mpr ⟨rfl, h, rfl⟩).ensures
  · exact (fails_int h).ensures

theorem keeps_int {R : σ → σ → Prop} [Std.Refl R] : Keeps R (int v : Program σ Int) := by
  intro s
  refine ensures_int.mono ?_
  rintro _ _ ⟨-, -, rfl⟩
  exact Std.Refl.refl _

theorem runs_rem {a b : Int} {Q : Int → σ → Prop} (hb : b ≠ 0) (h : IsInt (a.tdiv b)) :
    Runs (rem a b) s Q ↔ Q (a.tmod b) s := by
  rw [rem, if_neg (not_or.mpr ⟨hb, fun hnot => hnot h⟩), runs_pure]

/-- Only the division of the least `int` by -1 overflows. -/
theorem isInt_tdiv {a b : Int} (ha : IsInt a) (hneg : -2147483648 < a ∨ 0 ≤ b) :
    IsInt (a.tdiv b) := by
  have hle := Int.natAbs_tdiv_le_natAbs a b
  unfold IsInt at *
  rcases hneg with hlow | hpos
  · omega
  · rcases Int.le_total 0 a with h | h
    · omega
    · have hquotient := Int.tdiv_nonneg (show 0 ≤ -a by omega) hpos
      rw [Int.neg_tdiv] at hquotient
      omega

theorem runs_rem_natCast {a b : Nat} {Q : Int → σ → Prop} (hb : 0 < b) (ha : a < 2147483648) :
    Runs (rem a b) s Q ↔ Q (a % b : Nat) s := by
  rw [runs_rem (by omega) (isInt_tdiv ⟨by omega, by omega⟩ (Or.inr (by omega)))]
  rfl

theorem toInt_of_lt (h : n < 2147483648) : toInt n = n := by
  rw [toInt, if_pos (by omega)]
  omega

theorem isInt_toInt : IsInt (toInt n) := by
  unfold IsInt toInt
  split <;> omega

theorem toInt_le : toInt n ≤ n := by
  unfold toInt
  split <;> omega

theorem toSize_natCast (h : n < 18446744073709551616) : toSize n = n := by
  unfold toSize
  omega

theorem toUnsigned_of_nonneg (h : 0 ≤ v) (hv : v < 4294967296) : toUnsigned v = v.toNat := by
  unfold toUnsigned
  omega

end

end LanguageTest
