import LanguageTest.Library.Arithmetic
import Mathlib.Data.Int.ModEq
import Mathlib.Tactic.Ring

namespace LanguageTest.QuickPow

variable {σ : Type}

/-- The numbers that a `long long` holds. -/
def IsLong (v : Int) : Prop := -9223372036854775808 ≤ v ∧ v < 9223372036854775808

instance (v : Int) : Decidable (IsLong v) := inferInstanceAs (Decidable (_ ∧ _))

/-- The value of a `long long` expression. Beyond the range it has none. -/
def long (v : Int) : Program σ Int := if IsLong v then pure v else fail .overflow

/-- The `long long` that a `uint64_t` is converted to. -/
def toLong (n : Nat) : Int :=
  if n % 18446744073709551616 < 9223372036854775808 then n % 18446744073709551616
  else n % 18446744073709551616 - 18446744073709551616

def mod : Nat := 1000000007

/-- `v % mod`, for which `v` is converted to `uint64_t`, as it is assigned to a `long long`. -/
def reduce (v : Int) : Int := toLong (toSize v % mod)

def quickPow (fuel : Nat) (x n : Int) : Program σ Int :=
  loop (fun v : Int × Int × Int => do
    let (res, x, n) := v
    if n > 0 then
      -- `n & 1`, for an `n` that is not negative
      let res ← if n % 2 = 1 then reduce <$> long (res * x) else pure res
      let x := reduce (← long (x * x))
      pure (.again (res, x, n >>> (1 : Nat)))
    else pure (.done res)) fuel (1, x, n)

section
variable {x n v : Int} {s : σ} {fuel : Nat}

theorem runs_long {Q : Int → σ → Prop} (h : IsLong v) : Runs (long v) s Q ↔ Q v s := by
  rw [long, if_pos h, runs_pure]

theorem reduce_eq (h : 0 ≤ v) (hv : v < 9223372036854775808) : reduce v = v % 1000000007 := by
  unfold reduce toLong toSize mod
  omega

theorem reduce_range (h : 0 ≤ v) (hv : v < 9223372036854775808) :
    0 ≤ reduce v ∧ reduce v < 1000000007 := by
  rw [reduce_eq h hv]
  omega

theorem reduce_modEq (h : 0 ≤ v) (hv : v < 9223372036854775808) :
    reduce v ≡ v [ZMOD 1000000007] := by
  rw [reduce_eq h hv]
  exact Int.mod_modEq v 1000000007

/-- Both factors of a product are at most of 31 binary digits. -/
theorem product_range {a b : Int} (ha : 0 ≤ a) (ha' : a < 2147483648) (hb : 0 ≤ b)
    (hb' : b < 2147483648) : 0 ≤ a * b ∧ a * b < 9223372036854775808 := by
  refine ⟨Int.mul_nonneg ha hb, ?_⟩
  have hle : a * b ≤ 2147483648 * 2147483648 :=
    Int.mul_le_mul ha'.le hb'.le hb (by decide)
  omega

/-- One pass, for the last binary digit of the exponent. -/
theorem pow_digit {res : Int} (hn : 0 < n) :
    res * x ^ n.toNat = (if n % 2 = 1 then res * x else res) * (x * x) ^ (n / 2).toNat := by
  rw [← pow_two, ← pow_mul]
  split_ifs with hodd
  · rw [mul_assoc, ← pow_succ']
    congr 2
    omega
  · congr 2
    omega

/-- What the variables of the loop keep. -/
structure Powering (x₀ n₀ : Int) (v : Int × Int × Int) : Prop where
  resNonneg : 0 ≤ v.1
  resLt : v.1 < 1000000007
  baseNonneg : 0 ≤ v.2.1
  baseLt : v.2.1 < 2147483648
  exponent : 0 ≤ v.2.2
  value : v.1 * v.2.1 ^ v.2.2.toNat ≡ x₀ ^ n₀.toNat [ZMOD 1000000007]

theorem Powering.step {x₀ n₀ res : Int} (h : Powering x₀ n₀ (res, x, n)) (hn : 0 < n) :
    Powering x₀ n₀ (if n % 2 = 1 then reduce (res * x) else res, reduce (x * x), n / 2) := by
  obtain ⟨hres, hlt, hx, hx', -, hvalue⟩ := h
  dsimp only at hres hlt hx hx' hvalue
  have hproduct := product_range hres (show res < 2147483648 by omega) hx hx'
  have hsquare := product_range hx hx' hx hx'
  have hnext := reduce_range hsquare.1 hsquare.2
  have hmod : (if n % 2 = 1 then reduce (res * x) else res) ≡
      (if n % 2 = 1 then res * x else res) [ZMOD 1000000007] := by
    split_ifs
    · exact reduce_modEq hproduct.1 hproduct.2
    · exact Int.ModEq.refl res
  have hrange : 0 ≤ (if n % 2 = 1 then reduce (res * x) else res) ∧
      (if n % 2 = 1 then reduce (res * x) else res) < 1000000007 := by
    split_ifs
    · exact reduce_range hproduct.1 hproduct.2
    · exact ⟨hres, hlt⟩
  refine ⟨hrange.1, hrange.2, hnext.1, by dsimp only; omega, by dsimp only; omega, ?_⟩
  rw [pow_digit hn] at hvalue
  exact (hmod.mul ((reduce_modEq hsquare.1 hsquare.2).pow _)).trans hvalue

end

/-- The power modulo `mod`, and no product that is too large on the way. -/
theorem quickPow_pow {σ : Type} (s : σ) (x n : Int) (hx : 0 ≤ x) (hx' : x < 2147483648)
    (hn : 0 ≤ n) (fuel : Nat) (hf : n.toNat < fuel) :
    Runs (quickPow fuel x n) s fun r t =>
      t = s ∧ r ≡ x ^ n.toNat [ZMOD mod] ∧ (1 ≤ n → 0 ≤ r ∧ r < mod) := by
  refine runs_loop (fun k (v : Int × Int × Int) t => t = s ∧ k = v.2.2.toNat ∧ Powering x n v) ?_
    ⟨rfl, rfl, ?_⟩ hf
  · rintro k ⟨res, base, m⟩ _ ⟨rfl, rfl, h⟩
    have hm : 0 ≤ m := h.exponent
    dsimp only
    by_cases hpos : m > 0
    · have hproduct := product_range h.resNonneg (h.resLt.trans (by decide)) h.baseNonneg h.baseLt
      have hsquare := product_range h.baseNonneg h.baseLt h.baseNonneg h.baseLt
      dsimp only at hproduct hsquare
      have hnext : IsLong (base * base) := ⟨by omega, hsquare.2⟩
      have hhalf : m >>> (1 : Nat) = m / 2 := Int.shiftRight_eq_div_pow m 1
      have hstep := h.step hpos
      rw [if_pos hpos, hhalf]
      split_ifs with hodd
      · have hlong : IsLong (res * base) := ⟨by omega, hproduct.2⟩
        rw [if_pos hodd] at hstep
        rw [runs_bind, runs_map, runs_long hlong, runs_bind, runs_long hnext, runs_pure]
        exact ⟨(m / 2).toNat, by omega, rfl, rfl, hstep⟩
      · rw [if_neg hodd] at hstep
        rw [runs_bind, runs_pure, runs_bind, runs_long hnext, runs_pure]
        exact ⟨(m / 2).toNat, by omega, rfl, rfl, hstep⟩
    · have hzero : m = 0 := by omega
      have hvalue := h.value
      subst hzero
      rw [if_neg hpos, runs_pure]
      simp only [Int.toNat_zero, pow_zero, mul_one] at hvalue
      exact ⟨rfl, hvalue, fun _ => ⟨h.resNonneg, h.resLt⟩⟩
  · refine ⟨show (0 : Int) ≤ 1 by decide, show (1 : Int) < 1000000007 by decide, hx, hx', hn, ?_⟩
    dsimp only
    rw [one_mul]

theorem quickPow_pow_sample :
    Runs (quickPow 6 2147483647 5) () fun r t =>
      t = () ∧ r ≡ 2147483647 ^ (5 : Int).toNat [ZMOD mod] ∧ (1 ≤ (5 : Int) → 0 ≤ r ∧ r < mod) :=
  quickPow_pow () 2147483647 5 (by decide) (by decide) (by decide) 6 (by decide)

end LanguageTest.QuickPow
