import LanguageTest.Library.Elements
import Mathlib.Data.Nat.Prime.Pow
import Mathlib.NumberTheory.Bertrand
import Mathlib.Tactic.IntervalCases

namespace LanguageTest.LeastFactor

variable {c i j n p : ℕ} {xs : List ℕ}

/-- The primes below `n`, from the least one on. -/
def primesBelow (n : ℕ) : List ℕ := (List.range n).filter Nat.Prime

theorem mem_primesBelow : p ∈ primesBelow n ↔ p < n ∧ p.Prime := by
  rw [primesBelow, List.mem_filter, List.mem_range, decide_eq_true_eq]

theorem pairwise_primesBelow (n : ℕ) : (primesBelow n).Pairwise (· < ·) :=
  List.pairwise_lt_range.filter _

theorem primesBelow_succ (n : ℕ) :
    primesBelow (n + 1) = primesBelow n ++ if n.Prime then [n] else [] := by
  rw [primesBelow, List.range_succ, List.filter_append, primesBelow]
  congr 1
  by_cases hn : n.Prime
  · rw [if_pos hn, List.filter_cons_of_pos (by simpa using hn), List.filter_nil]
  · rw [if_neg hn, List.filter_cons_of_neg (by simpa using hn), List.filter_nil]

/-- The elements before an index of a list in order are those that are less. -/
theorem mem_take_iff (h : xs.Pairwise (· < ·)) (hj : j < xs.length) :
    p ∈ xs.take j ↔ p ∈ xs ∧ p < xs[j]! := by
  have hsplit : xs.take j ++ xs[j]! :: xs.drop (j + 1) = xs := by
    rw [← drop_eq_cons hj, List.take_append_drop]
  rw [← hsplit, List.pairwise_append, List.pairwise_cons] at h
  obtain ⟨-, ⟨hafter, -⟩, hbefore⟩ := h
  constructor
  · intro hp
    exact ⟨List.mem_of_mem_take hp, hbefore p hp _ (List.mem_cons_self ..)⟩
  · rintro ⟨hp, hlt⟩
    rw [← hsplit, List.mem_append, List.mem_cons] at hp
    rcases hp with hp | rfl | hp
    · exact hp
    · exact absurd hlt (lt_irrefl _)
    · exact absurd hlt (hafter p hp).not_gt

/-- No prime is more than twice the one before it. -/
theorem next_prime_le (hj : j + 1 < (primesBelow n).length) :
    (primesBelow n)[j + 1]! ≤ 2 * (primesBelow n)[j]! := by
  have hsorted := pairwise_primesBelow n
  have hmem : ∀ k < (primesBelow n).length, (primesBelow n)[k]! ∈ primesBelow n :=
    fun k hk => mem_iff_getElem!.mpr ⟨k, hk, rfl⟩
  have hprime := (mem_primesBelow.mp (hmem j (by omega))).2
  obtain ⟨q, hq, hlt, hle⟩ := Nat.exists_prime_lt_and_le_two_mul _ hprime.ne_zero
  by_contra hgap
  have hnext := (mem_primesBelow.mp (hmem (j + 1) hj)).1
  have hbelow : q ∈ (primesBelow n).take (j + 1) :=
    (mem_take_iff hsorted hj).mpr ⟨mem_primesBelow.mpr ⟨by omega, hq⟩, by omega⟩
  rw [take_succ_eq (by omega), List.mem_append, mem_take_iff hsorted (by omega),
    List.mem_singleton] at hbelow
  omega

-- The primes up to `i`, of which those before the index `j` do not divide it.
section
variable (hi : 2 ≤ i) (h : ∀ p ∈ (primesBelow (i + 1)).take j, ¬ p ∣ i)
include hi h

theorem lt_length_of_not_dvd : j < (primesBelow (i + 1)).length := by
  by_contra hend
  have hleast : i.minFac.Prime := Nat.minFac_prime (by omega)
  have hle : i.minFac ≤ i := Nat.minFac_le (by omega)
  rw [List.take_of_length_le (Nat.not_lt.mp hend)] at h
  exact h _ (mem_primesBelow.mpr ⟨by omega, hleast⟩) i.minFac_dvd

theorem le_minFac_of_not_dvd : (primesBelow (i + 1))[j]! ≤ i.minFac := by
  by_contra hlarge
  have hleast : i.minFac.Prime := Nat.minFac_prime (by omega)
  have hle : i.minFac ≤ i := Nat.minFac_le (by omega)
  refine h i.minFac ?_ i.minFac_dvd
  rw [mem_take_iff (pairwise_primesBelow _) (lt_length_of_not_dvd hi h), mem_primesBelow]
  exact ⟨⟨by omega, hleast⟩, Nat.not_le.mp hlarge⟩

theorem mem_take_of_not_dvd :
    p ∈ (primesBelow (i + 1)).take j ↔ p.Prime ∧ p < (primesBelow (i + 1))[j]! := by
  have hle := le_minFac_of_not_dvd hi h
  have hleast : i.minFac ≤ i := Nat.minFac_le (by omega)
  rw [mem_take_iff (pairwise_primesBelow _) (lt_length_of_not_dvd hi h), mem_primesBelow]
  constructor
  · rintro ⟨⟨-, hp⟩, hlt⟩
    exact ⟨hp, hlt⟩
  · rintro ⟨hp, hlt⟩
    exact ⟨⟨by omega, hp⟩, hlt⟩

/-- The first prime that divides the number is its least factor. -/
theorem mem_take_of_dvd (hdvd : (primesBelow (i + 1))[j]! ∣ i) :
    p ∈ (primesBelow (i + 1)).take (j + 1) ↔ p.Prime ∧ p ≤ i.minFac := by
  have hj := lt_length_of_not_dvd hi h
  have hprime : ((primesBelow (i + 1))[j]!).Prime :=
    (mem_primesBelow.mp (mem_iff_getElem!.mpr ⟨j, hj, rfl⟩)).2
  have heq : (primesBelow (i + 1))[j]! = i.minFac :=
    le_antisymm (le_minFac_of_not_dvd hi h) (Nat.minFac_le_of_dvd hprime.two_le hdvd)
  rw [take_succ_eq hj, List.mem_append, List.mem_singleton, mem_take_of_not_dvd hi h, ← heq]
  constructor
  · rintro (⟨hp, hlt⟩ | rfl)
    · exact ⟨hp, hlt.le⟩
    · exact ⟨hprime, le_rfl⟩
  · rintro ⟨hp, hle⟩
    rcases hle.lt_or_eq with hlt | rfl
    · exact Or.inl ⟨hp, hlt⟩
    · exact Or.inr rfl

end

/-- The composite numbers that are the product of `i` and their least prime factor. -/
theorem product_iff (hi : 2 ≤ i) :
    (∃ p, p.Prime ∧ p ≤ i.minFac ∧ c = p * i) ↔ 2 ≤ c ∧ ¬ c.Prime ∧ c / c.minFac = i := by
  constructor
  · rintro ⟨p, hp, hle, rfl⟩
    have htwo : 2 ≤ p * i := hi.trans (Nat.le_mul_of_pos_left i hp.pos)
    have hleast : (p * i).minFac = p := by
      have hq := Nat.minFac_prime (show p * i ≠ 1 by omega)
      refine le_antisymm (Nat.minFac_le_of_dvd hp.two_le (dvd_mul_right p i)) ?_
      rcases (Nat.Prime.dvd_mul hq).mp (Nat.minFac_dvd (p * i)) with hdvd | hdvd
      · exact ((Nat.prime_dvd_prime_iff_eq hq hp).mp hdvd).ge
      · exact hle.trans (Nat.minFac_le_of_dvd hq.two_le hdvd)
    refine ⟨htwo, Nat.not_prime_mul hp.ne_one (by omega), ?_⟩
    rw [hleast, Nat.mul_div_cancel_left i hp.pos]
  · rintro ⟨htwo, -, rfl⟩
    have hproduct := Nat.mul_div_cancel' c.minFac_dvd
    refine ⟨c.minFac, Nat.minFac_prime (by omega), ?_, hproduct.symm⟩
    refine Nat.minFac_le_of_dvd (Nat.minFac_prime (by omega)).two_le ?_
    exact (Nat.minFac_dvd _).trans (Nat.div_dvd_of_dvd c.minFac_dvd)

/-- No divisor lies below the square root. -/
def NoneBelowRoot (n : Nat) : Prop := ∀ d, 2 ≤ d → d * d < n → ¬ d ∣ n

theorem noneBelowRoot_iff (hn : 2 ≤ n) :
    NoneBelowRoot n ↔ n.Prime ∨ ∃ p, p.Prime ∧ n = p * p := by
  constructor
  · intro h
    by_contra hcond
    rw [not_or, not_exists] at hcond
    obtain ⟨hnp, hsquare⟩ := hcond
    have hp := Nat.minFac_prime (show n ≠ 1 by omega)
    have hle := Nat.minFac_sq_le_self (by omega) hnp
    rw [pow_two] at hle
    rcases hle.lt_or_eq with hlt | heq
    · exact h n.minFac hp.two_le hlt n.minFac_dvd
    · exact hsquare n.minFac ⟨hp, heq.symm⟩
  · rintro (hp | ⟨p, hp, rfl⟩) d hd hlt hdvd
    · rcases (Nat.dvd_prime hp).mp hdvd with rfl | rfl
      · omega
      · exact absurd hlt (not_lt.mpr (Nat.le_mul_self d))
    · rw [← pow_two, Nat.dvd_prime_pow hp] at hdvd
      obtain ⟨k, hk, rfl⟩ := hdvd
      interval_cases k
      · rw [pow_zero] at hd
        omega
      · rw [pow_one] at hlt
        exact absurd hlt (lt_irrefl _)
      · rw [pow_two] at hlt
        exact absurd hlt (not_lt.mpr (Nat.le_mul_self _))

end LanguageTest.LeastFactor
