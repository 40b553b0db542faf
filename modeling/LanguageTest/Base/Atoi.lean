import LanguageTest.Leetcode.StrToInt

namespace LanguageTest.Atoi
open StrToInt (Fits clamp strToInt runs_strToInt_iff)

variable {σ : Type}

/-- An `int` that wraps around. -/
def wrap (v : Int) : Int := toInt (toUnsigned v)

def skipBlanks (fuel : Nat) (str : List UInt8) (p : Nat) : Program σ Nat :=
  loop (fun p : Nat => do
    if (← getChar str p) = 32 then pure (.again (p + 1)) else pure (.done p)) fuel p

/-- The loop over the digits, for the pointer to the character at `p`. -/
def readDigits (fuel : Nat) (str : List UInt8) (p : Nat) (res : Int) : Program σ Int :=
  loop (fun v : Nat × Int => do
    let (p, res) := v
    let c ← getChar str p
    if 48 ≤ c ∧ c ≤ 57 then
      let res := wrap (wrap (wrap (res * 10) + c.toNat) - 48)
      if res < 0 then pure (.done 2147483647) else pure (.again (p + 1, res))
    else pure (.done res)) fuel (p, res)

/-- `_atoi`. -/
def atoi (fuel : Nat) (str : List UInt8) : Program σ Int := do
  let p ← skipBlanks fuel str 0
  let c ← getChar str p
  let falg := if c = 45 then -1 else 1
  let p := if c = 45 ∨ c = 43 then p + 1 else p
  let res ← readDigits fuel str p 0
  pure (wrap (res * falg))

/-- The sign of an `int` shows that the number has left its range. -/
def Noticed (digits : List UInt8) : Prop :=
  ∃ j ≤ digits.length, 2147483648 ≤ decimal (digits.take j) % 4294967296

instance (digits : List UInt8) : Decidable (Noticed digits) :=
  inferInstanceAs (Decidable (∃ j ≤ digits.length, _))

/-- What the digits are read as. -/
def reading (digits : List UInt8) : Int :=
  if Noticed digits then 2147483647 else (decimal digits % 4294967296 : Nat)

section
variable {s : List UInt8} {n : Numeral} {i j r d fuel : Nat} {t : σ} {v : Int}

theorem toInt_eq_bmod (m : Nat) : toInt m = (m : Int).bmod 4294967296 := by
  rw [Int.bmod_def, toInt]
  split_ifs <;> omega

theorem wrap_eq_bmod (v : Int) : wrap v = v.bmod 4294967296 := by
  rw [wrap, toInt_eq_bmod, toUnsigned, Int.toNat_of_nonneg (Int.emod_nonneg v (by decide))]
  exact Int.emod_bmod v 4294967296

/-- One more digit, modulo 2 ^ 32. -/
theorem wrap_digit (m : Nat) (c : Int) (hc : c - 48 = d) :
    wrap (wrap (wrap ((m % 4294967296 : Nat) * 10) + c) - 48) = toInt (10 * m + d) := by
  have hmul : (((m % 4294967296 : Nat) : Int) * 10).bmod 4294967296 =
      ((m : Int) * 10).bmod 4294967296 := by
    rw [Int.natCast_emod]
    exact Int.emod_mul_bmod (m : Int) 4294967296
  have hsum : (m : Int) * 10 + c - 48 = (10 * m + d : Nat) := by omega
  rw [wrap_eq_bmod, wrap_eq_bmod, wrap_eq_bmod, toInt_eq_bmod, hmul, Int.bmod_add_bmod,
    Int.bmod_sub_bmod, hsum]

theorem readDigits_iff (h : n.Longest s) {Q : Int → σ → Prop} (hj : j + r = n.digits.length)
    (hbefore : ∀ l ≤ j, decimal (n.digits.take l) % 4294967296 < 2147483648) (hf : r < fuel) :
    Runs (readDigits fuel s (n.start + j) (decimal (n.digits.take j) % 4294967296 : Nat)) t Q ↔
      Q (reading n.digits) t := by
  have hle := h.length_le
  induction r generalizing j fuel with
  | zero =>
    obtain rfl : j = n.digits.length := hj
    obtain ⟨fuel, rfl⟩ := Nat.exists_eq_add_of_lt hf
    have hafter : ¬ (48 ≤ s[n.start + n.digits.length]! ∧ s[n.start + n.digits.length]! ≤ 57) :=
      h.after
    have hnot : ¬ Noticed n.digits := by
      intro hnoticed
      obtain ⟨l, hl, hlarge⟩ := hnoticed
      exact absurd (hbefore l hl) (Nat.not_lt_of_le hlarge)
    rw [readDigits, runs_loop_succ, reading, if_neg hnot, List.take_length]
    dsimp only
    rw [runs_bind, runs_getChar hle, if_neg hafter, runs_pure]
  | succ r ih =>
    obtain ⟨fuel, rfl⟩ := Nat.exists_eq_add_of_lt hf
    have hlt : j < n.digits.length := by omega
    obtain ⟨hread, hdigit⟩ := h.digit hlt
    obtain ⟨-, hcast⟩ := digitOf_le hdigit
    have hdecimal : 48 ≤ s[n.start + j]! ∧ s[n.start + j]! ≤ 57 := by
      rw [hread]
      exact hdigit
    rw [readDigits, runs_loop_succ]
    dsimp only
    rw [runs_bind, runs_getChar (by omega), if_pos hdecimal, hread, wrap_digit _ _ hcast,
      ← decimal_take_succ hlt]
    split_ifs with hnegative
    · have hnoticed : Noticed n.digits := by
        refine ⟨j + 1, hlt, ?_⟩
        by_contra hsmall
        rw [toInt, if_pos (by omega)] at hnegative
        omega
      rw [runs_pure, reading, if_pos hnoticed]
    · have hsmall : decimal (n.digits.take (j + 1)) % 4294967296 < 2147483648 := by
        by_contra hlarge
        rw [toInt, if_neg (by omega)] at hnegative
        omega
      have hvalue : toInt (decimal (n.digits.take (j + 1))) =
          (decimal (n.digits.take (j + 1)) % 4294967296 : Nat) := if_pos (by omega)
      rw [runs_pure, hvalue]
      refine @ih (j + 1) (r + 1 + fuel) (by omega) ?_ (by omega)
      intro l hl
      rcases Nat.lt_succ_iff_lt_or_eq.mp (Nat.lt_succ_of_le hl) with hlow | rfl
      · exact hbefore l (by omega)
      · exact hsmall

theorem skipBlanks_iff (h : n.Longest s) {Q : Nat → σ → Prop} (hi : i + r = n.blanks)
    (hf : r < fuel) : Runs (skipBlanks fuel s i) t Q ↔ Q n.blanks t := by
  have hle := h.length_le
  have hstart : n.start = n.blanks + n.sign.length := rfl
  induction r generalizing i fuel with
  | zero =>
    obtain rfl : i = n.blanks := hi
    obtain ⟨fuel, rfl⟩ := Nat.exists_eq_add_of_lt hf
    rw [skipBlanks, runs_loop_succ, runs_bind, runs_getChar (by omega), if_neg h.mark.1, runs_pure]
  | succ r ih =>
    obtain ⟨fuel, rfl⟩ := Nat.exists_eq_add_of_lt hf
    rw [skipBlanks, runs_loop_succ, runs_bind, runs_getChar (by omega), if_pos (h.blank (by omega)),
      runs_pure]
    exact @ih (i + 1) (r + 1 + fuel) (by omega) (by omega)

/-- The whole function, exactly. -/
theorem runs_atoi_iff (h : n.Longest s) (hf : s.length < fuel) {Q : Int → σ → Prop} :
    Runs (atoi fuel s) t Q ↔ Q (wrap (reading n.digits * n.factor)) t := by
  have hle := h.length_le
  have hstart : n.start = n.blanks + n.sign.length := rfl
  have hflag : (if s[n.blanks]! = 45 then (-1 : Int) else 1) = n.factor := by
    unfold Numeral.factor
    simp only [h.mark.2.1]
  have hnext : (if s[n.blanks]! = 45 ∨ s[n.blanks]! = 43 then n.blanks + 1 else n.blanks) =
      n.start := by
    simp only [h.mark.2.1, h.mark.2.2, hstart]
    rcases n.isSign with hsign | hsign | hsign <;> simp [hsign]
  rw [atoi, runs_bind, skipBlanks_iff h (Nat.zero_add _) (by omega), runs_bind,
    runs_getChar (by omega), hflag, hnext, runs_bind]
  have hread := readDigits_iff (j := 0) (t := t) h (Nat.zero_add _) (by simp)
    (show n.digits.length < fuel by omega)
    (Q := fun res u => Runs (pure (wrap (res * n.factor))) u Q)
  rw [runs_pure] at hread
  exact hread

theorem wrap_of_isInt (h : IsInt v) : wrap v = v := by
  have := h.1
  have := h.2
  unfold wrap toInt toUnsigned
  split_ifs <;> omega

/-- The condition under which the digits of a numeral are read right. -/
def Agree (n : Numeral) : Prop :=
  decimal n.digits ≤ 2147483647 ∨
    n.sign ≠ [45] ∧ (Noticed n.digits ∨ decimal n.digits % 4294967296 = 2147483647)

theorem Noticed.large (h : Noticed n.digits) : 2147483648 ≤ decimal n.digits := by
  obtain ⟨j, hj, hlarge⟩ := h
  have hle : decimal (n.digits.take j) ≤ decimal (n.digits.take n.digits.length) :=
    decimal_take_le hj
  rw [List.take_length] at hle
  omega

theorem agree_iff : wrap (reading n.digits * n.factor) = clamp n.value ↔ Agree n := by
  unfold Agree clamp Numeral.value Numeral.factor reading
  by_cases hnoticed : Noticed n.digits
  · have hlarge := hnoticed.large
    rw [if_pos hnoticed]
    by_cases hsign : n.sign = [45]
    · rw [if_pos hsign, wrap_of_isInt (by decide)]
      simp only [hsign, ne_eq, not_true_eq_false, false_and, or_false]
      omega
    · rw [if_neg hsign, wrap_of_isInt (by decide)]
      simp only [hsign, hnoticed, ne_eq, not_false_eq_true, true_or, and_self, or_true, iff_true]
      omega
  · have hsmall : decimal n.digits % 4294967296 < 2147483648 := by
      by_contra hlarge
      exact hnoticed ⟨n.digits.length, Nat.le_refl _, by rw [List.take_length]; omega⟩
    rw [if_neg hnoticed]
    by_cases hsign : n.sign = [45]
    · rw [if_pos hsign, wrap_of_isInt (by unfold IsInt; omega)]
      simp only [hsign, ne_eq, not_true_eq_false, false_and, or_false]
      omega
    · rw [if_neg hsign, wrap_of_isInt (by unfold IsInt; omega)]
      simp only [hsign, hnoticed, ne_eq, not_false_eq_true, false_or, true_and]
      omega

/-- Both functions return the same value exactly when `strToInt` can count the characters, and the
digits stay within the range or the sign shows that they have left it. -/
theorem atoi_iff (s : List UInt8) (hf : s.length < fuel) :
    (∃ n : Numeral, n.Longest s) ∧ ∀ n : Numeral, n.Longest s →
      ((∃ v, (Runs (atoi fuel s) t fun r _ => r = v) ∧ Runs (strToInt fuel s) t fun r _ => r = v) ↔
        Fits n ∧ Agree n) := by
  refine ⟨Numeral.exists_longest s, ?_⟩
  intro n h
  constructor
  · intro hsame
    obtain ⟨v, hatoi, hstr⟩ := hsame
    rw [runs_atoi_iff h hf] at hatoi
    rw [runs_strToInt_iff h hf] at hstr
    exact ⟨hstr.1, agree_iff.mp (hatoi.trans hstr.2.symm)⟩
  · intro hagree
    refine ⟨clamp n.value, (runs_atoi_iff h hf).mpr (agree_iff.mpr hagree.2), ?_⟩
    exact (runs_strToInt_iff h hf).mpr ⟨hagree.1, rfl⟩

/-- `"4294967296"`. -/
def wrapping : Numeral where
  blanks := 0
  sign := []
  digits := [52, 50, 57, 52, 57, 54, 55, 50, 57, 54]
  isSign := isSign_nil
  isDecimal := isDecimal_of_all rfl

theorem atoi_iff_wrapping :
    (∃ v, (Runs (atoi 11 wrapping.text) () fun r _ => r = v) ∧
      Runs (strToInt 11 wrapping.text) () fun r _ => r = v) ↔ Fits wrapping ∧ Agree wrapping :=
  (atoi_iff wrapping.text (by decide)).2 wrapping wrapping.longest_text

theorem atoi_wraps : ¬ ∃ v, (Runs (atoi 11 wrapping.text) () fun r _ => r = v) ∧
    Runs (strToInt 11 wrapping.text) () fun r _ => r = v := by
  intro hsame
  obtain ⟨v, hatoi, hstr⟩ := hsame
  rw [runs_atoi_iff wrapping.longest_text (by decide)] at hatoi
  rw [runs_strToInt_iff wrapping.longest_text (by decide)] at hstr
  exact absurd (hatoi.trans hstr.2.symm) (by decide)

end

end LanguageTest.Atoi
