import LanguageTest.Library.Numerals
import LanguageTest.Race.QuickPow

namespace LanguageTest.StrToInt
open QuickPow (IsLong long runs_long)

variable {σ : Type}

def skipBlanks (fuel : Nat) (s : List UInt8) (i : Int) : Program σ Int :=
  loop (fun i : Int => do
    if (← getChar s i) = 32 then pure (.again (← int (i + 1)))
    else pure (.done i)) fuel i

/-- The loop over the digits, with what it returns or else what `res` is after it. -/
def readDigits (fuel : Nat) (s : List UInt8) (flag i res : Int) : Program σ (Int ⊕ Int) :=
  loop (fun v : Int × Int => do
    let (i, res) := v
    if i < s.length then
      let c ← getChar s i
      if 48 ≤ c ∧ c ≤ 57 then
        let res ← long ((← long (res * 10)) + (c.toNat - 48))
        if (← long (res * flag)) > 2147483647 then pure (.done (.inl 2147483647))
        else if (← long (res * flag)) < -2147483648 then pure (.done (.inl (-2147483648)))
        else pure (.again (← int (i + 1), res))
      else pure (.done (.inr res))
    else pure (.done (.inr res))) fuel (i, res)

def strToInt (fuel : Nat) (s : List UInt8) : Program σ Int := do
  if s.length = 0 then pure 0
  else
    let i ← skipBlanks fuel s 0
    let flag := if (← getChar s i) = 45 then -1 else 1
    let c ← getChar s i
    let i ← if c = 43 ∨ c = 45 then int (i + 1) else pure i
    match ← readDigits fuel s flag i 0 with
    | .inl limit => pure limit
    | .inr res => pure (toInt (toUnsigned (← long (res * flag))))

/-- The nearest value within the range. -/
def clamp (v : Int) : Int := max (-2147483648) (min v 2147483647)

/-- Every beginning of the numeral with a value within the range ends where an `int` points. -/
def Fits (n : Numeral) : Prop :=
  ∀ j ≤ n.digits.length, IsInt (n.take j).value → (n.take j).text.length ≤ 2147483647

section
variable {s : List UInt8} {n : Numeral} {i j r fuel : Nat} {t : σ} {v : Int}

theorem clamp_of_isInt (h : IsInt v) : clamp v = v := by
  unfold clamp
  have := h.1
  have := h.2
  omega

/-- With the digits that follow, the value goes further out of the range. -/
theorem take_above (hj : j ≤ i) (h : 2147483647 < (n.take j).value) :
    2147483647 < (n.take i).value := by
  have hle : decimal (n.digits.take j) ≤ decimal (n.digits.take i) := decimal_take_le hj
  rw [Numeral.take_value] at h ⊢
  rcases n.factor_eq with hf | hf
  · rw [hf] at h ⊢
    omega
  · rw [hf] at h
    omega

theorem take_below (hj : j ≤ i) (h : (n.take j).value < -2147483648) :
    (n.take i).value < -2147483648 := by
  have hle : decimal (n.digits.take j) ≤ decimal (n.digits.take i) := decimal_take_le hj
  rw [Numeral.take_value] at h ⊢
  rcases n.factor_eq with hf | hf
  · rw [hf] at h
    omega
  · rw [hf] at h ⊢
    omega

theorem magnitude_le (h : IsInt (n.take j).value) : decimal (n.digits.take j) ≤ 2147483648 := by
  obtain ⟨hlow, hhigh⟩ := h
  rw [Numeral.take_value] at hlow hhigh
  rcases n.factor_eq with hf | hf
  · rw [hf] at hhigh
    omega
  · rw [hf] at hlow
    omega

theorem skipBlanks_iff (h : n.Longest s) {Q : Int → σ → Prop} (hi : i + r = n.blanks)
    (hint : i ≤ 2147483647) (hf : r < fuel) :
    Runs (skipBlanks fuel s i) t Q ↔ n.blanks ≤ 2147483647 ∧ Q n.blanks t := by
  have hle := h.length_le
  have hstart : n.start = n.blanks + n.sign.length := rfl
  induction r generalizing i fuel with
  | zero =>
    obtain rfl : i = n.blanks := hi
    obtain ⟨fuel, rfl⟩ := Nat.exists_eq_add_of_lt hf
    rw [skipBlanks, runs_loop_succ, runs_bind, runs_getChar (by omega), if_neg h.mark.1, runs_pure,
      and_iff_right hint]
  | succ r ih =>
    obtain ⟨fuel, rfl⟩ := Nat.exists_eq_add_of_lt hf
    rw [skipBlanks, runs_loop_succ, runs_bind, runs_getChar (by omega), if_pos (h.blank (by omega)),
      runs_bind, runs_int_iff, runs_pure]
    constructor
    · intro hrun
      obtain ⟨hnext, hrun⟩ := hrun
      exact (@ih (i + 1) (r + 1 + fuel) (by omega) (by have := hnext.2; omega) (by omega)).mp hrun
    · intro hrest
      have hnext : i + 1 ≤ 2147483647 := by omega
      refine ⟨⟨by omega, by omega⟩, ?_⟩
      exact (@ih (i + 1) (r + 1 + fuel) (by omega) hnext (by omega)).mpr hrest

/-- What the loop over the digits leads to. -/
def outcome (n : Numeral) : Int ⊕ Int :=
  if IsInt n.value then .inr (decimal n.digits) else .inl (clamp n.value)

theorem take_length_value : (n.take n.digits.length).value = n.value := by
  rw [Numeral.take_value, List.take_length]
  rfl

theorem outcome_above (hj : j ≤ n.digits.length) (h : 2147483647 < (n.take j).value) :
    outcome n = .inl 2147483647 := by
  have hn := take_above hj h
  rw [take_length_value] at hn
  have hclamp : clamp n.value = 2147483647 := by
    unfold clamp
    omega
  rw [outcome, if_neg fun hin => absurd hin.2 (by omega), hclamp]

theorem outcome_below (hj : j ≤ n.digits.length) (h : (n.take j).value < -2147483648) :
    outcome n = .inl (-2147483648) := by
  have hn := take_below hj h
  rw [take_length_value] at hn
  have hclamp : clamp n.value = -2147483648 := by
    unfold clamp
    omega
  rw [outcome, if_neg fun hin => absurd hin.1 (by omega), hclamp]

/-- Nothing has to fit from where the value leaves the range. -/
theorem fits_from (hint : n.start + j ≤ 2147483647) (h : ¬ IsInt (n.take (j + 1)).value) :
    ∀ l, j ≤ l → l ≤ n.digits.length → IsInt (n.take l).value → n.start + l ≤ 2147483647 := by
  intro l hjl _ hin
  rcases Nat.eq_or_lt_of_le hjl with rfl | hlt
  · exact hint
  · have hbefore : IsInt (n.take (j + 1)).value := by
      constructor
      · by_contra hlow
        have hbelow := take_below hlt (show (n.take (j + 1)).value < -2147483648 by omega)
        have := hin.1
        omega
      · by_contra hhigh
        have habove := take_above hlt (show 2147483647 < (n.take (j + 1)).value by omega)
        have := hin.2
        omega
    exact absurd hbefore h

theorem readDigits_iff (h : n.Longest s) {Q : Int ⊕ Int → σ → Prop}
    (hj : j + r = n.digits.length) (hvalue : IsInt (n.take j).value)
    (hint : n.start + j ≤ 2147483647) (hf : r < fuel) :
    Runs (readDigits fuel s n.factor (n.start + j : Nat) (decimal (n.digits.take j))) t Q ↔
      (∀ l, j ≤ l → l ≤ n.digits.length → IsInt (n.take l).value → n.start + l ≤ 2147483647) ∧
        Q (outcome n) t := by
  have hle := h.length_le
  induction r generalizing j fuel with
  | zero =>
    obtain rfl : j = n.digits.length := hj
    obtain ⟨fuel, rfl⟩ := Nat.exists_eq_add_of_lt hf
    have hfits (l : Nat) (hjl : n.digits.length ≤ l) (hl : l ≤ n.digits.length) :
        n.start + l ≤ 2147483647 := by omega
    rw [Numeral.take_value, List.take_length] at hvalue
    have hout : outcome n = .inr (decimal n.digits) := if_pos hvalue
    rw [and_iff_right fun l hjl hl _ => hfits l hjl hl, hout, readDigits, runs_loop_succ,
      List.take_length]
    dsimp only
    split_ifs with hend
    · have hafter : ¬ (48 ≤ s[n.start + n.digits.length]! ∧ s[n.start + n.digits.length]! ≤ 57) :=
        h.after
      rw [runs_bind, runs_getChar (by omega), if_neg hafter, runs_pure]
    · rw [runs_pure]
  | succ r ih =>
    obtain ⟨fuel, rfl⟩ := Nat.exists_eq_add_of_lt hf
    obtain ⟨hread, hdigit⟩ := h.digit (show j < n.digits.length by omega)
    obtain ⟨hnine, hcast⟩ := digitOf_le hdigit
    have hnext := decimal_take_succ (show j < n.digits.length by omega)
    have hlow := magnitude_le hvalue
    have hdecimal : 48 ≤ s[n.start + j]! ∧ s[n.start + j]! ≤ 57 := by
      rw [hread]
      exact hdigit
    have hres : (decimal (n.digits.take j) : Int) * 10 + (s[n.start + j]!.toNat - 48) =
        decimal (n.digits.take (j + 1)) := by
      rw [hread, hcast, hnext]
      omega
    have hsigned : (decimal (n.digits.take (j + 1)) : Int) * n.factor = (n.take (j + 1)).value :=
      Int.mul_comm _ _
    have hlong : IsLong (n.take (j + 1)).value := by
      rw [Numeral.take_value]
      unfold IsLong
      rcases n.factor_eq with hf | hf
      · rw [hf]
        omega
      · rw [hf]
        omega
    rw [readDigits, runs_loop_succ]
    dsimp only
    rw [if_pos (by omega), runs_bind, runs_getChar (by omega), if_pos hdecimal, runs_bind,
      runs_long (by unfold IsLong; omega), runs_bind, hres, runs_long (by unfold IsLong; omega),
      runs_bind, hsigned, runs_long hlong]
    split_ifs with habove
    · have hout := outcome_above (show j + 1 ≤ n.digits.length by omega) habove
      rw [runs_pure, hout, and_iff_right]
      apply fits_from hint
      intro hin
      have := hin.2
      omega
    · rw [runs_bind, runs_long hlong]
      split_ifs with hbelow
      · have hout := outcome_below (show j + 1 ≤ n.digits.length by omega) hbelow
        rw [runs_pure, hout, and_iff_right]
        apply fits_from hint
        intro hin
        have := hin.1
        omega
      · have hin : IsInt (n.take (j + 1)).value := by
          unfold IsInt
          omega
        rw [runs_bind, runs_int_iff, runs_pure]
        constructor
        · intro hrun
          obtain ⟨hindex, hrun⟩ := hrun
          have hupper := hindex.2
          obtain ⟨hfits, hq⟩ :=
            (@ih (j + 1) (r + 1 + fuel) (by omega) hin (by omega) (by omega)).mp hrun
          refine ⟨?_, hq⟩
          intro l hjl hl hinl
          rcases Nat.eq_or_lt_of_le hjl with rfl | hlt
          · exact hint
          · exact hfits l hlt hl hinl
        · intro hrest
          obtain ⟨hfits, hq⟩ := hrest
          have hupper := hfits (j + 1) (by omega) (by omega) hin
          refine ⟨⟨by omega, by omega⟩, ?_⟩
          apply (@ih (j + 1) (r + 1 + fuel) (by omega) hin (by omega) (by omega)).mpr
          exact ⟨fun l hjl => hfits l (by omega), hq⟩

theorem fits_iff : Fits n ↔ n.start ≤ 2147483647 ∧
    ∀ l, 0 ≤ l → l ≤ n.digits.length → IsInt (n.take l).value → n.start + l ≤ 2147483647 := by
  constructor
  · intro h
    have hfits (l : Nat) (hl : l ≤ n.digits.length) (hin : IsInt (n.take l).value) :
        n.start + l ≤ 2147483647 := by
      rw [← Numeral.length_take_text hl]
      exact h l hl hin
    exact ⟨hfits 0 (Nat.zero_le _) (by simp [IsInt]), fun l _ => hfits l⟩
  · intro h l hl hin
    rw [Numeral.length_take_text hl]
    exact h.2 l (Nat.zero_le l) hl hin

/-- What a result of the loop over the digits becomes. -/
theorem runs_outcome {Q : Int → σ → Prop} :
    Runs (match outcome n with
      | .inl limit => pure limit
      | .inr res => do pure (toInt (toUnsigned (← long (res * n.factor))))) t Q ↔
      Q (clamp n.value) t := by
  by_cases hin : IsInt n.value
  · have hout : outcome n = .inr (decimal n.digits) := if_pos hin
    have hsigned : (decimal n.digits : Int) * n.factor = n.value := Int.mul_comm _ _
    have hconvert : toInt (toUnsigned n.value) = n.value := by
      have := hin.1
      have := hin.2
      unfold toInt toUnsigned
      split_ifs <;> omega
    rw [hout]
    dsimp only
    rw [hsigned, runs_bind, runs_long, runs_pure, hconvert, clamp_of_isInt hin]
    have := hin.1
    have := hin.2
    unfold IsLong
    omega
  · have hout : outcome n = .inl (clamp n.value) := if_neg hin
    rw [hout]
    exact runs_pure

/-- The whole function, exactly. -/
theorem runs_strToInt_iff (h : n.Longest s) (hf : s.length < fuel) {Q : Int → σ → Prop} :
    Runs (strToInt fuel s) t Q ↔ Fits n ∧ Q (clamp n.value) t := by
  have hle := h.length_le
  have hstart : n.start = n.blanks + n.sign.length := rfl
  have hflag : (if s[n.blanks]! = 45 then (-1 : Int) else 1) = n.factor := by
    unfold Numeral.factor
    simp only [h.mark.2.1]
  rw [strToInt, fits_iff]
  split_ifs with hempty
  · have hdigits : n.digits = [] := List.length_eq_zero_iff.mp (by omega)
    have hvalue : n.value = 0 := by simp [Numeral.value, hdigits]
    rw [runs_pure, hvalue, hdigits]
    refine ⟨fun hq => ⟨⟨by omega, fun l _ hl _ => ?_⟩, hq⟩, fun hq => hq.2⟩
    rw [List.length_nil] at hl
    omega
  · have hdigits (Q : Int → σ → Prop) (hint : n.start ≤ 2147483647) :
        Runs (do
          match ← readDigits fuel s n.factor n.start 0 with
          | .inl limit => pure limit
          | .inr res => pure (toInt (toUnsigned (← long (res * n.factor))))) t Q ↔
        (∀ l, 0 ≤ l → l ≤ n.digits.length → IsInt (n.take l).value → n.start + l ≤ 2147483647) ∧
          Q (clamp n.value) t := by
      rw [runs_bind]
      have hread := readDigits_iff (t := t) (r := n.digits.length) h (Nat.zero_add _)
        (by simp [IsInt]) hint (show n.digits.length < fuel by omega)
        (Q := fun out u => Runs (match out with
          | .inl limit => pure limit
          | .inr res => do pure (toInt (toUnsigned (← long (res * n.factor))))) u Q)
      rw [runs_outcome] at hread
      exact hread
    rw [runs_bind]
    refine (skipBlanks_iff (i := 0) h (Nat.zero_add _) (by omega) (by omega)).trans ?_
    rw [runs_bind, runs_getChar (by omega), runs_bind, runs_getChar (by omega), hflag]
    rcases n.isSign with hsign | hsign
    · have hnone : ¬ (s[n.blanks]! = 43 ∨ s[n.blanks]! = 45) := by
        rw [h.mark.2.1, h.mark.2.2, hsign]
        simp
      have hsame : n.start = n.blanks := by rw [hstart, hsign]; rfl
      rw [if_neg hnone, runs_bind, runs_pure, ← hsame, and_assoc]
      exact and_congr_right fun hint => hdigits Q hint
    · have hsome : s[n.blanks]! = 43 ∨ s[n.blanks]! = 45 := by
        rw [h.mark.2.1, h.mark.2.2]
        exact hsign
      have hnext : (n.blanks : Int) + 1 = (n.start : Int) := by
        rcases hsign with hsign | hsign <;> simp [hstart, hsign]
      have hint : n.blanks ≤ 2147483647 ∧ IsInt n.start ↔ n.start ≤ 2147483647 := by
        unfold IsInt
        omega
      rw [if_pos hsome, runs_bind, hnext, runs_int_iff, ← and_assoc, hint, and_assoc]
      exact and_congr_right fun hint => hdigits Q hint

/-- The result is the value of the longest numeral at the beginning, clamped to the range. -/
theorem strToInt_clamps (s : List UInt8) (hf : s.length < fuel) :
    (∃ n : Numeral, n.Longest s) ∧ ∀ n : Numeral, n.Longest s → Fits n →
      Runs (strToInt fuel s) t fun r _ => r = clamp n.value :=
  ⟨Numeral.exists_longest s, fun _ h hfits => (runs_strToInt_iff h hf).mpr ⟨hfits, rfl⟩⟩

/-- `" -42"`. -/
def sample : Numeral where
  blanks := 1
  sign := [45]
  digits := [52, 50]
  isSign := .inr (.inr rfl)
  isDecimal := isDecimal_of_all rfl

theorem strToInt_clamps_sample :
    Runs (strToInt 5 [32, 45, 52, 50]) () fun r _ => r = clamp sample.value := by
  refine (strToInt_clamps [32, 45, 52, 50] (by decide)).2 sample sample.longest_text ?_
  intro j hj _
  rw [Numeral.length_take_text hj]
  have hlength : sample.start + sample.digits.length = 4 := rfl
  omega

/-- As many blanks as no `int` counts. -/
def manyBlanks : Numeral where
  blanks := 2147483648
  sign := []
  digits := []
  isSign := isSign_nil
  isDecimal := nofun

theorem strToInt_long : manyBlanks.Longest manyBlanks.text ∧
    ¬ Runs (strToInt 2147483649 manyBlanks.text) () fun r _ => r = clamp manyBlanks.value := by
  refine ⟨manyBlanks.longest_text, ?_⟩
  have hlength : manyBlanks.text.length = 2147483648 := Numeral.length_text
  rw [runs_strToInt_iff manyBlanks.longest_text (by omega), fits_iff]
  intro h
  exact absurd h.1.1 (by decide)

end

end LanguageTest.StrToInt
