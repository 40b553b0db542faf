import LanguageTest.String.Kmp

namespace LanguageTest.StringRowMatch
open Kmp

/-- The inner loop for the place `i`, with whether it returns. -/
def rowMatch (fuel : Nat) (s p : List UInt8) (pLen i : Int) : Program State Bool :=
  loop (fun j => do
    if j < pLen then
      if (← charAt s (← int (i + j))) ≠ (← charAt p j) then pure (.done false)
      else if j = pLen - 1 then pure (.done true)
      else pure (.again (← int (j + 1)))
    else pure (.done false)) fuel 0

def violentMatch (fuel : Nat) (s p : List UInt8) : Program State Int := do
  let sLen := toInt s.length
  let pLen := toInt p.length
  loop (fun i => do
    if i < (← int (sLen - pLen)) then
      if ← rowMatch fuel s p pLen i then pure (.done i)
      else pure (.again (← int (i + 1)))
    else pure (.done (-1))) fuel 0

section
variable {s p : List UInt8} {u : State} {fuel i m n : Nat} {r : Int}

theorem rowMatch_spec (hm : 0 < m) (hmp : m ≤ p.length) (him : i + m < n) (hn : n < 2147483648)
    (hns : n ≤ s.length) (hf : m < fuel) :
    Runs (rowMatch fuel s p m i) u fun b v => v = u ∧ (b = true ↔ OccursAt (p.take m) s i) := by
  have hlength : (p.take m).length = m := List.length_take_of_le hmp
  rw [occursAt_iff (by omega), hlength]
  refine runs_loop (k := m) (fun r (q : Int) v => v = u ∧ ∃ j : Nat, q = j ∧ j + r = m ∧ j < m ∧
    ∀ k < j, s[i + k]! = p[k]!) ?_ ⟨rfl, 0, rfl, Nat.zero_add m, hm,
      fun k hk => absurd hk (Nat.not_lt_zero k)⟩ hf
  rintro r _ v ⟨rfl, j, rfl, hr, hj, hbefore⟩
  have hint : IsInt ((i : Int) + j) := ⟨by omega, by omega⟩
  have hcast : (i : Int) + j = (i + j : Nat) := rfl
  rw [if_pos (by omega), runs_bind, runs_int hint, hcast, runs_bind, runs_charAt (by omega),
    runs_bind, runs_charAt (by omega)]
  split_ifs with hne hlast
  · rw [runs_pure]
    refine ⟨rfl, iff_of_false Bool.false_ne_true fun hall => hne ?_⟩
    rw [hall j hj, getElem!_take hj]
  · rw [runs_pure]
    refine ⟨rfl, iff_of_true rfl fun k hk => ?_⟩
    rw [getElem!_take hk]
    rcases Nat.lt_or_ge k j with hlt | hge
    · exact hbefore k hlt
    · obtain rfl : k = j := by omega
      exact not_not.mp hne
  · have hnext : IsInt ((j : Int) + 1) := ⟨by omega, by omega⟩
    rw [runs_bind, runs_int hnext, runs_pure]
    refine ⟨r - 1, by omega, rfl, j + 1, rfl, by omega, by omega, fun k hk => ?_⟩
    rcases Nat.lt_succ_iff_lt_or_eq.mp hk with hlt | rfl
    · exact hbefore k hlt
    · exact not_not.mp hne

/-- The result is a place where the first `m` characters of `p` stand, before the last place where
they could, or -1. -/
def IsRowMatch (s p : List UInt8) (n m : Nat) (r : Int) : Prop :=
  (∃ a : Nat, r = a ∧ a + m < n ∧ FirstOccurrence (p.take m) s a) ∨
    (r = -1 ∧ ∀ a, a + m < n → ¬ OccursAt (p.take m) s a)

theorem violentMatch_spec (hn : toInt s.length = n) (hm : toInt p.length = m) (hpos : 0 < m)
    (hf : n < fuel) (hf' : m < fuel) :
    Runs (violentMatch fuel s p) u fun r _ => IsRowMatch s p n m r := by
  have hns := toInt_le (n := s.length)
  have hmp := toInt_le (n := p.length)
  have hnint := (isInt_toInt (n := s.length)).2
  have hmint := (isInt_toInt (n := p.length)).2
  have hbound : IsInt ((n : Int) - m) := ⟨by omega, by omega⟩
  rw [violentMatch, hn, hm]
  refine runs_loop (k := n) (fun r (q : Int) v => v = u ∧ ∃ i : Nat, q = i ∧ i + r = n ∧
    ∀ a < i, ¬ OccursAt (p.take m) s a) ?_
    ⟨rfl, 0, rfl, Nat.zero_add n, fun a ha => absurd ha (Nat.not_lt_zero a)⟩ hf
  rintro r _ v ⟨rfl, i, rfl, hr, hbefore⟩
  rw [runs_bind, runs_int hbound]
  by_cases hlt : i + m < n
  · rw [if_pos (by omega), runs_bind]
    refine (rowMatch_spec hpos (by omega) hlt (by omega) (by omega) hf').mono ?_
    rintro b _ ⟨rfl, hb⟩
    cases b with
    | true =>
      rw [if_pos rfl, runs_pure]
      exact Or.inl ⟨i, rfl, hlt, hb.mp rfl, hbefore⟩
    | false =>
      have hint : IsInt ((i : Int) + 1) := ⟨by omega, by omega⟩
      rw [if_neg Bool.false_ne_true, runs_bind, runs_int hint, runs_pure]
      refine ⟨r - 1, by omega, rfl, i + 1, rfl, by omega, fun a ha => ?_⟩
      rcases Nat.lt_succ_iff_lt_or_eq.mp ha with hai | rfl
      · exact hbefore a hai
      · exact fun hoccurs => Bool.false_ne_true (hb.mpr hoccurs)
  · rw [if_neg (by omega), runs_pure]
    exact Or.inr ⟨rfl, fun a ha => hbefore a (by omega)⟩

/-- For a text whose length is negative as an `int` there is no place to try. -/
theorem violentMatch_negative (hn : toInt s.length < 0) (hpos : 0 < toInt p.length) :
    Ensures (violentMatch fuel s p) u fun r _ => r = -1 := by
  refine ensures_loop (fun (q : Int) _ => q = 0) ?_ rfl
  rintro _ v rfl
  refine Ensures.bind (ensures_int.mono ?_)
  rintro _ w ⟨rfl, -, rfl⟩
  rw [if_neg (by omega)]
  exact ensures_pure rfl

/-- Both matchers return the first place of `p` in `s`, or -1. -/
def Agree (fuel : Nat) (u : State) (s p : List UInt8) : Prop :=
  ∃ r, Runs (violentMatch fuel s p) u (fun a _ => a = r) ∧
    Runs (kmp fuel s p) u (fun a _ => a = r) ∧ IsFirst p s r

/-- The pattern stands somewhere before the end of the text, or nowhere, and then its first
characters that have an `int` for their number do not stand before the end either. -/
def Reached (s p : List UInt8) : Prop :=
  0 < toInt p.length ∧
    ((∃ a : Nat, (a : Int) + p.length < toInt s.length ∧ OccursAt p s a) ∨
      s.length < 2147483648 ∧ (∀ a, ¬ OccursAt p s a) ∧
        ∀ a : Nat, (a : Int) + toInt p.length < s.length →
          ¬ OccursAt (p.take (toInt p.length).toNat) s a)

/-- For lengths of type `int`, only an occurrence at the very end is out of reach. -/
theorem reached_iff (hne : p ≠ []) (hs : s.length < 2147483648) (hp : p.length < 2147483648) :
    Reached s p ↔
      (∀ a, ¬ OccursAt p s a) ∨ ∃ a, a + p.length < s.length ∧ OccursAt p s a := by
  have hpos : 0 < p.length := List.length_pos_iff.mpr hne
  rw [Reached, toInt_of_lt hs, toInt_of_lt hp, Int.toNat_natCast, List.take_length]
  constructor
  · rintro ⟨-, ⟨a, ha, hoccurs⟩ | ⟨-, hnone, -⟩⟩
    · exact Or.inr ⟨a, by omega, hoccurs⟩
    · exact Or.inl hnone
  · rintro (hnone | ⟨a, ha, hoccurs⟩)
    · exact ⟨by omega, Or.inr ⟨hs, hnone, fun a _ => hnone a⟩⟩
    · exact ⟨by omega, Or.inl ⟨a, by omega, hoccurs⟩⟩

theorem Agree.reached (hs : 0 ∉ s) (hp : 0 ∉ p) (hf : s.length < fuel) (hf' : p.length < fuel)
    (h : Agree fuel u s p) : Reached s p := by
  obtain ⟨r, hv, hk, hr⟩ := h
  obtain ⟨_, _, -, rfl, -, hpos, hnonneg, hneg⟩ := (ensures_firstMatch hs hp hf').runs hk
  have hns := toInt_le (n := s.length)
  have hmp := toInt_le (n := p.length)
  obtain ⟨m, hm⟩ := Int.eq_ofNat_of_zero_le (Int.le_of_lt hpos)
  refine ⟨hpos, ?_⟩
  rcases hr with ⟨f, rfl, -⟩ | ⟨rfl, hnone⟩
  · -- the index of `kmp` passed the whole pattern
    have hmlen : toInt p.length = p.length := toInt_of_lt (hnonneg (Int.natCast_nonneg f))
    rcases Int.lt_or_le (toInt s.length) 0 with hlt | hge
    · obtain ⟨_, _, -, rfl, hminus⟩ := (violentMatch_negative hlt hpos).runs hv
      omega
    · obtain ⟨n, hn⟩ := Int.eq_ofNat_of_zero_le hge
      have hspec := violentMatch_spec (u := u) hn hmlen (by omega) (by omega) hf'
      obtain ⟨_, _, -, rfl, ⟨a, hfa, han, hfirst⟩ | ⟨hminus, -⟩⟩ := hv.and hspec
      · rw [List.take_length] at hfirst
        exact Or.inl ⟨a, by omega, hfirst.1⟩
      · omega
  · have hshort := hneg (by decide)
    have hspec := violentMatch_spec (u := u) (toInt_of_lt hshort) hm (by omega) hf (by omega)
    obtain ⟨_, _, -, rfl, ⟨a, hminus, -, -⟩ | ⟨-, hall⟩⟩ := hv.and hspec
    · omega
    · refine Or.inr ⟨hshort, hnone, fun a ha => ?_⟩
      rw [hm, Int.toNat_natCast]
      exact hall a (by omega)

/-- The pattern stands before the end of the text. -/
theorem agree_of_occurs {a : Nat} (hs : 0 ∉ s) (hp : 0 ∉ p) (hf : 2 * s.length < fuel)
    (hf' : p.length < fuel) (hpos : 0 < toInt p.length) (ha : (a : Int) + p.length < toInt s.length)
    (hoccurs : OccursAt p s a) : Agree fuel u s p := by
  have hns := toInt_le (n := s.length)
  have hnint := (isInt_toInt (n := s.length)).2
  have hm : toInt p.length = p.length := toInt_of_lt (by omega)
  obtain ⟨n, hn⟩ := Int.eq_ofNat_of_zero_le (show 0 ≤ toInt s.length by omega)
  obtain ⟨f, hfa, hfirst⟩ := hoccurs.exists_first
  refine ⟨f, ?_, ?_, Or.inl ⟨f, rfl, hfirst⟩⟩
  · refine (violentMatch_spec hn hm (by omega) (by omega) hf').mono ?_
    rintro _ _ (⟨b, rfl, hb, hbfirst⟩ | ⟨rfl, hall⟩)
    · rw [List.take_length] at hbfirst
      rw [hbfirst.unique hfirst]
    · rw [List.take_length] at hall
      exact absurd hfirst.1 (hall f (by omega))
  · -- the search ends with the first place, before its index leaves the `int` range
    have hsafe (i j : Nat) (h : Matching p s i j) (hi : i < s.length) (hj : j < p.length) :
        Safe s p p.length i j := by
      have hle : i ≤ f + j := Nat.not_lt.mp fun hlt => h.none f hlt hfirst.1
      exact ⟨fun _ => by omega, fun _ => ⟨hj, fun _ => by omega⟩⟩
    refine (firstMatch_spec hs hp hm (by omega) hsafe hf hf').mono fun r _ hr => ?_
    exact hr.unique (Or.inl ⟨f, rfl, hfirst⟩)

/-- The pattern does not stand in the text, and its first characters not before the end. -/
theorem agree_of_absent (hs : 0 ∉ s) (hp : 0 ∉ p) (hf : 2 * s.length < fuel)
    (hf' : p.length < fuel) (hm : toInt p.length = m) (hpos : 0 < m)
    (hshort : s.length < 2147483648) (hnone : ∀ a, ¬ OccursAt p s a)
    (habsent : ∀ a, a + m < s.length → ¬ OccursAt (p.take m) s a) : Agree fuel u s p := by
  have hmp := toInt_le (n := p.length)
  have hn : toInt s.length = s.length := toInt_of_lt hshort
  refine ⟨-1, ?_, ?_, Or.inr ⟨rfl, hnone⟩⟩
  · refine (violentMatch_spec hn hm hpos (by omega) (by omega)).mono ?_
    rintro _ _ (⟨b, rfl, hb, hbfirst⟩ | ⟨rfl, -⟩)
    · exact absurd hbfirst.1 (habsent b hb)
    · rfl
  · have hsafe (i j : Nat) (h : Matching p s i j) (hi : i < s.length) (hj : j < p.length) :
        Safe s p m i j := by
      have hji := h.le
      refine ⟨fun _ => by omega, fun _ => ⟨Nat.not_le.mp fun hmj => ?_, fun _ => by omega⟩⟩
      exact habsent (i - j) (by omega) ((h.ends.occursAt (by omega)).take hmj)
    refine (firstMatch_spec hs hp hm hpos hsafe hf hf').mono fun r _ hr => ?_
    exact hr.unique (Or.inr ⟨rfl, hnone⟩)

theorem Reached.agree (hs : 0 ∉ s) (hp : 0 ∉ p) (hf : 2 * s.length < fuel)
    (hf' : p.length < fuel) (h : Reached s p) : Agree fuel u s p := by
  obtain ⟨hpos, ⟨a, ha, hoccurs⟩ | ⟨hshort, hnone, habsent⟩⟩ := h
  · exact agree_of_occurs hs hp hf hf' hpos ha hoccurs
  · obtain ⟨m, hm⟩ := Int.eq_ofNat_of_zero_le (Int.le_of_lt hpos)
    refine agree_of_absent hs hp hf hf' hm (by omega) hshort hnone fun a ha => ?_
    have hnot := habsent a (by omega)
    rwa [hm, Int.toNat_natCast] at hnot

end

/-- Exactly when `violentMatch` and `kmp` both return the first place of the pattern. -/
theorem violentMatch_iff (u : State) (s p : List UInt8) (hs : 0 ∉ s) (hp : 0 ∉ p) (fuel : Nat)
    (hf : 2 * s.length < fuel) (hf' : p.length < fuel) :
    Agree fuel u s p ↔ Reached s p :=
  ⟨Agree.reached hs hp (by omega) hf', Reached.agree hs hp hf hf'⟩

/-- `"ABCAB"` and `"AB"`. -/
theorem violentMatch_iff_sample :
    Agree 11 ⟨(), [], []⟩ [65, 66, 67, 65, 66] [65, 66] ↔ Reached [65, 66, 67, 65, 66] [65, 66] :=
  violentMatch_iff ⟨(), [], []⟩ [65, 66, 67, 65, 66] [65, 66] (by decide) (by decide) 11 (by decide)
    (by decide)

/-- The text is the pattern, and `i < sLen - pLen` leaves no place for it. -/
theorem violentMatch_end :
    Runs (violentMatch 3 [65] [65]) ⟨(), [], []⟩ (fun r _ => r = -1) ∧
      Runs (kmp 3 [65] [65]) ⟨(), [], []⟩ (fun r _ => r = 0) ∧ IsFirst [65] [65] 0 :=
  ⟨⟨-1, _, rfl, rfl⟩, ⟨0, _, rfl, rfl⟩,
    Or.inl ⟨0, rfl, List.prefix_refl _, fun q hq => absurd hq (Nat.not_lt_zero q)⟩⟩

end LanguageTest.StringRowMatch
