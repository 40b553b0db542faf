import Mathlib.Data.Nat.Digits.Defs

namespace LanguageTest
open Nat

theorem length_pos_or {xs ys : List Nat} (h : ¬ (xs = [] ∧ ys = [])) :
    0 < xs.length ∨ 0 < ys.length :=
  (not_and_or.mp h).imp List.length_pos_iff.mpr List.length_pos_iff.mpr

/-- The sum of two numbers and a carry, from the least significant digit on. A missing digit
counts as zero, and a carry out of the last place is a digit of its own. -/
def ripple (b c : Nat) (xs ys : List Nat) : List Nat :=
  if xs = [] ∧ ys = [] then if c = 0 then [] else [c]
  else (xs.headD 0 + ys.headD 0 + c) % b ::
    ripple b ((xs.headD 0 + ys.headD 0 + c) / b) xs.tail ys.tail
termination_by xs.length + ys.length
decreasing_by
  rename_i h
  have hpos := length_pos_or h
  rw [List.length_tail, List.length_tail]
  omega

/-- The most significant digit is zero only when it is the only one. -/
def Canonical (ds : List Nat) : Prop := ∀ rest, ds = rest ++ [0] → rest = []

section
variable {b c k m s v d : Nat} {xs ys ds : List Nat}

theorem ripple_nil : ripple b c [] [] = if c = 0 then [] else [c] := by
  rw [ripple, if_pos ⟨rfl, rfl⟩]

theorem ripple_step (h : ¬ (xs = [] ∧ ys = [])) :
    ripple b c xs ys = (xs.headD 0 + ys.headD 0 + c) % b ::
      ripple b ((xs.headD 0 + ys.headD 0 + c) / b) xs.tail ys.tail := by
  rw [ripple, if_neg h]

theorem ripple_comm : ripple b c xs ys = ripple b c ys xs := by
  fun_induction ripple b c xs ys with
  | case1 xs ys h => rw [h.1, h.2, ripple_nil, if_pos rfl]
  | case2 c xs ys h hc => rw [h.1, h.2, ripple_nil, if_neg hc]
  | case3 c xs ys h ih => rw [ripple_step fun hnil => h hnil.symm, ih, Nat.add_comm (ys.headD 0)]

theorem ofDigits_eq_head_tail (b : Nat) (xs : List Nat) :
    ofDigits b xs = xs.headD 0 + b * ofDigits b xs.tail := by
  cases xs with
  | nil => simp
  | cons x xs => simp [ofDigits_cons]

/-- No value is lost. -/
theorem ofDigits_ripple :
    ofDigits b (ripple b c xs ys) = ofDigits b xs + ofDigits b ys + c := by
  fun_induction ripple b c xs ys with
  | case1 xs ys h => simp [h.1, h.2]
  | case2 c xs ys h hc => simp [h.1, h.2]
  | case3 c xs ys h ih =>
    have hdigit := Nat.mod_add_div (xs.headD 0 + ys.headD 0 + c) b
    rw [ofDigits_cons, ih, ofDigits_eq_head_tail b xs, ofDigits_eq_head_tail b ys, Nat.mul_add,
      Nat.mul_add]
    omega

theorem headD_lt (hb : 0 < b) (hxs : ∀ x ∈ xs, x < b) : xs.headD 0 < b := by
  cases xs with
  | nil => exact hb
  | cons x xs => exact hxs x List.mem_cons_self

/-- The carry is at most one. -/
theorem carry_le (hx : m < b) (hy : k < b) (hc : c ≤ 1) : (m + k + c) / b ≤ 1 := by
  have hlt : (m + k + c) / b < 2 := (Nat.div_lt_iff_lt_mul (by omega)).mpr (by omega)
  omega

theorem ripple_lt (hb : 1 < b) (hxs : ∀ x ∈ xs, x < b) (hys : ∀ y ∈ ys, y < b) (hc : c ≤ 1) :
    ∀ d ∈ ripple b c xs ys, d < b := by
  fun_induction ripple b c xs ys with
  | case1 => simp
  | case2 c xs ys h hc' => simpa using by omega
  | case3 c xs ys h ih =>
    refine List.forall_mem_cons.mpr ⟨Nat.mod_lt _ (by omega), ih ?_ ?_ ?_⟩
    · exact fun x hx => hxs x (List.mem_of_mem_tail hx)
    · exact fun y hy => hys y (List.mem_of_mem_tail hy)
    · exact carry_le (headD_lt (by omega) hxs) (headD_lt (by omega) hys) hc

/-- The sum in this place and those above it reaches the next power exactly when the carry and
those above it do. -/
theorem mul_le_add_mul (hb : 0 < b) : b * m ≤ s + b * v ↔ m ≤ s / b + v := by
  rw [← Nat.add_mul_div_left _ _ hb, Nat.le_div_iff_mul_le hb, Nat.mul_comm]

/-- There is one more digit exactly when the sum does not fit in the places of the summands. -/
theorem length_ripple (hb : 0 < b) :
    (ripple b c xs ys).length = max xs.length ys.length +
      if b ^ max xs.length ys.length ≤ ofDigits b xs + ofDigits b ys + c then 1 else 0 := by
  fun_induction ripple b c xs ys with
  | case1 xs ys h => simp [h.1, h.2]
  | case2 c xs ys h hc =>
    have hpos : 1 ≤ c := Nat.pos_of_ne_zero hc
    simp [h.1, h.2, hpos]
  | case3 c xs ys h ih =>
    have hlength : max xs.length ys.length = max xs.tail.length ys.tail.length + 1 := by
      have hpos := length_pos_or h
      rw [List.length_tail, List.length_tail]
      omega
    have hsum : ofDigits b xs + ofDigits b ys + c = xs.headD 0 + ys.headD 0 + c +
        b * (ofDigits b xs.tail + ofDigits b ys.tail) := by
      rw [ofDigits_eq_head_tail b xs, ofDigits_eq_head_tail b ys, Nat.mul_add]
      omega
    have hfits : b ^ (max xs.tail.length ys.tail.length + 1) ≤ ofDigits b xs + ofDigits b ys + c ↔
        b ^ max xs.tail.length ys.tail.length ≤
          ofDigits b xs.tail + ofDigits b ys.tail + (xs.headD 0 + ys.headD 0 + c) / b := by
      rw [hsum, Nat.pow_succ, Nat.mul_comm, mul_le_add_mul hb, Nat.add_comm]
    rw [List.length_cons, ih, hlength]
    simp only [hfits]
    omega

/-- Only zero has a zero as its most significant digit. -/
theorem Canonical.pow_le (h : Canonical ds) (hlong : 1 < ds.length) :
    b ^ (ds.length - 1) ≤ ofDigits b ds := by
  obtain ⟨rest, d, rfl⟩ : ∃ rest d, ds = rest ++ [d] := by
    have hne : ds ≠ [] := List.ne_nil_of_length_pos (by omega)
    exact ⟨_, _, (List.dropLast_concat_getLast hne).symm⟩
  rw [List.length_append, List.length_singleton] at *
  have hd : d ≠ 0 := by
    rintro rfl
    rw [h rest rfl] at hlong
    simp at hlong
  rw [Nat.add_sub_cancel, ofDigits_append, ofDigits_singleton]
  exact (Nat.le_mul_of_pos_right _ (Nat.pos_of_ne_zero hd)).trans (Nat.le_add_left _ _)

/-- A sum of two such numbers is one. -/
theorem canonical_ripple (hb : 1 < b) (hxs : ∀ x ∈ xs, x < b) (hys : ∀ y ∈ ys, y < b)
    (hcx : Canonical xs) (hcy : Canonical ys) :
    Canonical (ripple b 0 xs ys) := by
  intro rest hrest
  by_contra hlong
  have hlength : (ripple b 0 xs ys).length = max xs.length ys.length +
      if b ^ max xs.length ys.length ≤ ofDigits b xs + ofDigits b ys + 0 then 1 else 0 :=
    length_ripple (by omega)
  have hvalue : ofDigits b (ripple b 0 xs ys) = ofDigits b xs + ofDigits b ys + 0 :=
    ofDigits_ripple
  have hsmall : ofDigits b rest < b ^ rest.length := by
    refine ofDigits_lt_base_pow_length hb fun d hd => ?_
    exact ripple_lt hb hxs hys (Nat.zero_le 1) d (hrest ▸ List.mem_append_left _ hd)
  have hpos := List.length_pos_iff.mpr hlong
  rw [hrest, List.length_append, List.length_singleton] at hlength
  rw [hrest, ofDigits_append_zero, Nat.add_zero] at hvalue
  rw [Nat.add_zero, ← hvalue] at hlength
  split_ifs at hlength with hfits
  · rw [Nat.add_right_cancel hlength] at hsmall
    omega
  · have hle : rest.length ≤ max xs.length ys.length - 1 := by omega
    rcases Nat.le_total xs.length ys.length with hxy | hxy
    · have hy := hcy.pow_le (b := b) (by omega)
      rw [show ys.length - 1 = rest.length by omega] at hy
      omega
    · have hx := hcx.pow_le (b := b) (by omega)
      rw [show xs.length - 1 = rest.length by omega] at hx
      omega

end

end LanguageTest
