import Mathlib.Data.Nat.Nth

namespace LanguageTest
open Nat

variable {p : Nat → Prop} {factors : List Nat} {a c i k m v w : Nat}

/-- The numbers with the property are 1 and the multiples of such numbers by these factors. -/
structure Generated (factors : List Nat) (p : Nat → Prop) : Prop where
  one : p 1
  pos : ∀ m, p m → 0 < m
  factor_gt : ∀ a ∈ factors, 1 < a
  mul : ∀ a ∈ factors, ∀ m, p m → p (a * m)
  split : ∀ m, p m → m ≠ 1 → ∃ a ∈ factors, ∃ k, p k ∧ m = a * k
  factors_ne : factors ≠ []

/-- The first index at which the multiple by `a` exceeds `v`. -/
def Cursor (p : Nat → Prop) (a v c : Nat) : Prop := ∀ k, k < c ↔ a * nth p k ≤ v

theorem Cursor.lt (h : Cursor p a v c) : v < a * nth p c :=
  Nat.not_le.mp fun hle => Nat.lt_irrefl c ((h c).mpr hle)

namespace Generated

theorem exists_gt (h : Generated factors p) (n : Nat) : ∃ m, p m ∧ n < m := by
  obtain ⟨a, ha⟩ := List.exists_mem_of_ne_nil factors h.factors_ne
  induction n with
  | zero => exact ⟨1, h.one, Nat.one_pos⟩
  | succ n ih =>
    obtain ⟨m, hm, hlt⟩ := ih
    have htwice : 2 * m ≤ a * m := Nat.mul_le_mul_right m (h.factor_gt a ha)
    exact ⟨a * m, h.mul a ha m hm, by omega⟩

theorem infinite (h : Generated factors p) : (Set.ofPred p).Infinite :=
  Set.infinite_of_forall_exists_gt h.exists_gt

theorem nth_mem (h : Generated factors p) (k : Nat) : p (nth p k) :=
  nth_mem_of_infinite h.infinite k

theorem nth_pos (h : Generated factors p) (k : Nat) : 0 < nth p k := h.pos _ (h.nth_mem k)

theorem nth_lt (h : Generated factors p) : nth p i < nth p k ↔ i < k := nth_lt_nth h.infinite

theorem nth_le (h : Generated factors p) : nth p i ≤ nth p k ↔ i ≤ k := nth_le_nth h.infinite

theorem exists_nth (h : Generated factors p) (hm : p m) : ∃ k, nth p k = m := by
  have hrange : m ∈ Set.range (nth p) := by
    rw [range_nth_of_infinite h.infinite]
    exact hm
  exact hrange

theorem nth_zero (h : Generated factors p) : nth p 0 = 1 := by
  obtain ⟨k, hk⟩ := h.exists_nth h.one
  have hle := h.nth_le.mpr (Nat.zero_le k)
  have hpos := h.nth_pos 0
  omega

/-- Nothing lies between a number and the next one. -/
theorem nth_succ_le (h : Generated factors p) (hm : p m) (hlt : nth p i < m) :
    nth p (i + 1) ≤ m := by
  obtain ⟨k, rfl⟩ := h.exists_nth hm
  exact h.nth_le.mpr (h.nth_lt.mp hlt)

theorem cursor_start (h : Generated factors p) (ha : a ∈ factors) :
    Cursor p a (nth p 0) 0 := by
  intro k
  have hgt := h.factor_gt a ha
  have hprod := Nat.mul_le_mul hgt (h.nth_pos k)
  rw [h.nth_zero]
  omega

theorem cursor_le (h : Generated factors p) (ha : a ∈ factors) (hc : Cursor p a (nth p i) c) :
    c ≤ i := by
  by_contra hlt
  have hle := (hc i).mp (Nat.not_le.mp hlt)
  have hpos := h.nth_pos i
  have hprod := Nat.mul_le_mul_right (nth p i) (h.factor_gt a ha)
  omega

/-- The multiple at a cursor is not passed over. -/
theorem nth_succ_le_cursor (h : Generated factors p) (ha : a ∈ factors)
    (hc : Cursor p a (nth p i) c) : nth p (i + 1) ≤ a * nth p c :=
  h.nth_succ_le (h.mul a ha _ (h.nth_mem c)) hc.lt

/-- The next number is the multiple at one of the cursors. -/
theorem exists_nth_succ_eq (h : Generated factors p) {cursor : Nat → Nat}
    (hc : ∀ a ∈ factors, Cursor p a (nth p i) (cursor a)) :
    ∃ a ∈ factors, nth p (i + 1) = a * nth p (cursor a) := by
  have hgt : nth p i < nth p (i + 1) := h.nth_lt.mpr (Nat.lt_succ_self i)
  have hpos := h.nth_pos i
  obtain ⟨a, ha, m, hm, heq⟩ := h.split _ (h.nth_mem (i + 1)) (by omega)
  obtain ⟨k, rfl⟩ := h.exists_nth hm
  -- the factor `k` is at the cursor or behind it
  have hk : cursor a ≤ k := by
    by_contra hlt
    have hle := (hc a ha k).mp (Nat.not_le.mp hlt)
    omega
  have hle : a * nth p (cursor a) ≤ nth p (i + 1) := by
    rw [heq]
    exact Nat.mul_le_mul_left a (h.nth_le.mpr hk)
  exact ⟨a, ha, Nat.le_antisymm (h.nth_succ_le_cursor ha (hc a ha)) hle⟩

/-- A cursor moves on exactly when its multiple was reached. -/
theorem cursor_next (h : Generated factors p) (ha : a ∈ factors) (hc : Cursor p a v c)
    (hv : v ≤ w) (hw : w ≤ a * nth p c) :
    Cursor p a w (if w = a * nth p c then c + 1 else c) := by
  intro k
  have hgt := h.factor_gt a ha
  have hmul : a * nth p k ≤ a * nth p c ↔ k ≤ c := by
    rw [Nat.mul_le_mul_left_iff (by omega), h.nth_le]
  split_ifs with heq
  · rw [heq, hmul, Nat.lt_succ_iff]
  · constructor
    · exact fun hk => ((hc k).mp hk).trans hv
    · intro hle
      refine Nat.lt_of_le_of_ne (hmul.mp (hle.trans hw)) fun hkc => heq ?_
      exact Nat.le_antisymm hw (hkc ▸ hle)

end Generated

end LanguageTest
