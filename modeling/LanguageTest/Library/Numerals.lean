import LanguageTest.Library.Strings
import Mathlib.Tactic.Ring

namespace LanguageTest

/-- A character from `'0'` to `'9'`. -/
def IsDecimal (c : UInt8) : Prop := 48 ≤ c ∧ c ≤ 57

instance (c : UInt8) : Decidable (IsDecimal c) := inferInstanceAs (Decidable (_ ∧ _))

def digitOf (c : UInt8) : Nat := c.toNat - 48

/-- The number that decimal digits are read as. -/
def decimal (digits : List UInt8) : Nat := digits.foldl (fun v c => 10 * v + digitOf c) 0

/-- Blanks, at most one sign, and digits. There may be none of each. -/
structure Numeral where
  blanks : Nat
  sign : List UInt8
  digits : List UInt8
  isSign : sign = [] ∨ sign = [43] ∨ sign = [45]
  isDecimal : ∀ c ∈ digits, IsDecimal c

namespace Numeral

def text (n : Numeral) : List UInt8 := List.replicate n.blanks 32 ++ (n.sign ++ n.digits)

/-- Where the digits begin. -/
def start (n : Numeral) : Nat := n.blanks + n.sign.length

def factor (n : Numeral) : Int := if n.sign = [45] then -1 else 1

def value (n : Numeral) : Int := n.factor * decimal n.digits

/-- Only the first `j` of the digits. -/
def take (n : Numeral) (j : Nat) : Numeral where
  blanks := n.blanks
  sign := n.sign
  digits := n.digits.take j
  isSign := n.isSign
  isDecimal c hc := n.isDecimal c (List.mem_of_mem_take hc)

/-- No longer beginning of the text is a numeral. -/
def Longest (n : Numeral) (s : List UInt8) : Prop :=
  n.text <+: s ∧ ∀ w : Numeral, w.text <+: s → w.text.length ≤ n.text.length

end Numeral

section
variable {ds s rest : List UInt8} {c : UInt8} {n : Numeral} {i j k : Nat}

@[simp] theorem decimal_nil : decimal [] = 0 := rfl

theorem isSign_nil : ([] : List UInt8) = [] ∨ ([] : List UInt8) = [43] ∨ ([] : List UInt8) = [45] :=
  .inl rfl

theorem isDecimal_of_all (h : (ds.all fun c => decide (IsDecimal c)) = true) :
    ∀ c ∈ ds, IsDecimal c := by
  intro c hc
  exact of_decide_eq_true (List.all_eq_true.mp h c hc)

theorem decimal_concat : decimal (ds ++ [c]) = 10 * decimal ds + digitOf c := by
  simp [decimal]

theorem decimal_take_succ (hj : j < ds.length) :
    decimal (ds.take (j + 1)) = 10 * decimal (ds.take j) + digitOf ds[j]! := by
  rw [take_succ_eq hj, decimal_concat]

theorem decimal_take_le (hjk : j ≤ k) : decimal (ds.take j) ≤ decimal (ds.take k) := by
  induction hjk with
  | refl => exact Nat.le_refl _
  | step _ ih =>
    rename_i k _
    apply ih.trans
    rcases Nat.lt_or_ge k ds.length with hk | hk
    · rw [decimal_take_succ hk]
      omega
    · rw [List.take_of_length_le hk, List.take_of_length_le (Nat.le_succ_of_le hk)]

theorem digitOf_le (h : IsDecimal c) : digitOf c ≤ 9 ∧ (c.toNat : Int) - 48 = digitOf c := by
  have hlow : 48 ≤ c.toNat := UInt8.le_iff_toNat_le.mp h.1
  have hhigh : c.toNat ≤ 57 := UInt8.le_iff_toNat_le.mp h.2
  unfold digitOf
  omega

theorem IsDecimal.not_mark (h : IsDecimal c) : c ≠ 32 ∧ c ≠ 43 ∧ c ≠ 45 := by
  refine ⟨?_, ?_, ?_⟩ <;>
  · intro hc
    rw [hc] at h
    exact absurd h (by decide)

namespace Numeral

theorem factor_eq (n : Numeral) : n.factor = 1 ∨ n.factor = -1 := by
  unfold factor
  split_ifs
  · exact .inr rfl
  · exact .inl rfl

@[simp] theorem take_value : (n.take j).value = n.factor * decimal (n.digits.take j) := rfl

theorem length_text : n.text.length = n.start + n.digits.length := by
  simp [text, start]
  omega

theorem length_take_text (hj : j ≤ n.digits.length) : (n.take j).text.length = n.start + j := by
  rw [length_text]
  simp [take, start, hj]

theorem longest_text (n : Numeral) : n.Longest n.text :=
  ⟨List.prefix_refl _, fun _ hw => hw.length_le⟩

/-- A text begins with a longest numeral. -/
theorem exists_longest (s : List UInt8) : ∃ n : Numeral, n.Longest s := by
  by_contra hnone
  simp only [not_exists, Longest, not_and, not_forall, Nat.not_le] at hnone
  have hlong (k : Nat) : ∃ n : Numeral, n.text <+: s ∧ k ≤ n.text.length := by
    induction k with
    | zero => exact ⟨⟨0, [], [], .inl rfl, nofun⟩, List.nil_prefix, Nat.zero_le _⟩
    | succ k ih =>
      obtain ⟨n, hn, hk⟩ := ih
      obtain ⟨w, hw, hlt⟩ := hnone n hn
      exact ⟨w, hw, by omega⟩
  obtain ⟨n, hn, hlt⟩ := hlong (s.length + 1)
  have hle := hn.length_le
  omega

/-- What follows the longest numeral cannot go on with it. -/
theorem Longest.split (h : n.Longest s) : ∃ rest, s = n.text ++ rest ∧
    (∀ c r, rest = c :: r → ¬ IsDecimal c) ∧
    (n.sign = [] → n.digits = [] → ∀ c r, rest = c :: r → c ≠ 32 ∧ c ≠ 43 ∧ c ≠ 45) := by
  obtain ⟨⟨rest, hs⟩, hmax⟩ := h
  have hlonger (w : Numeral) (c : UInt8) (r : List UInt8) (hrest : rest = c :: r)
      (hw : w.text = n.text ++ [c]) : False := by
    have hle := hmax w ⟨r, by rw [hw, ← hs, hrest]; simp⟩
    rw [hw, List.length_append] at hle
    simp at hle
  refine ⟨rest, hs.symm, fun c r hrest hc => ?_, fun hsign hdigits c r hrest => ⟨?_, ?_, ?_⟩⟩
  · refine hlonger ⟨n.blanks, n.sign, n.digits ++ [c], n.isSign, ?_⟩ c r hrest (by simp [text])
    exact List.forall_mem_append.mpr ⟨n.isDecimal, List.forall_mem_singleton.mpr hc⟩
  · intro hc
    refine hlonger ⟨n.blanks + 1, [], [], .inl rfl, nofun⟩ c r hrest ?_
    simp [text, hsign, hdigits, hc, List.replicate_succ']
  · intro hc
    refine hlonger ⟨n.blanks, [43], [], .inr (.inl rfl), nofun⟩ c r hrest ?_
    simp [text, hsign, hdigits, hc]
  · intro hc
    refine hlonger ⟨n.blanks, [45], [], .inr (.inr rfl), nofun⟩ c r hrest ?_
    simp [text, hsign, hdigits, hc]

theorem Longest.length_le (h : n.Longest s) : n.start + n.digits.length ≤ s.length := by
  rw [← length_text]
  exact h.1.length_le

theorem Longest.blank (h : n.Longest s) (hi : i < n.blanks) : s[i]! = 32 := by
  obtain ⟨rest, rfl, -, -⟩ := h.split
  rw [text, List.append_assoc, List.getElem!_eq_getElem?_getD, List.getElem?_append_left (by simpa),
    ← List.getElem!_eq_getElem?_getD, getElem!_replicate hi]

/-- The character after the blanks. -/
theorem Longest.mark (h : n.Longest s) : s[n.blanks]! ≠ 32 ∧ (s[n.blanks]! = 45 ↔ n.sign = [45]) ∧
    (s[n.blanks]! = 43 ↔ n.sign = [43]) := by
  obtain ⟨rest, rfl, -, hrest⟩ := h.split
  have hmark : (n.text ++ rest)[n.blanks]! = (n.sign ++ (n.digits ++ rest))[0]! := by
    have happend := getElem!_append (l := List.replicate n.blanks (32 : UInt8))
      (r := n.sign ++ (n.digits ++ rest)) (k := 0)
    rw [List.length_replicate] at happend
    rw [← happend, text]
    simp
  rw [hmark]
  rcases n.isSign with hsign | hsign | hsign
  · have hother (c : UInt8) (hc : c ≠ 32 ∧ c ≠ 43 ∧ c ≠ 45) :
        c ≠ 32 ∧ (c = 45 ↔ n.sign = [45]) ∧ (c = 43 ↔ n.sign = [43]) := by
      simp [hsign, hc]
    apply hother
    rw [hsign]
    cases hdigits : n.digits with
    | nil =>
      cases rest with
      | nil => decide
      | cons c r => exact hrest hsign hdigits c r rfl
    | cons d ds => exact (n.isDecimal d (by simp [hdigits])).not_mark
  · simp [hsign]
  · simp [hsign]

theorem Longest.digit (h : n.Longest s) (hj : j < n.digits.length) :
    s[n.start + j]! = n.digits[j]! ∧ IsDecimal n.digits[j]! := by
  obtain ⟨rest, rfl, -, -⟩ := h.split
  refine ⟨?_, n.isDecimal _ (mem_iff_getElem!.mpr ⟨j, hj, rfl⟩)⟩
  have htext : n.text ++ rest = (List.replicate n.blanks 32 ++ n.sign) ++ (n.digits ++ rest) := by
    simp [text]
  have hstart : n.start = (List.replicate n.blanks (32 : UInt8) ++ n.sign).length := by
    simp [start]
  rw [htext, hstart, getElem!_append, List.getElem!_eq_getElem?_getD,
    List.getElem?_append_left hj, ← List.getElem!_eq_getElem?_getD]

theorem Longest.after (h : n.Longest s) : ¬ IsDecimal s[n.start + n.digits.length]! := by
  obtain ⟨rest, rfl, hrest, -⟩ := h.split
  rw [← length_text]
  have happend := getElem!_append (l := n.text) (r := rest) (k := 0)
  rw [Nat.add_zero] at happend
  rw [happend]
  cases rest with
  | nil => decide
  | cons c r => exact hrest c r rfl

end Numeral

end

end LanguageTest
