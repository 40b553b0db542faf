import LanguageTest.Library.Elements
import Mathlib.Data.Nat.Find

namespace LanguageTest

variable {α : Type}

/-- The word `w` ends with the first `k` elements of `t`. -/
def Ends (t w : List α) (k : Nat) : Prop := k ≤ t.length ∧ t.take k <:+ w

/-- The longest proper beginning of the first `i` elements with which they also end. -/
structure LongestBorder (t : List α) (i b : Nat) : Prop where
  less : b < i
  ends : Ends t (t.take i) b
  longest : ∀ k < i, Ends t (t.take i) k → k ≤ b

/-- The candidate `k` for a border of the first `i + 1` elements, which the element at `i` is to
extend. No longer one can be extended. -/
structure Extending (t : List α) [Inhabited α] (i k : Nat) : Prop where
  less : k < i
  ends : Ends t (t.take i) k
  longest : ∀ m < i, Ends t (t.take i) m → t[m]! = t[i]! → m ≤ k

def OccursAt (t s : List α) (p : Nat) : Prop := t <+: s.drop p

/-- The first of the places where `t` occurs. -/
def FirstOccurrence (t s : List α) (p : Nat) : Prop :=
  OccursAt t s p ∧ ∀ q < p, ¬ OccursAt t s q

/-- The first `j` elements of `t` stand before the place `i` of `s`, and `t` does not occur before
these. -/
structure Matching (t s : List α) (i j : Nat) : Prop where
  le : j ≤ i
  ends : Ends t (s.take i) j
  none : ∀ p, p + j < i → ¬ OccursAt t s p

section
variable {t w : List α} {a : α} {i j k b : Nat}

theorem ends_zero : Ends t w 0 := ⟨Nat.zero_le _, List.nil_suffix⟩

/-- Both end the same word, and the shorter ends the longer. -/
theorem Ends.of_le (hk : Ends t w k) (hj : Ends t w j) (hkj : k ≤ j) : Ends t (t.take j) k := by
  refine ⟨hk.1, List.suffix_of_suffix_length_le hk.2 hj.2 ?_⟩
  rw [List.length_take, List.length_take]
  omega

theorem Ends.trans (hj : Ends t w j) (hk : Ends t (t.take j) k) : Ends t w k :=
  ⟨hk.1, hk.2.trans hj.2⟩

/-- What is shorter than `j` and ends the word is not longer than the border of the first `j`. -/
theorem LongestBorder.le_of_ends (h : LongestBorder t j b) (hj : Ends t w j) (hk : Ends t w k)
    (hkj : k < j) : k ≤ b :=
  h.longest k hkj (hk.of_le hj (Nat.le_of_lt hkj))

theorem longestBorder_one : LongestBorder t 1 0 :=
  ⟨Nat.one_pos, ends_zero, fun _ hk _ => Nat.le_of_lt_succ hk⟩

variable [Inhabited α]

theorem ends_concat (hk : k < t.length) : Ends t (w ++ [a]) (k + 1) ↔ t[k]! = a ∧ Ends t w k := by
  rw [Ends, Ends, take_succ_eq hk, List.suffix_concat_iff]
  constructor
  · rintro ⟨-, hnil | ⟨u, hu, huw⟩⟩
    · exact absurd hnil (by simp)
    · obtain ⟨rfl, ha⟩ := List.append_inj' hu rfl
      exact ⟨List.singleton_inj.mp ha, Nat.le_of_lt hk, huw⟩
  · rintro ⟨rfl, -, hkw⟩
    exact ⟨hk, Or.inr ⟨_, rfl, hkw⟩⟩

theorem LongestBorder.extending (h : LongestBorder t i b) : Extending t i b :=
  ⟨h.less, h.ends, fun m hm hends _ => h.longest m hm hends⟩

theorem Extending.fall (h : Extending t i k) (hb : LongestBorder t k b) (hne : t[k]! ≠ t[i]!) :
    Extending t i b := by
  refine ⟨Nat.lt_trans hb.less h.less, h.ends.trans hb.ends, fun m hm hends heq => ?_⟩
  have hmk : m ≠ k := by
    rintro rfl
    exact hne heq
  exact hb.le_of_ends h.ends hends (Nat.lt_of_le_of_ne (h.longest m hm hends heq) hmk)

/-- A border that is extended is a candidate. -/
theorem ends_take_succ (hi : i < t.length) (hk : k < i) :
    Ends t (t.take (i + 1)) (k + 1) ↔ t[k]! = t[i]! ∧ Ends t (t.take i) k := by
  rw [take_succ_eq hi]
  exact ends_concat (Nat.lt_trans hk hi)

theorem Extending.found (h : Extending t i k) (hi : i < t.length) (heq : t[k]! = t[i]!) :
    LongestBorder t (i + 1) (k + 1) := by
  refine ⟨Nat.succ_lt_succ h.less, (ends_take_succ hi h.less).mpr ⟨heq, h.ends⟩, ?_⟩
  intro m hm hends
  cases m with
  | zero => exact Nat.zero_le _
  | succ m =>
    have hmi := Nat.lt_of_succ_lt_succ hm
    obtain ⟨heq, hends⟩ := (ends_take_succ hi hmi).mp hends
    exact Nat.succ_le_succ (h.longest m hmi hends heq)

theorem Extending.absent (h : Extending t i 0) (hi : i < t.length) (hne : t[0]! ≠ t[i]!) :
    LongestBorder t (i + 1) 0 := by
  refine ⟨Nat.succ_pos i, ends_zero, fun m hm hends => ?_⟩
  cases m with
  | zero => exact Nat.le_refl 0
  | succ m =>
    have hmi := Nat.lt_of_succ_lt_succ hm
    obtain ⟨heq, hends⟩ := (ends_take_succ hi hmi).mp hends
    obtain rfl := Nat.le_zero.mp (h.longest m hmi hends heq)
    exact absurd heq hne

end

section
variable {t s : List α} {i j k b p : Nat}

theorem OccursAt.add_le (h : OccursAt t s p) (ht : 0 < t.length) : p + t.length ≤ s.length := by
  have hle := h.length_le
  rw [List.length_drop] at hle
  omega

theorem OccursAt.ends (h : OccursAt t s p) (hk : k ≤ t.length) : Ends t (s.take (p + k)) k := by
  obtain ⟨rest, hrest⟩ := h
  refine ⟨hk, ?_⟩
  rw [List.take_add, ← hrest, List.take_append_of_le_length hk]
  exact List.suffix_append _ _

theorem matching_start : Matching t s 0 0 :=
  ⟨Nat.le_refl 0, ends_zero, fun _ hp => absurd hp (Nat.not_lt_zero _)⟩

/-- The beginning of `t` that ends the word occurs there. -/
theorem Ends.occursAt (h : Ends t (s.take i) j) (hi : i ≤ s.length) :
    OccursAt (t.take j) s (i - j) := by
  obtain ⟨hj, pre, hpre⟩ := h
  have hlength := congrArg List.length hpre
  rw [List.length_append, List.length_take, List.length_take] at hlength
  have hdrop : i - j = pre.length := by omega
  have hs : s = pre ++ (t.take j ++ s.drop i) := by
    rw [← List.append_assoc, hpre, List.take_append_drop]
  have hrest := congrArg (List.drop pre.length) hs
  rw [List.drop_left] at hrest
  rw [OccursAt, hdrop, hrest]
  exact List.prefix_append _ _

theorem OccursAt.take (h : OccursAt (t.take j) s p) (hkj : k ≤ j) : OccursAt (t.take k) s p :=
  (List.take_prefix_take_left hkj).trans h

theorem Matching.found (h : Matching t s i t.length) (hi : i ≤ s.length) :
    FirstOccurrence t s (i - t.length) := by
  have hoccurs := h.ends.occursAt hi
  rw [List.take_length] at hoccurs
  exact ⟨hoccurs, fun p hp => h.none p (by omega)⟩

theorem FirstOccurrence.unique {q : Nat} (hp : FirstOccurrence t s p)
    (hq : FirstOccurrence t s q) : p = q :=
  Nat.le_antisymm (Nat.not_lt.mp fun hlt => hp.2 q hlt hq.1)
    (Nat.not_lt.mp fun hlt => hq.2 p hlt hp.1)

theorem OccursAt.exists_first (h : OccursAt t s p) : ∃ q ≤ p, FirstOccurrence t s q := by
  classical
  have hex : ∃ q, OccursAt t s q := ⟨p, h⟩
  exact ⟨Nat.find hex, Nat.find_min' hex h, Nat.find_spec hex, fun q hq => Nat.find_min hex hq⟩

theorem Matching.absent (h : Matching t s s.length j) (hj : j < t.length) :
    ¬ OccursAt t s p := by
  intro hoccurs
  have hle := hoccurs.add_le (by omega)
  exact h.none p (by omega) hoccurs

variable [Inhabited α]

theorem OccursAt.getElem! (h : OccursAt t s p) (hk : k < t.length) : s[p + k]! = t[k]! := by
  obtain ⟨rest, hrest⟩ := h
  rw [← getElem!_drop, ← hrest, List.getElem!_eq_getElem?_getD, List.getElem?_append_left hk,
    ← List.getElem!_eq_getElem?_getD]

theorem Matching.advance (h : Matching t s i j) (hi : i < s.length) (hj : j < t.length)
    (heq : s[i]! = t[j]!) : Matching t s (i + 1) (j + 1) := by
  refine ⟨Nat.succ_le_succ h.le, ?_, fun p hp => h.none p (by omega)⟩
  rw [take_succ_eq hi]
  exact (ends_concat hj).mpr ⟨heq.symm, h.ends⟩

/-- An occurrence that starts before the border would be one of the longer ends. -/
theorem Matching.fall (h : Matching t s i j) (hj : j < t.length) (hb : LongestBorder t j b)
    (hne : s[i]! ≠ t[j]!) : Matching t s i b := by
  have hless := hb.less
  have hle := h.le
  refine ⟨by omega, h.ends.trans hb.ends, fun p hp hoccurs => ?_⟩
  rcases Nat.lt_or_ge (p + j) i with hlt | hge
  · exact h.none p hlt hoccurs
  · obtain ⟨k, rfl⟩ : ∃ k, i = p + k := ⟨i - p, by omega⟩
    rcases Nat.lt_or_ge k j with hkj | hkj
    · have hkb := hb.le_of_ends h.ends (hoccurs.ends (by omega)) hkj
      omega
    · obtain rfl : k = j := by omega
      exact hne (hoccurs.getElem! hj)

theorem Matching.skip (h : Matching t s i 0) (ht : 0 < t.length) (hne : s[i]! ≠ t[0]!) :
    Matching t s (i + 1) 0 := by
  refine ⟨Nat.zero_le _, ends_zero, fun p hp hoccurs => ?_⟩
  rcases Nat.lt_succ_iff_lt_or_eq.mp hp with hlt | rfl
  · exact h.none p hlt hoccurs
  · exact hne (hoccurs.getElem! ht)

theorem occursAt_iff (h : p + t.length ≤ s.length) :
    OccursAt t s p ↔ ∀ k < t.length, s[p + k]! = t[k]! := by
  refine ⟨fun hoccurs k hk => hoccurs.getElem! hk, fun heq => ?_⟩
  rw [OccursAt, List.prefix_iff_getElem?]
  intro k hk
  have hkt := heq k hk
  rw [getElem!_pos t k hk] at hkt
  rw [List.getElem?_drop, getElem!_of_lt (by omega), hkt]

end

end LanguageTest
