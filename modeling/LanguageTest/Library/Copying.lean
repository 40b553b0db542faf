import Mathlib.Logic.Function.Basic
import Mathlib.Data.Nat.Notation

namespace LanguageTest

variable {β : Type*}

/-- The cells of `v` from `p + l` up to `p + h` hold what those from `q + l` on held in `u`, and
the others are the same. -/
structure Copied (u v : ℕ → β) (p q l h : ℕ) : Prop where
  copied : ∀ i, l ≤ i → i < h → v (p + i) = u (q + i)
  frame : ∀ a, ¬ (p + l ≤ a ∧ a < p + h) → v a = u a

section
variable {u v : ℕ → β} {p q l h k : ℕ}

theorem copied_empty : Copied u u p q l l where
  copied _ hl hh := absurd hh (Nat.not_lt_of_le hl)
  frame _ _ := rfl

/-- The next cell is copied, when the one that is read is not among those written. -/
theorem Copied.up (hc : Copied u v p q l k) (hlk : l ≤ k)
    (hread : ¬ (p + l ≤ q + k ∧ q + k < p + k)) :
    Copied u (Function.update v (p + k) (v (q + k))) p q l (k + 1) where
  copied i hl hi := by
    rcases Nat.lt_succ_iff_lt_or_eq.mp hi with hlt | rfl
    · rw [Function.update_of_ne (by omega)]
      exact hc.copied i hl hlt
    · rw [Function.update_self]
      exact hc.frame _ hread
  frame a ha := by
    rw [Function.update_of_ne (by omega)]
    exact hc.frame a (by omega)

/-- The cell before is copied. -/
theorem Copied.down (hc : Copied u v p q (k + 1) h) (hkh : k < h)
    (hread : ¬ (p + (k + 1) ≤ q + k ∧ q + k < p + h)) :
    Copied u (Function.update v (p + k) (v (q + k))) p q k h where
  copied i hk hi := by
    rcases Nat.eq_or_lt_of_le hk with rfl | hlt
    · rw [Function.update_self]
      exact hc.frame _ hread
    · rw [Function.update_of_ne (by omega)]
      exact hc.copied i hlt hi
  frame a ha := by
    rw [Function.update_of_ne (by omega)]
    exact hc.frame a (by omega)

end

end LanguageTest
