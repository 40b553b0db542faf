import Mathlib.Data.Int.Order.Basic
import Mathlib.Data.Nat.Basic

namespace LanguageTest.Precision

/-- A time as it is told, and the unit it is told in. -/
structure Told where
  unit : Nat
  time : Int
  deriving DecidableEq

/-- The first is not later than the second, as far as the coarser unit can tell. -/
def NotEarlier (x y : Told) : Prop :=
  x.time / (max x.unit y.unit : Nat) ≤ y.time / (max x.unit y.unit : Nat)

instance (x y : Told) : Decidable (NotEarlier x y) := inferInstanceAs (Decidable (_ ≤ _))

def truncate (unit v : Nat) : Told := ⟨unit, (v / unit * unit : Nat)⟩

/-- Units of which one is a multiple of the other. -/
def Nested (u u' : Nat) : Prop := u ∣ u' ∨ u' ∣ u

variable {u u' v v' : Nat}

theorem div_of_truncate (h : u ∣ u') : v / u * u / u' = v / u' := by
  obtain ⟨k, rfl⟩ := h
  rcases Nat.eq_zero_or_pos u with rfl | hpos
  · simp
  · rw [← Nat.div_div_eq_div_mul, Nat.mul_div_cancel _ hpos, Nat.div_div_eq_div_mul]

theorem Nested.dvd_max (h : Nested u u') (hu : 0 < u) (hu' : 0 < u') :
    u ∣ max u u' ∧ u' ∣ max u u' := by
  rcases h with h | h
  · rw [Nat.max_eq_right (Nat.le_of_dvd hu' h)]
    exact ⟨h, Nat.dvd_refl u'⟩
  · rw [Nat.max_eq_left (Nat.le_of_dvd hu h)]
    exact ⟨Nat.dvd_refl u, h⟩

/-- Truncation forgets nothing that the coarser unit can tell. -/
theorem notEarlier_truncate (h : Nested u u') (hu : 0 < u) (hu' : 0 < u') :
    NotEarlier (truncate u v) (truncate u' v') ↔ v / max u u' ≤ v' / max u u' := by
  obtain ⟨hdvd, hdvd'⟩ := h.dvd_max hu hu'
  simp only [NotEarlier, truncate, ← Int.natCast_ediv, div_of_truncate hdvd,
    div_of_truncate hdvd', Int.ofNat_le]

/-- Times in the smallest unit are told apart as they are. -/
theorem notEarlier_exact {x y : Told} (hx : x.unit = 1) (hy : y.unit = 1) :
    NotEarlier x y ↔ x.time ≤ y.time := by
  simp [NotEarlier, hx, hy]

end LanguageTest.Precision
