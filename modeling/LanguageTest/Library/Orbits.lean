import Mathlib.Data.Finset.Card
import Mathlib.Data.Finset.Range
import Mathlib.Dynamics.PeriodicPts.Defs

namespace LanguageTest
open Function

variable {α : Type*} {f : α → α} {x z : α}

/-- A point that moves one step at a time and one that moves two meet after `k` times. -/
def Meeting (f : α → α) (x : α) (k : Nat) : Prop := 0 < k ∧ f^[k] x = f^[2 * k] x

theorem meeting_iff {k : Nat} : Meeting f x k ↔ 0 < k ∧ IsPeriodicPt f k (f^[k] x) := by
  rw [Meeting, IsPeriodicPt, IsFixedPt, ← iterate_add_apply, ← Nat.two_mul, eq_comm]

/-- Where an orbit comes back to itself, the two points have met. -/
theorem exists_meeting {i j : Nat} (hij : i < j) (h : f^[i] x = f^[j] x) :
    ∃ k ≤ j, Meeting f x k := by
  -- the first multiple of the period `p` after `i`
  obtain ⟨p, hp⟩ : ∃ p, i + p = j := ⟨j - i, by omega⟩
  have hpos : 0 < p := by omega
  have hlow : i < p * (i / p + 1) := Nat.lt_mul_div_succ i hpos
  have hhigh : p * (i / p) ≤ i := Nat.mul_div_le i p
  have hperiod : IsPeriodicPt f p (f^[i] x) := by
    rw [IsPeriodicPt, IsFixedPt, ← iterate_add_apply, Nat.add_comm, hp, h]
  have hlater := hperiod.apply_iterate (p * (i / p + 1) - i)
  rw [← iterate_add_apply, Nat.sub_add_cancel hlow.le] at hlater
  refine ⟨p * (i / p + 1), ?_, meeting_iff.mpr ⟨by omega, hlater.mul_const _⟩⟩
  rw [Nat.mul_succ]
  omega

/-- The meeting time is a period of the whole cycle. -/
theorem Meeting.mem_periodicPts_iff {k j : Nat} (h : Meeting f x k) :
    f^[j] x ∈ periodicPts f ↔ f^[k + j] x = f^[j] x := by
  rw [iterate_add_apply]
  constructor
  · intro hj
    refine isPeriodicPt_of_mem_periodicPts_of_isPeriodicPt_iterate (n := k) hj ?_
    rw [← iterate_add_apply, Nat.add_comm, iterate_add_apply]
    exact (meeting_iff.mp h).2.apply_iterate j
  · exact mk_mem_periodicPts h.1

/-- In a finite set an orbit comes back to itself. -/
theorem exists_meeting_of_mem [DecidableEq α] {S : Finset α} (h : ∀ n, f^[n] x ∈ S) :
    ∃ k ≤ S.card, Meeting f x k := by
  have hcard : S.card < (Finset.range (S.card + 1)).card := by rw [Finset.card_range]; omega
  obtain ⟨i, hi, j, hj, hne, heq⟩ := Finset.exists_ne_map_eq_of_card_lt_of_maps_to hcard
    fun n _ => h n
  rw [Finset.mem_range] at hi hj
  rcases Nat.lt_or_gt_of_ne hne with hlt | hlt
  · obtain ⟨k, hk, hm⟩ := exists_meeting hlt heq
    exact ⟨k, by omega, hm⟩
  · obtain ⟨k, hk, hm⟩ := exists_meeting hlt heq.symm
    exact ⟨k, by omega, hm⟩

/-- An orbit does not leave a fixed point. -/
theorem iterate_eq_of_le {m n : Nat} (hz : f z = z) (h : f^[m] x = z) (hmn : m ≤ n) :
    f^[n] x = z := by
  rw [← Nat.sub_add_cancel hmn, iterate_add_apply, h, iterate_fixed hz]

/-- An orbit that ends in a fixed point has no other periodic point. -/
theorem eq_of_mem_periodicPts {m n : Nat} (hz : f z = z) (h : f^[m] x = z)
    (hn : f^[n] x ∈ periodicPts f) : f^[n] x = z := by
  obtain ⟨p, hp, hperiod⟩ := hn
  have hreturn : f^[p * m + n] x = f^[n] x := by
    rw [iterate_add_apply]
    exact (hperiod.mul_const m).eq
  rw [← hreturn]
  have hle : m ≤ p * m := Nat.le_mul_of_pos_left m hp
  exact iterate_eq_of_le hz h (hle.trans (Nat.le_add_right _ _))

end LanguageTest
