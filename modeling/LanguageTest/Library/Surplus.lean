import Mathlib.Algebra.Order.Ring.Int
import Mathlib.Data.List.Count
import Mathlib.Tactic.SplitIfs

namespace LanguageTest

variable {α : Type*} [DecidableEq α] {xs : List α} {c x v : α} {k : Int}

/-- Other elements than `c` can be paired off against each other and against occurrences of `c`,
of which `k` are left over. -/
def Surplus (c : α) (k : Int) (xs : List α) : Prop :=
  ∀ v, 2 * (xs.count v : Int) ≤ xs.length + if v = c then k else -k

theorem surplus_singleton (x : α) : Surplus x 1 [x] := by
  intro v
  rw [List.count_singleton, List.length_singleton]
  by_cases hv : v = x
  · simp [hv]
  · simp [hv, Ne.symm hv]

theorem count_concat (v x : α) (xs : List α) :
    ((xs ++ [x]).count v : Int) = xs.count v + if v = x then 1 else 0 := by
  rw [List.count_append, List.count_singleton]
  by_cases hv : v = x
  · simp [hv]
  · simp [hv, Ne.symm hv]

/-- One more occurrence of the candidate. -/
theorem Surplus.same (h : Surplus c k xs) : Surplus c (k + 1) (xs ++ [c]) := by
  intro v
  have hv := h v
  rw [count_concat, List.length_append, List.length_singleton]
  push_cast
  split_ifs at hv ⊢ <;> omega

/-- Another element, which is paired with an occurrence of the candidate. -/
theorem Surplus.other (h : Surplus c k xs) (hx : x ≠ c) : Surplus c (k - 1) (xs ++ [x]) := by
  intro v
  have hv := h v
  rw [count_concat, List.length_append, List.length_singleton]
  push_cast
  by_cases hvc : v = c
  · rw [if_pos hvc] at hv ⊢
    rw [if_neg fun hvx => hx (hvx.symm.trans hvc)]
    omega
  · rw [if_neg hvc] at hv ⊢
    split_ifs <;> omega

/-- When nothing is left over, the next element becomes the candidate. -/
theorem Surplus.replace (h : Surplus c 0 xs) (x : α) : Surplus x 1 (xs ++ [x]) := by
  intro v
  have hv := h v
  rw [neg_zero, ite_self, add_zero] at hv
  rw [count_concat, List.length_append, List.length_singleton]
  push_cast
  split_ifs <;> omega

/-- An element that occurs more than half the time is the candidate. -/
theorem Surplus.eq_of_majority (h : Surplus c k xs) (hk : 0 ≤ k)
    (hv : xs.length < 2 * xs.count v) : v = c := by
  by_contra hne
  have hle := h v
  rw [if_neg hne] at hle
  omega

end LanguageTest
