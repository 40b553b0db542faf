import Mathlib.Data.List.Infix
import Mathlib.Data.Nat.Notation

namespace LanguageTest.Turns

variable {α : Type*} {m t k n : Nat} {f : Nat → α}

/-- How many of the first `k` turns are those of `t`, where the numbers below `m` take turns. -/
def taken (m t k : Nat) : Nat := k / m + if t < k % m then 1 else 0

/-- What the first `k` turns give. -/
def inTurn (f : Nat → α) (m k : Nat) : List α := (List.range k).map fun i => f (i % m)

@[simp] theorem taken_zero : taken m t 0 = 0 := by simp [taken]

theorem taken_succ (ht : t < m) :
    taken m t (k + 1) = taken m t k + if k % m = t then 1 else 0 := by
  have hm : 0 < m := Nat.zero_lt_of_lt ht
  have hlt := Nat.mod_lt k hm
  have hk := Nat.div_add_mod k m
  unfold taken
  by_cases hwrap : k % m + 1 = m
  · have hsucc : k + 1 = m * (k / m + 1) := by
      rw [Nat.mul_add, Nat.mul_one]
      omega
    rw [hsucc, Nat.mul_div_cancel_left _ hm, Nat.mul_mod_right]
    split_ifs <;> omega
  · have hsucc : k + 1 = (k % m + 1) + m * (k / m) := by omega
    have hdiv : (k + 1) / m = k / m := by
      rw [hsucc, Nat.add_mul_div_left _ _ hm, Nat.div_eq_of_lt (by omega), Nat.zero_add]
    have hmod : (k + 1) % m = k % m + 1 := by
      rw [hsucc, Nat.add_mul_mod_self_left, Nat.mod_eq_of_lt (by omega)]
    rw [hdiv, hmod]
    split_ifs <;> omega

/-- Who has the turn has had it once in every round so far. -/
theorem taken_turn : taken m (k % m) k = k / m := by simp [taken]

theorem lt_of_taken (hm : 0 < m) (h : taken m (k % m) k < n) : k < m * n := by
  rw [taken_turn, Nat.div_lt_iff_lt_mul hm, Nat.mul_comm] at h
  exact h

theorem taken_of_lt (hm : 0 < m) (h : k < m * n) : taken m (k % m) k < n := by
  rwa [taken_turn, Nat.div_lt_iff_lt_mul hm, Nat.mul_comm]

theorem taken_full (hm : 0 < m) : taken m t (m * n) = n := by
  simp [taken, Nat.mul_div_cancel_left _ hm]

theorem le_taken (hm : 0 < m) : k ≤ m * taken m 0 k := by
  have hlt := Nat.mod_lt k hm
  have hk := Nat.div_add_mod k m
  unfold taken
  split_ifs with hpos
  · rw [Nat.mul_add, Nat.mul_one]
    omega
  · rw [Nat.add_zero]
    omega

/-- The rounds are over when everyone has had every turn. -/
theorem full_of_taken (hm : 0 < m) (h : ∀ t < m, taken m t k = n) : k = m * n := by
  have hdiv : k / m = n := by
    rw [← h (k % m) (Nat.mod_lt k hm), taken_turn]
  have hmod : k % m = 0 := by
    by_contra hpos
    have hfirst := h 0 hm
    rw [taken, if_pos (Nat.pos_of_ne_zero hpos)] at hfirst
    omega
  have hk := Nat.div_add_mod k m
  rw [hdiv, hmod] at hk
  exact hk.symm

theorem inTurn_succ : inTurn f m (k + 1) = inTurn f m k ++ [f (k % m)] := by
  simp [inTurn, List.range_succ]

@[simp] theorem length_inTurn : (inTurn f m k).length = k := by simp [inTurn]

theorem inTurn_mono (h : k ≤ n) : inTurn f m k <+: inTurn f m n := by
  have htake : inTurn f m k = (inTurn f m n).take k := by
    rw [inTurn, inTurn, ← List.map_take, List.take_range, Nat.min_eq_left h]
  rw [htake]
  exact List.take_prefix ..

theorem eq_inTurn {w : List α} (h : w <+: inTurn f m n) : w = inTurn f m w.length := by
  have hlen := h.length_le
  rw [length_inTurn] at hlen
  exact List.prefix_of_prefix_length_le h (inTurn_mono hlen) (by simp) |>.eq_of_length (by simp)

/-- Whole rounds. -/
theorem inTurn_full : inTurn f m (m * n) = (List.replicate n ((List.range m).map f)).flatten := by
  induction n with
  | zero => simp [inTurn]
  | succ n ih =>
    have hround : (List.range m).map (fun i => f ((m * n + i) % m)) = (List.range m).map f := by
      apply List.map_congr_left
      intro i hi
      rw [Nat.mul_add_mod, Nat.mod_eq_of_lt (List.mem_range.mp hi)]
    rw [List.replicate_succ', List.flatten_append, ← ih, List.flatten_singleton, ← hround,
      Nat.mul_add, Nat.mul_one, inTurn, List.range_add, List.map_append, List.map_map]
    rfl

end LanguageTest.Turns
