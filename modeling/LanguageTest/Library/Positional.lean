import LanguageTest.Library.Elements
import Mathlib.Tactic.Ring

namespace LanguageTest

variable {R : Type} [CommRing R]

/-- What the digits stand for, the most significant one first. They may be out of range. -/
def positional (base : R) (digits : List R) : R := digits.foldl (fun v d => base * v + d) 0

section
variable {base d : R} {xs ys : List R}

@[simp] theorem positional_nil : positional base [] = 0 := rfl

/-- The digits before these moved up by one place for each of them. -/
theorem foldl_eq_positional (v : R) :
    xs.foldl (fun v d => base * v + d) v = v * base ^ xs.length + positional base xs := by
  induction xs generalizing v with
  | nil => simp
  | cons d xs ih =>
    rw [positional, List.foldl_cons, List.foldl_cons, ih, ih (base * 0 + d), List.length_cons]
    ring

theorem positional_append :
    positional base (xs ++ ys) = positional base xs * base ^ ys.length + positional base ys := by
  rw [positional, List.foldl_append, foldl_eq_positional]
  rfl

theorem positional_cons :
    positional base (d :: xs) = d * base ^ xs.length + positional base xs := by
  rw [positional, List.foldl_cons, foldl_eq_positional, mul_zero, zero_add]

variable [Inhabited R]

/-- A digit that changes by `d` changes the number by `d` times the value of its place. -/
theorem positional_set {i : Nat} (hi : i < xs.length) :
    positional base (xs.set i (xs[i]! + d)) =
      positional base xs + d * base ^ (xs.length - 1 - i) := by
  have hlength : (xs.drop (i + 1)).length = xs.length - 1 - i := by
    rw [List.length_drop]
    omega
  have hsplit (x : R) : positional base (xs.take i ++ x :: xs.drop (i + 1)) =
      positional base (xs.take i) * base ^ (xs.length - 1 - i + 1) +
        (x * base ^ (xs.length - 1 - i) + positional base (xs.drop (i + 1))) := by
    rw [positional_append, positional_cons, List.length_cons, hlength]
  have hxs := hsplit xs[i]!
  rw [← drop_eq_cons hi, List.take_append_drop] at hxs
  rw [List.set_eq_take_append_cons_drop, if_pos hi, hsplit, hxs]
  ring

end

end LanguageTest
