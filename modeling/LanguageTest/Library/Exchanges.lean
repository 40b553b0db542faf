import Mathlib.Logic.Equiv.Basic

namespace LanguageTest

variable {κ α : Type*} [DecidableEq κ]

/-- The values after those at two places were exchanged. -/
def exchangeAt (f : κ → α) (p : κ × κ) : κ → α := fun k => f (Equiv.swap p.1 p.2 k)

/-- The place that a sequence of exchanges brings a value from. -/
def origin : List (κ × κ) → Equiv.Perm κ
  | [] => Equiv.refl κ
  | p :: ps => (origin ps).trans (Equiv.swap p.1 p.2)

section
variable {f : κ → α} {p : κ × κ} {ps qs : List (κ × κ)} {k : κ}

theorem exchangeAt_eq :
    exchangeAt f p k = if k = p.1 then f p.2 else if k = p.2 then f p.1 else f k := by
  rw [exchangeAt, Equiv.swap_apply_def]
  split_ifs <;> rfl

@[simp] theorem origin_nil : origin ([] : List (κ × κ)) k = k := rfl

@[simp] theorem origin_cons : origin (p :: ps) k = Equiv.swap p.1 p.2 (origin ps k) := rfl

theorem origin_append : origin (ps ++ qs) k = origin ps (origin qs k) := by
  induction ps with
  | nil => rfl
  | cons p ps ih => simp [ih]

theorem origin_untouched (h : ∀ p ∈ ps, k ≠ p.1 ∧ k ≠ p.2) : origin ps k = k := by
  induction ps with
  | nil => rfl
  | cons p ps ih =>
    have hp := h p List.mem_cons_self
    rw [origin_cons, ih fun q hq => h q (List.mem_cons_of_mem p hq)]
    exact Equiv.swap_apply_of_ne_of_ne hp.1 hp.2

end

end LanguageTest
