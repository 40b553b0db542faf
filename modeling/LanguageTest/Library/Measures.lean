import LanguageTest.Library.Transition
import Mathlib.Algebra.Order.BigOperators.Group.Finset
import Mathlib.Data.Fintype.Defs

namespace LanguageTest.Transition

section
variable {σ α : Type*} {step : σ → α → Option σ} {I : σ → Prop} {as : List α} {s u : σ}

/-- Every action is paid for by what its state has in store, by what it gains, or by a price for
actions of one kind. -/
theorem exec_length_add_le (m g : σ → Nat) (free : α → Bool) (k : Nat)
    (hstep : ∀ s a u, I s → step s a = some u →
      I u ∧ m u + g s + 1 ≤ m s + g u + if free a = true then k else 0)
    (hs : I s) (hrun : exec step as s = some u) :
    as.length + m u + g s ≤ m s + g u + k * as.countP free := by
  induction as generalizing s with
  | nil =>
    rw [Option.some.inj hrun]
    simp
  | cons a as ih =>
    obtain ⟨v, hv, hu⟩ := exec_cons.mp hrun
    obtain ⟨hI, hle⟩ := hstep s a v hs hv
    have hrest := ih hI hu
    rw [List.length_cons, List.countP_cons, Nat.mul_add]
    split_ifs at hle ⊢ <;> omega

/-- A run is no longer than the measure of its first state, where every action makes the measure
smaller, apart from some that may make it larger by one. -/
theorem exec_length_le (m : σ → Nat) (free : α → Bool)
    (hstep : ∀ s a u, I s → step s a = some u →
      I u ∧ m u + 1 ≤ m s + if free a = true then 2 else 0)
    (hs : I s) (hrun : exec step as s = some u) :
    as.length + m u ≤ m s + 2 * as.countP free :=
  exec_length_add_le m (fun _ => 0) free 2 hstep hs hrun

end

section
variable {ι X : Type*} [Fintype ι] [DecidableEq ι]

/-- A sum over all after a change for one. -/
theorem sum_update (f : ι → X) (g : ι → X → Nat) (i : ι) (x : X) :
    ∑ j, g j (Function.update f i x j) + g i (f i) = ∑ j, g j (f j) + g i x := by
  have hrest : ∑ j ∈ Finset.univ.erase i, g j (Function.update f i x j) =
      ∑ j ∈ Finset.univ.erase i, g j (f j) :=
    Finset.sum_congr rfl fun j hj => by rw [Function.update_of_ne (Finset.ne_of_mem_erase hj)]
  rw [← Finset.add_sum_erase _ _ (Finset.mem_univ i), hrest, Function.update_self,
    ← Finset.add_sum_erase _ (fun j => g j (f j)) (Finset.mem_univ i)]
  omega

/-- What is bounded for each is bounded in sum, and by more where there is more for one. -/
theorem sum_add_le {f g : ι → Nat} {i : ι} {k : Nat} (hi : f i + k ≤ g i)
    (hle : ∀ j, j ≠ i → f j ≤ g j) : ∑ j, f j + k ≤ ∑ j, g j := by
  rw [← Finset.add_sum_erase _ f (Finset.mem_univ i),
    ← Finset.add_sum_erase _ g (Finset.mem_univ i)]
  have hrest : ∑ j ∈ Finset.univ.erase i, f j ≤ ∑ j ∈ Finset.univ.erase i, g j :=
    Finset.sum_le_sum fun j hj => hle j (Finset.ne_of_mem_erase hj)
  omega

end

end LanguageTest.Transition
