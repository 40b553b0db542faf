import LanguageTest.Library.Elements
import Mathlib.Data.Finset.Card
import Mathlib.Order.Interval.Finset.Basic
import Mathlib.Data.Int.Interval

namespace LanguageTest.MissingNumber

variable {σ : Type}

def missingNumber (fuel : Nat) (nums : List Int) : Program σ Int :=
  if nums.length = 0 then pure (-1)
  else
    loop (fun v : Int × Int => do
      let (left, right) := v
      if left ≤ right then
        let mid := (← int (right - left)) >>> (1 : Nat)
        if (← itemAt nums mid) = (← int (mid + 1)) then pure (.done (← itemAt nums mid))
        else if (← itemAt nums mid) = mid then pure (.again (mid, right))
        else pure (.again (left, ← int (mid - 1)))
      else pure (.done (-1))) fuel (0, toInt (toSize ((nums.length : Int) - 1)))

/-- `n - 1` numbers in order, of those from 0 up to, but not at, `n`. -/
structure Almost (n : Nat) (nums : List Int) : Prop where
  size : nums.length + 1 = n
  strict : nums.Pairwise (· < ·)
  range : ∀ x ∈ nums, 0 ≤ x ∧ x < n

instance (n : Nat) (nums : List Int) : Decidable (Almost n nums) :=
  decidable_of_iff (nums.length + 1 = n ∧ nums.Pairwise (· < ·) ∧ ∀ x ∈ nums, 0 ≤ x ∧ x < n)
    ⟨fun h => ⟨h.1, h.2.1, h.2.2⟩, fun h => ⟨h.size, h.strict, h.range⟩⟩

/-- The number that is not in the vector. -/
def IsMissing (n : Nat) (nums : List Int) (r : Int) : Prop := 0 ≤ r ∧ r < n ∧ r ∉ nums

/-- A search that ends returns -1 or an element of the vector. -/
theorem ensures_missingNumber {fuel : Nat} {nums : List Int} {s : σ} :
    Ensures (missingNumber fuel nums) s fun r _ => r = -1 ∨ r ∈ nums := by
  unfold missingNumber
  split_ifs
  · exact ensures_pure (Or.inl rfl)
  · refine ensures_loop (fun _ _ => True) ?_ trivial
    rintro ⟨left, right⟩ t -
    dsimp only
    split_ifs
    · refine Ensures.bind (ensures_int.mono fun d u _ => ?_)
      refine Ensures.bind (ensures_itemAt.mono fun x u _ => ?_)
      refine Ensures.bind (ensures_int.mono fun y u _ => ?_)
      split_ifs
      · refine Ensures.bind (ensures_itemAt.mono ?_)
        rintro z u ⟨-, k, -, hk, rfl⟩
        exact ensures_pure (Or.inr (mem_iff_getElem!.mpr ⟨k, hk, rfl⟩))
      · refine Ensures.bind (ensures_itemAt.mono fun z u _ => ?_)
        split_ifs
        · exact ensures_pure trivial
        · exact Ensures.bind (ensures_int.mono fun _ _ _ => ensures_pure trivial)
    · exact ensures_pure (Or.inl rfl)

/-- Of as many numbers as the range has but one, one is missing. -/
theorem Almost.existsUnique {n : Nat} {nums : List Int} (h : Almost n nums) :
    ∃! g, IsMissing n nums g := by
  have hcard : (Finset.Ico (0 : Int) n \ nums.toFinset).card = 1 := by
    have hsub : nums.toFinset ⊆ Finset.Ico (0 : Int) n := by
      intro x hx
      exact Finset.mem_Ico.mpr (h.range x (List.mem_toFinset.mp hx))
    have hnodup : nums.Nodup := h.strict.imp Int.ne_of_lt
    have hsize := h.size
    rw [Finset.card_sdiff_of_subset hsub, Int.card_Ico, List.toFinset_card_of_nodup hnodup]
    omega
  obtain ⟨g, hg⟩ := Finset.card_eq_one.mp hcard
  have hiff (x : Int) : IsMissing n nums x ↔ x = g := by
    rw [← Finset.mem_singleton, ← hg, Finset.mem_sdiff, Finset.mem_Ico, List.mem_toFinset,
      and_assoc]
    exact Iff.rfl
  exact ⟨g, (hiff g).mpr rfl, fun x hx => (hiff x).mp hx⟩

/-- The number that the code is to find is none of those that it can return. -/
theorem missing_not_returned {n : Nat} {nums : List Int} {s : σ} (fuel : Nat) :
    ¬ Runs (missingNumber fuel nums) s fun r _ => IsMissing n nums r := by
  intro hruns
  obtain ⟨r, _, -, ⟨hpos, -, habsent⟩, hr⟩ := ensures_missingNumber.runs hruns
  rcases hr with rfl | hmem
  · exact absurd hpos (by decide)
  · exact habsent hmem

theorem missingNumber_never (s : σ) (n : Nat) (nums : List Int) (h : Almost n nums) :
    (∃! g, IsMissing n nums g) ∧
      ∀ fuel, ¬ Runs (missingNumber fuel nums) s fun r _ => IsMissing n nums r :=
  ⟨h.existsUnique, missing_not_returned⟩

/-- `{0, 1, 3}`. -/
theorem missingNumber_never_sample : (∃! g, IsMissing 4 [0, 1, 3] g) ∧
    ∀ fuel, ¬ Runs (missingNumber fuel [0, 1, 3]) () fun r _ => IsMissing 4 [0, 1, 3] r :=
  missingNumber_never () 4 [0, 1, 3] (by decide)

/-- The first number is missing. -/
theorem missingNumber_first : Almost 2 [1] ∧ IsMissing 2 [1] 0 ∧
    ∀ fuel, ¬ Runs (missingNumber fuel [1]) () fun r _ => IsMissing 2 [1] r :=
  ⟨by decide, by unfold IsMissing; decide, missing_not_returned⟩

end LanguageTest.MissingNumber
