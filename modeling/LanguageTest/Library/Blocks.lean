import LanguageTest.Library.Rearranged
import Mathlib.Order.Bounds.Basic

namespace LanguageTest.Sorting

variable {α : Type} [Inhabited α] [LinearOrder α] {xs ys : List α} {a b i j k n : Nat}

/-- The list after its elements from `a` up to, but not at, `b` were sorted. -/
def sortBlock (a b : Nat) (xs : List α) : List α :=
  xs.take a ++ ((slice a b xs).insertionSort (· ≤ ·) ++ xs.drop b)

/-- The element at `i` is greater than the later one at `j`. -/
structure Inverted (xs : List α) (i j : Nat) : Prop where
  lt : i < j
  inside : j < xs.length
  greater : xs[j]! < xs[i]!

theorem sortedIn_iff_pairwise : SortedIn 0 xs.length xs ↔ xs.Pairwise (· ≤ ·) := by
  rw [sortedIn_iff_slice le_rfl, slice, List.drop_zero, Nat.sub_zero, List.take_length]

theorem rearranged_sortBlock (hab : a ≤ b) (hb : b ≤ xs.length) :
    Rearranged a b xs (sortBlock a b xs) :=
  Rearranged.of_slice hab hb (List.perm_insertionSort _ _)

theorem sortedIn_sortBlock (hab : a ≤ b) (hb : b ≤ xs.length) :
    SortedIn a b (sortBlock a b xs) := by
  have hlength : ((slice a b xs).insertionSort (· ≤ ·)).length = b - a := by
    rw [List.length_insertionSort, length_slice hb]
  rw [sortedIn_iff_slice ((rearranged_sortBlock hab hb).length_eq.symm ▸ hb), sortBlock,
    slice_of_append hab hb hlength]
  exact List.pairwise_insertionSort _ _

/-- A sorted block sorts the list exactly when every inversion lies in it. -/
theorem pairwise_sortBlock_iff (hab : a ≤ b) (hb : b ≤ xs.length) :
    (sortBlock a b xs).Pairwise (· ≤ ·) ↔ ∀ i j, Inverted xs i j → a ≤ i ∧ j < b := by
  have h := rearranged_sortBlock hab hb
  have hlength := h.length_eq
  rw [← sortedIn_iff_pairwise, hlength]
  constructor
  · intro hsorted i j hinv
    have hij := hinv.lt
    have hj := hinv.inside
    obtain ⟨p, hp, hpi⟩ := h.symm.origin (hlength.symm ▸ hb) i
    obtain ⟨q, hq, hqj⟩ := h.symm.origin (hlength.symm ▸ hb) j
    -- the two elements kept their order, unless both are in the block
    have hnot : ¬ p < q := fun hpq => by
      have hle := hsorted p q (Nat.zero_le p) hpq (by omega)
      rw [← hp, ← hq] at hle
      exact not_le.mpr hinv.greater hle
    omega
  · intro hall i j _ hij hj
    obtain ⟨p, hp, hpi⟩ := h.origin hb i
    obtain ⟨q, hq, hqj⟩ := h.origin hb j
    by_cases hblock : a ≤ i ∧ j < b
    · exact sortedIn_sortBlock hab hb i j hblock.1 hij hblock.2
    · rw [hp, hq]
      by_contra hlt
      have hinside := hall p q ⟨by omega, by omega, not_le.mp hlt⟩
      omega

theorem pairwise_iff_inverted : xs.Pairwise (· ≤ ·) ↔ ∀ i j, ¬ Inverted xs i j := by
  rw [← sortedIn_iff_pairwise]
  constructor
  · intro h i j hinv
    exact not_le.mpr hinv.greater (h i j (Nat.zero_le i) hinv.lt hinv.inside)
  · intro h i j _ hij hj
    exact not_lt.mp fun hlt => h i j ⟨hij, hj, hlt⟩

/-- The lengths of the blocks that it is enough to sort. -/
def sufficient (xs : List α) : Set Nat :=
  { n | ∃ a, a + n ≤ xs.length ∧ (sortBlock a (a + n) xs).Pairwise (· ≤ ·) }

theorem isLeast_sufficient_of_sorted (h : xs.Pairwise (· ≤ ·)) : IsLeast (sufficient xs) 0 := by
  refine ⟨⟨0, Nat.zero_le _, ?_⟩, fun n _ => Nat.zero_le n⟩
  rw [pairwise_sortBlock_iff le_rfl (Nat.zero_le _)]
  exact fun i j hinv => absurd hinv (pairwise_iff_inverted.mp h i j)

/-- The block from the first to the last element of an inversion. -/
theorem isLeast_sufficient {first last : Nat} (hfirst : ∃ j, Inverted xs first j)
    (hlast : ∃ i, Inverted xs i last) (hall : ∀ i j, Inverted xs i j → first ≤ i ∧ j ≤ last) :
    IsLeast (sufficient xs) (last + 1 - first) := by
  obtain ⟨q, hq⟩ := hfirst
  obtain ⟨p, hp⟩ := hlast
  have hpl := hp.lt
  have hinside := hp.inside
  have hle := (hall p last hp).1
  constructor
  · refine ⟨first, by omega, ?_⟩
    rw [pairwise_sortBlock_iff (by omega) (by omega)]
    intro i j hinv
    have hbounds := hall i j hinv
    omega
  · rintro n ⟨a, han, hsorted⟩
    rw [pairwise_sortBlock_iff (by omega) han] at hsorted
    have hlow := (hsorted first q hq).1
    have hhigh := (hsorted p last hp).2
    omega

end LanguageTest.Sorting
