import Mathlib.Data.Finset.Card
import Mathlib.Data.List.GetD
import Mathlib.Data.List.Sort

namespace LanguageTest.Selection

variable {α : Type*} {xs ys : List α} {p q i j : Nat} {x v d : α}

theorem getD_set (h : i < xs.length) :
    (xs.set i x).getD j d = if j = i then x else xs.getD j d := by
  rw [List.getD_eq_getElem?_getD, List.getElem?_set, List.getD_eq_getElem?_getD]
  by_cases hj : j = i
  · simp [hj, h]
  · simp [hj, Ne.symm hj]

/-- A list with a gap at one index: the gap moves when another element is put into it. -/
theorem perm_move_gap (hi : i < xs.length) (hj : j < xs.length) :
    ((xs.set i (xs.getD j d)).set j v).Perm (xs.set i v) := by
  by_cases hij : i = j
  · subst hij
    rw [List.set_set]
  · have hi' : i < (xs.set i v).length := by simpa
    have hj' : j < (xs.set i v).length := by simpa
    have hswap := List.set_set_perm hi' hj'
    have hget : xs.getD j d = xs[j] := List.getD_eq_getElem xs d hj
    rw [hget]
    simpa [hij] using hswap

section
variable [LinearOrder α]

/-- The element at this position is where sorting would put it. -/
structure SplitsAt (xs : List α) (q : Nat) (x : α) : Prop where
  element : xs[q]? = some x
  below : ∀ y ∈ xs.take q, y ≤ x
  above : ∀ y ∈ xs.drop (q + 1), x ≤ y

theorem SplitsAt.lt (h : SplitsAt xs q x) : q < xs.length :=
  (List.getElem?_eq_some_iff.mp h.element).1

theorem SplitsAt.getD_eq (h : SplitsAt xs q x) : xs.getD q d = x := by
  rw [List.getD_eq_getElem?_getD, h.element, Option.getD_some]

theorem SplitsAt.eq_append (h : SplitsAt xs q x) : xs = xs.take q ++ x :: xs.drop (q + 1) := by
  obtain ⟨hq, hx⟩ := List.getElem?_eq_some_iff.mp h.element
  rw [← hx, ← List.drop_eq_getElem_cons hq, List.take_append_drop]

/-- What is rearranged above a position that splits leaves it one. -/
theorem SplitsAt.of_take (h : SplitsAt xs q x) (hperm : ys.Perm xs)
    (hsame : ∀ i ≤ q, ys[i]? = xs[i]?) : SplitsAt ys q x := by
  have htake : ys.take (q + 1) = xs.take (q + 1) := by
    apply List.ext_getElem?
    intro i
    rw [List.getElem?_take, List.getElem?_take]
    split_ifs with hi
    · exact hsame i (Nat.lt_succ_iff.mp hi)
    · rfl
  have hdrop : (ys.drop (q + 1)).Perm (xs.drop (q + 1)) := by
    rw [← List.take_append_drop (q + 1) ys, ← List.take_append_drop (q + 1) xs, htake] at hperm
    exact (List.perm_append_left_iff _).mp hperm
  constructor
  case element => rw [hsame q le_rfl, h.element]
  case below =>
    have hsub := congrArg (List.take q) htake
    simp only [List.take_take, Nat.min_eq_left (Nat.le_succ q)] at hsub
    rw [hsub]
    exact h.below
  case above => exact fun y hy => h.above y (hdrop.mem_iff.mp hy)

/-- What is rearranged below it as well. -/
theorem SplitsAt.of_drop (h : SplitsAt xs q x) (hperm : ys.Perm xs)
    (hsame : ∀ i ≥ q, ys[i]? = xs[i]?) : SplitsAt ys q x := by
  have hdrop : ys.drop q = xs.drop q := by
    apply List.ext_getElem?
    intro i
    rw [List.getElem?_drop, List.getElem?_drop]
    exact hsame (q + i) (Nat.le_add_right q i)
  have htake : (ys.take q).Perm (xs.take q) := by
    rw [← List.take_append_drop q ys, ← List.take_append_drop q xs, hdrop] at hperm
    exact (List.perm_append_right_iff _).mp hperm
  constructor
  case element => rw [hsame q le_rfl, h.element]
  case below => exact fun y hy => h.below y (htake.mem_iff.mp hy)
  case above =>
    have hsub := congrArg (List.drop 1) hdrop
    simp only [List.drop_drop] at hsub
    rw [hsub]
    exact h.above

theorem insertionSort_congr (h : ys.Perm xs) :
    ys.insertionSort (· ≤ ·) = xs.insertionSort (· ≤ ·) := by
  have hperm := ((List.perm_insertionSort (· ≤ ·) ys).trans h).trans
    (List.perm_insertionSort (· ≤ ·) xs).symm
  exact hperm.eq_of_pairwise' (List.pairwise_insertionSort _ ys) (List.pairwise_insertionSort _ xs)

theorem SplitsAt.sorted (h : SplitsAt xs q x) : (xs.insertionSort (· ≤ ·))[q]? = some x := by
  have hlen : ((xs.take q).insertionSort (· ≤ ·)).length = q := by
    rw [List.length_insertionSort, List.length_take, Nat.min_eq_left h.lt.le]
  have hsort : xs.insertionSort (· ≤ ·) = (xs.take q).insertionSort (· ≤ ·) ++
      x :: (xs.drop (q + 1)).insertionSort (· ≤ ·) := by
    have hperm : (xs.insertionSort (· ≤ ·)).Perm ((xs.take q).insertionSort (· ≤ ·) ++
        x :: (xs.drop (q + 1)).insertionSort (· ≤ ·)) := by
      refine (List.perm_insertionSort _ xs).trans ?_
      conv => lhs; rw [h.eq_append]
      exact ((List.perm_insertionSort _ _).append ((List.perm_insertionSort _ _).cons x)).symm
    refine hperm.eq_of_pairwise' (r := (· ≤ ·)) (List.pairwise_insertionSort _ xs) ?_
    refine List.pairwise_append.mpr ⟨List.pairwise_insertionSort _ _,
      List.pairwise_cons.mpr ⟨?_, List.pairwise_insertionSort _ _⟩, ?_⟩
    · exact fun y hy => h.above y ((List.mem_insertionSort _).mp hy)
    · intro y hy z hz
      have hyx := h.below y ((List.mem_insertionSort _).mp hy)
      rcases List.mem_cons.mp hz with rfl | hz
      · exact hyx
      · exact hyx.trans (h.above z ((List.mem_insertionSort _).mp hz))
  rw [hsort, List.getElem?_append_right hlen.le, hlen, Nat.sub_self]
  rfl

/-- The order of the elements around a position that splits. -/
theorem splitsAt_iff (hq : q < xs.length) : SplitsAt xs q (xs.getD q d) ↔
    (∀ i < q, xs.getD i d ≤ xs.getD q d) ∧
      ∀ i, q < i → i < xs.length → xs.getD q d ≤ xs.getD i d := by
  have hget : ∀ {i}, i < xs.length → xs[i]? = some (xs.getD i d) := by
    intro i hi
    rw [List.getElem?_eq_getElem hi, List.getD_eq_getElem xs d hi]
  constructor
  · intro h
    constructor
    · intro i hi
      apply h.below
      apply List.mem_of_getElem? (i := i)
      rw [List.getElem?_take, if_pos hi, hget (hi.trans hq)]
    · intro i hqi hi
      apply h.above
      apply List.mem_of_getElem? (i := i - (q + 1))
      rw [List.getElem?_drop, Nat.add_sub_cancel' hqi, hget hi]
  · intro h
    constructor
    case element => exact hget hq
    case below =>
      intro y hy
      obtain ⟨i, hi⟩ := List.mem_iff_getElem?.mp hy
      rw [List.getElem?_take] at hi
      split_ifs at hi with hiq
      rw [hget (hiq.trans hq)] at hi
      exact Option.some.inj hi ▸ h.1 i hiq
    case above =>
      intro y hy
      obtain ⟨i, hi⟩ := List.mem_iff_getElem?.mp hy
      rw [List.getElem?_drop] at hi
      have hlt := (List.getElem?_eq_some_iff.mp hi).1
      rw [hget hlt] at hi
      exact Option.some.inj hi ▸ h.2 _ (by omega) hlt

open Classical in
/-- The positions that split a list. -/
noncomputable def splits (xs : List α) : Finset Nat :=
  (Finset.range xs.length).filter fun q => ∃ x, SplitsAt xs q x

theorem mem_splits : q ∈ splits xs ↔ ∃ x, SplitsAt xs q x := by
  classical
  rw [splits, Finset.mem_filter, Finset.mem_range, and_iff_right_iff_imp]
  exact fun ⟨x, h⟩ => h.lt

theorem card_splits_le (xs : List α) : (splits xs).card ≤ xs.length := by
  classical
  exact (Finset.card_filter_le _ _).trans (Finset.card_range _).le

end

end LanguageTest.Selection
