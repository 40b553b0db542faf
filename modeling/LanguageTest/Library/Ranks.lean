import LanguageTest.Library.Sorting
import Mathlib.Data.List.Count

namespace LanguageTest.Sorting

variable {α : Type} [Inhabited α] [LinearOrder α] {xs ys : List α} {i j k m p : Nat} {x y : α}

/-- How many elements are less than `x`. -/
def less (x : α) (xs : List α) : Nat := xs.countP (· < x)

/-- How many of the elements before `j` are equal to the one at `j`. -/
def earlier (xs : List α) (j : Nat) : Nat := (xs.take j).count xs[j]!

/-- The position of the element at `j` after a stable sort. -/
def rank (xs : List α) (j : Nat) : Nat := less xs[j]! xs + earlier xs j

theorem count_take_succ (hj : j < xs.length) (x : α) :
    (xs.take (j + 1)).count x = (xs.take j).count x + if xs[j]! = x then 1 else 0 := by
  rw [List.take_add_one, List.getElem?_eq_getElem hj, Option.toList_some, List.count_append,
    List.count_singleton, getElem!_pos xs j hj]
  simp only [beq_iff_eq]

theorem earlier_succ (hj : j < xs.length) :
    (xs.take (j + 1)).count xs[j]! = earlier xs j + 1 := by
  rw [count_take_succ hj, if_pos rfl, earlier]

omit [Inhabited α] in
theorem count_take_mono (hij : i ≤ j) (x : α) : (xs.take i).count x ≤ (xs.take j).count x :=
  (List.take_sublist_take_left hij).count_le x

theorem earlier_lt (hj : j < xs.length) : earlier xs j < xs.count xs[j]! := by
  have hle := (List.take_sublist (j + 1) xs).count_le xs[j]!
  rw [earlier_succ hj] at hle
  exact hle

theorem earlier_strict (hij : i < j) (hj : j < xs.length) (heq : xs[i]! = xs[j]!) :
    earlier xs i < earlier xs j := by
  have hmono : (xs.take (i + 1)).count xs[j]! ≤ (xs.take j).count xs[j]! := count_take_mono hij _
  rw [← heq, earlier_succ (hij.trans hj)] at hmono
  rw [earlier, earlier, ← heq] at *
  exact hmono

theorem earlier_injective (hi : i < xs.length) (hj : j < xs.length) (heq : xs[i]! = xs[j]!)
    (h : earlier xs i = earlier xs j) : i = j := by
  rcases Nat.lt_trichotomy i j with hlt | rfl | hlt
  · exact absurd h (earlier_strict hlt hj heq).ne
  · rfl
  · exact absurd h.symm (earlier_strict hlt hi heq.symm).ne

/-- The copies of an element come one after the other. -/
theorem exists_earlier (h : m < xs.count x) :
    ∃ j, j < xs.length ∧ xs[j]! = x ∧ earlier xs j = m := by
  have hstep : ∀ n ≤ xs.length, m < (xs.take n).count x →
      ∃ j, j < n ∧ xs[j]! = x ∧ earlier xs j = m := by
    intro n
    induction n with
    | zero =>
      intro _ hm
      rw [List.take_zero, List.count_nil] at hm
      exact absurd hm (Nat.not_lt_zero m)
    | succ n ih =>
      intro hn hm
      by_cases hlt : m < (xs.take n).count x
      · obtain ⟨j, hj, hx, he⟩ := ih (by omega) hlt
        exact ⟨j, by omega, hx, he⟩
      · rw [count_take_succ hn] at hm
        by_cases hx : xs[n]! = x
        · rw [if_pos hx] at hm
          refine ⟨n, Nat.lt_succ_self n, hx, ?_⟩
          rw [earlier, hx]
          omega
        · rw [if_neg hx] at hm
          omega
  exact hstep xs.length le_rfl (by rwa [List.take_length])

section
omit [Inhabited α]

theorem countP_le (x : α) (xs : List α) : xs.countP (· ≤ x) = less x xs + xs.count x := by
  induction xs with
  | nil => rfl
  | cons y ys ih =>
    rw [List.countP_cons, less, List.countP_cons, List.count_cons, ih, less]
    rcases lt_trichotomy y x with h | h | h
    · simp [h, h.le, h.ne]
      omega
    · simp [h]
      omega
    · simp [h.not_ge, h.not_gt, h.ne']

theorem countP_le_eq_length (h : ∀ y ∈ xs, y ≤ x) : xs.countP (· ≤ x) = xs.length := by
  rw [List.countP_eq_length]
  intro y hy
  exact decide_eq_true (h y hy)

theorem countP_le_less (h : x < y) (xs : List α) : xs.countP (· ≤ x) ≤ less y xs :=
  List.countP_mono_left fun z _ hz => by
    simp only [decide_eq_true_eq] at hz ⊢
    exact hz.trans_lt h

theorem less_add_count_le (x : α) (xs : List α) : less x xs + xs.count x ≤ xs.length := by
  rw [← countP_le]
  exact List.countP_le_length

theorem less_perm (h : ys.Perm xs) : less x ys = less x xs := h.countP_eq _

theorem less_append : less x (xs ++ ys) = less x xs + less x ys := List.countP_append

theorem less_eq_zero (h : ∀ y ∈ xs, x ≤ y) : less x xs = 0 := by
  rw [less, List.countP_eq_zero]
  intro y hy
  rw [decide_eq_true_eq, not_lt]
  exact h y hy

end

theorem SortedIn.mono_getElem! (h : SortedIn 0 ys.length ys) (hij : i ≤ j) (hj : j < ys.length) :
    ys[i]! ≤ ys[j]! := by
  rcases Nat.eq_or_lt_of_le hij with rfl | hlt
  · exact le_rfl
  · exact h i j (Nat.zero_le i) hlt hj

theorem SortedIn.less_le (h : SortedIn 0 ys.length ys) (hx : x ≤ ys[p]!) : less x ys ≤ p := by
  have hdrop : less x (ys.drop p) = 0 := by
    refine less_eq_zero fun z hz => ?_
    obtain ⟨k, hpk, hk, rfl⟩ := mem_drop_iff.mp hz
    exact hx.trans (h.mono_getElem! hpk hk)
  have hsplit : less x ys = less x (ys.take p) + less x (ys.drop p) := by
    rw [← less_append, List.take_append_drop]
  rw [hsplit, hdrop, Nat.add_zero]
  exact List.countP_le_length.trans (List.length_take_le p ys)

/-- The element at a position of a sorted list. -/
theorem SortedIn.range (h : SortedIn 0 ys.length ys) (hp : p < ys.length) :
    less ys[p]! ys ≤ p ∧ p < less ys[p]! ys + ys.count ys[p]! := by
  constructor
  · exact h.less_le le_rfl
  · have htake : (ys.take (p + 1)).countP (· ≤ ys[p]!) = p + 1 := by
      have hlength : (ys.take (p + 1)).length = p + 1 := List.length_take_of_le hp
      refine (List.countP_eq_length.mpr ?_).trans hlength
      intro z hz
      obtain ⟨k, hk, rfl⟩ := mem_iff_getElem!.mp hz
      rw [hlength] at hk
      rw [decide_eq_true_eq, getElem!_take hk]
      exact h.mono_getElem! (Nat.le_of_lt_succ hk) hp
    rw [← countP_le]
    have hsub := (List.take_sublist (p + 1) ys).countP_le (p := (· ≤ ys[p]!))
    rw [htake] at hsub
    exact hsub

theorem SortedIn.eq_of_range (h : SortedIn 0 ys.length ys) (hlow : less x ys ≤ p)
    (hhigh : p < less x ys + ys.count x) : ys[p]! = x := by
  have hp : p < ys.length := hhigh.trans_le (less_add_count_le x ys)
  obtain ⟨hle, hlt⟩ := h.range hp
  rw [← countP_le] at hlt hhigh
  rcases lt_trichotomy ys[p]! x with hless | heq | hgreater
  · have hmono := countP_le_less hless ys
    omega
  · exact heq
  · have hmono := countP_le_less hgreater ys
    omega

/-- The elements that are less come first. -/
theorem SortedIn.lt_less_iff (h : SortedIn 0 ys.length ys) (hp : p < ys.length) :
    p < less x ys ↔ ys[p]! < x := by
  constructor
  · intro hlt
    by_contra hle
    exact absurd (h.less_le (not_lt.mp hle)) (Nat.not_le.mpr hlt)
  · intro hlt
    have hrange := (h.range hp).2
    rw [← countP_le] at hrange
    exact hrange.trans_le (countP_le_less hlt ys)

theorem SortedIn.mem_iff (h : SortedIn 0 ys.length ys) :
    x ∈ ys ↔ less x ys < ys.length ∧ ys[less x ys]! = x := by
  constructor
  · intro hx
    have hcount : 0 < ys.count x := List.count_pos_iff.mpr hx
    have hlength := less_add_count_le x ys
    exact ⟨by omega, h.eq_of_range le_rfl (Nat.lt_add_of_pos_right hcount)⟩
  · exact fun hx => mem_iff_getElem!.mpr ⟨_, hx⟩

omit [Inhabited α] in
theorem less_insertionSort (x : α) (xs : List α) :
    less x (xs.insertionSort (· ≤ ·)) = less x xs :=
  less_perm (List.perm_insertionSort _ xs)

omit [Inhabited α] in
theorem count_insertionSort (x : α) (xs : List α) :
    (xs.insertionSort (· ≤ ·)).count x = xs.count x :=
  (List.perm_insertionSort _ xs).count_eq x

/-- A sort moves each element to its rank. -/
theorem sorted_rank (hj : j < xs.length) : (xs.insertionSort (· ≤ ·))[rank xs j]! = xs[j]! := by
  have hlt := earlier_lt hj
  refine sorted_insertionSort.eq_of_range ?_ ?_
  · rw [less_insertionSort, rank]
    omega
  · rw [less_insertionSort, count_insertionSort, rank]
    omega

theorem exists_rank (hp : p < xs.length) :
    ∃ j, j < xs.length ∧ rank xs j = p ∧ xs[j]! = (xs.insertionSort (· ≤ ·))[p]! := by
  have hlast : p < (xs.insertionSort (· ≤ ·)).length := by rwa [List.length_insertionSort]
  obtain ⟨hle, hlt⟩ := sorted_insertionSort.range hlast
  generalize (xs.insertionSort (· ≤ ·))[p]! = x at *
  rw [less_insertionSort, count_insertionSort] at hlt
  rw [less_insertionSort] at hle
  obtain ⟨j, hj, hx, he⟩ := exists_earlier (show p - less x xs < xs.count x by omega)
  refine ⟨j, hj, ?_, hx⟩
  rw [rank, hx, he]
  omega

theorem rank_lt_less (hj : j < xs.length) (hlt : xs[j]! < x) : rank xs j < less x xs := by
  have hearlier := earlier_lt hj
  have hle := countP_le_less hlt xs
  rw [countP_le] at hle
  rw [rank]
  omega

/-- A sort moves the greatest elements to the end. -/
theorem sorted_greatest (hx : ∀ y ∈ xs, y ≤ x) (hlow : less x xs ≤ p) (hp : p < xs.length) :
    (xs.insertionSort (· ≤ ·))[p]! = x := by
  rw [← less_insertionSort] at hlow
  refine sorted_insertionSort.eq_of_range hlow ?_
  rwa [less_insertionSort, count_insertionSort, ← countP_le, countP_le_eq_length hx]

/-- `x` is the `k`-th least element, counted from one. -/
def Kth (k : Nat) (x : α) (xs : List α) : Prop := less x xs < k ∧ k ≤ xs.countP (· ≤ x)

section
omit [Inhabited α]

theorem Kth.perm (h : Kth k x xs) (hperm : xs.Perm ys) : Kth k x ys := by
  obtain ⟨hlow, hhigh⟩ := h
  rw [← less_perm hperm.symm] at hlow
  rw [hperm.countP_eq] at hhigh
  exact ⟨hlow, hhigh⟩

theorem Kth.mem (h : Kth k x xs) : x ∈ xs := by
  obtain ⟨hlow, hhigh⟩ := h
  rw [countP_le] at hhigh
  exact List.count_pos_iff.mp (by omega)

theorem Kth.length_le (h : Kth k x xs) : k ≤ xs.length := h.2.trans List.countP_le_length

theorem countP_le_eq_zero (h : ∀ y ∈ xs, x < y) : xs.countP (· ≤ x) = 0 := by
  rw [List.countP_eq_zero]
  intro y hy
  rw [decide_eq_true_eq, not_le]
  exact h y hy

theorem kth_least (hx : x ∈ xs) (h : ∀ y ∈ xs, x ≤ y) : Kth 1 x xs := by
  refine ⟨by rw [less_eq_zero h]; exact Nat.one_pos, ?_⟩
  exact List.countP_pos_iff.mpr ⟨x, hx, decide_eq_true le_rfl⟩

theorem kth_greatest (h : ∀ y ∈ xs, y ≤ x) (hlow : less x xs < k) (hk : k ≤ xs.length) :
    Kth k x xs :=
  ⟨hlow, by rwa [countP_le_eq_length h]⟩

/-- Elements that are not greater are left out, and the count starts after them. -/
theorem Kth.append_left (h : Kth m x ys) (hxs : ∀ y ∈ xs, y ≤ x) :
    Kth (xs.length + m) x (xs ++ ys) := by
  obtain ⟨hlow, hhigh⟩ := h
  have hless : less x xs ≤ xs.length := List.countP_le_length
  constructor
  · rw [less_append]
    omega
  · rw [List.countP_append, countP_le_eq_length hxs]
    omega

end

theorem SortedIn.kth (h : SortedIn 0 ys.length ys) (hk : 1 ≤ k) (hlen : k ≤ ys.length) :
    Kth k ys[k - 1]! ys := by
  obtain ⟨hle, hlt⟩ := h.range (show k - 1 < ys.length by omega)
  rw [← countP_le] at hlt
  exact ⟨by omega, by omega⟩

theorem Kth.insertionSort (h : Kth k x xs) : (xs.insertionSort (· ≤ ·))[k - 1]? = some x := by
  have hlength := h.length_le
  obtain ⟨hlow, hhigh⟩ := h
  have hlen : k - 1 < (xs.insertionSort (· ≤ ·)).length := by
    rw [List.length_insertionSort]
    omega
  rw [countP_le] at hhigh
  rw [getElem!_of_lt hlen, Option.some_inj]
  refine sorted_insertionSort.eq_of_range ?_ ?_
  · rw [less_insertionSort]
    omega
  · rw [less_insertionSort, count_insertionSort]
    omega

theorem SortedIn.drop (h : SortedIn 0 ys.length ys) (i : Nat) :
    SortedIn 0 (ys.drop i).length (ys.drop i) := by
  intro p q _ hpq hq
  rw [List.length_drop] at hq
  rw [getElem!_drop, getElem!_drop]
  exact h (i + p) (i + q) (Nat.zero_le _) (by omega) (by omega)

/-- The `k`-th of two lists is not among the first `h` of a sorted one, or is no less than they are,
when `2 * h ≤ k` and only the first `h - 1` of the other list can be less than the `h`-th. -/
theorem Kth.discard {h : Nat} (hs : SortedIn 0 xs.length xs) (hpos : 1 ≤ h) (hlen : h ≤ xs.length)
    (hk : 2 * h ≤ k) (hother : ∀ q, h - 1 ≤ q → q < ys.length → xs[h - 1]! ≤ ys[q]!)
    (hrest : Kth (k - h) x (xs.drop h ++ ys)) : Kth k x (xs ++ ys) := by
  have hle : xs[h - 1]! ≤ x := by
    by_contra hgreater
    rw [not_le] at hgreater
    have hdrop : (xs.drop h).countP (· ≤ x) = 0 := by
      refine countP_le_eq_zero fun y hy => ?_
      obtain ⟨p, hp, hlast, rfl⟩ := mem_drop_iff.mp hy
      exact hgreater.trans_le (hs.mono_getElem! (by omega) hlast)
    have hfar : (ys.drop (h - 1)).countP (· ≤ x) = 0 := by
      refine countP_le_eq_zero fun y hy => ?_
      obtain ⟨q, hq, hlast, rfl⟩ := mem_drop_iff.mp hy
      exact hgreater.trans_le (hother q hq hlast)
    -- Only elements of the other list before `h - 1` are counted, which are too few.
    have hnear : (ys.take (h - 1)).countP (· ≤ x) ≤ h - 1 :=
      List.countP_le_length.trans (List.length_take_le _ _)
    have hsplit : ys.countP (· ≤ x) =
        (ys.take (h - 1)).countP (· ≤ x) + (ys.drop (h - 1)).countP (· ≤ x) := by
      rw [← List.countP_append, List.take_append_drop]
    have hcount := hrest.2
    rw [List.countP_append] at hcount
    omega
  have htake : ∀ y ∈ xs.take h, y ≤ x := by
    intro y hy
    obtain ⟨p, hp, rfl⟩ := mem_iff_getElem!.mp hy
    rw [List.length_take_of_le hlen] at hp
    rw [getElem!_take hp]
    exact (hs.mono_getElem! (by omega) (by omega)).trans hle
  have hall := hrest.append_left htake
  rw [List.length_take_of_le hlen, ← List.append_assoc, List.take_append_drop] at hall
  rwa [show h + (k - h) = k by omega] at hall

end LanguageTest.Sorting
