import LanguageTest.Library.Rearranged

namespace LanguageTest.Sorting

variable {α : Type} [Inhabited α] [LinearOrder α] {xs ys : List α} {c i k m n p fuel : Nat}

/-- The indices of the two children of `p` in an array that holds a binary heap. -/
def IsChild (p c : Nat) : Prop := c = 2 * p + 1 ∨ c = 2 * p + 2

/-- Of the first `n` elements, no child of one at `k` or later is greater than its parent. -/
def HeapFrom (k n : Nat) (xs : List α) : Prop :=
  ∀ p c, k ≤ p → IsChild p c → c < n → xs[c]! ≤ xs[p]!

/-- Only the element at `i` may be less than its children, which are not greater than its parent. -/
structure HeapExcept (k n i : Nat) (xs : List α) : Prop where
  others : ∀ p c, k ≤ p → p ≠ i → IsChild p c → c < n → xs[c]! ≤ xs[p]!
  above : ∀ p c, k ≤ p → IsChild p i → IsChild i c → c < n → xs[c]! ≤ xs[p]!

/-- The index of the greatest of an element and its children. -/
def maxChild (n i : Nat) (xs : List α) : Nat :=
  let m := if 2 * i + 1 < n ∧ xs[2 * i + 1]! > xs[i]! then 2 * i + 1 else i
  if 2 * i + 2 < n ∧ xs[2 * i + 2]! > xs[m]! then 2 * i + 2 else m

/-- The element at `i` goes down to where no child is greater. -/
def siftDown : Nat → Nat → Nat → List α → List α
  | 0, _, _, xs => xs
  | fuel + 1, n, i, xs =>
    let m := maxChild n i xs
    if m ≠ i then siftDown fuel n m (swapped xs i m) else xs

theorem IsChild.lt (h : IsChild p c) : p < c := by
  unfold IsChild at h
  omega

theorem IsChild.unique (h : IsChild p c) (h' : IsChild k c) : p = k := by
  unfold IsChild at h h'
  omega

theorem maxChild_cases (n i : Nat) (xs : List α) :
    maxChild n i xs = i ∨ IsChild i (maxChild n i xs) ∧ maxChild n i xs < n := by
  unfold maxChild IsChild
  dsimp only
  split_ifs <;> omega

theorem le_maxChild (n i : Nat) (xs : List α) :
    xs[i]! ≤ xs[maxChild n i xs]! ∧
      ∀ c, IsChild i c → c < n → xs[c]! ≤ xs[maxChild n i xs]! := by
  unfold maxChild
  dsimp only
  split_ifs with hleft hright hright
  · refine ⟨hleft.2.le.trans hright.2.le, ?_⟩
    rintro c (rfl | rfl) hc
    · exact hright.2.le
    · exact le_rfl
  · refine ⟨hleft.2.le, ?_⟩
    rintro c (rfl | rfl) hc
    · exact le_rfl
    · exact not_lt.mp fun hgt => hright ⟨hc, hgt⟩
  · refine ⟨hright.2.le, ?_⟩
    rintro c (rfl | rfl) hc
    · exact (not_lt.mp fun hgt => hleft ⟨hc, hgt⟩).trans hright.2.le
    · exact le_rfl
  · refine ⟨le_rfl, ?_⟩
    rintro c (rfl | rfl) hc
    · exact not_lt.mp fun hgt => hleft ⟨hc, hgt⟩
    · exact not_lt.mp fun hgt => hright ⟨hc, hgt⟩

theorem lt_maxChild (hm : maxChild n i xs ≠ i) : i < maxChild n i xs ∧ maxChild n i xs < n := by
  rcases maxChild_cases n i xs with h | ⟨hchild, hn⟩
  · exact absurd h hm
  · exact ⟨hchild.lt, hn⟩

theorem siftDown_of_ne (hm : maxChild n i xs ≠ i) : siftDown (fuel + 1) n i xs =
    siftDown fuel n (maxChild n i xs) (swapped xs i (maxChild n i xs)) :=
  if_pos hm

theorem siftDown_of_eq (hm : maxChild n i xs = i) : siftDown (fuel + 1) n i xs = xs :=
  if_neg (not_not.mpr hm)

namespace HeapExcept

theorem finish (h : HeapExcept k n i xs) (hm : maxChild n i xs = i) : HeapFrom k n xs := by
  intro p c hk hchild hc
  by_cases hp : p = i
  · have hle := (le_maxChild n i xs).2 c (hp ▸ hchild) hc
    rwa [hm, ← hp] at hle
  · exact h.others p c hk hp hchild hc

/-- The greatest child comes up, and the element is in its place. -/
theorem move (h : HeapExcept k n i xs) (hk : k ≤ i) (hi : i < xs.length) (hn : n ≤ xs.length)
    (hm : maxChild n i xs ≠ i) :
    HeapExcept k n (maxChild n i xs) (swapped xs i (maxChild n i xs)) := by
  obtain ⟨hself, hchildren⟩ := le_maxChild n i xs
  obtain ⟨hlt, hmn⟩ := lt_maxChild hm
  have hchild : IsChild i (maxChild n i xs) := ((maxChild_cases n i xs).resolve_left hm).1
  generalize maxChild n i xs = m at *
  have hmx : m < xs.length := by omega
  have hat : (swapped xs i m)[i]! = xs[m]! := by
    rw [getElem!_swapped hi hmx, if_neg hlt.ne, if_pos rfl]
  have hother : ∀ c, c ≠ i → c ≠ m → (swapped xs i m)[c]! = xs[c]! := by
    intro c hci hcm
    rw [getElem!_swapped hi hmx, if_neg hcm, if_neg hci]
  constructor
  case others =>
    intro p c hkp hpm hpc hc
    have hgt := hpc.lt
    by_cases hpi : p = i
    · subst hpi
      rw [hat]
      by_cases hcm : c = m
      · rw [hcm, getElem!_swapped hi hmx, if_pos rfl]
        exact hself
      · rw [hother c (by omega) hcm]
        exact hchildren c hpc hc
    · rw [hother p hpi hpm]
      have hcm : c ≠ m := fun hcm => hpi ((hcm ▸ hpc).unique hchild)
      by_cases hci : c = i
      · rw [hci, hat]
        exact h.above p m hkp (hci ▸ hpc) hchild hmn
      · rw [hother c hci hcm]
        exact h.others p c hkp hpi hpc hc
  case above =>
    intro p c hkp hpm hmc hc
    have hgt := hmc.lt
    rw [hpm.unique hchild, hat, hother c (by omega) (by omega)]
    exact h.others m c (by omega) hm hmc hc

end HeapExcept

theorem rearranged_siftDown (hi : i < n) (hn : n ≤ xs.length) :
    Rearranged 0 n xs (siftDown fuel n i xs) := by
  induction fuel generalizing i xs with
  | zero => exact .refl
  | succ fuel ih =>
    by_cases hm : maxChild n i xs = i
    · rw [siftDown_of_eq hm]
      exact .refl
    · obtain ⟨hlt, hmn⟩ := lt_maxChild hm
      rw [siftDown_of_ne hm]
      have hswap : Rearranged 0 n xs (swapped xs i (maxChild n i xs)) :=
        .swap (by omega) (by omega) (Nat.zero_le _) hi (Nat.zero_le _) hmn
      exact hswap.trans (ih hmn (by rwa [length_swapped]))

theorem heapFrom_siftDown (h : HeapExcept k n i xs) (hk : k ≤ i) (hi : i < n) (hn : n ≤ xs.length)
    (hf : n - i ≤ fuel) : HeapFrom k n (siftDown fuel n i xs) := by
  induction fuel generalizing i xs with
  | zero => omega
  | succ fuel ih =>
    by_cases hm : maxChild n i xs = i
    · rw [siftDown_of_eq hm]
      exact h.finish hm
    · obtain ⟨hlt, hmn⟩ := lt_maxChild hm
      rw [siftDown_of_ne hm]
      exact ih (h.move hk (by omega) hn hm) (by omega) hmn (by rwa [length_swapped]) (by omega)

/-- More fuel than the height of the subtree makes no difference. -/
theorem siftDown_succ (hf : n - i ≤ fuel) (hi : i < n) :
    siftDown (fuel + 1) n i xs = siftDown fuel n i xs := by
  induction fuel generalizing i xs with
  | zero => omega
  | succ fuel ih =>
    by_cases hm : maxChild n i xs = i
    · rw [siftDown_of_eq hm, siftDown_of_eq hm]
    · obtain ⟨hlt, hmn⟩ := lt_maxChild hm
      rw [siftDown_of_ne hm, siftDown_of_ne hm, ih (by omega) hmn]

/-- Only leaves. -/
theorem heapFrom_half : HeapFrom (n / 2) n xs := by
  intro p c hp hchild hc
  unfold IsChild at hchild
  omega

/-- One more element, all of whose children are in the heap. -/
theorem HeapFrom.except (h : HeapFrom (k + 1) n xs) : HeapExcept k n k xs where
  others p c hp hne hchild hc := h p c (by omega) hchild hc
  above p c hp hparent := absurd hparent.lt (by omega)

/-- The first element is the greatest. -/
theorem HeapFrom.root (h : HeapFrom 0 n xs) : ∀ k < n, xs[k]! ≤ xs[0]! := by
  intro k
  induction k using Nat.strong_induction_on with
  | h k ih =>
    intro hk
    rcases Nat.eq_zero_or_pos k with rfl | hpos
    · exact le_rfl
    · have hchild : IsChild ((k - 1) / 2) k := by
        unfold IsChild
        omega
      have hparent := hchild.lt
      exact (h _ k (Nat.zero_le _) hchild hk).trans (ih _ hparent (by omega))

/-- The root and the last element of the heap change places. -/
theorem HeapFrom.extract (h : HeapFrom 0 (n + 1) xs) (hn : n < xs.length) :
    HeapExcept 0 n 0 (swapped xs 0 n) := by
  constructor
  case others =>
    intro p c _ hp hchild hc
    have hlt := hchild.lt
    rw [getElem!_swapped (by omega) hn, getElem!_swapped (by omega) hn, if_neg (by omega),
      if_neg (by omega), if_neg (by omega), if_neg hp]
    exact h p c (Nat.zero_le p) hchild (by omega)
  case above => exact fun p c _ hparent => absurd hparent.lt (Nat.not_lt_zero p)

theorem SortedFrom.rearranged (h : SortedFrom m xs) (hr : Rearranged 0 m xs ys)
    (hm : m ≤ xs.length) : SortedFrom m ys := by
  intro i j hij hj hmj
  rw [hr.length_eq] at hj
  rw [hr.outside j (Or.inr hmj)]
  by_cases hi : i < m
  · exact hr.bound hm (P := fun x => x ≤ xs[j]!)
      (fun k _ hk => h k j (by omega) hj hmj) (Nat.zero_le i) hi
  · rw [hr.outside i (Or.inr (Nat.not_lt.mp hi))]
    exact h i j hij hj hmj

/-- The root is put before the sorted rest. -/
theorem SortedFrom.extract (h : SortedFrom (n + 1) xs) (hn : n < xs.length)
    (hroot : ∀ k < n + 1, xs[k]! ≤ xs[0]!) : SortedFrom n (swapped xs 0 n) := by
  have hr : Rearranged 0 (n + 1) xs (swapped xs 0 n) :=
    .swap (by omega) hn le_rfl (by omega) (Nat.zero_le n) (Nat.lt_succ_self n)
  refine (h.rearranged hr hn).cons fun k hk => ?_
  have hlast : (swapped xs 0 n)[n]! = xs[0]! := by
    rw [getElem!_swapped (by omega) hn, if_pos rfl]
  rw [hlast]
  exact hr.bound hn (P := fun x => x ≤ xs[0]!) (fun k _ hk => hroot k hk) (Nat.zero_le k)
    (by omega)

end LanguageTest.Sorting
