import LanguageTest.Library.Sorting

namespace LanguageTest.Sorting

variable {α : Type} [Inhabited α] {xs ys zs : List α} {a b i j k m n p q : Nat} {x : α}

/-- The elements from `a` up to, but not at, `b`. -/
def slice (a b : Nat) (xs : List α) : List α := (xs.drop a).take (b - a)

/-- A permutation that moves only elements from `a` up to, but not at, `b`. -/
structure Rearranged (a b : Nat) (xs ys : List α) : Prop where
  perm : ys.Perm xs
  outside : ∀ k, k < a ∨ b ≤ k → ys[k]! = xs[k]!

section
omit [Inhabited α]

theorem drop_eq_slice_append (hab : a ≤ b) : xs.drop a = slice a b xs ++ xs.drop b := by
  have hdrop := List.drop_drop (i := b - a) (j := a) (l := xs)
  rw [Nat.add_sub_cancel' hab] at hdrop
  rw [slice, ← hdrop, List.take_append_drop]

theorem take_append_slice (hab : a ≤ b) : xs.take a ++ (slice a b xs ++ xs.drop b) = xs := by
  rw [← drop_eq_slice_append hab, List.take_append_drop]

theorem slice_append (hab : a ≤ b) (hbn : b ≤ n) :
    slice a n xs = slice a b xs ++ slice b n xs := by
  have hsum : n - a = b - a + (n - b) := by omega
  have hdrop := List.drop_drop (i := b - a) (j := a) (l := xs)
  rw [Nat.add_sub_cancel' hab] at hdrop
  rw [slice, slice, slice, hsum, List.take_add, hdrop]

theorem length_slice (hb : b ≤ xs.length) : (slice a b xs).length = b - a := by
  rw [slice, List.length_take, List.length_drop]
  omega

theorem slice_of_append (hab : a ≤ b) (hb : b ≤ xs.length) (hz : zs.length = b - a) :
    slice a b (xs.take a ++ (zs ++ xs.drop b)) = zs := by
  have htake : (xs.take a).length = a := List.length_take_of_le (hab.trans hb)
  rw [slice, List.drop_left' htake, List.take_left' hz]

theorem slice_self : slice a a xs = [] := by
  rw [slice, Nat.sub_self, List.take_zero]

end

theorem slice_cons (hab : a < b) (hb : b ≤ xs.length) :
    slice a b xs = xs[a]! :: slice (a + 1) b xs := by
  obtain ⟨d, hd⟩ : ∃ d, b - a = d + 1 := ⟨b - a - 1, by omega⟩
  have hrest : b - (a + 1) = d := by omega
  rw [slice, slice, drop_eq_cons (by omega), hd, List.take_succ_cons, hrest]

theorem getElem!_slice (hk : k < b - a) : (slice a b xs)[k]! = xs[a + k]! := by
  rw [slice, getElem!_take hk, getElem!_drop]

theorem mem_slice (hb : b ≤ xs.length) :
    x ∈ slice a b xs ↔ ∃ k, a ≤ k ∧ k < b ∧ xs[k]! = x := by
  rw [mem_iff_getElem!, length_slice hb]
  constructor
  · rintro ⟨k, hk, rfl⟩
    exact ⟨a + k, by omega, by omega, (getElem!_slice hk).symm⟩
  · rintro ⟨k, hak, hkb, rfl⟩
    refine ⟨k - a, by omega, ?_⟩
    rw [getElem!_slice (by omega), Nat.add_sub_cancel' hak]

namespace Rearranged

theorem refl : Rearranged a b xs xs := ⟨List.Perm.refl xs, fun _ _ => rfl⟩

theorem trans (h : Rearranged a b xs ys) (h' : Rearranged a b ys zs) : Rearranged a b xs zs :=
  ⟨h'.perm.trans h.perm, fun k hk => (h'.outside k hk).trans (h.outside k hk)⟩

theorem symm (h : Rearranged a b xs ys) : Rearranged a b ys xs :=
  ⟨h.perm.symm, fun k hk => (h.outside k hk).symm⟩

theorem mono (h : Rearranged p q xs ys) (hp : a ≤ p) (hq : q ≤ b) : Rearranged a b xs ys :=
  ⟨h.perm, fun k hk => h.outside k (by omega)⟩

theorem length_eq (h : Rearranged a b xs ys) : ys.length = xs.length := h.perm.length_eq

theorem swap (hi : i < xs.length) (hj : j < xs.length) (hai : a ≤ i) (hib : i < b) (haj : a ≤ j)
    (hjb : j < b) : Rearranged a b xs (swapped xs i j) := by
  refine ⟨perm_swapped hi hj, fun k hk => ?_⟩
  rw [getElem!_swapped hi hj, if_neg (by omega), if_neg (by omega)]

theorem take_eq (h : Rearranged a b xs ys) : ys.take a = xs.take a := by
  have hlength := h.length_eq
  refine List.ext_getElem (by rw [List.length_take, List.length_take, hlength]) ?_
  intro k hky hkx
  have hka : k < a := hkx.trans_le (List.length_take_le a xs)
  rw [List.getElem_take, List.getElem_take, ← getElem!_pos ys k _, ← getElem!_pos xs k _]
  exact h.outside k (Or.inl hka)

theorem drop_eq (h : Rearranged a b xs ys) : ys.drop b = xs.drop b := by
  have hlength := h.length_eq
  refine List.ext_getElem (by rw [List.length_drop, List.length_drop, hlength]) ?_
  intro k hky hkx
  rw [List.getElem_drop, List.getElem_drop, ← getElem!_pos ys (b + k) _,
    ← getElem!_pos xs (b + k) _]
  exact h.outside (b + k) (Or.inr (Nat.le_add_right b k))

theorem slice_perm (h : Rearranged a b xs ys) (hab : a ≤ b) :
    (slice a b ys).Perm (slice a b xs) := by
  have hperm := h.perm
  have hx : xs.take a ++ (slice a b xs ++ xs.drop b) = xs := take_append_slice hab
  have hy : ys.take a ++ (slice a b ys ++ ys.drop b) = ys := take_append_slice hab
  rw [← hx, ← hy, h.take_eq, h.drop_eq] at hperm
  exact (List.perm_append_right_iff _).mp ((List.perm_append_left_iff _).mp hperm)

/-- Every element of the range was in it before. -/
theorem source (h : Rearranged a b xs ys) (hb : b ≤ xs.length) (hak : a ≤ k) (hkb : k < b) :
    ∃ j, a ≤ j ∧ j < b ∧ ys[k]! = xs[j]! := by
  have hmem : ys[k]! ∈ slice a b ys := (mem_slice (h.length_eq ▸ hb)).mpr ⟨k, hak, hkb, rfl⟩
  obtain ⟨j, haj, hjb, hj⟩ := (mem_slice hb).mp ((h.slice_perm (by omega)).subset hmem)
  exact ⟨j, haj, hjb, hj.symm⟩

/-- Every element comes from its own place, or from one of the range if its place is in it. -/
theorem origin (h : Rearranged a b xs ys) (hb : b ≤ xs.length) (k : Nat) :
    ∃ j, ys[k]! = xs[j]! ∧ (j = k ∧ (k < a ∨ b ≤ k) ∨ a ≤ j ∧ j < b ∧ a ≤ k ∧ k < b) := by
  by_cases hk : k < a ∨ b ≤ k
  · exact ⟨k, h.outside k hk, Or.inl ⟨rfl, hk⟩⟩
  · obtain ⟨hak, hkb⟩ := not_or.mp hk
    obtain ⟨j, haj, hjb, hj⟩ := h.source hb (Nat.not_lt.mp hak) (Nat.not_le.mp hkb)
    exact ⟨j, hj, Or.inr ⟨haj, hjb, Nat.not_lt.mp hak, Nat.not_le.mp hkb⟩⟩

/-- A bound on the elements of a range stays one. -/
theorem bound (h : Rearranged a b xs ys) (hb : b ≤ xs.length) {P : α → Prop}
    (hP : ∀ k, a ≤ k → k < b → P xs[k]!) (hak : a ≤ k) (hkb : k < b) : P ys[k]! := by
  obtain ⟨j, haj, hjb, hj⟩ := h.source hb hak hkb
  exact hj ▸ hP j haj hjb

/-- A range that is replaced by a permutation of it. -/
theorem of_slice (hab : a ≤ b) (hb : b ≤ xs.length) (hz : zs.Perm (slice a b xs)) :
    Rearranged a b xs (xs.take a ++ (zs ++ xs.drop b)) := by
  have hlength : zs.length = b - a := hz.length_eq.trans (length_slice hb)
  have htake : (xs.take a).length = a := List.length_take_of_le (hab.trans hb)
  constructor
  · have hperm := (hz.append_right (xs.drop b)).append_left (xs.take a)
    rwa [take_append_slice hab] at hperm
  · intro k hk
    rw [List.getElem!_eq_getElem?_getD, List.getElem!_eq_getElem?_getD]
    rcases hk with hk | hk
    · rw [List.getElem?_append_left (by omega), List.getElem?_take_of_lt hk]
    · rw [List.getElem?_append_right (by omega), List.getElem?_append_right (by omega),
        List.getElem?_drop, htake, hlength]
      have hindex : b + (k - a - (b - a)) = k := by omega
      rw [hindex]

end Rearranged

section
variable [LinearOrder α]

theorem sortedIn_iff_slice (hb : b ≤ xs.length) :
    SortedIn a b xs ↔ (slice a b xs).Pairwise (· ≤ ·) := by
  rw [List.pairwise_iff_getElem]
  constructor
  · intro h i j hi hj hij
    rw [length_slice hb] at hi hj
    rw [← getElem!_pos (slice a b xs) i _, ← getElem!_pos (slice a b xs) j _, getElem!_slice hi,
      getElem!_slice hj]
    exact h (a + i) (a + j) (Nat.le_add_right a i) (by omega) (by omega)
  · intro h i j hai hij hjb
    have hi : i - a < (slice a b xs).length := by
      rw [length_slice hb]
      omega
    have hj : j - a < (slice a b xs).length := by
      rw [length_slice hb]
      omega
    have hle := h (i - a) (j - a) hi hj (by omega)
    rwa [← getElem!_pos (slice a b xs) (i - a) hi, ← getElem!_pos (slice a b xs) (j - a) hj,
      getElem!_slice (by omega), getElem!_slice (by omega), Nat.add_sub_cancel' hai,
      Nat.add_sub_cancel' (by omega)] at hle

/-- There is one way to sort a range. -/
theorem Rearranged.eq_sorted (h : Rearranged a b xs ys) (hs : SortedIn a b ys) (hab : a ≤ b)
    (hb : b ≤ xs.length) :
    ys = xs.take a ++ ((slice a b xs).insertionSort (· ≤ ·) ++ xs.drop b) := by
  have hsorted := (sortedIn_iff_slice (h.length_eq ▸ hb)).mp hs
  have hperm := (h.slice_perm hab).trans (List.perm_insertionSort (· ≤ ·) _).symm
  rw [← hperm.eq_of_pairwise' hsorted (List.pairwise_insertionSort _ _), ← h.take_eq, ← h.drop_eq,
    take_append_slice hab]

/-- Two sorted ranges around an element that is not less than the ones before it, nor greater than
the ones after it. -/
theorem SortedIn.join (hleft : SortedIn a p xs) (hright : SortedIn (p + 1) b xs)
    (hbelow : ∀ k, a ≤ k → k < p → xs[k]! ≤ xs[p]!)
    (habove : ∀ k, p < k → k < b → xs[p]! ≤ xs[k]!) : SortedIn a b xs := by
  intro i j hai hij hjb
  rcases Nat.lt_trichotomy j p with hj | rfl | hj
  · exact hleft i j hai hij hj
  · exact hbelow i hai hij
  rcases Nat.lt_trichotomy i p with hi | rfl | hi
  · exact (hbelow i hai hi).trans (habove j hj hjb)
  · exact habove j hij hjb
  · exact hright i j hi hij hjb

/-- A sorted range is left as it is by changes elsewhere. -/
theorem SortedIn.frame (h : SortedIn a b xs) (hr : Rearranged p q xs ys) (hpq : b ≤ p ∨ q ≤ a) :
    SortedIn a b ys := by
  intro i j hai hij hjb
  rw [hr.outside i (by omega), hr.outside j (by omega)]
  exact h i j hai hij hjb

end

end LanguageTest.Sorting
