import LanguageTest.Library.Arithmetic
import Mathlib.Order.Basic
import Mathlib.Tactic.SplitIfs

namespace LanguageTest

/-- A vector and the other data of a program. The history has the indices that were accessed. -/
structure Vec (γ α : Type) where
  other : γ
  items : List α
  touched : List Int

namespace Vec
variable {γ α : Type}

def touch (s : Vec γ α) (i : Int) : Vec γ α := { s with touched := s.touched ++ [i] }

@[simp] theorem touch_items (s : Vec γ α) (i : Int) : (s.touch i).items = s.items := rfl

@[simp] theorem touch_other (s : Vec γ α) (i : Int) : (s.touch i).other = s.other := rfl

/-- Only indices between these two were accessed. -/
def Within (a b : Nat) (s t : Vec γ α) : Prop :=
  ∃ log : List Int, t.touched = s.touched ++ log ∧ ∀ i ∈ log, (a : Int) ≤ i ∧ i ≤ b

section
variable {s t u : Vec γ α} {a b i : Nat}

theorem Within.refl : Within a b s s := ⟨[], (List.append_nil _).symm, by simp⟩

theorem Within.trans (hl : Within a b s t) (hr : Within a b t u) : Within a b s u := by
  obtain ⟨xs, hxs, hx⟩ := hl
  obtain ⟨ys, hys, hy⟩ := hr
  refine ⟨xs ++ ys, by rw [hys, hxs, List.append_assoc], fun i hi => ?_⟩
  rcases List.mem_append.mp hi with hi | hi
  · exact hx i hi
  · exact hy i hi

theorem Within.mono {p q : Nat} (h : Within p q s t) (ha : a ≤ p) (hb : q ≤ b) :
    Within a b s t := by
  obtain ⟨log, hlog, hmem⟩ := h
  refine ⟨log, hlog, fun i hi => ?_⟩
  have hrange := hmem i hi
  omega

/-- An access to an index between the two, and a change of the contents. -/
theorem Within.next {log : List Int} (h : Within a b s t) (ht : u.touched = t.touched ++ log)
    (hlog : ∀ i ∈ log, (a : Int) ≤ i ∧ i ≤ b) : Within a b s u :=
  h.trans ⟨log, ht, hlog⟩

end

end Vec

variable {γ α : Type}

def size : Program (Vec γ α) Nat := do pure (← get).items.length

/-- `size()` as the bound of a loop whose variable is an `int` that is never negative, so that
the conversion of the variable to `size_t` does not change its value. -/
def sizeBound : Program (Vec γ α) Int := do pure (← size : Nat)

def element (i : Int) : Program (Vec γ α) α := do
  let s ← get
  if i < 0 then fail .outOfRange
  else
    match s.items[i.toNat]? with
    | none => fail .outOfRange
    | some x => do
      set (s.touch i)
      pure x

def assignElement (i : Int) (x : α) : Program (Vec γ α) Unit := do
  let s ← get
  if i < 0 ∨ s.items.length ≤ i.toNat then fail .outOfRange
  else set { s.touch i with items := s.items.set i.toNat x }

/-- `swap`. -/
def swapElements (i j : Int) : Program (Vec γ α) Unit := do
  let x ← element i
  let y ← element j
  assignElement i y
  assignElement j x

/-- `xs[i]`, for a vector or a string that the program does not change. -/
def itemAt {σ : Type} (xs : List α) (i : Int) : Program σ α :=
  if i < 0 then fail .outOfRange
  else
    match xs[i.toNat]? with
    | none => fail .outOfRange
    | some x => pure x

/-- The list with two of its elements swapped. -/
def swapped [Inhabited α] (xs : List α) (i j : Nat) : List α := (xs.set i xs[j]!).set j xs[i]!

section
variable {s : Vec γ α} {xs : List α} {i j k : Nat} {x : α}

theorem runs_size {Q : Nat → Vec γ α → Prop} : Runs size s Q ↔ Q s.items.length s := by
  rw [size, runs_bind, runs_get, runs_pure]

theorem runs_sizeBound {Q : Int → Vec γ α → Prop} :
    Runs sizeBound s Q ↔ Q s.items.length s := by
  rw [sizeBound, runs_bind, runs_size, runs_pure]

theorem runs_assignElement {Q : Unit → Vec γ α → Prop} (hi : i < s.items.length) :
    Runs (assignElement i x) s Q ↔ Q () { s.touch i with items := s.items.set i x } := by
  have hrange : ¬ ((i : Int) < 0 ∨ s.items.length ≤ (i : Int).toNat) := by omega
  rw [assignElement, runs_bind, runs_get, if_neg hrange, runs_set, Int.toNat_natCast]

variable [Inhabited α]

theorem getElem!_of_lt (hi : i < xs.length) : xs[i]? = some xs[i]! := by
  rw [List.getElem!_eq_getElem?_getD, List.getElem?_eq_getElem hi, Option.getD_some]

theorem mem_iff_getElem! : x ∈ xs ↔ ∃ k, k < xs.length ∧ xs[k]! = x := by
  rw [List.mem_iff_getElem]
  constructor
  · rintro ⟨k, hk, rfl⟩
    exact ⟨k, hk, getElem!_pos xs k hk⟩
  · rintro ⟨k, hk, rfl⟩
    exact ⟨k, hk, (getElem!_pos xs k hk).symm⟩

theorem getElem!_drop {n : Nat} : (xs.drop n)[k]! = xs[n + k]! := by
  rw [List.getElem!_eq_getElem?_getD, List.getElem!_eq_getElem?_getD, List.getElem?_drop]

theorem getElem!_take {n : Nat} (hk : k < n) : (xs.take n)[k]! = xs[k]! := by
  rw [List.getElem!_eq_getElem?_getD, List.getElem?_take_of_lt hk, ← List.getElem!_eq_getElem?_getD]

theorem getElem!_replicate {n : Nat} (hi : i < n) : (List.replicate n x)[i]! = x := by
  rw [List.getElem!_eq_getElem?_getD, List.getElem?_replicate_of_lt hi, Option.getD_some]

theorem mem_drop_iff {n : Nat} : x ∈ xs.drop n ↔ ∃ k, n ≤ k ∧ k < xs.length ∧ xs[k]! = x := by
  rw [mem_iff_getElem!]
  constructor
  · rintro ⟨k, hk, rfl⟩
    rw [List.length_drop] at hk
    exact ⟨n + k, by omega, by omega, getElem!_drop.symm⟩
  · rintro ⟨k, hnk, hk, rfl⟩
    refine ⟨k - n, by rw [List.length_drop]; omega, ?_⟩
    rw [getElem!_drop, Nat.add_sub_cancel' hnk]

theorem drop_eq_cons (hi : i < xs.length) : xs.drop i = xs[i]! :: xs.drop (i + 1) := by
  rw [List.drop_eq_getElem_cons hi, getElem!_pos xs i hi]

theorem take_succ_eq (hi : i < xs.length) : xs.take (i + 1) = xs.take i ++ [xs[i]!] := by
  rw [List.take_add_one, getElem!_of_lt hi, Option.toList_some]

theorem getElem!_set (hi : i < xs.length) : (xs.set i x)[k]! = if k = i then x else xs[k]! := by
  rw [List.getElem!_eq_getElem?_getD, List.getElem!_eq_getElem?_getD, List.getElem?_set]
  by_cases hk : k = i
  · simp [hk, hi]
  · simp [hk, Ne.symm hk]

@[simp] theorem length_swapped : (swapped xs i j).length = xs.length := by simp [swapped]

theorem getElem!_swapped (hi : i < xs.length) (hj : j < xs.length) :
    (swapped xs i j)[k]! = if k = j then xs[i]! else if k = i then xs[j]! else xs[k]! := by
  rw [swapped, getElem!_set (by simpa), getElem!_set hi]

theorem swapped_comm : swapped xs i j = swapped xs j i := by
  rcases eq_or_ne i j with rfl | hne
  · rfl
  · rw [swapped, swapped, List.set_comm _ _ hne]

theorem perm_swapped (hi : i < xs.length) (hj : j < xs.length) : (swapped xs i j).Perm xs := by
  have hswap := List.set_set_perm hi hj
  have hx : xs[i]! = xs[i] := getElem!_pos xs i hi
  have hy : xs[j]! = xs[j] := getElem!_pos xs j hj
  rw [swapped, hx, hy]
  exact hswap

theorem swapped_self (hi : i < xs.length) : swapped xs i i = xs := by
  rw [swapped, List.set_set, getElem!_pos xs i hi, List.set_getElem_self]

theorem swapped_swapped (hi : i < xs.length) (hj : j < xs.length) :
    swapped (swapped xs i j) i j = xs := by
  refine List.ext_getElem (by simp) fun k hk hk' => ?_
  have hi' : i < (swapped xs i j).length := by rwa [length_swapped]
  have hj' : j < (swapped xs i j).length := by rwa [length_swapped]
  rw [← getElem!_pos _ k hk, ← getElem!_pos _ k hk', getElem!_swapped hi' hj',
    getElem!_swapped hi hj, getElem!_swapped hi hj, getElem!_swapped hi hj]
  split_ifs <;> simp_all

theorem runs_itemAt {σ : Type} {s : σ} {Q : α → σ → Prop} (hi : i < xs.length) :
    Runs (itemAt xs i) s Q ↔ Q xs[i]! s := by
  have hnonneg : ¬ ((i : Int) < 0) := by omega
  rw [itemAt, if_neg hnonneg, Int.toNat_natCast, getElem!_of_lt hi]
  exact runs_pure

theorem runs_element {Q : α → Vec γ α → Prop} (hi : i < s.items.length) :
    Runs (element i) s Q ↔ Q s.items[i]! (s.touch i) := by
  have hnonneg : ¬ ((i : Int) < 0) := by omega
  rw [element, runs_bind, runs_get, if_neg hnonneg, Int.toNat_natCast, getElem!_of_lt hi]
  simp only [runs_bind, runs_set, runs_pure]

/-- Two elements are read and then used. -/
theorem runs_elements {β : Type} {k : α → α → Program (Vec γ α) β} {Q : β → Vec γ α → Prop}
    (hi : i < s.items.length) (hj : j < s.items.length) :
    Runs (do k (← element i) (← element j)) s Q ↔
      Runs (k s.items[i]! s.items[j]!) ((s.touch i).touch j) Q := by
  rw [runs_bind, runs_element hi, runs_bind, runs_element (s := s.touch i) hj, Vec.touch_items]

/-- The state after a swap. -/
def Vec.swap (s : Vec γ α) (i j : Nat) : Vec γ α :=
  { s with items := swapped s.items i j, touched := s.touched ++ [(i : Int), j, i, j] }

@[simp] theorem Vec.swap_items : (s.swap i j).items = swapped s.items i j := rfl

@[simp] theorem Vec.swap_other : (s.swap i j).other = s.other := rfl

theorem runs_swapElements {Q : Unit → Vec γ α → Prop} (hi : i < s.items.length)
    (hj : j < s.items.length) : Runs (swapElements i j) s Q ↔ Q () (s.swap i j) := by
  have hj' : j < (s.items.set i s.items[j]!).length := by simpa
  rw [swapElements, runs_elements hi hj, runs_bind,
    runs_assignElement (s := (s.touch i).touch j) hi]
  refine (runs_assignElement hj').trans ?_
  simp only [Vec.touch, Vec.swap, swapped, List.append_assoc, List.cons_append, List.nil_append]

end

section
variable [Inhabited α] {σ : Type} {s : Vec γ α} {t : σ} {xs : List α} {i : Int} {x : α}

theorem runs_itemAt_iff {Q : α → σ → Prop} :
    Runs (itemAt xs i) t Q ↔ ∃ k : Nat, i = k ∧ k < xs.length ∧ Q xs[k]! t := by
  constructor
  · intro h
    by_cases hi : i < 0
    · rw [itemAt, if_pos hi] at h
      exact absurd fails_fail h.not_fails
    obtain ⟨k, rfl⟩ := Int.eq_ofNat_of_zero_le (Int.not_lt.mp hi)
    by_cases hk : k < xs.length
    · exact ⟨k, rfl, hk, (runs_itemAt hk).mp h⟩
    · rw [itemAt, if_neg hi, Int.toNat_natCast, List.getElem?_eq_none (Nat.le_of_not_lt hk)] at h
      exact absurd fails_fail h.not_fails
  · rintro ⟨k, rfl, hk, hq⟩
    exact (runs_itemAt hk).mpr hq

theorem runs_element_iff {Q : α → Vec γ α → Prop} :
    Runs (element i) s Q ↔
      ∃ k : Nat, i = k ∧ k < s.items.length ∧ Q s.items[k]! (s.touch k) := by
  constructor
  · intro h
    rw [element, runs_bind, runs_get] at h
    by_cases hi : i < 0
    · rw [if_pos hi] at h
      exact absurd fails_fail h.not_fails
    obtain ⟨k, rfl⟩ := Int.eq_ofNat_of_zero_le (Int.not_lt.mp hi)
    by_cases hk : k < s.items.length
    · rw [if_neg hi, Int.toNat_natCast, getElem!_of_lt hk] at h
      simp only [runs_bind, runs_set, runs_pure] at h
      exact ⟨k, rfl, hk, h⟩
    · rw [if_neg hi, Int.toNat_natCast, List.getElem?_eq_none (Nat.le_of_not_lt hk)] at h
      exact absurd fails_fail h.not_fails
  · rintro ⟨k, rfl, hk, hq⟩
    exact (runs_element hk).mpr hq

theorem ensures_element_read : Ensures (element i) s fun x u => u = s.touch i ∧
    ∃ k : Nat, i = k ∧ k < s.items.length ∧ x = s.items[k]! := by
  intro x u hm
  have hruns := runs_element_iff.mp ((runs_of_ok (Q := fun y v => y = x ∧ v = u) hm).mpr ⟨rfl, rfl⟩)
  obtain ⟨k, rfl, hk, rfl, rfl⟩ := hruns
  exact ⟨rfl, k, rfl, hk, rfl⟩

theorem ensures_itemAt : Ensures (itemAt xs i) t fun x u => u = t ∧
    ∃ k : Nat, i = k ∧ k < xs.length ∧ x = xs[k]! := by
  intro x u hm
  have hruns := runs_itemAt_iff.mp ((runs_of_ok (Q := fun y v => y = x ∧ v = u) hm).mpr ⟨rfl, rfl⟩)
  obtain ⟨k, hi, hk, rfl, rfl⟩ := hruns
  exact ⟨rfl, k, hi, hk, rfl⟩

end

theorem fails_element {s : Vec γ α} {i : Int} (h : s.items = []) :
    Fails (element i) s .outOfRange := by
  refine Runs.fails (runs_get.mpr ?_)
  split_ifs
  · exact fails_fail
  · rw [h]
    exact fails_fail

theorem fails_element_of_le {s : Vec γ α} {i : Nat} (h : s.items.length ≤ i) :
    Fails (element (i : Int)) s .outOfRange := by
  have hnonneg : ¬ ((i : Int) < 0) := by omega
  refine Runs.fails (runs_get.mpr ?_)
  rw [if_neg hnonneg, Int.toNat_natCast, List.getElem?_eq_none h]
  exact fails_fail

section
variable {s : Vec γ α} {i j : Int} {x : α} {n : Nat}

/-- Operations keep the size, whether they end or not. -/
def HasSize (n : Nat) (s : Vec γ α) : Prop := s.items.length = n

theorem ensures_element (h : HasSize n s) : Ensures (element i) s fun _ t => HasSize n t := by
  refine Runs.bind_ensures (runs_get.mpr ?_)
  split_ifs
  · exact fails_fail.ensures
  · cases s.items[i.toNat]? with
    | none => exact fails_fail.ensures
    | some x =>
      have hread : HasSize n (s.touch i) := h
      exact Runs.bind_ensures (runs_set.mpr (ensures_pure hread))

theorem ensures_assignElement (h : HasSize n s) :
    Ensures (assignElement i x) s fun _ t => HasSize n t := by
  refine Runs.bind_ensures (runs_get.mpr ?_)
  split_ifs
  · exact fails_fail.ensures
  · exact (runs_set.mpr ((List.length_set ..).trans h)).ensures

theorem ensures_swapElements (h : HasSize n s) :
    Ensures (swapElements i j) s fun _ t => HasSize n t := by
  refine Ensures.bind ((ensures_element h).mono fun x t ht => ?_)
  refine Ensures.bind ((ensures_element ht).mono fun y u hu => ?_)
  exact Ensures.bind ((ensures_assignElement hu).mono fun _ _ h => ensures_assignElement h)

end

end LanguageTest
