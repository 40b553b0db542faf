import LanguageTest.Library.Counting
import LanguageTest.Library.Elements
import Mathlib.Data.List.Sort

namespace LanguageTest.Sorting

variable {α : Type} [LinearOrder α] {xs ys zs : List α} {a b i j k m n p g : Nat}

theorem cons_ne_insertionSort {x y : α} (hy : y ∈ xs) (hlt : y < x) :
    x :: xs ≠ (x :: xs).insertionSort (· ≤ ·) := by
  intro h
  have hsorted := List.pairwise_insertionSort (· ≤ ·) (x :: xs)
  rw [← h, List.pairwise_cons] at hsorted
  exact not_le.mpr hlt (hsorted.1 y hy)

theorem pairwise_merge_key {β : Type*} (key : β → α) {us vs : List β}
    (hu : us.Pairwise fun x y => key x ≤ key y) (hv : vs.Pairwise fun x y => key x ≤ key y) :
    (List.merge us vs fun x y => key x ≤ key y).Pairwise fun x y => key x ≤ key y := by
  have htrans : ∀ x y z : β, decide (key x ≤ key y) → decide (key y ≤ key z) →
      decide (key x ≤ key z) := by
    intro x y z hxy hyz
    exact decide_eq_true ((of_decide_eq_true hxy).trans (of_decide_eq_true hyz))
  have htotal : ∀ x y : β, decide (key x ≤ key y) || decide (key y ≤ key x) := by
    intro x y
    simpa using le_total (key x) (key y)
  have hsorted := List.pairwise_merge htrans htotal _ _ (hu.imp decide_eq_true)
    (hv.imp decide_eq_true)
  exact hsorted.imp of_decide_eq_true

variable [Inhabited α]

/-- The elements from `a` up to, but not at, `b` are in order. -/
def SortedIn (a b : Nat) (xs : List α) : Prop :=
  ∀ i j, a ≤ i → i < j → j < b → xs[i]! ≤ xs[j]!

/-- Below `m`, the elements whose indices differ by multiples of `g` are in order. -/
def SortedMod (g m : Nat) (xs : List α) : Prop :=
  ∀ i j, i < j → j < m → i % g = j % g → xs[i]! ≤ xs[j]!

/-- The elements from `k` on are in order, and none is less than one before it. -/
def SortedFrom (k : Nat) (xs : List α) : Prop :=
  ∀ i j, i < j → j < xs.length → k ≤ j → xs[i]! ≤ xs[j]!

/-- The elements below `k` are in order, and none is greater than one after it. -/
def SortedUpTo (k : Nat) (xs : List α) : Prop :=
  ∀ i j, i < j → j < xs.length → i < k → xs[i]! ≤ xs[j]!

theorem eq_insertionSort (hperm : ys.Perm xs) (h : SortedIn 0 ys.length ys) :
    ys = xs.insertionSort (· ≤ ·) := by
  have hsorted : ys.Pairwise (· ≤ ·) := by
    rw [List.pairwise_iff_getElem]
    intro i j hi hj hij
    have hle := h i j (Nat.zero_le i) hij hj
    rwa [getElem!_pos ys i hi, getElem!_pos ys j hj] at hle
  have hboth := hperm.trans (List.perm_insertionSort (· ≤ ·) xs).symm
  exact hboth.eq_of_pairwise' hsorted (List.pairwise_insertionSort _ xs)

theorem sortedIn_insertionSort : SortedIn 0 xs.length (xs.insertionSort (· ≤ ·)) := by
  have hsorted := List.pairwise_insertionSort (· ≤ ·) xs
  rw [List.pairwise_iff_getElem] at hsorted
  intro i j _ hij hj
  have hlast : j < (xs.insertionSort (· ≤ ·)).length := by rwa [List.length_insertionSort]
  have hfirst := Nat.lt_trans hij hlast
  rw [getElem!_pos _ i hfirst, getElem!_pos _ j hlast]
  exact hsorted i j hfirst hlast hij

theorem sorted_insertionSort :
    SortedIn 0 (xs.insertionSort (· ≤ ·)).length (xs.insertionSort (· ≤ ·)) := by
  rw [List.length_insertionSort]
  exact sortedIn_insertionSort

theorem sortedIn_of_pairwise (h : xs.Pairwise (· ≤ ·)) : SortedIn 0 xs.length xs := by
  have hsorted : SortedIn 0 xs.length (xs.insertionSort (· ≤ ·)) := sortedIn_insertionSort
  rwa [h.insertionSort_eq] at hsorted

/-- Every class has at most one element below `g`. -/
theorem sortedMod_start : SortedMod g g xs := by
  intro i j hij hj hmod
  rw [Nat.mod_eq_of_lt (hij.trans hj), Nat.mod_eq_of_lt hj] at hmod
  omega

theorem SortedMod.mono (h : SortedMod g m xs) (hm : n ≤ m) : SortedMod g n xs :=
  fun i j hij hj => h i j hij (hj.trans_le hm)

theorem SortedMod.sorted (h : SortedMod 1 xs.length xs) : SortedIn 0 xs.length xs :=
  fun i j _ hij hj => h i j hij hj (by rw [Nat.mod_one, Nat.mod_one])

theorem SortedFrom.sorted (h : SortedFrom k xs) (hk : k ≤ 1) : SortedIn 0 xs.length xs :=
  fun i j _ hij hj => h i j hij hj (by omega)

theorem SortedUpTo.sorted (h : SortedUpTo k xs) (hk : xs.length ≤ k + 1) :
    SortedIn 0 xs.length xs :=
  fun i j _ hij hj => h i j hij hj (by omega)

/-- `if (data[i] > data[j]) swap(data[i], data[j])`. -/
def exchange {γ : Type} (i j : Int) : Program (Vec γ α) Unit := do
  if (← element i) > (← element j) then swapElements i j

/-- The list after the elements at `i` and `j` were put in order. -/
def exchanged (xs : List α) (i j : Nat) : List α :=
  if xs[j]! < xs[i]! then swapped xs i j else xs

theorem exchanged_of_lt (h : xs[j]! < xs[i]!) : exchanged xs i j = swapped xs i j := if_pos h

theorem exchanged_of_le (h : xs[i]! ≤ xs[j]!) : exchanged xs i j = xs := if_neg (not_lt.mpr h)

section
variable (hi : i < xs.length) (hj : j < xs.length)
include hi hj

theorem perm_exchanged : (exchanged xs i j).Perm xs := by
  unfold exchanged
  split_ifs
  · exact perm_swapped hi hj
  · exact List.Perm.refl xs

theorem length_exchanged : (exchanged xs i j).length = xs.length :=
  (perm_exchanged hi hj).length_eq

end

section
variable {γ : Type} {s : Vec γ α}

theorem runs_exchange (hi : i < s.items.length) (hj : j < s.items.length) :
    Runs (exchange i j) s fun _ t => t.items = exchanged s.items i j := by
  rw [exchange, runs_elements hi hj]
  by_cases hlt : s.items[j]! < s.items[i]!
  · rw [if_pos hlt, runs_swapElements (s := (s.touch i).touch j) hi hj, exchanged_of_lt hlt]
    rfl
  · rw [if_neg hlt, runs_pure, exchanged_of_le (not_lt.mp hlt)]
    rfl

end

/-- No element before `m` is greater than the one at `m`. -/
def GreatestAt (m : Nat) (xs : List α) : Prop := ∀ k < m, xs[k]! ≤ xs[m]!

theorem greatestAt_zero : GreatestAt 0 xs := fun k hk => absurd hk (Nat.not_lt_zero k)

theorem GreatestAt.next (h : GreatestAt m xs) (hm : m + 1 < xs.length) :
    GreatestAt (m + 1) (exchanged xs m (m + 1)) := by
  have hlow : m < xs.length := by omega
  intro k hk
  unfold exchanged
  split_ifs with hlt
  · rw [getElem!_swapped hlow hm, getElem!_swapped hlow hm, if_pos rfl, if_neg (by omega)]
    by_cases hkm : k = m
    · rw [if_pos hkm]
      exact hlt.le
    · rw [if_neg hkm]
      exact h k (by omega)
  · by_cases hkm : k = m
    · rw [hkm]
      exact not_lt.mp hlt
    · exact (h k (by omega)).trans (not_lt.mp hlt)

theorem sortedFrom_length : SortedFrom xs.length xs :=
  fun _ _ _ hj hk => absurd hj (Nat.not_lt.mpr hk)

/-- Elements before `m` are exchanged. -/
theorem SortedFrom.exchange (h : SortedFrom m xs) (hj : j + 1 < m) (hm : m ≤ xs.length) :
    SortedFrom m (exchanged xs j (j + 1)) := by
  have hlow : j < xs.length := by omega
  have hhigh : j + 1 < xs.length := by omega
  intro a b hab hb hmb
  rw [length_exchanged hlow hhigh] at hb
  unfold exchanged
  split_ifs
  · rw [getElem!_swapped hlow hhigh, getElem!_swapped hlow hhigh, if_neg (by omega : b ≠ j + 1),
      if_neg (by omega : b ≠ j)]
    split_ifs
    · exact h j b (by omega) hb hmb
    · exact h (j + 1) b (by omega) hb hmb
    · exact h a b hab hb hmb
  · exact h a b hab hb hmb

theorem SortedFrom.cons (h : SortedFrom (m + 1) xs) (hm : GreatestAt m xs) : SortedFrom m xs := by
  intro i j hij hj hmj
  by_cases hjm : j = m
  · exact hjm ▸ hm i (hjm ▸ hij)
  · exact h i j hij hj (by omega)

theorem sortedUpTo_zero : SortedUpTo 0 xs := fun _ _ _ _ hi => absurd hi (Nat.not_lt_zero _)

theorem SortedUpTo.succ (h : SortedUpTo i xs) (hi : ∀ k, i < k → k < xs.length → xs[i]! ≤ xs[k]!) :
    SortedUpTo (i + 1) xs := by
  intro a b hab hb hai
  by_cases hlast : a = i
  · exact hlast ▸ hi b (hlast ▸ hab) hb
  · exact h a b hab hb (by omega)

/-- The least of the elements after `i` is put at `i`. -/
theorem sortedUpTo_swapped (him : i < m) (hm : m < xs.length)
    (hmin : ∀ k, i < k → k < xs.length → xs[m]! ≤ xs[k]!) :
    SortedUpTo (i + 1) (swapped xs i m) ↔ SortedUpTo i xs ∧ xs[m]! ≤ xs[i]! := by
  have hi : i < xs.length := him.trans hm
  have hat : (swapped xs i m)[i]! = xs[m]! := by
    rw [getElem!_swapped hi hm, if_neg him.ne, if_pos rfl]
  have hthere : (swapped xs i m)[m]! = xs[i]! := by
    rw [getElem!_swapped hi hm, if_pos rfl]
  have hother : ∀ k, k ≠ i → k ≠ m → (swapped xs i m)[k]! = xs[k]! := by
    intro k hki hkm
    rw [getElem!_swapped hi hm, if_neg hkm, if_neg hki]
  constructor
  · intro h
    constructor
    · intro a b hab hb hai
      have hle : ∀ c, a < c → c < xs.length → xs[a]! ≤ (swapped xs i m)[c]! := by
        intro c hac hc
        rw [← hother a (by omega) (by omega)]
        exact h a c hac (by rwa [length_swapped]) (by omega)
      by_cases hbi : b = i
      · rw [hbi, ← hthere]
        exact hle m (by omega) hm
      by_cases hbm : b = m
      · rw [hbm, ← hat]
        exact hle i hai hi
      · rw [← hother b hbi hbm]
        exact hle b hab hb
    · rw [← hat, ← hthere]
      exact h i m him (by rwa [length_swapped]) (Nat.lt_succ_self i)
  · rintro ⟨h, hle⟩ a b hab hb hai
    rw [length_swapped] at hb
    by_cases hlast : a = i
    · rw [hlast, hat]
      by_cases hbm : b = m
      · rw [hbm, hthere]
        exact hle
      · rw [hother b (by omega) hbm]
        exact hmin b (by omega) hb
    · rw [hother a hlast (by omega)]
      by_cases hbi : b = i
      · rw [hbi, hat]
        exact h a m (by omega) hm (by omega)
      by_cases hbm : b = m
      · rw [hbm, hthere]
        exact h a i (by omega) hi (by omega)
      · rw [hother b hbi hbm]
        exact h a b hab hb (by omega)

theorem SortedUpTo.swap (h : SortedUpTo i xs) (him : i ≤ m) (hm : m < xs.length)
    (hmin : ∀ k, i ≤ k → k < xs.length → xs[m]! ≤ xs[k]!) :
    SortedUpTo (i + 1) (swapped xs i m) := by
  rcases Nat.eq_or_lt_of_le him with rfl | hlt
  · rw [swapped_self hm]
    exact h.succ fun k hk => hmin k hk.le
  · exact (sortedUpTo_swapped hlt hm fun k hk => hmin k hk.le).mpr ⟨h, hmin i le_rfl (hlt.trans hm)⟩

/-- In a gapped insertion, where one element moves down among those a multiple of the gap before it:
below `m`, each class is in order but for the element at `p`, which is not greater than any
later one of its class. -/
structure SortedExcept (g m p : Nat) (xs : List α) : Prop where
  others : ∀ i j, i < j → j < m → i % g = j % g → i ≠ p → j ≠ p → xs[i]! ≤ xs[j]!
  later : ∀ j, p < j → j < m → p % g = j % g → xs[p]! ≤ xs[j]!

theorem SortedMod.insert (h : SortedMod g m xs) : SortedExcept g (m + 1) m xs where
  others i j hij hj hmod _ hjm := h i j hij (by omega) hmod
  later j hj hjm _ := absurd hjm (by omega)

theorem SortedExcept.sorted (h : SortedExcept g m p xs) (hp : p < g) : SortedMod g m xs := by
  intro i j hij hj hmod
  have hne : j ≠ p := by
    rintro rfl
    have hi : i % g = i := Nat.mod_eq_of_lt (hij.trans hp)
    have hj : j % g = j := Nat.mod_eq_of_lt hp
    omega
  by_cases hi : i = p
  · subst hi
    exact h.later j hij hj hmod
  · exact h.others i j hij hj hmod hi hne

theorem sub_mod_self (hp : g ≤ p) : (p - g) % g = p % g := by
  rw [← Nat.add_mod_right (p - g) g, Nat.sub_add_cancel hp]

theorem mod_ne (hij : i < j) (hj : j < i + g) : i % g ≠ j % g := by
  intro hmod
  have hdiff : (j - i) % g = 0 := Nat.sub_mod_eq_zero_of_mod_eq hmod.symm
  rw [Nat.mod_eq_of_lt (by omega)] at hdiff
  omega

theorem lt_of_mod_eq (hi : i < p) (hmod : i % g = p % g) (hne : i ≠ p - g) : i < p - g := by
  by_contra hge
  exact mod_ne hi (by omega) hmod

/-- When the element before it in its class is not greater, the element is in its place. -/
theorem SortedExcept.stop (h : SortedExcept g m p xs) (hg : 0 < g) (hp : g ≤ p) (hpm : p < m)
    (hle : xs[p - g]! ≤ xs[p]!) : SortedMod g m xs := by
  intro i j hij hj hmod
  by_cases hi : i = p
  · subst hi
    exact h.later j hij hj hmod
  by_cases hjp : j = p
  · subst hjp
    by_cases hlast : i = j - g
    · rwa [hlast]
    · have hclass := hmod.trans (sub_mod_self hp).symm
      have hlt := lt_of_mod_eq hij hmod hlast
      exact (h.others i (j - g) hlt (by omega) hclass hi (by omega)).trans hle
  · exact h.others i j hij hj hmod hi hjp

theorem SortedMod.except (h : SortedMod g m xs) : SortedExcept g m p xs where
  others i j hij hj hmod _ _ := h i j hij hj hmod
  later j hj hjm hmod := h p j hj hjm hmod

/-- The element moves one place down, or nothing changes since it is in its place. -/
theorem SortedExcept.next (h : SortedExcept g m p xs) (hg : 0 < g) (hp : g ≤ p) (hpm : p < m)
    (hm : m ≤ xs.length) : SortedExcept g m (p - g) (exchanged xs (p - g) p) := by
  have hlow : p - g < xs.length := by omega
  have hhigh : p < xs.length := by omega
  unfold exchanged
  split_ifs with hlt
  · constructor
    case others =>
      intro i j hij hj hmod hi hjne
      simp only [getElem!_swapped hlow hhigh, if_neg hi, if_neg hjne]
      by_cases hip : i = p
      · rw [if_pos hip, if_neg (by omega)]
        exact h.others (p - g) j (by omega) hj ((sub_mod_self hp).trans (hip ▸ hmod)) (by omega)
          (by omega)
      by_cases hjp : j = p
      · have hbefore : i < p - g := lt_of_mod_eq (by omega) (hjp ▸ hmod) hi
        rw [if_neg hip, if_pos hjp]
        exact h.others i (p - g) hbefore (by omega) ((hjp ▸ hmod).trans (sub_mod_self hp).symm)
          hip (by omega)
      · rw [if_neg hip, if_neg hjp]
        exact h.others i j hij hj hmod hip hjp
    case later =>
      intro j hj hjm hmod
      rw [getElem!_swapped hlow hhigh, getElem!_swapped hlow hhigh, if_neg (by omega), if_pos rfl]
      by_cases hjp : j = p
      · rw [if_pos hjp]
        exact hlt.le
      · have hafter : p < j := by
          by_contra hge
          exact mod_ne hj (by omega) hmod
        rw [if_neg hjp, if_neg (by omega)]
        exact h.later j hafter hjm ((sub_mod_self hp).symm.trans hmod)
  · exact (h.stop hg hp hpm (not_lt.mp hlt)).except

section
variable {γ : Type} {s : Vec γ α} {bound : Program (Vec γ α) Int} {fuel : Nat}
variable {body : Int → Program (Vec γ α) Unit}

/-- One pass of insertions with a gap, in a loop that counts up. -/
theorem runs_insertions (hn : s.items.length < 2147483648)
    (hbound : ∀ t, t.items.length = s.items.length →
      Runs bound t fun b u => b.toNat = s.items.length ∧ u = t)
    (hbody : ∀ m t, g ≤ m → m < s.items.length → t.items.length = s.items.length →
      SortedMod g m t.items →
      Runs (body m) t fun _ u => u.items.Perm t.items ∧ SortedMod g (m + 1) u.items)
    (hf : s.items.length < fuel) :
    Runs (countUp fuel g bound body) s fun _ t =>
      t.items.Perm s.items ∧ SortedMod g s.items.length t.items := by
  refine (runs_countUp (n := s.items.length) (fun i t => t.items.Perm s.items ∧
    SortedMod g i t.items) ?_ hn ?_ ⟨List.Perm.refl _, sortedMod_start⟩ (by omega)).mono ?_
  · rintro i t ⟨hperm, hsorted⟩
    exact hbound t hperm.length_eq
  · rintro i hi hlt t ⟨hperm, hsorted⟩
    refine (hbody i t hi hlt hperm.length_eq hsorted).mono ?_
    rintro _ u ⟨hinner, hnext⟩
    exact ⟨hinner.trans hperm, hnext⟩
  · rintro _ t ⟨hperm, hsorted⟩
    exact ⟨hperm, hsorted.mono (Nat.le_max_right g _)⟩

/-- The last gap is 1, and its pass sorts. -/
theorem sorted_of_insertions (hperm : ys.Perm xs) (h : SortedMod 1 xs.length ys) :
    ys = xs.insertionSort (· ≤ ·) := by
  rw [← hperm.length_eq] at h
  exact eq_insertionSort hperm h.sorted

end

end LanguageTest.Sorting
