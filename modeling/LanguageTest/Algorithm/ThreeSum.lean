import LanguageTest.Library.Ranks
import LanguageTest.Library.Rearranged
import Mathlib.Data.List.NodupEquivFin

namespace LanguageTest.ThreeSum
open Sorting

/-- The vector `nums`, with `res`. -/
abbrev State := Vec (List (List Int)) Int

/-- `sort(nums.begin(), nums.end())`. -/
def sort : Program State Unit := do
  let s ← get
  set { s with items := s.items.insertionSort (· ≤ ·) }

def pushBack (triple : List Int) : Program State Unit := do
  let s ← get
  set { s with other := s.other ++ [triple] }

/-- The sum, which is taken to be exact. -/
def sum (i j k : Int) : Program State Int := do
  pure ((← element i) + (← element j) + (← element k))

/-- `while (nums[j + 1] == nums[j]) j++;` -/
def skip (fuel : Nat) (j : Int) : Program State Int :=
  loop (fun j => do
    if (← element (← int (j + 1))) = (← element j) then pure (.again (← int (j + 1)))
    else pure (.done j)) fuel j

/-- `while (j < k)`. -/
def sweep (fuel : Nat) (i : Int) : Int × Int → Program State Unit :=
  loop (fun (j, k) => do
    if j < k then
      if (← sum i j k) > 0 then pure (.again (j, ← int (k - 1)))
      else if (← sum i j k) < 0 then pure (.again (← int (j + 1), k))
      else
        pushBack [← element i, ← element j, ← element k]
        let j ← skip fuel j
        pure (.again (← int (j + 1), k))
    else pure (.done ())) fuel

/-- The outer loop. -/
def search (fuel : Nat) (n : Int) : Int → Program State Unit :=
  loop (fun i => do
    if i < (← int (n - 2)) then
      sweep fuel i (← int (i + 1), ← int (n - 1))
      let i ← skip fuel i
      pure (.again (← int (i + 1)))
    else pure (.done ())) fuel

def threeSum (fuel : Nat) : Program State (List (List Int)) := do
  let n := toInt (← size)
  sort
  search fuel n 0
  pure (← get).other

/-- A call for these numbers. -/
def start (nums : List Int) : State := ⟨[], nums, []⟩

/-- The result has every triple in order with the sum 0, as often as it should, if the triple occurs
at three different positions. -/
structure Solves (nums : List Int) (res : List (List Int)) : Prop where
  nodup : res.Nodup
  mem_iff : ∀ l, l ∈ res ↔ ∃ a b c, l = [a, b, c] ∧ a ≤ b ∧ b ≤ c ∧ a + b + c = 0 ∧
    [a, b, c].Subperm nums

/-- The part of the sorted numbers that the loops go through. -/
def front (nums : List Int) : List Int :=
  (nums.insertionSort (· ≤ ·)).take (toInt nums.length).toNat

/-- The last index that `j + 1` can be. -/
def last (xs : List Int) : Nat := min (xs.length - 1) 2147483647

/-- The greatest number, unless there are more than an `int` can index. -/
def greatest (nums : List Int) : Int :=
  (nums.insertionSort (· ≤ ·))[last (nums.insertionSort (· ≤ ·))]!

/-- The numbers for which the loops stay in the vector. -/
structure Stays (nums : List Int) : Prop where
  fits : IsInt (toInt nums.length - 2)
  three : ¬ [greatest nums, greatest nums, greatest nums].Subperm (front nums)
  two : ¬ [-2 * greatest nums, greatest nums, greatest nums].Subperm (front nums)

/-- The numbers for which they stay in the vector and go through all that matters. -/
structure Admits (nums : List Int) : Prop extends Stays nums where
  whole : ∀ a b c, a ≤ b → b ≤ c → a + b + c = 0 → [a, b, c].Subperm nums →
    [a, b, c].Subperm (front nums)

section
variable {xs : List Int} {n m p q r : Nat} {a b c : Int} {l : List Int}

theorem cons_sublist (hm : m ≤ p) (hp : p < xs.length) (h : l.Sublist (xs.drop (p + 1))) :
    (xs[p]! :: l).Sublist (xs.drop m) := by
  refine List.Sublist.trans ?_ (List.drop_sublist_drop_left xs hm)
  rw [drop_eq_cons hp]
  exact h.cons_cons _

theorem triple_sublist (hpq : p < q) (hqr : q < r) (hr : r < xs.length) :
    [xs[p]!, xs[q]!, xs[r]!].Sublist xs := by
  have hlast : [xs[r]!].Sublist (xs.drop (q + 1)) :=
    cons_sublist hqr hr (List.nil_sublist _)
  exact cons_sublist (Nat.zero_le p) (by omega) (cons_sublist hpq (by omega) hlast)

theorem exists_positions (h : [a, b, c].Sublist xs) :
    ∃ p q r, p < q ∧ q < r ∧ r < xs.length ∧ xs[p]! = a ∧ xs[q]! = b ∧ xs[r]! = c := by
  obtain ⟨f, hf⟩ := List.sublist_iff_exists_fin_orderEmbedding_get_eq.mp h
  have hpq : f ⟨0, by simp⟩ < f ⟨1, by simp⟩ := f.strictMono (by simp)
  have hqr : f ⟨1, by simp⟩ < f ⟨2, by simp⟩ := f.strictMono (by simp)
  refine ⟨f ⟨0, by simp⟩, f ⟨1, by simp⟩, f ⟨2, by simp⟩, hpq, hqr, Fin.isLt _, ?_, ?_, ?_⟩
  · rw [getElem!_pos xs _ (Fin.isLt _)]
    exact (hf ⟨0, by simp⟩).symm
  · rw [getElem!_pos xs _ (Fin.isLt _)]
    exact (hf ⟨1, by simp⟩).symm
  · rw [getElem!_pos xs _ (Fin.isLt _)]
    exact (hf ⟨2, by simp⟩).symm

/-- In sorted numbers the positions of a sorted triple are sorted. -/
theorem subperm_take_iff (hs : SortedIn 0 xs.length xs) (hn : n ≤ xs.length) (hab : a ≤ b)
    (hbc : b ≤ c) : [a, b, c].Subperm (xs.take n) ↔
      ∃ p q r, p < q ∧ q < r ∧ r < n ∧ xs[p]! = a ∧ xs[q]! = b ∧ xs[r]! = c := by
  have hlength : (xs.take n).length = n := List.length_take_of_le hn
  constructor
  · intro h
    have hsorted : (xs.take n).Pairwise (· ≤ ·) := by
      have hall := (sortedIn_iff_slice le_rfl).mp hs
      rw [slice, List.drop_zero, Nat.sub_zero, List.take_length] at hall
      exact hall.sublist (List.take_sublist n xs)
    have htriple : [a, b, c].Pairwise (· ≤ ·) := by simp [hab, hbc, hab.trans hbc]
    obtain ⟨p, q, r, hpq, hqr, hr, rfl, rfl, rfl⟩ :=
      exists_positions (List.sublist_of_subperm_of_pairwise h htriple hsorted)
    rw [hlength] at hr
    refine ⟨p, q, r, hpq, hqr, hr, ?_, ?_, ?_⟩
    · exact (getElem!_take (by omega)).symm
    · exact (getElem!_take (by omega)).symm
    · exact (getElem!_take hr).symm
  · rintro ⟨p, q, r, hpq, hqr, hr, rfl, rfl, rfl⟩
    have hsub : [(xs.take n)[p]!, (xs.take n)[q]!, (xs.take n)[r]!].Subperm (xs.take n) :=
      (triple_sublist hpq hqr (by omega)).subperm
    rwa [getElem!_take (by omega), getElem!_take (by omega), getElem!_take hr] at hsub

end

/-- Nothing but the history of accesses differs. -/
structure Same (s t : State) : Prop where
  items : t.items = s.items
  other : t.other = s.other

section
variable {s t u : State} {xs : List Int} {res : List (List Int)} {i j k n m fuel : Nat}

theorem Same.refl : Same s s := ⟨rfl, rfl⟩

theorem Same.trans (h : Same s t) (h' : Same t u) : Same s u :=
  ⟨h'.items.trans h.items, h'.other.trans h.other⟩

theorem Same.touch {i : Int} : Same s (s.touch i) := ⟨rfl, rfl⟩

theorem runs_sum (hs : s.items = xs) (hi : i < xs.length) (hj : j < xs.length)
    (hk : k < xs.length) :
    Runs (sum i j k) s fun x t => x = xs[i]! + xs[j]! + xs[k]! ∧ Same s t := by
  subst hs
  rw [sum, runs_bind, runs_element hi, runs_bind, runs_element (s := s.touch i) hj, runs_bind,
    runs_element (s := (s.touch i).touch j) hk, runs_pure]
  exact ⟨rfl, Same.touch.trans (Same.touch.trans Same.touch)⟩

theorem last_lt (hi : i < xs.length) : last xs < xs.length := by
  unfold last
  omega

/-- The elements equal to one that is not at the end are skipped. -/
theorem runs_skip (hs : s.items = xs) (hj : j ≤ last xs) (hx : 0 < xs.length)
    (hsorted : SortedIn 0 xs.length xs) (hne : xs[j]! ≠ xs[last xs]!) (hf : xs.length < fuel) :
    Runs (skip fuel j) s fun r t => Same s t ∧ ∃ e : Nat, r = e ∧ j ≤ e ∧ e < last xs ∧
      xs[e]! = xs[j]! ∧ xs[e]! < xs[e + 1]! := by
  have hlast := last_lt hx
  have hle : last xs ≤ 2147483647 := Nat.min_le_right _ _
  refine runs_loop (k := last xs - j) (fun k (p : Int) t => Same s t ∧ ∃ e : Nat, p = e ∧ j ≤ e ∧
    e < last xs ∧ xs[e]! = xs[j]! ∧ k = last xs - e) ?_
    ⟨Same.refl, j, rfl, le_rfl, lt_of_le_of_ne hj fun he => hne (he ▸ rfl), rfl, rfl⟩ (by omega)
  rintro _ _ t ⟨hsame, e, rfl, hje, he, heq, rfl⟩
  have hitems := hsame.items.trans hs
  have hcast : (e : Int) + 1 = (e + 1 : Nat) := by push_cast; rfl
  have hlt : e + 1 < xs.length := by omega
  rw [runs_int_bind (by omega) (by omega), hcast, runs_bind, runs_element (by rwa [hitems]),
    runs_bind, runs_element (s := t.touch _) (by rw [Vec.touch_items, hitems]; omega),
    Vec.touch_items, hitems]
  split_ifs with hnext
  · rw [runs_int_bind (by omega) (by omega), runs_pure]
    have hother : e + 1 ≠ last xs := by
      intro hend
      rw [hend, heq] at hnext
      exact hne hnext.symm
    exact ⟨last xs - (e + 1), by omega, hsame.trans (Same.touch.trans Same.touch), e + 1, rfl,
      by omega, by omega, hnext.trans heq, rfl⟩
  · rw [runs_pure]
    refine ⟨hsame.trans (Same.touch.trans Same.touch), e, rfl, hje, he, heq, ?_⟩
    exact lt_of_le_of_ne (hsorted e (e + 1) (Nat.zero_le e) (by omega) hlt) (Ne.symm hnext)

/-- From an element as great as the one at the end the loop leaves the vector, or the range of an
`int`. -/
theorem not_runs_skip (hs : s.items = xs) (hj : j ≤ last xs) (hx : 0 < xs.length)
    (hsorted : SortedIn 0 xs.length xs) (heq : xs[j]! = xs[last xs]!) {Q : Int → State → Prop} :
    ¬ Runs (skip fuel j) s Q := by
  have hlast := last_lt hx
  induction fuel generalizing j s with
  | zero => exact fun h => h.not_fails fails_fail
  | succ fuel ih =>
    intro h
    have hcast : (j : Int) + 1 = (j + 1 : Nat) := by push_cast; rfl
    rw [skip, runs_loop_succ, runs_bind, runs_int_iff, hcast, runs_bind, runs_element_iff] at h
    obtain ⟨hint, k, hk, hklt, h⟩ := h
    obtain rfl : j + 1 = k := Int.ofNat_inj.mp hk
    rw [hs] at hklt
    unfold IsInt at hint
    have hnext : j + 1 ≤ last xs := by
      unfold last
      omega
    have hsame : xs[j + 1]! = xs[j]! := by
      refine le_antisymm ?_ (hsorted j (j + 1) (Nat.zero_le j) (by omega) (by omega))
      rw [heq]
      exact hsorted.mono_getElem! hnext hlast
    rw [runs_bind, runs_element (s := s.touch _) (by rw [Vec.touch_items, hs]; omega),
      Vec.touch_items, hs, if_pos hsame, runs_int_bind (by omega) (by omega), runs_pure] at h
    exact ih (s := (s.touch _).touch _) hs hnext (hsame.trans heq) h

/-- The sweep for the first element of a triple at `i`: what was found for it is to the left of `j`
and less than the element there, and what is still to be found is between `j` and `k`. -/
structure Sweeping (xs : List Int) (n i : Nat) (old res : List (List Int)) (j k : Nat) : Prop where
  low : i < j
  fits : j ≤ last xs
  high : k < n
  kept : ∀ l ∈ old, l ∈ res
  found : ∀ l ∈ res, l ∈ old ∨ ∃ q r, i < q ∧ q < r ∧ r < n ∧ xs[i]! + xs[q]! + xs[r]! = 0 ∧
    l = [xs[i]!, xs[q]!, xs[r]!] ∧ xs[q]! < xs[j]!
  complete : ∀ q r, i < q → q < r → r < n → xs[i]! + xs[q]! + xs[r]! = 0 →
    [xs[i]!, xs[q]!, xs[r]!] ∈ res ∨ j ≤ q ∧ r ≤ k
  nodup : res.Nodup

variable {old : List (List Int)}

/-- The sum is too great for every pair with the element at `k`. -/
theorem Sweeping.lower (h : Sweeping xs n i old res j k) (hsorted : SortedIn 0 xs.length xs)
    (hn : n ≤ xs.length) (hjk : j < k) (hsum : 0 < xs[i]! + xs[j]! + xs[k]!) :
    Sweeping xs n i old res j (k - 1) := by
  have hk := h.high
  refine { h with high := by omega, complete := fun q r hq hqr hr hzero => ?_ }
  refine (h.complete q r hq hqr hr hzero).imp id fun hin => ⟨hin.1, ?_⟩
  by_contra hlt
  obtain rfl : r = k := by omega
  have hle : xs[j]! ≤ xs[q]! := hsorted.mono_getElem! hin.1 (by omega)
  omega

/-- The sum is too small for every pair with the element at `j`. -/
theorem Sweeping.raise (h : Sweeping xs n i old res j k) (hsorted : SortedIn 0 xs.length xs)
    (hn : n ≤ xs.length) (hjk : j < k) (hlast : j + 1 ≤ last xs)
    (hsum : xs[i]! + xs[j]! + xs[k]! < 0) : Sweeping xs n i old res (j + 1) k := by
  have hk := h.high
  have hlow := h.low
  have hnext := hsorted j (j + 1) (Nat.zero_le j) (by omega) (by omega)
  refine { h with low := by omega, fits := hlast, found := fun l hl => ?_, complete := ?_ }
  · refine (h.found l hl).imp id ?_
    rintro ⟨q, r, hq, hqr, hr, hzero, hl, hlt⟩
    exact ⟨q, r, hq, hqr, hr, hzero, hl, hlt.trans_le hnext⟩
  · intro q r hq hqr hr hzero
    refine (h.complete q r hq hqr hr hzero).imp id fun hin => ⟨?_, hin.2⟩
    by_contra hlt
    obtain rfl : q = j := by omega
    have hle : xs[r]! ≤ xs[k]! := hsorted.mono_getElem! hin.2 (by omega)
    omega

/-- A triple is found, and the elements equal to its second one are skipped. -/
theorem Sweeping.push {e : Nat} (h : Sweeping xs n i old res j k)
    (hsorted : SortedIn 0 xs.length xs) (hn : n ≤ xs.length) (hjk : j < k)
    (hsum : xs[i]! + xs[j]! + xs[k]! = 0) (hje : j ≤ e) (he : e < last xs)
    (heq : xs[e]! = xs[j]!) (hnext : xs[e]! < xs[e + 1]!)
    (hold : ∀ l ∈ old, ∀ b c, l ≠ [xs[i]!, b, c]) :
    Sweeping xs n i old (res ++ [[xs[i]!, xs[j]!, xs[k]!]]) (e + 1) k := by
  have hk := h.high
  have hlow := h.low
  constructor
  case low => omega
  case fits => omega
  case high => exact hk
  case kept => exact fun l hl => List.mem_append_left _ (h.kept l hl)
  case found =>
    intro l hl
    rcases List.mem_append.mp hl with hl | hl
    · refine (h.found l hl).imp id ?_
      rintro ⟨q, r, hq, hqr, hr, hzero, hl, hlt⟩
      exact ⟨q, r, hq, hqr, hr, hzero, hl, by omega⟩
    · refine Or.inr ⟨j, k, hlow, hjk, hk, hsum, List.mem_singleton.mp hl, by omega⟩
  case complete =>
    intro q r hq hqr hr hzero
    rcases h.complete q r hq hqr hr hzero with hmem | ⟨hjq, hrk⟩
    · exact Or.inl (List.mem_append_left _ hmem)
    by_cases hqe : q ≤ e
    · have hqj : xs[q]! = xs[j]! := by
        refine le_antisymm ?_ (hsorted.mono_getElem! hjq (by omega))
        rw [← heq]
        exact hsorted.mono_getElem! hqe (by unfold last at he; omega)
      have hrk : xs[r]! = xs[k]! := by omega
      rw [hqj, hrk]
      exact Or.inl (List.mem_append_right _ (List.mem_singleton_self _))
    · exact Or.inr ⟨by omega, hrk⟩
  case nodup =>
    refine List.nodup_append'.mpr ⟨h.nodup, List.nodup_singleton _, ?_⟩
    rw [List.disjoint_singleton]
    intro hmem
    rcases h.found _ hmem with hmem | ⟨q, r, -, -, -, -, hl, hlt⟩
    · exact hold _ hmem _ _ rfl
    · simp only [List.cons.injEq] at hl
      omega

theorem sweeping_start (hi : i + 1 < n) (hlast : n - 1 ≤ last xs) (hnodup : old.Nodup) :
    Sweeping xs n i old old (i + 1) (n - 1) where
  low := Nat.lt_succ_self i
  fits := by omega
  high := by omega
  kept _ hl := hl
  found _ hl := Or.inl hl
  complete _ _ _ _ _ _ := Or.inr ⟨by omega, by omega⟩
  nodup := hnodup

/-- The triple is stored, and the loop goes on behind the elements equal to its second one. -/
theorem runs_push (hs : s.items = xs) (hother : s.other = res)
    (h : Sweeping xs n i old res j k) (hsorted : SortedIn 0 xs.length xs) (hn : n ≤ xs.length)
    (hjk : j < k) (hsum : xs[i]! + xs[j]! + xs[k]! = 0) (hne : xs[j]! ≠ xs[last xs]!)
    (hold : ∀ l ∈ old, ∀ b c, l ≠ [xs[i]!, b, c]) (hf : xs.length < fuel) :
    Runs (do
      pushBack [← element i, ← element j, ← element k]
      let j ← skip fuel j
      pure (Step.again (α := Unit) (← int (j + 1), (k : Int)))) s fun p t => t.items = xs ∧
        ∃ e : Nat, j ≤ e ∧ p = .again (((e + 1 : Nat) : Int), (k : Int)) ∧
          Sweeping xs n i old t.other (e + 1) k := by
  have hk := h.high
  have hlow := h.low
  have hle : last xs ≤ 2147483647 := Nat.min_le_right _ _
  subst hs
  rw [runs_bind, runs_element (by omega), runs_bind,
    runs_element (s := s.touch i) (by rw [Vec.touch_items]; omega), runs_bind,
    runs_element (s := (s.touch i).touch j) (by rw [Vec.touch_items, Vec.touch_items]; omega),
    runs_bind, pushBack, runs_bind, runs_get, runs_set, runs_bind]
  refine Runs.mono (runs_skip ?_ h.fits (by omega) hsorted hne hf) ?_
  · rfl
  rintro _ t ⟨hsame, e, rfl, hje, he, heq, hnext⟩
  rw [runs_int_bind (by omega) (by omega), runs_pure]
  refine ⟨hsame.items, e, hje, by push_cast; rfl, ?_⟩
  have hres : t.other = res ++ [[s.items[i]!, s.items[j]!, s.items[k]!]] := by
    rw [hsame.other]
    exact congrArg (· ++ _) hother
  rw [hres]
  exact h.push hsorted hn hjk hsum hje he heq hnext hold

theorem runs_sweep (hs : s.items = xs) (hother : s.other = old) (hsorted : SortedIn 0 xs.length xs)
    (hn : n ≤ xs.length) (hi : i + 1 < n) (hlast : n - 1 ≤ last xs) (hnodup : old.Nodup)
    (hne : ∀ q r, i < q → q < r → r < n → xs[i]! + xs[q]! + xs[r]! = 0 → xs[q]! ≠ xs[last xs]!)
    (hold : ∀ l ∈ old, ∀ b c, l ≠ [xs[i]!, b, c]) (hf : xs.length < fuel) :
    Runs (sweep fuel i ((i + 1 : Nat), (n - 1 : Nat))) s fun _ t => t.items = xs ∧
      ∃ j k, k ≤ j ∧ Sweeping xs n i old t.other j k := by
  have hmax : last xs ≤ 2147483647 := Nat.min_le_right _ _
  refine runs_loop (k := n - 1 - (i + 1)) (fun v (p : Int × Int) t => t.items = xs ∧
    ∃ j k : Nat, p = ((j : Int), (k : Int)) ∧ v = k - j ∧ Sweeping xs n i old t.other j k) ?_
    ⟨hs, i + 1, n - 1, rfl, rfl, by rw [hother]; exact sweeping_start hi hlast hnodup⟩ (by omega)
  rintro _ _ t ⟨hitems, j, k, rfl, rfl, h⟩
  have hk := h.high
  have hlow := h.low
  dsimp only
  split_ifs with hjk
  · have hlt : j < k := Int.ofNat_lt.mp hjk
    rw [runs_bind]
    refine (runs_sum hitems (by omega) (by omega) (by omega)).mono ?_
    rintro _ u ⟨rfl, hu⟩
    split_ifs with hpos
    · have hcast : (k : Int) - 1 = (k - 1 : Nat) := by omega
      rw [runs_int_bind (by omega) (by omega), runs_pure, hcast]
      refine ⟨k - 1 - j, by omega, hu.items.trans hitems, j, k - 1, rfl, rfl, ?_⟩
      rw [hu.other]
      exact h.lower hsorted hn hlt hpos
    rw [runs_bind]
    refine (runs_sum (hu.items.trans hitems) (by omega) (by omega) (by omega)).mono ?_
    rintro _ w ⟨rfl, hw⟩
    have hsame := hu.trans hw
    split_ifs with hneg
    · have hcast : (j : Int) + 1 = (j + 1 : Nat) := by push_cast; rfl
      rw [runs_int_bind (by omega) (by omega), runs_pure, hcast]
      refine ⟨k - (j + 1), by omega, hsame.items.trans hitems, j + 1, k, rfl, rfl, ?_⟩
      rw [hsame.other]
      exact h.raise hsorted hn hlt (by omega) hneg
    · have hzero : xs[i]! + xs[j]! + xs[k]! = 0 := by omega
      refine (runs_push (hsame.items.trans hitems) hsame.other h hsorted hn hlt hzero
        (hne j k hlow hlt hk hzero) hold hf).mono ?_
      rintro _ y ⟨hy, e, hje, rfl, he⟩
      exact ⟨k - (e + 1), by omega, hy, e + 1, k, rfl, rfl, he⟩
  · exact runs_pure.mpr ⟨hitems, j, k, by omega, h⟩

/-- Two elements as great as the one at the end complete a triple, which is then pushed, and the
loop behind it does not end. -/
theorem not_runs_sweep (hs : s.items = xs) (hsorted : SortedIn 0 xs.length xs)
    (hn : n ≤ xs.length) (hlast : n - 1 ≤ last xs) (hij : i < j) (hj : j + 2 ≤ n)
    (hzero : xs[i]! + 2 * xs[last xs]! = 0) (htwo : xs[n - 2]! = xs[last xs]!)
    {Q : Unit → State → Prop} : ¬ Runs (sweep fuel i ((j : Nat), (n - 1 : Nat))) s Q := by
  have hmax : last xs ≤ 2147483647 := Nat.min_le_right _ _
  have hgreatest : ∀ q, q ≤ last xs → xs[q]! ≤ xs[last xs]! :=
    fun q hq => hsorted.mono_getElem! hq (last_lt (i := j) (by omega))
  have hone : xs[n - 1]! = xs[last xs]! := by
    refine le_antisymm (hgreatest _ hlast) ?_
    rw [← htwo]
    exact hsorted (n - 2) (n - 1) (Nat.zero_le _) (by omega) (by omega)
  -- the invariant: `k` does not move, and `j` stays to the left of the two elements
  refine Ensures.not_runs ?_
  refine ensures_loop (fun (p : Int × Int) t => t.items = xs ∧ ∃ j : Nat,
    p = ((j : Int), ((n - 1 : Nat) : Int)) ∧ i < j ∧ j + 2 ≤ n) ?_ ⟨hs, j, rfl, hij, hj⟩
  rintro _ t ⟨hitems, j, rfl, hij, hj⟩
  have hle := hgreatest j (by omega)
  dsimp only
  rw [if_pos (by omega)]
  refine Runs.bind_ensures ((runs_sum hitems (by omega) (by omega) (by omega)).mono ?_)
  rintro _ u ⟨rfl, hu⟩
  rw [if_neg (by omega)]
  have hitems := hu.items.trans hitems
  refine Runs.bind_ensures ((runs_sum hitems (by omega) (by omega) (by omega)).mono ?_)
  rintro _ w ⟨rfl, hw⟩
  have hitems := hw.items.trans hitems
  by_cases hlt : xs[j]! < xs[last xs]!
  · have hother : j + 2 ≠ n := by
      rintro rfl
      exact absurd htwo hlt.ne
    have hcast : (j : Int) + 1 = (j + 1 : Nat) := by push_cast; rfl
    rw [if_pos (by omega)]
    refine Runs.ensures ?_
    rw [runs_int_bind (by omega) (by omega), runs_pure, hcast]
    exact ⟨hitems, j + 1, rfl, by omega, by omega⟩
  · have heq : xs[j]! = xs[last xs]! := by omega
    subst hitems
    rw [if_neg (by omega)]
    refine ensures_of_not_runs fun hruns => ?_
    rw [runs_bind, runs_element (by omega), runs_bind,
      runs_element (s := w.touch i) (by rw [Vec.touch_items]; omega), runs_bind,
      runs_element (s := (w.touch i).touch j) (by rw [Vec.touch_items, Vec.touch_items]; omega),
      runs_bind, pushBack, runs_bind, runs_get, runs_set, runs_bind] at hruns
    refine not_runs_skip ?_ (by omega) (by omega) hsorted heq hruns
    rfl

/-- The vector is as it was. -/
def SameItems (s t : State) : Prop := t.items = s.items

instance : Std.Refl SameItems := ⟨fun _ => rfl⟩

instance : Trans SameItems SameItems SameItems := ⟨fun h h' => Eq.trans h' h⟩

theorem keeps_element {i : Int} : Keeps SameItems (element i : Program State Int) := by
  intro s
  refine ensures_element_read.mono ?_
  rintro _ _ ⟨rfl, -⟩
  rfl

theorem keeps_pushBack {l : List Int} : Keeps SameItems (pushBack l) := by
  intro s
  refine Runs.ensures ?_
  rw [pushBack, runs_bind, runs_get, runs_set]
  rfl

theorem keeps_sum {i j k : Int} : Keeps SameItems (sum i j k) :=
  keeps_element.bind fun _ => keeps_element.bind fun _ => keeps_element.bind fun _ => keeps_pure

theorem keeps_skip {j : Int} : Keeps SameItems (skip fuel j) := by
  refine keeps_loop fun j => ?_
  refine keeps_int.bind fun _ => keeps_element.bind fun _ => keeps_element.bind fun _ => ?_
  split_ifs
  · exact keeps_int.bind fun _ => keeps_pure
  · exact keeps_pure

theorem keeps_sweep {i : Int} {p : Int × Int} : Keeps SameItems (sweep fuel i p) := by
  refine keeps_loop fun p => ?_
  obtain ⟨j, k⟩ := p
  dsimp only
  split_ifs
  · refine keeps_sum.bind fun _ => ?_
    split_ifs
    · exact keeps_int.bind fun _ => keeps_pure
    refine keeps_sum.bind fun _ => ?_
    split_ifs
    · exact keeps_int.bind fun _ => keeps_pure
    · refine keeps_element.bind fun _ => keeps_element.bind fun _ => keeps_element.bind fun _ => ?_
      refine Keeps.bind ?_ fun _ => keeps_skip.bind fun _ => keeps_int.bind fun _ => keeps_pure
      exact keeps_pushBack
  · exact keeps_pure

/-- The triples that were found for the first elements up to `i`. -/
structure Listed (xs : List Int) (n i : Nat) (res : List (List Int)) : Prop where
  fits : i ≤ last xs
  found : ∀ l ∈ res, ∃ p q r, p < q ∧ q < r ∧ r < n ∧ xs[p]! + xs[q]! + xs[r]! = 0 ∧
    l = [xs[p]!, xs[q]!, xs[r]!] ∧ xs[p]! < xs[i]!
  complete : ∀ p q r, p < q → q < r → r < n → xs[p]! + xs[q]! + xs[r]! = 0 →
    [xs[p]!, xs[q]!, xs[r]!] ∈ res ∨ i ≤ p
  nodup : res.Nodup

theorem Listed.ne (h : Listed xs n i old) : ∀ l ∈ old, ∀ b c, l ≠ [xs[i]!, b, c] := by
  rintro l hl b c rfl
  obtain ⟨p, q, r, -, -, -, -, hl, hlt⟩ := h.found _ hl
  simp only [List.cons.injEq] at hl
  omega

/-- After the sweep the elements equal to the first one are skipped. -/
theorem Listed.next {e : Nat} (h : Listed xs n i old) (hsweep : Sweeping xs n i old res j k)
    (hkj : k ≤ j) (hsorted : SortedIn 0 xs.length xs) (hie : i ≤ e) (he : e < last xs)
    (heq : xs[e]! = xs[i]!) (hnext : xs[e]! < xs[e + 1]!) : Listed xs n (e + 1) res := by
  constructor
  case fits => exact he
  case found =>
    intro l hl
    rcases hsweep.found l hl with hl | ⟨q, r, hq, hqr, hr, hzero, hl, -⟩
    · obtain ⟨p, q, r, hpq, hqr, hr, hzero, hl, hlt⟩ := h.found l hl
      exact ⟨p, q, r, hpq, hqr, hr, hzero, hl, by omega⟩
    · exact ⟨i, q, r, hq, hqr, hr, hzero, hl, by omega⟩
  case complete =>
    intro p q r hpq hqr hr hzero
    rcases h.complete p q r hpq hqr hr hzero with hmem | hip
    · exact Or.inl (hsweep.kept _ hmem)
    by_cases hpe : p ≤ e
    · have hpi : xs[p]! = xs[i]! := by
        have hlast : last xs ≤ xs.length - 1 := Nat.min_le_left _ _
        refine le_antisymm ?_ (hsorted.mono_getElem! hip (by omega))
        rw [← heq]
        exact hsorted.mono_getElem! hpe (by omega)
      rw [hpi] at hzero ⊢
      rcases hsweep.complete q r (by omega) hqr hr hzero with hmem | hin
      · exact Or.inl hmem
      · omega
    · exact Or.inr (by omega)
  case nodup => exact hsweep.nodup

/-- Unless the greatest number is in the way, all triples are found. -/
theorem runs_search (hs : s.items = xs) (hother : s.other = []) (hsorted : SortedIn 0 xs.length xs)
    (hn : n ≤ xs.length) (hmin : 2 < n) (hlast : n - 1 ≤ last xs)
    (hthree : ∀ i, i + 2 < n → xs[i]! ≠ xs[last xs]!)
    (htwo : ∀ i q r, i < q → q < r → r < n → xs[i]! + xs[q]! + xs[r]! = 0 →
      xs[q]! ≠ xs[last xs]!) (hf : xs.length < fuel) :
    Runs (search fuel n 0) s fun _ t => ∃ i, n ≤ i + 2 ∧ Listed xs n i t.other := by
  have hmax : last xs ≤ 2147483647 := Nat.min_le_right _ _
  refine runs_loop (k := n) (fun v (p : Int) t => t.items = xs ∧
    ∃ i : Nat, p = i ∧ v = n - i ∧ Listed xs n i t.other) ?_ ?_ (by omega)
  · rintro _ _ t ⟨hitems, i, rfl, rfl, h⟩
    rw [runs_int_bind (by omega) (by omega)]
    split_ifs with hi
    · have hfirst : (i : Int) + 1 = (i + 1 : Nat) := by push_cast; rfl
      have hend : (n : Int) - 1 = (n - 1 : Nat) := by omega
      rw [runs_int_bind (by omega) (by omega), runs_int_bind (by omega) (by omega), runs_bind,
        hfirst, hend]
      refine (runs_sweep hitems rfl hsorted hn (by omega) hlast h.nodup (fun q r => htwo i q r)
        h.ne hf).mono ?_
      rintro _ u ⟨hu, j, k, hkj, hsweep⟩
      rw [runs_bind]
      refine (runs_skip hu h.fits (by omega) hsorted (hthree i (by omega)) hf).mono ?_
      rintro _ w ⟨hsame, e, rfl, hie, he, heq, hnext⟩
      rw [runs_int_bind (by omega) (by omega), runs_pure]
      refine ⟨n - (e + 1), by omega, hsame.items.trans hu, e + 1, by push_cast; rfl, rfl, ?_⟩
      rw [hsame.other]
      exact h.next hsweep hkj hsorted hie he heq hnext
    · exact runs_pure.mpr ⟨i, by omega, h⟩
  · refine ⟨hs, 0, rfl, rfl, Nat.zero_le _, ?_, fun _ _ _ _ _ _ _ => Or.inr (Nat.zero_le _), ?_⟩
    · simp [hother]
    · simp [hother]

/-- At a first element that the loops do not get over, the search does not end. -/
theorem not_runs_search (hs : s.items = xs) (hsorted : SortedIn 0 xs.length xs)
    (hn : n ≤ xs.length) (hlast : n - 1 ≤ last xs) (hm : m + 2 < n)
    (hstop : xs[m]! = xs[last xs]! ∨ xs[m]! + 2 * xs[last xs]! = 0 ∧ xs[n - 2]! = xs[last xs]!)
    (hf : xs.length < fuel) {Q : Unit → State → Prop} : ¬ Runs (search fuel n 0) s Q := by
  have hmax : last xs ≤ 2147483647 := Nat.min_le_right _ _
  -- the invariant: `i` has not got over the element
  refine Ensures.not_runs ?_
  refine ensures_loop (fun (p : Int) t => t.items = xs ∧ ∃ i : Nat, p = i ∧ i ≤ m) ?_
    ⟨hs, 0, rfl, Nat.zero_le m⟩
  rintro _ t ⟨hitems, i, rfl, him⟩
  have hfirst : (i : Int) + 1 = (i + 1 : Nat) := by push_cast; rfl
  have hend : (n : Int) - 1 = (n - 1 : Nat) := by omega
  refine Runs.bind_ensures ((runs_int ⟨by omega, by omega⟩).mpr ?_)
  rw [if_pos (by omega)]
  refine Runs.bind_ensures ((runs_int ⟨by omega, by omega⟩).mpr ?_)
  refine Runs.bind_ensures ((runs_int ⟨by omega, by omega⟩).mpr ?_)
  rw [hfirst, hend]
  by_cases heq : xs[i]! = xs[m]!
  · rw [← heq] at hstop
    refine ensures_of_not_runs fun hruns => ?_
    rw [runs_bind] at hruns
    rcases hstop with hone | ⟨hzero, htwo⟩
    · obtain ⟨_, u, hsweep, hskip⟩ := hruns
      have hu : u.items = xs := (keeps_sweep t _ u hsweep).trans hitems
      rw [runs_bind] at hskip
      exact not_runs_skip hu (by omega) (by omega) hsorted hone hskip
    · exact not_runs_sweep (j := i + 1) hitems hsorted hn hlast (by omega) (by omega) hzero htwo
        hruns
  · have hlt : xs[i]! < xs[m]! :=
      lt_of_le_of_ne (hsorted.mono_getElem! him (by omega)) heq
    have hgreatest := hsorted.mono_getElem! (i := m) (j := last xs) (by omega) (last_lt (i := i)
      (by omega))
    refine Ensures.bind ((keeps_sweep t).mono fun _ u hu => ?_)
    refine Runs.bind_ensures ((runs_skip (Eq.trans hu hitems) (by omega) (by omega) hsorted
      (by omega) hf).mono ?_)
    rintro _ w ⟨hsame, e, rfl, hie, he, hei, hnext⟩
    refine Runs.ensures ?_
    rw [runs_int_bind (by omega) (by omega), runs_pure]
    refine ⟨hsame.items.trans (Eq.trans hu hitems), e + 1, by push_cast; rfl, ?_⟩
    by_contra hme
    have hle := hsorted.mono_getElem! (i := m) (j := e) (by omega) (by unfold last at he; omega)
    omega

/-- At the end of the search the list is what it should be for the part that was searched. -/
theorem Listed.solves (h : Listed xs n i res) (hend : n ≤ i + 2) (hsorted : SortedIn 0 xs.length xs)
    (hn : n ≤ xs.length) : Solves (xs.take n) res := by
  refine ⟨h.nodup, fun l => ?_⟩
  constructor
  · intro hl
    obtain ⟨p, q, r, hpq, hqr, hr, hzero, rfl, -⟩ := h.found l hl
    have hab := hsorted p q (Nat.zero_le p) hpq (by omega)
    have hbc := hsorted q r (Nat.zero_le q) hqr (by omega)
    exact ⟨_, _, _, rfl, hab, hbc, hzero,
      (subperm_take_iff hsorted hn hab hbc).mpr ⟨p, q, r, hpq, hqr, hr, rfl, rfl, rfl⟩⟩
  · rintro ⟨a, b, c, rfl, hab, hbc, hzero, hsub⟩
    obtain ⟨p, q, r, hpq, hqr, hr, rfl, rfl, rfl⟩ :=
      (subperm_take_iff hsorted hn hab hbc).mp hsub
    rcases h.complete p q r hpq hqr hr hzero with hmem | hip
    · exact hmem
    · omega

end

section
variable {nums : List Int} {res : List (List Int)} {fuel : Nat}

theorem runs_threeSum {Q : List (List Int) → State → Prop} :
    Runs (threeSum fuel) (start nums) Q ↔ Runs (search fuel (toInt nums.length) 0)
      ⟨[], nums.insertionSort (· ≤ ·), []⟩ fun _ t => Q t.other t := by
  rw [threeSum, runs_bind, runs_size, runs_bind, sort, runs_bind, runs_get, runs_set, runs_bind]
  refine exists_congr fun _ => exists_congr fun t => and_congr_right fun _ => ?_
  dsimp only
  rw [runs_bind, runs_get, runs_pure]

theorem sorted_insertionSort (nums : List Int) :
    SortedIn 0 (nums.insertionSort (· ≤ ·)).length (nums.insertionSort (· ≤ ·)) := by
  rw [sortedIn_iff_slice le_rfl, slice, List.drop_zero, Nat.sub_zero, List.take_length]
  exact List.pairwise_insertionSort _ _

/-- Without three elements there is nothing to find. -/
theorem solves_nil (h : nums.length < 3) : Solves nums [] := by
  refine ⟨List.nodup_nil, fun l => iff_of_false List.not_mem_nil ?_⟩
  rintro ⟨a, b, c, -, -, -, -, hsub⟩
  have hlength := hsub.length_le
  simp only [List.length_cons, List.length_nil] at hlength
  omega

/-- The part that the loops go through is not longer than the vector. -/
theorem toNat_le_length (nums : List Int) :
    (toInt nums.length).toNat ≤ (nums.insertionSort (· ≤ ·)).length := by
  have hle := toInt_le (n := nums.length)
  rw [List.length_insertionSort]
  omega

theorem le_last {q : Nat} (hq : q < (toInt nums.length).toNat) :
    q ≤ last (nums.insertionSort (· ≤ ·)) := by
  have hle := toNat_le_length nums
  have hint := (isInt_toInt (n := nums.length)).2
  unfold last
  omega

theorem le_greatest {q : Nat} (hq : q < (toInt nums.length).toNat) :
    (nums.insertionSort (· ≤ ·))[q]! ≤ greatest nums :=
  (sorted_insertionSort nums).mono_getElem! (le_last hq)
    (last_lt (hq.trans_le (toNat_le_length nums)))

/-- At a first element that is as great as the last one, there are three of them. -/
theorem Stays.three_ne (h : Stays nums) {i : Nat} (hi : i + 2 < (toInt nums.length).toNat) :
    (nums.insertionSort (· ≤ ·))[i]! ≠ greatest nums := by
  intro heq
  have hle := toNat_le_length nums
  have hgreatest : ∀ q, i ≤ q → q < (toInt nums.length).toNat →
      (nums.insertionSort (· ≤ ·))[q]! = greatest nums := by
    intro q hiq hq
    refine le_antisymm (le_greatest hq) ?_
    rw [← heq]
    exact (sorted_insertionSort nums).mono_getElem! hiq (by omega)
  refine h.three ((subperm_take_iff (sorted_insertionSort nums) hle le_rfl le_rfl).mpr ?_)
  exact ⟨i, i + 1, i + 2, by omega, by omega, hi, heq, hgreatest _ (by omega) (by omega),
    hgreatest _ (by omega) hi⟩

/-- If the second element of a triple is as great as the last one, the third one is, too. -/
theorem Stays.two_ne (h : Stays nums) {i q r : Nat} (hiq : i < q) (hqr : q < r)
    (hr : r < (toInt nums.length).toNat) (hzero : (nums.insertionSort (· ≤ ·))[i]! +
      (nums.insertionSort (· ≤ ·))[q]! + (nums.insertionSort (· ≤ ·))[r]! = 0) :
    (nums.insertionSort (· ≤ ·))[q]! ≠ greatest nums := by
  intro heq
  have hle := toNat_le_length nums
  have hsorted := sorted_insertionSort nums
  have hlow := hsorted i q (Nat.zero_le i) hiq (by omega)
  have hhigh := hsorted q r (Nat.zero_le q) hqr (by omega)
  have hgreatest := le_greatest hr
  refine h.two ((subperm_take_iff hsorted hle (by omega) le_rfl).mpr ?_)
  exact ⟨i, q, r, hiq, hqr, hr, by omega, heq, by omega⟩

/-- The loops find what is to be found in the part that they go through. -/
theorem Stays.runs (h : Stays nums) (hf : nums.length < fuel) :
    Runs (threeSum fuel) (start nums) fun res _ => Solves (front nums) res := by
  have hlen := List.length_insertionSort (· ≤ ·) nums
  have hle := toNat_le_length nums
  have hsorted := sorted_insertionSort nums
  rw [runs_threeSum]
  by_cases hn : 2 < toInt nums.length
  · have hcast : toInt nums.length = ((toInt nums.length).toNat : Int) := by omega
    have hitems : (⟨[], nums.insertionSort (· ≤ ·), []⟩ : State).items =
        nums.insertionSort (· ≤ ·) := rfl
    rw [hcast]
    refine (runs_search hitems rfl hsorted hle (by omega) (le_last (by omega))
      (fun i hi => h.three_ne hi) (fun i q r hiq hqr hr => h.two_ne hiq hqr hr)
      (by omega)).mono ?_
    rintro _ t ⟨i, hi, hlisted⟩
    exact hlisted.solves hi hsorted hle
  · obtain ⟨fuel, rfl⟩ : ∃ d, fuel = d + 1 := ⟨fuel - 1, by omega⟩
    rw [search, runs_loop_succ, runs_bind, runs_int h.fits, if_neg (by omega), runs_pure]
    refine solves_nil ?_
    have htake := List.length_take_le (toInt nums.length).toNat (nums.insertionSort (· ≤ ·))
    unfold front
    omega

/-- A call that ends did not meet an element that the loops do not get over. -/
theorem stays_of_runs (hf : nums.length < fuel) {Q : List (List Int) → State → Prop}
    (h : Runs (threeSum fuel) (start nums) Q) : Stays nums := by
  have hlen := List.length_insertionSort (· ≤ ·) nums
  have hle := toNat_le_length nums
  have hsorted := sorted_insertionSort nums
  rw [runs_threeSum] at h
  have hstop : ∀ m, m + 2 < (toInt nums.length).toNat →
      ¬ ((nums.insertionSort (· ≤ ·))[m]! = greatest nums ∨
        (nums.insertionSort (· ≤ ·))[m]! + 2 * greatest nums = 0 ∧
          (nums.insertionSort (· ≤ ·))[(toInt nums.length).toNat - 2]! = greatest nums) := by
    intro m hm hbad
    have hcast : toInt nums.length = ((toInt nums.length).toNat : Int) := by omega
    have hitems : (⟨[], nums.insertionSort (· ≤ ·), []⟩ : State).items =
        nums.insertionSort (· ≤ ·) := rfl
    rw [hcast] at h
    exact not_runs_search hitems hsorted hle (le_last (by omega)) hm hbad (by omega) h
  refine ⟨?_, ?_, ?_⟩
  · obtain ⟨fuel, rfl⟩ : ∃ d, fuel = d + 1 := ⟨fuel - 1, by omega⟩
    rw [search, runs_loop_succ, runs_bind, runs_int_iff] at h
    exact h.1
  · intro hsub
    obtain ⟨p, q, r, hpq, hqr, hr, hp, -, -⟩ :=
      (subperm_take_iff hsorted hle le_rfl le_rfl).mp hsub
    exact hstop p (by omega) (Or.inl hp)
  · intro hsub
    obtain ⟨p, hp, hpe⟩ := List.mem_iff_getElem.mp (hsub.subset (List.mem_cons_self ..))
    have hpn : p < (toInt nums.length).toNat := hp.trans_le (List.length_take_le _ _)
    have hlow : -2 * greatest nums ≤ greatest nums := by
      rw [← hpe, ← getElem!_pos, front, getElem!_take hpn]
      exact le_greatest hpn
    obtain ⟨i, q, r, hiq, hqr, hr, hi, hq, -⟩ :=
      (subperm_take_iff hsorted hle hlow le_rfl).mp hsub
    refine hstop i (by omega) (Or.inr ⟨by omega, le_antisymm (le_greatest (by omega)) ?_⟩)
    rw [← hq]
    exact hsorted.mono_getElem! (by omega) (by omega)

theorem front_perm (h : nums.length < 2147483648) : (front nums).Perm nums := by
  have hlen := List.length_insertionSort (· ≤ ·) nums
  rw [front, toInt_of_lt h, Int.toNat_natCast, List.take_of_length_le hlen.le]
  exact List.perm_insertionSort _ nums

/-- When an `int` holds the length, the greatest number decides. -/
theorem admits_iff (h : nums.length < 2147483648) : Admits nums ↔
    ¬ [greatest nums, greatest nums, greatest nums].Subperm nums ∧
      ¬ [-2 * greatest nums, greatest nums, greatest nums].Subperm nums := by
  have hperm := front_perm h
  constructor
  · exact fun ha => ⟨fun hsub => ha.three (hperm.symm.subperm_left.mp hsub),
      fun hsub => ha.two (hperm.symm.subperm_left.mp hsub)⟩
  · rintro ⟨hthree, htwo⟩
    have hfits : IsInt (toInt nums.length - 2) := by
      rw [toInt_of_lt h]
      unfold IsInt
      omega
    exact ⟨⟨hfits, fun hsub => hthree (hperm.subperm_left.mp hsub),
      fun hsub => htwo (hperm.subperm_left.mp hsub)⟩,
      fun a b c _ _ _ hsub => hperm.symm.subperm_left.mp hsub⟩

/-- The result is right exactly for these numbers: behind a triple the loop looks for an element
that differs from the second one, and the outer loop for one that differs from the first one, and
neither looks where the vector ends. -/
theorem threeSum_solves_iff (hf : nums.length < fuel) :
    Runs (threeSum fuel) (start nums) (fun res _ => Solves nums res) ↔ Admits nums := by
  constructor
  · intro h
    have hstays := stays_of_runs hf h
    obtain ⟨res, _, -, hall, hfront⟩ := h.and (hstays.runs hf)
    refine ⟨hstays, fun a b c hab hbc hzero hsub => ?_⟩
    have hmem := (hall.mem_iff _).mpr ⟨a, b, c, rfl, hab, hbc, hzero, hsub⟩
    obtain ⟨a', b', c', hl, -, -, -, hsub'⟩ := (hfront.mem_iff _).mp hmem
    rwa [hl]
  · intro h
    refine (h.toStays.runs hf).mono fun res _ hfront => ⟨hfront.nodup, fun l => ?_⟩
    have hlen := List.length_insertionSort (· ≤ ·) nums
    have hpart : (front nums).Subperm nums :=
      (List.take_sublist _ _).subperm.trans (List.perm_insertionSort _ nums).subperm
    rw [hfront.mem_iff]
    constructor
    · rintro ⟨a, b, c, rfl, hab, hbc, hzero, hsub⟩
      exact ⟨a, b, c, rfl, hab, hbc, hzero, hsub.trans hpart⟩
    · rintro ⟨a, b, c, rfl, hab, hbc, hzero, hsub⟩
      exact ⟨a, b, c, rfl, hab, hbc, hzero, h.whole a b c hab hbc hzero hsub⟩

theorem threeSum_solves_iff_three :
    Runs (threeSum 4) (start [-1, 0, 1]) (fun res _ => Solves [-1, 0, 1] res) ↔
      Admits [-1, 0, 1] :=
  threeSum_solves_iff (by decide)

example : (threeSum 7 (start [-1, 0, 1, 2, -1, -4])).toOption.map Prod.fst =
    some [[-1, -1, 2], [-1, 0, 1]] := by
  decide +kernel

/-- Three zeros: the loop compares the last one with the element behind it. -/
theorem threeSum_zeros : Fails (threeSum 4) (start [0, 0, 0]) .outOfRange ∧
    ¬ ∃ fuel, Runs (threeSum fuel) (start [0, 0, 0]) fun res _ => Solves [0, 0, 0] res := by
  refine ⟨rfl, ?_⟩
  rintro ⟨fuel, h⟩
  by_cases hf : fuel ≤ 3
  · obtain rfl | rfl | rfl | rfl : fuel = 0 ∨ fuel = 1 ∨ fuel = 2 ∨ fuel = 3 := by omega
    · exact h.not_fails (f := .outOfFuel) rfl
    · exact h.not_fails (f := .outOfFuel) rfl
    · exact h.not_fails (f := .outOfRange) rfl
    · exact h.not_fails (f := .outOfRange) rfl
  · refine (stays_of_runs (show [0, 0, 0].length < fuel by simp; omega) h).three ?_
    exact (show [greatest [0, 0, 0], greatest [0, 0, 0], greatest [0, 0, 0]].Perm
      (front [0, 0, 0]) by decide +kernel).subperm

end

end LanguageTest.ThreeSum
