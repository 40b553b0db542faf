import LanguageTest.Library.Rearranged

namespace LanguageTest.QuickSort
open Sorting

/-- The vector, and how many random numbers have been drawn. -/
abbrev State := Vec Nat Int

/-- `rand()`, which gives the next of these numbers. -/
def draw (rand : Nat → Nat) : Program State Nat := do
  let s ← get
  set { s with other := s.other + 1 }
  pure (rand s.other)

/-- The loop of `partition` over `big`, with the last value of `small`. -/
def split (fuel : Nat) (l r m_v : Int) : Program State Int :=
  loop (fun (big, small) => do
    if big < r then
      if (← element big) ≤ m_v then
        let small := small + 1
        swapElements small big
        pure (.again (big + 1, small))
      else pure (.again (big + 1, small))
    else pure (.done small)) fuel (l, l - 1)

def partition (rand : Nat → Nat) (fuel : Nat) (l r : Int) : Program State Int := do
  let p := (← draw rand) % (← int ((← int (r - l)) + 1)) + l
  swapElements r p
  let m_v ← element r
  let small ← split fuel l r m_v
  let small := small + 1
  swapElements small r
  pure small

/-- `void sortArray(vector<int>& nums, int l, int r)`. -/
def sortRange (rand : Nat → Nat) : Nat → Int → Int → Program State Unit
  | 0, _, _ => fail .outOfFuel
  | fuel + 1, l, r => do
    if l ≥ r then pure ()
    else
      let pos ← partition rand fuel l r
      sortRange rand fuel l (pos - 1)
      sortRange rand fuel (pos + 1) r

/-- `vector<int> sortArray(vector<int>& nums)`. -/
def sortArray (rand : Nat → Nat) (fuel : Nat) : Program State (List Int) := do
  let len := toInt (← size)
  sortRange rand fuel 0 (← int (len - 1))
  pure (← get).items

/-- The array in the loop: the elements before `q` are not greater than the pivot, which is at `r`,
and the ones from there up to `b` are greater. -/
structure Splitting (l r q b : Nat) (s t : State) : Prop where
  lower : l ≤ q
  between : q ≤ b
  upper : b ≤ r
  rearranged : Rearranged l (r + 1) s.items t.items
  pivot : t.items[r]! = s.items[r]!
  small : ∀ k, l ≤ k → k < q → t.items[k]! ≤ s.items[r]!
  big : ∀ k, q ≤ k → k < b → s.items[r]! < t.items[k]!
  within : Vec.Within l r s t

/-- The array after a call of `partition` that returns `q`. -/
structure Partitioned (l r q : Nat) (s t : State) : Prop where
  lower : l ≤ q
  upper : q ≤ r
  rearranged : Rearranged l (r + 1) s.items t.items
  below : ∀ k, l ≤ k → k < q → t.items[k]! ≤ t.items[q]!
  above : ∀ k, q < k → k < r + 1 → t.items[q]! ≤ t.items[k]!
  within : Vec.Within l r s t

/-- The array after a call for the elements from `a` up to, but not at, `b`. -/
structure SortedRange (a b : Nat) (s t : State) : Prop where
  rearranged : Rearranged a b s.items t.items
  sorted : SortedIn a b t.items
  within : Vec.Within a (b - 1) s t

section
variable {rand : Nat → Nat} {fuel a b l q r : Nat} {s t u : State}

namespace Splitting

theorem touch (h : Splitting l r q b s t) (hb : b < r) : Splitting l r q b s (t.touch b) := by
  have hlower := h.lower
  have hbetween := h.between
  exact ⟨h.lower, h.between, h.upper, h.rearranged, h.pivot, h.small, h.big,
    h.within.next rfl (by simp; omega)⟩

theorem skip (h : Splitting l r q b s t) (hb : b < r) (hlt : s.items[r]! < t.items[b]!) :
    Splitting l r q (b + 1) s t := by
  refine ⟨h.lower, h.between.trans (Nat.le_succ b), hb, h.rearranged, h.pivot, h.small, ?_,
    h.within⟩
  intro k hqk hkb
  rcases Nat.lt_succ_iff_lt_or_eq.mp hkb with hk | rfl
  · exact h.big k hqk hk
  · exact hlt

theorem swap (h : Splitting l r q b s t) (hb : b < r) (hr : r < t.items.length)
    (hle : t.items[b]! ≤ s.items[r]!) : Splitting l r (q + 1) (b + 1) s (t.swap q b) := by
  have hlower := h.lower
  have hbetween := h.between
  have hq : q < t.items.length := by omega
  have hbt : b < t.items.length := by omega
  constructor
  case lower => omega
  case between => omega
  case upper => exact hb
  case rearranged =>
    exact h.rearranged.trans (.swap hq hbt h.lower (by omega) (by omega) (by omega))
  case pivot =>
    rw [Vec.swap_items, getElem!_swapped hq hbt, if_neg (by omega), if_neg (by omega)]
    exact h.pivot
  case small =>
    intro k hlk hkq
    rw [Vec.swap_items, getElem!_swapped hq hbt]
    by_cases hkb : k = b
    · have hqb : q = b := by omega
      rw [if_pos hkb, hqb]
      exact hle
    by_cases hkq' : k = q
    · rw [if_neg hkb, if_pos hkq']
      exact hle
    · rw [if_neg hkb, if_neg hkq']
      exact h.small k hlk (by omega)
  case big =>
    intro k hqk hkb
    rw [Vec.swap_items, getElem!_swapped hq hbt]
    by_cases hkb' : k = b
    · rw [if_pos hkb']
      exact h.big q le_rfl (by omega)
    · rw [if_neg hkb', if_neg (by omega)]
      exact h.big k (by omega) (by omega)
  case within => exact h.within.next rfl (by simp; omega)

theorem finish (h : Splitting l r q r s t) (hr : r < t.items.length) :
    Partitioned l r q s (t.swap q r) := by
  have hlower := h.lower
  have hbetween := h.between
  have hq : q < t.items.length := by omega
  have hat : (t.swap q r).items[q]! = s.items[r]! := by
    rw [Vec.swap_items, getElem!_swapped hq hr, if_pos rfl, ← h.pivot]
    by_cases hqr : q = r
    · rw [if_pos hqr, hqr]
    · rw [if_neg hqr]
  constructor
  case lower => exact hlower
  case upper => exact hbetween
  case rearranged =>
    exact h.rearranged.trans (.swap hq hr hlower (by omega) (by omega) (by omega))
  case below =>
    intro k hlk hkq
    rw [hat, Vec.swap_items, getElem!_swapped hq hr, if_neg (by omega), if_neg (by omega)]
    exact h.small k hlk hkq
  case above =>
    intro k hqk hkr
    rw [hat, Vec.swap_items, getElem!_swapped hq hr]
    by_cases hkr' : k = r
    · rw [if_pos hkr']
      exact (h.big q le_rfl (by omega)).le
    · rw [if_neg hkr', if_neg (by omega)]
      exact (h.big k (by omega) (by omega)).le
  case within => exact h.within.next rfl (by simp; omega)

end Splitting

theorem runs_split (h : Splitting l r l l s t) (hr : r < t.items.length) (hf : r - l < fuel) :
    Runs (split fuel l r (s.items[r]!)) t fun p u => ∃ q : Nat, p = (q : Int) - 1 ∧
      u.items.length = t.items.length ∧ Splitting l r q r s u := by
  refine runs_loop (k := r - l) (fun k (p : Int × Int) u => ∃ q b : Nat, p = (↑b, (q : Int) - 1) ∧
    k = r - b ∧ u.items.length = t.items.length ∧ Splitting l r q b s u) ?_
    ⟨l, l, rfl, rfl, rfl, h⟩ hf
  rintro _ _ u ⟨q, b, rfl, rfl, hlength, h⟩
  dsimp only
  have hupper := h.upper
  have hbetween := h.between
  have hnext : (b : Int) + 1 = (b + 1 : Nat) := by omega
  by_cases hb : b < r
  · rw [if_pos (by omega), runs_bind, runs_element (by omega), hnext]
    by_cases hle : u.items[b]! ≤ s.items[r]!
    · have hsmall : (q : Int) - 1 + 1 = q := by omega
      rw [if_pos hle, hsmall, runs_bind, runs_swapElements (s := u.touch b)
        (show q < u.items.length by omega) (show b < u.items.length by omega), runs_pure]
      refine ⟨r - (b + 1), by omega, q + 1, b + 1, by simp, rfl, ?_, ?_⟩
      · rw [Vec.swap_items, length_swapped]
        exact hlength
      · exact (h.touch hb).swap hb (show r < u.items.length by omega) hle
    · rw [if_neg hle, runs_pure]
      refine ⟨r - (b + 1), by omega, q, b + 1, rfl, rfl, hlength, ?_⟩
      exact (h.touch hb).skip hb (not_le.mp hle)
  · have hend : b = r := by omega
    subst hend
    rw [if_neg (by omega), runs_pure]
    exact ⟨q, rfl, hlength, h⟩

theorem splitting_start (h : l ≤ r) : Splitting l r l l s s where
  lower := le_rfl
  between := le_rfl
  upper := h
  rearranged := .refl
  pivot := rfl
  small _ hlk hkl := absurd hkl (Nat.not_lt.mpr hlk)
  big _ hlk hkl := absurd hkl (Nat.not_lt.mpr hlk)
  within := .refl

/-- A change of the range before the loop. -/
theorem Partitioned.after (h : Partitioned l r q t u) (hr : Rearranged l (r + 1) s.items t.items)
    (hw : Vec.Within l r s t) : Partitioned l r q s u :=
  ⟨h.lower, h.upper, hr.trans h.rearranged, h.below, h.above, hw.trans h.within⟩

theorem runs_draw {Q : Nat → State → Prop} :
    Runs (draw rand) s Q ↔ Q (rand s.other) { s with other := s.other + 1 } := by
  rw [draw, runs_bind, runs_get, runs_bind, runs_set, runs_pure]

/-- Whatever the random number is, the pivot is an element of the range. -/
theorem runs_partition (hlr : l < r) (hr : r < s.items.length) (hint : r < 2147483647)
    (hf : r - l < fuel) : Runs (partition rand fuel l r) s fun p t =>
      ∃ q : Nat, p = q ∧ Partitioned l r q s t := by
  rw [partition, runs_bind, runs_draw]
  obtain ⟨p, hp, hlp, hpr⟩ : ∃ p : Nat,
      ((rand s.other : Nat) : Int) % ((r : Int) - l + 1) + l = p ∧ l ≤ p ∧ p ≤ r := by
    have hpos : (0 : Int) < (r : Int) - l + 1 := by omega
    have hnonneg := Int.emod_nonneg (rand s.other : Int) hpos.ne'
    have hlt := Int.emod_lt_of_pos (rand s.other : Int) hpos
    refine ⟨(((rand s.other : Nat) : Int) % ((r : Int) - l + 1) + l).toNat, ?_, ?_, ?_⟩
    · exact (Int.toNat_of_nonneg (by omega)).symm
    · omega
    · omega
  rw [runs_int_bind (by omega) (by omega), runs_int_bind (by omega) (by omega), hp]
  generalize hs : { s with other := s.other + 1 } = s'
  have hitems : s'.items = s.items := hs ▸ rfl
  have hwithin : Vec.Within l r s s' := ⟨[], by rw [← hs, List.append_nil], by simp⟩
  have hr' : r < s'.items.length := hitems ▸ hr
  have hp' : p < s'.items.length := by omega
  have hswap : Rearranged l (r + 1) s.items (s'.swap r p).items := by
    rw [Vec.swap_items, hitems]
    exact .swap hr (by omega) (by omega) (by omega) hlp (by omega)
  have hlast : r < (s'.swap r p).items.length := by rwa [hswap.length_eq]
  rw [runs_bind, runs_swapElements hr' hp', runs_bind, runs_element hlast, runs_bind]
  have hswapped : Vec.Within l r s (s'.swap r p) := hwithin.next rfl (by simp; omega)
  have hbefore : Vec.Within l r s ((s'.swap r p).touch r) :=
    (hswapped.next rfl (by simp; omega))
  refine (runs_split (s := (s'.swap r p).touch r) (splitting_start hlr.le) hlast hf).mono ?_
  rintro _ t ⟨q, rfl, hlength, hsplit⟩
  have hnext : (q : Int) - 1 + 1 = q := by omega
  have hq := hsplit.between
  have hrt : r < t.items.length := hlength ▸ hlast
  rw [hnext, runs_bind, runs_swapElements (by omega) hrt, runs_pure]
  exact ⟨q, rfl, (hsplit.finish hrt).after hswap hbefore⟩

theorem sortedRange_short (h : b ≤ a + 1) : SortedRange a b s s :=
  ⟨.refl, fun i j hai hij hjb => absurd hij (by omega), .refl⟩

/-- The two calls for the ranges around the pivot. -/
theorem SortedRange.around {v : State} (hp : Partitioned a (b - 1) q s t)
    (hleft : SortedRange a q t u) (hright : SortedRange (q + 1) b u v) (hab : a < b)
    (hb : b ≤ s.items.length) : SortedRange a b s v := by
  have hq := hp.upper
  have hlower := hp.lower
  have hend : b - 1 + 1 = b := by omega
  have hpr := hp.rearranged
  have habove := hp.above
  rw [hend] at hpr habove
  have hbt : b ≤ t.items.length := hpr.length_eq ▸ hb
  have hbu : b ≤ u.items.length := hleft.rearranged.length_eq ▸ hbt
  have hpivot : v.items[q]! = t.items[q]! := by
    rw [hright.rearranged.outside q (by omega), hleft.rearranged.outside q (by omega)]
  constructor
  case rearranged =>
    exact (hpr.trans (hleft.rearranged.mono le_rfl (by omega))).trans
      (hright.rearranged.mono (by omega) le_rfl)
  case sorted =>
    refine (hleft.sorted.frame hright.rearranged (by omega)).join hright.sorted ?_ ?_
    · intro k hak hkq
      rw [hpivot, hright.rearranged.outside k (by omega)]
      exact hleft.rearranged.bound (P := fun x => x ≤ t.items[q]!) (by omega)
        (fun j haj hjq => hp.below j haj hjq) hak hkq
    · intro k hqk hkb
      rw [hpivot]
      refine hright.rearranged.bound (P := fun x => t.items[q]! ≤ x) hbu (fun j hqj hjb => ?_)
        hqk hkb
      rw [hleft.rearranged.outside j (by omega)]
      exact habove j hqj hjb
  case within =>
    exact (hp.within.trans (hleft.within.mono le_rfl (by omega))).trans
      (hright.within.mono (by omega) le_rfl)

theorem runs_sortRange (hab : a ≤ b) (hb : b ≤ s.items.length) (hint : b ≤ 2147483647)
    (hf : b - a < fuel) : Runs (sortRange rand fuel a ((b : Int) - 1)) s fun _ t =>
      SortedRange a b s t := by
  induction fuel generalizing a b s with
  | zero => omega
  | succ fuel ih =>
    rw [sortRange]
    by_cases hshort : b ≤ a + 1
    · rw [if_pos (by omega), runs_pure]
      exact sortedRange_short hshort
    · have hlast : (b : Int) - 1 = (b - 1 : Nat) := by omega
      rw [if_neg (by omega), runs_bind, hlast]
      refine (runs_partition (by omega) (by omega) (by omega) (by omega)).mono ?_
      rintro _ t ⟨q, rfl, hp⟩
      have hlength := hp.rearranged.length_eq
      have hlower := hp.lower
      have hupper := hp.upper
      have hright : (q : Int) + 1 = (q + 1 : Nat) := by omega
      rw [runs_bind]
      refine (ih (a := a) (b := q) hlower (by omega) (by omega) (by omega)).mono ?_
      intro _ u hu
      have hlength' := hu.rearranged.length_eq
      rw [hright, ← hlast]
      refine (ih (a := q + 1) (b := b) (by omega) (by omega) hint (by omega)).mono ?_
      exact fun _ v hv => .around hp hu hv (by omega) hb

end

/-- Whatever numbers `rand` gives, the array is sorted, and a call for a range accesses only
elements of the range. -/
theorem sortArray_sorts (rand : Nat → Nat) (data : List Int) (fuel : Nat)
    (hn : data.length ≤ 2147483647) (hf : data.length < fuel) :
    Runs (sortArray rand fuel) ⟨0, data, []⟩ (fun nums t =>
      t.items = data.insertionSort (· ≤ ·) ∧ nums = t.items) ∧
    (∀ (s : State) (l r : Nat), s.items.length = data.length → l < r → r < data.length →
      Runs (partition rand fuel l r) s (fun _ t => Vec.Within l r s t) ∧
      Runs (sortRange rand fuel l r) s (fun _ t => Vec.Within l r s t)) ∧
    ∀ (s : State) (l r : Int), r ≤ l → Runs (sortRange rand fuel l r) s (fun _ t => t = s) := by
  refine ⟨?_, ?_, ?_⟩
  · rw [sortArray, runs_bind, runs_size, toInt_of_lt (Nat.lt_succ_of_le hn),
      runs_int_bind (by omega) (by omega), runs_bind]
    refine (runs_sortRange (a := 0) (s := ⟨0, data, []⟩) (Nat.zero_le _) le_rfl hn hf).mono ?_
    intro _ t ht
    rw [runs_bind, runs_get, runs_pure]
    exact ⟨eq_insertionSort ht.rearranged.perm (ht.rearranged.length_eq ▸ ht.sorted), rfl⟩
  · intro s l r hs hlr hr
    rw [← hs] at hn hf hr
    constructor
    · refine (runs_partition hlr hr (by omega) (by omega)).mono ?_
      rintro _ t ⟨q, -, ht⟩
      exact ht.within
    · have hlast : (r : Int) = (r + 1 : Nat) - 1 := by omega
      rw [hlast]
      refine (runs_sortRange (by omega) hr (by omega) (by omega)).mono ?_
      exact fun _ t ht => ht.within
  · intro s l r hrl
    cases fuel with
    | zero => omega
    | succ fuel => rw [sortRange, if_pos hrl, runs_pure]

def sample : List Int := [3, 1, 2, 3]

def numbers (k : Nat) : Nat := 1103515245 * k + 12345

theorem sortArray_sample :
    Runs (sortArray numbers 5) ⟨0, sample, []⟩ (fun nums t =>
      t.items = sample.insertionSort (· ≤ ·) ∧ nums = t.items) ∧
    (∀ (s : State) (l r : Nat), s.items.length = sample.length → l < r → r < sample.length →
      Runs (partition numbers 5 l r) s (fun _ t => Vec.Within l r s t) ∧
      Runs (sortRange numbers 5 l r) s (fun _ t => Vec.Within l r s t)) ∧
    ∀ (s : State) (l r : Int), r ≤ l → Runs (sortRange numbers 5 l r) s (fun _ t => t = s) :=
  sortArray_sorts numbers sample 5 (by decide) (by decide)

/-- A one before zeros. The conversion of this length to `int` makes it negative. -/
def long : List Int := 1 :: List.replicate 2147483648 0

theorem sortArray_long : long.length = 2147483649 ∧
    ∀ rand fuel, ¬ Runs (sortArray rand fuel) ⟨0, long, []⟩ fun nums t =>
      t.items = long.insertionSort (· ≤ ·) ∧ nums = t.items := by
  have hlength : long.length = 2147483649 := by
    rw [long, List.length_cons, List.length_replicate]
  have hzero : (0 : Int) ∈ List.replicate 2147483648 0 := List.mem_replicate.mpr ⟨by decide, rfl⟩
  have hlen : toInt 2147483649 = -2147483647 := by decide
  refine ⟨hlength, fun rand fuel hruns => ?_⟩
  rw [sortArray, runs_bind, runs_size, hlength, hlen, runs_bind, runs_int (by decide),
    runs_bind] at hruns
  cases fuel with
  | zero => exact hruns.not_fails fails_fail
  | succ fuel =>
    rw [sortRange, if_pos (by decide), runs_pure, runs_bind, runs_get, runs_pure] at hruns
    exact cons_ne_insertionSort hzero Int.one_pos hruns.1

end LanguageTest.QuickSort
