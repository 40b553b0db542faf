import LanguageTest.Library.Sorting

namespace LanguageTest.BubbleSort
open Sorting

abbrev State := Vec Unit Int

def bubbleSort (fuel : Nat) (len : Int) : Program State Unit :=
  countUp fuel 0 (int (len - 1)) fun i =>
    countUp fuel 0 (do int ((← int (len - i)) - 1)) fun j => exchange j (j + 1)

/-- `data.size() - 1` and `data.size() - i - 1` are numbers of type `size_t`, to which `i` and `j`
are converted. -/
def bubbleSort5 (fuel : Nat) : Program State Unit :=
  countUp fuel 0 (do pure (toSize ((← size : Nat) - 1) : Nat)) fun i =>
    countUp fuel 0 (do pure (toSize ((← size : Nat) - i - 1) : Nat)) fun j => exchange j (j + 1)

section
variable {s : State} {fuel i m n : Nat} {data : List Int}

/-- The inner loop, with either bound. -/
theorem runs_inner {bound : Program State Int} (h : SortedFrom (m + 1) s.items)
    (hm : m < s.items.length) (hn : s.items.length ≤ 2147483648)
    (hbound : ∀ t : State, t.items.length = s.items.length →
      Runs bound t fun b u => b.toNat = m ∧ u = t) (hf : m < fuel) :
    Runs (countUp fuel 0 bound fun j => exchange j (j + 1)) s fun _ t =>
      t.items.Perm s.items ∧ SortedFrom m t.items := by
  refine (runs_countUp (l := 0) (n := m) (fun j t => t.items.Perm s.items ∧
    SortedFrom (m + 1) t.items ∧ GreatestAt j t.items) ?_ (by omega) ?_
    ⟨List.Perm.refl _, h, greatestAt_zero⟩ (by omega)).mono ?_
  · rintro j t ⟨hperm, -, -⟩
    exact hbound t hperm.length_eq
  · rintro j - hj t ⟨hperm, hsorted, hgreatest⟩
    have hlength := hperm.length_eq
    have hnext : (j : Int) + 1 = (j + 1 : Nat) := by omega
    rw [hnext]
    refine (runs_exchange (by omega) (by omega)).mono ?_
    intro _ u hu
    have hswap : (exchanged t.items j (j + 1)).Perm t.items := perm_exchanged (by omega) (by omega)
    rw [hu]
    exact ⟨hswap.trans hperm, hsorted.exchange (by omega) (by omega), hgreatest.next (by omega)⟩
  · rintro _ t ⟨hperm, hsorted, hgreatest⟩
    rw [Nat.max_eq_right (Nat.zero_le m)] at hgreatest
    exact ⟨hperm, hsorted.cons hgreatest⟩

/-- The outer loop, which makes no pass for the last element, nor for an empty array. -/
theorem runs_outer {bound : Program State Int} {inner : Int → Program State Int}
    (hn : s.items.length ≤ 2147483648)
    (hbound : ∀ t : State, t.items.length = s.items.length →
      Runs bound t fun b u => b.toNat = s.items.length - 1 ∧ u = t)
    (hinner : ∀ (i : Nat) (t : State), i + 1 < s.items.length → t.items.length = s.items.length →
      Runs (inner i) t fun b u => b.toNat = s.items.length - 1 - i ∧ u = t)
    (hf : s.items.length < fuel) :
    Runs (countUp fuel 0 bound fun i => countUp fuel 0 (inner i) fun j => exchange j (j + 1)) s
      fun _ t => t.items = s.items.insertionSort (· ≤ ·) := by
  refine (runs_countUp (l := 0) (n := s.items.length - 1) (fun i t => t.items.Perm s.items ∧
    SortedFrom (s.items.length - i) t.items) ?_ (by omega) ?_
    ⟨List.Perm.refl _, sortedFrom_length⟩ (by omega)).mono ?_
  · rintro i t ⟨hperm, -⟩
    exact hbound t hperm.length_eq
  · rintro i - hi t ⟨hperm, hsorted⟩
    have hlength := hperm.length_eq
    have hsplit : s.items.length - i = s.items.length - 1 - i + 1 := by omega
    rw [hsplit] at hsorted
    refine (runs_inner hsorted (by omega) (by omega) ?_ (by omega)).mono ?_
    · exact fun u hu => hinner i u (by omega) (hu.trans hlength)
    · rintro _ u ⟨hinner, hnext⟩
      rw [Nat.sub_right_comm] at hnext
      exact ⟨hinner.trans hperm, hnext⟩
  · rintro _ t ⟨hperm, hsorted⟩
    have hlength := hperm.length_eq
    exact eq_insertionSort hperm (hsorted.sorted (by omega))

/-- The bounds are the numbers that the source means, since nothing wraps around or overflows. -/
theorem runs_bubbleSort (hn : s.items.length < 2147483648) (hf : s.items.length < fuel) :
    Runs (bubbleSort fuel s.items.length) s fun _ t =>
      t.items = s.items.insertionSort (· ≤ ·) := by
  refine runs_outer (by omega) ?_ ?_ hf
  · intro t _
    rw [runs_int (by unfold IsInt; omega)]
    exact ⟨by omega, rfl⟩
  · intro i t hi _
    rw [runs_int_bind (by omega) (by omega), runs_int (by unfold IsInt; omega)]
    exact ⟨by omega, rfl⟩

theorem runs_bubbleSort5 (hpos : 0 < s.items.length) (hn : s.items.length ≤ 2147483648)
    (hf : s.items.length < fuel) : Runs (bubbleSort5 fuel) s fun _ t =>
      t.items = s.items.insertionSort (· ≤ ·) := by
  refine runs_outer hn ?_ ?_ hf
  · intro t ht
    rw [runs_bind, runs_size, runs_pure, ht]
    exact ⟨by unfold toSize; omega, rfl⟩
  · intro i t hi ht
    rw [runs_bind, runs_size, runs_pure, ht]
    exact ⟨by unfold toSize; omega, rfl⟩

/-- Of the empty array the bounds wrap around, and the first comparison is out of range. -/
theorem not_runs_bubbleSort5_nil (h : s.items = []) {Q : Unit → State → Prop} :
    ¬ Runs (bubbleSort5 fuel) s Q := by
  intro hruns
  cases fuel with
  | zero => exact hruns.not_fails fails_fail
  | succ fuel =>
    refine hruns.not_fails (f := .outOfRange) (fails_countUp ?_ (fails_countUp ?_ ?_))
    · rw [runs_bind, runs_size, runs_pure, h]
      exact ⟨by decide, rfl⟩
    · rw [runs_bind, runs_size, runs_pure, h]
      exact ⟨by decide, rfl⟩
    · exact (fails_element h).bind

theorem ensures_exchange {i j : Int} (h : HasSize n s) :
    Ensures (exchange i j) s fun _ t => HasSize n t := by
  refine Ensures.bind ((ensures_element h).mono fun x t ht => ?_)
  refine Ensures.bind ((ensures_element ht).mono fun y u hu => ?_)
  split_ifs
  · exact ensures_swapElements hu
  · exact ensures_pure hu

/-- The outer loop has more passes than an `int` can count. -/
theorem not_runs_bubbleSort5_long (hn : 2147483648 < s.items.length)
    (hsize : s.items.length < 18446744073709551616) {Q : Unit → State → Prop} :
    ¬ Runs (bubbleSort5 fuel) s Q := by
  refine not_runs_countUp (HasSize s.items.length) ?_ ?_ rfl (by decide)
  · intro t ht
    refine Runs.ensures ?_
    rw [runs_bind, runs_size, runs_pure, ht]
    exact ⟨by unfold toSize; omega, ht⟩
  · intro i t ht
    refine ensures_countUp (HasSize s.items.length) ?_ (fun _ _ => ensures_exchange) ht
    intro u hu
    refine Runs.ensures ?_
    rw [runs_bind, runs_size, runs_pure]
    exact hu

/-- The length of such an array is the least `int`, and `len - 1` overflows. -/
theorem not_runs_bubbleSort_least {Q : Unit → State → Prop} :
    ¬ Runs (bubbleSort fuel (-2147483648)) s Q := by
  intro hruns
  cases fuel with
  | zero => exact hruns.not_fails fails_fail
  | succ fuel => exact hruns.not_fails (fails_int (by decide)).bind.bind

end

/-- `bubbleSort5` does what `bubbleSort` does exactly of the arrays that are not empty and whose
length is an `int`. -/
theorem bubbleSort5_iff (data : List Int) (hsize : data.length < 18446744073709551616) :
    (∃ fuel, Runs (bubbleSort5 fuel) ⟨(), data, []⟩ fun _ t =>
      Runs (bubbleSort fuel (toInt data.length)) ⟨(), data, []⟩ fun _ u => u.items = t.items) ↔
    1 ≤ data.length ∧ data.length ≤ 2147483647 := by
  constructor
  · rintro ⟨fuel, hruns⟩
    by_contra hrange
    rcases Nat.eq_zero_or_pos data.length with hzero | hpos
    · exact not_runs_bubbleSort5_nil (List.length_eq_zero_iff.mp hzero) hruns
    rcases Nat.lt_or_ge 2147483648 data.length with hlong | hle
    · exact not_runs_bubbleSort5_long hlong hsize hruns
    have hlength : data.length = 2147483648 := by omega
    have hleast : toInt data.length = -2147483648 := by
      rw [hlength]
      decide
    obtain ⟨_, t, -, hsecond⟩ := hruns
    rw [hleast] at hsecond
    exact not_runs_bubbleSort_least hsecond
  · rintro ⟨hpos, hn⟩
    have hlt : data.length < 2147483648 := by omega
    have hfuel := Nat.lt_succ_self data.length
    refine ⟨data.length + 1, (runs_bubbleSort5 (s := ⟨(), data, []⟩) hpos hlt.le hfuel).mono ?_⟩
    intro _ t ht
    rw [toInt_of_lt hlt]
    refine (runs_bubbleSort (s := ⟨(), data, []⟩) hlt hfuel).mono ?_
    intro _ u hu
    exact hu.trans ht.symm

theorem bubbleSort5_iff_sample :
    (∃ fuel, Runs (bubbleSort5 fuel) ⟨(), [2, 1], []⟩ fun _ t =>
      Runs (bubbleSort fuel (toInt [2, 1].length)) ⟨(), [2, 1], []⟩ fun _ u =>
        u.items = t.items) ↔
    1 ≤ [2, 1].length ∧ [2, 1].length ≤ 2147483647 :=
  bubbleSort5_iff [2, 1] (by decide)

def empty : State := ⟨(), [], []⟩

theorem bubbleSort5_nil :
    (∀ fuel, Runs (bubbleSort (fuel + 1) (toInt empty.items.length)) empty fun _ t =>
      t.items = []) ∧
    ∀ fuel, ¬ Runs (bubbleSort5 fuel) empty fun _ t =>
      Runs (bubbleSort fuel (toInt empty.items.length)) empty fun _ u => u.items = t.items := by
  refine ⟨fun fuel => ?_, fun fuel => not_runs_bubbleSort5_nil rfl⟩
  exact (runs_bubbleSort (s := empty) (by decide) (Nat.succ_pos fuel)).mono fun _ _ ht => ht

end LanguageTest.BubbleSort
