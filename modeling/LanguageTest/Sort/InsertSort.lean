import LanguageTest.Library.Counting
import LanguageTest.Library.Sorting

namespace LanguageTest.InsertSort
open Sorting

abbrev State := Vec Unit Int

/-- `for (int j = i - 1; j >= 0 && data[j + 1] < data[j]; j--) swap(data[j], data[j + 1])`. -/
def insertBack (fuel : Nat) (i : Int) : Program State Unit :=
  loop (fun j => do
    if 0 ≤ j then
      if (← element (j + 1)) < (← element j) then
        swapElements j (j + 1)
        pure (.again (j - 1))
      else pure (.done ())
    else pure (.done ())) fuel (i - 1)

def insertSort (fuel : Nat) : Program State Unit :=
  countUp fuel 1 sizeBound (insertBack fuel)

/-- `if(data[j-1]>data[j]) swap(data[j],data[j-1])`. -/
def insertStep (j : Int) : Program State Unit := do
  if (← element (j - 1)) > (← element j) then swapElements j (j - 1)

def insertSort2 (fuel : Nat) : Program State Unit :=
  countUp fuel 1 sizeBound fun i => countDown fuel i 1 1 insertStep

section
variable {s : State} {fuel m n p : Nat} {data : List Int}

theorem runs_insertBack (h : SortedMod 1 m s.items) (hm : m < s.items.length) (hf : m < fuel) :
    Runs (insertBack fuel m) s fun _ t =>
      t.items.Perm s.items ∧ SortedMod 1 (m + 1) t.items := by
  refine runs_loop (k := m) (fun k (j : Int) t => j = (k : Int) - 1 ∧ k ≤ m ∧
    t.items.Perm s.items ∧ SortedExcept 1 (m + 1) k t.items) ?_
    ⟨rfl, Nat.le_refl m, List.Perm.refl _, h.insert⟩ hf
  rintro p _ t ⟨rfl, hpm, hperm, hexcept⟩
  have hlength := hperm.length_eq
  by_cases hp : 1 ≤ p
  · have hhigh : (p : Int) - 1 + 1 = p := by omega
    have hlow : (p : Int) - 1 = (p - 1 : Nat) := by omega
    rw [if_pos (by omega), hhigh, hlow, runs_elements (by omega) (by omega)]
    by_cases hlt : t.items[p]! < t.items[p - 1]!
    · have hnext := hexcept.next Nat.one_pos hp (by omega) (by omega)
      rw [exchanged_of_lt hlt] at hnext
      have hswap : (swapped t.items (p - 1) p).Perm t.items := perm_swapped (by omega) (by omega)
      rw [if_pos hlt, runs_bind, runs_swapElements (by simpa using by omega)
        (by simpa using by omega), runs_pure]
      exact ⟨p - 1, by omega, by omega, by omega, hswap.trans hperm, hnext⟩
    · rw [if_neg hlt, runs_pure]
      exact ⟨hperm, hexcept.stop Nat.one_pos hp (by omega) (not_lt.mp hlt)⟩
  · rw [if_neg (by omega), runs_pure]
    exact ⟨hperm, hexcept.sorted (by omega)⟩

/-- The outer loop, for either inner one. -/
theorem runs_insertAll {body : Int → Program State Unit} (hn : s.items.length < 2147483648)
    (hbody : ∀ m t, m < s.items.length → t.items.length = s.items.length →
      SortedMod 1 m t.items →
      Runs (body m) t fun _ u => u.items.Perm t.items ∧ SortedMod 1 (m + 1) u.items)
    (hf : s.items.length < fuel) : Runs (countUp fuel 1 sizeBound body) s fun _ t =>
      t.items = s.items.insertionSort (· ≤ ·) := by
  refine (runs_insertions hn ?_ ?_ hf).mono ?_
  · exact fun t ht => runs_sizeBound.mpr ⟨ht, rfl⟩
  · exact fun m t _ hm ht hsorted => hbody m t hm ht hsorted
  · rintro _ t ⟨hperm, hsorted⟩
    exact sorted_of_insertions hperm hsorted

theorem runs_insertSort (hn : s.items.length < 2147483648) (hf : s.items.length < fuel) :
    Runs (insertSort fuel) s fun _ t => t.items = s.items.insertionSort (· ≤ ·) :=
  runs_insertAll hn (fun m t hm ht h => runs_insertBack h (by omega) (by omega)) hf

theorem runs_insertStep (hp : 1 ≤ p) (hn : p < s.items.length) :
    Runs (insertStep p) s fun _ t => t.items = exchanged s.items (p - 1) p := by
  have hlow : (p : Int) - 1 = (p - 1 : Nat) := by omega
  rw [insertStep, hlow, runs_elements (by omega) hn]
  by_cases hlt : s.items[p]! < s.items[p - 1]!
  · have hpred : p - 1 < s.items.length := by omega
    rw [if_pos hlt, runs_swapElements (s := (s.touch _).touch _) hn hpred, exchanged_of_lt hlt]
    exact swapped_comm
  · rw [if_neg hlt, runs_pure, exchanged_of_le (not_lt.mp hlt)]
    rfl

/-- The inner loop of `insertSort2` makes all its passes, also below the place of the element. -/
theorem runs_insertSweep (h : SortedMod 1 m s.items) (hm : m < s.items.length) (hf : m + 1 < fuel) :
    Runs (countDown fuel m 1 1 insertStep) s fun _ t =>
      t.items.Perm s.items ∧ SortedMod 1 (m + 1) t.items := by
  have hfirst : (m : Int) = (m + 1 : Nat) - (1 : Nat) := by omega
  rw [hfirst]
  refine (runs_countDown (f := m + 1) (l := 1) (g := 1) (s := s) Nat.one_pos (fun q t =>
    t.items.Perm s.items ∧ SortedExcept 1 (m + 1) (q - 1) t.items) ?_
    ⟨List.Perm.refl _, h.insert⟩ hf).mono ?_
  · rintro q hq hqm t ⟨hperm, hexcept⟩
    have hlength := hperm.length_eq
    refine (runs_insertStep (by omega) (by omega)).mono ?_
    intro _ u hu
    have hswap : (exchanged t.items (q - 1 - 1) (q - 1)).Perm t.items :=
      perm_exchanged (by omega) (by omega)
    rw [hu]
    exact ⟨hswap.trans hperm, hexcept.next Nat.one_pos (by omega) (by omega) (by omega)⟩
  · rintro _ t ⟨q, hq, hperm, hexcept⟩
    exact ⟨hperm, hexcept.sorted (by omega)⟩

theorem runs_insertSort2 (hn : s.items.length < 2147483648) (hf : s.items.length < fuel) :
    Runs (insertSort2 fuel) s fun _ t => t.items = s.items.insertionSort (· ≤ ·) :=
  runs_insertAll hn (fun m t hm ht h => runs_insertSweep h (by omega) (by omega)) hf

theorem ensures_insertBack {i : Int} (h : HasSize n s) :
    Ensures (insertBack fuel i) s fun _ t => HasSize n t := by
  refine ensures_loop (fun _ t => HasSize n t) ?_ h
  intro j t ht
  split_ifs
  · refine Ensures.bind ((ensures_element ht).mono fun x u hu => ?_)
    refine Ensures.bind ((ensures_element hu).mono fun y v hv => ?_)
    split_ifs
    · exact Ensures.bind ((ensures_swapElements hv).mono fun _ _ hw => ensures_pure hw)
    · exact ensures_pure hv
  · exact ensures_pure ht

/-- Before the loop ends, `i++` exceeds the range of an `int`. -/
theorem not_runs_insertSort (hn : 2147483648 ≤ s.items.length) {Q : Unit → State → Prop} :
    ¬ Runs (insertSort fuel) s Q := by
  refine not_runs_countUp (HasSize s.items.length) ?_ (fun _ t ht => ensures_insertBack ht) rfl
    (by decide)
  intro t ht
  refine (runs_sizeBound.mpr ⟨?_, ht⟩).ensures
  rw [ht]
  omega

end

end LanguageTest.InsertSort
