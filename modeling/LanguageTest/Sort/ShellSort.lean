import LanguageTest.Library.Sorting

namespace LanguageTest.ShellSort
open Sorting

abbrev State := Vec Unit Int

/-- `for (j = i - gap; j >= 0; j -= gap) if (data[j] > data[j + gap]) swap(…)`. -/
def sweep (fuel : Nat) (gap i : Int) : Program State Unit :=
  countDown fuel (i - gap) 0 gap fun j => exchange j (j + gap)

/-- The passes of `shellSort1`, whose bound `len` was read before the first one. -/
def pass1 (fuel : Nat) (len gap : Int) : Program State Unit :=
  countUp fuel gap (pure len) (sweep fuel gap)

def shellSort1 (fuel : Nat) : Program State Unit := do
  let len := toInt (← size)
  loop (fun gap => do
    if gap > 0 then
      pass1 fuel len gap
      pure (.again (gap.tdiv 2))
    else pure (.done ())) fuel (len.tdiv 2)

def pass2 (fuel : Nat) (gap : Int) : Program State Unit :=
  countUp fuel gap sizeBound (sweep fuel gap)

def shellSort2 (fuel : Nat) : Program State Unit := do
  let gap := toInt ((← size) / 2)
  loop (fun gap => do
    if gap > 0 then
      pass2 fuel gap
      pure (.again (gap / 2))
    else pure (.done ())) fuel gap

section
variable {s : State} {fuel g m n : Nat} {data : List Int}

/-- The loop goes on below the place of the element, where it finds nothing to swap. -/
theorem runs_sweep (h : SortedMod g m s.items) (hg : 0 < g) (hm : m < s.items.length)
    (hf : m < fuel) : Runs (sweep fuel g m) s fun _ t =>
      t.items.Perm s.items ∧ SortedMod g (m + 1) t.items := by
  refine (runs_countDown (l := 0) hg (fun p t => t.items.Perm s.items ∧
    SortedExcept g (m + 1) p t.items) ?_ ⟨List.Perm.refl _, h.insert⟩ hf).mono ?_
  · rintro p hp hpm t ⟨hperm, hexcept⟩
    have hlength := hperm.length_eq
    have hhigh : ((p - g : Nat) : Int) + g = p := by omega
    rw [hhigh]
    refine (runs_exchange (by omega) (by omega)).mono ?_
    intro _ u hu
    have hswap : (exchanged t.items (p - g) p).Perm t.items := perm_exchanged (by omega) (by omega)
    rw [hu]
    exact ⟨hswap.trans hperm, hexcept.next hg (by omega) (by omega) (by omega)⟩
  · rintro _ t ⟨p, hp, hperm, hexcept⟩
    exact ⟨hperm, hexcept.sorted (by omega)⟩

theorem runs_pass1 (hg : 0 < g) (hn : s.items.length < 2147483648) (hf : s.items.length < fuel) :
    Runs (pass1 fuel s.items.length g) s fun _ t =>
      t.items.Perm s.items ∧ SortedMod g s.items.length t.items := by
  refine runs_insertions hn (fun t _ => runs_pure.mpr ⟨rfl, rfl⟩) ?_ hf
  exact fun m t _ hm ht h => runs_sweep h hg (by omega) (by omega)

theorem runs_pass2 (hg : 0 < g) (hn : s.items.length < 2147483648) (hf : s.items.length < fuel) :
    Runs (pass2 fuel g) s fun _ t =>
      t.items.Perm s.items ∧ SortedMod g s.items.length t.items := by
  refine runs_insertions hn ?_ ?_ hf
  · exact fun t ht => runs_sizeBound.mpr ⟨ht, rfl⟩
  · exact fun m t _ hm ht h => runs_sweep h hg (by omega) (by omega)

/-- The halved gaps end with 1. Of an array of one element or none, the first gap is 0. -/
theorem runs_gaps {pass : Int → Program State Unit} {next : Int → Int}
    (hpass : ∀ g t, 0 < g → t.items.length = s.items.length → Runs (pass (g : Nat)) t fun _ u =>
      u.items.Perm t.items ∧ SortedMod g t.items.length u.items)
    (hnext : ∀ g : Nat, next g = (g / 2 : Nat)) (hf : s.items.length < fuel) :
    Runs (loop (fun gap => do
      if gap > 0 then
        pass gap
        pure (.again (next gap))
      else pure (.done ())) fuel (s.items.length / 2 : Nat)) s fun _ t =>
      t.items = s.items.insertionSort (· ≤ ·) := by
  refine runs_loop (k := s.items.length / 2) (fun g (p : Int) t => p = g ∧
    t.items.Perm s.items ∧ (g = 0 → SortedMod 1 s.items.length t.items)) ?_
    ⟨rfl, List.Perm.refl _, fun hg => sortedMod_start.mono (by omega)⟩ (by omega)
  rintro g _ t ⟨rfl, hperm, hsorted⟩
  by_cases hg : 0 < g
  · rw [if_pos (by omega), runs_bind]
    refine (hpass g t hg hperm.length_eq).mono ?_
    rintro _ u ⟨hpu, hclasses⟩
    rw [runs_pure]
    refine ⟨g / 2, by omega, hnext g, hpu.trans hperm, fun hzero => ?_⟩
    have hone : g = 1 := by omega
    rw [hone, hperm.length_eq] at hclasses
    exact hclasses
  · rw [if_neg (by omega), runs_pure]
    exact sorted_of_insertions hperm (hsorted (by omega))

theorem runs_shellSort1 (hn : s.items.length < 2147483648) (hf : s.items.length < fuel) :
    Runs (shellSort1 fuel) s fun _ t => t.items = s.items.insertionSort (· ≤ ·) := by
  rw [shellSort1, runs_bind, runs_size, toInt_of_lt hn]
  refine runs_gaps ?_ (fun g => rfl) hf
  intro g t hg ht
  rw [← ht] at hn hf ⊢
  exact runs_pass1 hg hn hf

theorem runs_shellSort2 (hn : s.items.length < 2147483648) (hf : s.items.length < fuel) :
    Runs (shellSort2 fuel) s fun _ t => t.items = s.items.insertionSort (· ≤ ·) := by
  rw [shellSort2, runs_bind, runs_size, toInt_of_lt (by omega)]
  refine runs_gaps ?_ (fun g => rfl) hf
  intro g t hg ht
  rw [← ht] at hn hf
  exact runs_pass2 hg hn hf

/-- The length of such an array is negative as an `int`, and no pass is made. -/
theorem runs_shellSort1_long (h : s.items.length = 2147483648) :
    Runs (shellSort1 (fuel + 1)) s fun _ t => t = s := by
  have hgap : ¬ (toInt 2147483648).tdiv 2 > 0 := by decide
  rw [shellSort1, runs_bind, runs_size, h]
  simp only [loop, runs_bind, if_neg hgap, runs_pure]

end

/-- Both sort, and for every gap one pass over `i` sorts every residue class. -/
theorem shellSort_sorts (data : List Int) (fuel : Nat) (hn : data.length ≤ 2147483647)
    (hf : data.length < fuel) :
    Runs (shellSort1 fuel) ⟨(), data, []⟩ (fun _ t => t.items = data.insertionSort (· ≤ ·)) ∧
    Runs (shellSort2 fuel) ⟨(), data, []⟩ (fun _ t => t.items = data.insertionSort (· ≤ ·)) ∧
    ∀ (gap : Nat) (s : State), 0 < gap → s.items.length = data.length →
      Runs (pass1 fuel s.items.length gap) s (fun _ t =>
        t.items.Perm s.items ∧ SortedMod gap t.items.length t.items) ∧
      Runs (pass2 fuel gap) s (fun _ t =>
        t.items.Perm s.items ∧ SortedMod gap t.items.length t.items) := by
  refine ⟨runs_shellSort1 (Nat.lt_succ_of_le hn) hf, runs_shellSort2 (Nat.lt_succ_of_le hn) hf, ?_⟩
  intro gap s hgap hs
  rw [← hs] at hn hf
  constructor
  · refine (runs_pass1 hgap (Nat.lt_succ_of_le hn) hf).mono ?_
    rintro _ t ⟨hperm, hclasses⟩
    exact ⟨hperm, hperm.length_eq ▸ hclasses⟩
  · refine (runs_pass2 hgap (Nat.lt_succ_of_le hn) hf).mono ?_
    rintro _ t ⟨hperm, hclasses⟩
    exact ⟨hperm, hperm.length_eq ▸ hclasses⟩

def sample : List Int := [2, 1, 4, 3, 3, 4, 11, 6, 5, 7, 8, 10, 15]

theorem shellSort_sample :
    Runs (shellSort1 14) ⟨(), sample, []⟩ (fun _ t => t.items = sample.insertionSort (· ≤ ·)) ∧
    Runs (shellSort2 14) ⟨(), sample, []⟩ (fun _ t => t.items = sample.insertionSort (· ≤ ·)) ∧
    ∀ (gap : Nat) (s : State), 0 < gap → s.items.length = sample.length →
      Runs (pass1 14 s.items.length gap) s (fun _ t =>
        t.items.Perm s.items ∧ SortedMod gap t.items.length t.items) ∧
      Runs (pass2 14 gap) s (fun _ t =>
        t.items.Perm s.items ∧ SortedMod gap t.items.length t.items) :=
  shellSort_sorts sample 14 (by decide) (by decide)

/-- A one before zeros, in an array one element longer than the greatest `int`. -/
def long : List Int := 1 :: List.replicate 2147483647 0

theorem shellSort_long : long.length = 2147483648 ∧
    ∀ fuel, ¬ Runs (shellSort1 fuel) ⟨(), long, []⟩ fun _ t =>
      t.items = long.insertionSort (· ≤ ·) := by
  have hlength : long.length = 2147483648 := by
    rw [long, List.length_cons, List.length_replicate]
  have hzero : (0 : Int) ∈ List.replicate 2147483647 0 := List.mem_replicate.mpr ⟨by decide, rfl⟩
  refine ⟨hlength, fun fuel h => ?_⟩
  cases fuel with
  | zero => exact h.not_fails (Runs.fails (runs_size.mpr fails_fail))
  | succ fuel =>
    obtain ⟨_, t, _, hsorted, rfl⟩ := h.and (runs_shellSort1_long hlength)
    exact cons_ne_insertionSort hzero Int.one_pos hsorted

end LanguageTest.ShellSort
