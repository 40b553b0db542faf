import Mathlib.Data.Nat.Find
import Mathlib.Logic.Function.Basic
import Mathlib.Tactic.ByContra

namespace LanguageTest.Probing

/-- A slot of an open addressing table. A slot whose key was deleted does not become free. -/
inductive Slot (K : Type*) where
  | free
  | deleted
  | used (key : K)

/-- The slot that a linear probe of `n` slots from `h` looks at after `c` collisions. -/
def probe (n h c : ℕ) : ℕ := (h + c) % n

variable {K : Type*} {T : ℕ → Slot K} {n h c i : ℕ} {home : K → ℕ} {j k : K}

/-- A probe for `k` goes on after this slot. -/
def Passes (k : K) : Slot K → Prop
  | .free => False
  | .deleted => True
  | .used j => j ≠ k

/-- A probe for `k` from `h` stops after `c` collisions. -/
structure Stops (T : ℕ → Slot K) (n h : ℕ) (k : K) (c : ℕ) : Prop where
  within : c < n
  before : ∀ d < c, Passes k (T (probe n h d))
  here : ¬ Passes k (T (probe n h c))

def Stored (T : ℕ → Slot K) (n : ℕ) (k : K) : Prop := ∃ i < n, T i = .used k

/-- Every key stands in one slot, and the probe path from its home to that slot has no free
slot. -/
structure WellPlaced (T : ℕ → Slot K) (n : ℕ) (home : K → ℕ) : Prop where
  unique : ∀ i < n, ∀ i' < n, ∀ k, T i = .used k → T i' = .used k → i = i'
  path : ∀ i < n, ∀ k, T i = .used k →
    ∃ c < n, probe n (home k) c = i ∧ ∀ d < c, T (probe n (home k) d) ≠ .free

theorem probe_lt (hn : 0 < n) : probe n h c < n := Nat.mod_lt _ hn

theorem probe_succ : (probe n h c + 1) % n = probe n h (c + 1) := by
  rw [probe, probe, Nat.mod_add_mod, Nat.add_assoc]

theorem probe_zero (hh : h < n) : probe n h 0 = h := Nat.mod_eq_of_lt hh

/-- The probe looks at every slot within `n` collisions. -/
theorem exists_probe (h : ℕ) (hi : i < n) : ∃ c < n, probe n h c = i := by
  have hh : h % n < n := Nat.mod_lt _ (by omega)
  have hmod : ∀ c, probe n h c = (h % n + c) % n := fun c => (Nat.mod_add_mod h n c).symm
  by_cases hle : h % n ≤ i
  · refine ⟨i - h % n, by omega, ?_⟩
    rw [hmod, Nat.add_sub_cancel' hle, Nat.mod_eq_of_lt hi]
  · refine ⟨i + n - h % n, by omega, ?_⟩
    rw [hmod, Nat.add_sub_cancel' (by omega), Nat.add_mod_right, Nat.mod_eq_of_lt hi]

theorem Passes.ne_free {s : Slot K} (h : Passes k s) : s ≠ .free := by
  intro heq
  subst heq
  exact h

theorem not_passes_iff {s : Slot K} : ¬ Passes k s ↔ s = .free ∨ s = .used k := by
  cases s <;> simp [Passes]

/-- A probe stops when some slot of the table stops it. -/
theorem exists_stops (h : ℕ) (hi : i < n) (hs : ¬ Passes k (T i)) : ∃ c, Stops T n h k c := by
  classical
  obtain ⟨d, hd, rfl⟩ := exists_probe h hi
  have hex : ∃ c, ¬ Passes k (T (probe n h c)) := ⟨d, hs⟩
  refine ⟨Nat.find hex, lt_of_le_of_lt (Nat.find_min' hex hs) hd, fun e he => ?_,
    Nat.find_spec hex⟩
  by_contra hp
  exact Nat.find_min hex he hp

theorem Stops.le (hs : Stops T n h k c) {d : ℕ} (hd : ¬ Passes k (T (probe n h d))) : c ≤ d := by
  by_contra hlt
  exact hd (hs.before d (by omega))

/-- A stored key is what its probe stops at. -/
theorem WellPlaced.stops_used (hw : WellPlaced T n home) (hk : Stored T n k)
    (hs : Stops T n (home k) k c) : T (probe n (home k) c) = .used k := by
  obtain ⟨i, hi, hik⟩ := hk
  obtain ⟨d, _, rfl, hpath⟩ := hw.path i hi k hik
  rcases not_passes_iff.mp hs.here with hfree | hused
  · have hle : c ≤ d := hs.le (by rw [hik]; exact not_not.mpr rfl)
    rcases Nat.lt_or_eq_of_le hle with hlt | rfl
    · exact absurd hfree (hpath c hlt)
    · exact hik
  · exact hused

theorem WellPlaced.stops_iff (hw : WellPlaced T n home) (hs : Stops T n (home k) k c) :
    T (probe n (home k) c) = .used k ↔ Stored T n k := by
  constructor
  · exact fun hu => ⟨_, probe_lt (by have := hs.within; omega), hu⟩
  · exact fun hk => hw.stops_used hk hs

theorem wellPlaced_free (h : ∀ i < n, T i = .free) : WellPlaced T n home where
  unique i hi i' _ k hk _ := by simp [h i hi] at hk
  path i hi k hk := by simp [h i hi] at hk

/-- A new key goes where its probe stopped. -/
theorem WellPlaced.insert (hw : WellPlaced T n home) (hs : Stops T n (home k) k c)
    (hk : ¬ Stored T n k) :
    WellPlaced (Function.update T (probe n (home k) c) (.used k)) n home := by
  have hfree : ∀ e, T e ≠ .free → Function.update T (probe n (home k) c) (.used k) e ≠ .free := by
    intro e he
    rw [Function.update_apply]
    split_ifs
    · simp
    · exact he
  constructor
  · intro e he e' he' j hj hj'
    rw [Function.update_apply] at hj hj'
    split_ifs at hj hj' with h1 h2 h2
    · rw [h1, h2]
    · obtain rfl : k = j := by simpa using hj
      exact absurd ⟨e', he', hj'⟩ hk
    · obtain rfl : k = j := by simpa using hj'
      exact absurd ⟨e, he, hj⟩ hk
    · exact hw.unique e he e' he' j hj hj'
  · intro e he j hj
    rw [Function.update_apply] at hj
    split_ifs at hj with h1
    · obtain rfl : k = j := by simpa using hj
      exact ⟨c, hs.within, h1.symm, fun d hd => hfree _ (hs.before d hd).ne_free⟩
    · obtain ⟨d, hd, hp, hpath⟩ := hw.path e he j hj
      exact ⟨d, hd, hp, fun d' hd' => hfree _ (hpath d' hd')⟩

/-- A deleted key leaves a slot that is not free, so that no path is cut. -/
theorem WellPlaced.delete (hw : WellPlaced T n home) (i : ℕ) :
    WellPlaced (Function.update T i .deleted) n home := by
  have hused : ∀ e j, Function.update T i .deleted e = .used j → T e = .used j := by
    intro e j he
    rw [Function.update_apply] at he
    split_ifs at he
    exact he
  constructor
  · exact fun e he e' he' j hj hj' => hw.unique e he e' he' j (hused e j hj) (hused e' j hj')
  · intro e he j hj
    obtain ⟨d, hd, hp, hpath⟩ := hw.path e he j (hused e j hj)
    refine ⟨d, hd, hp, fun d' hd' => ?_⟩
    rw [Function.update_apply]
    split_ifs
    · simp
    · exact hpath d' hd'

theorem stored_insert (hi : i < n) (hf : ∀ j, T i ≠ .used j) :
    Stored (Function.update T i (.used k)) n j ↔ j = k ∨ Stored T n j := by
  constructor
  · intro hcase
    obtain ⟨e, he, hj⟩ := hcase
    rw [Function.update_apply] at hj
    split_ifs at hj
    · exact .inl (by simpa using hj.symm)
    · exact .inr ⟨e, he, hj⟩
  · intro hcase
    rcases hcase with rfl | ⟨e, he, hj⟩
    · exact ⟨i, hi, Function.update_self ..⟩
    · refine ⟨e, he, ?_⟩
      rw [Function.update_of_ne _, hj]
      intro heq
      subst heq
      exact hf j hj

theorem WellPlaced.stored_delete (hw : WellPlaced T n home) (hi : i < n) (hk : T i = .used k) :
    Stored (Function.update T i .deleted) n j ↔ j ≠ k ∧ Stored T n j := by
  constructor
  · intro hcase
    obtain ⟨e, he, hj⟩ := hcase
    rw [Function.update_apply] at hj
    split_ifs at hj with h1
    refine ⟨?_, e, he, hj⟩
    intro heq
    subst heq
    exact h1 (hw.unique e he i hi _ hj hk)
  · intro hcase
    obtain ⟨hne, e, he, hj⟩ := hcase
    refine ⟨e, he, ?_⟩
    rw [Function.update_of_ne _, hj]
    intro heq
    subst heq
    rw [hk] at hj
    exact hne (by simpa using hj.symm)

end LanguageTest.Probing
