import Mathlib.Data.Set.Finite.Basic
import Mathlib.Order.Bounds.Defs

namespace LanguageTest

variable {S : Set Int} {a b v : Int} {l r n : Nat}

/-- Consecutive numbers of the set that no further one prolongs. -/
structure MaximalRun (S : Set Int) (a b : Int) : Prop where
  le : a ≤ b
  mem : ∀ x, a ≤ x → x ≤ b → x ∈ S
  before : a - 1 ∉ S
  after : b + 1 ∉ S

/-- A number that is not in the set, and how many consecutive ones below and above it are. -/
structure Joint (S : Set Int) (v : Int) (l r : Nat) : Prop where
  notMem : v ∉ S
  below : ∀ x, v - l ≤ x → x < v → x ∈ S
  before : v - l - 1 ∉ S
  above : ∀ x, v < x → x ≤ v + r → x ∈ S
  after : v + r + 1 ∉ S

/-- The lengths of runs of consecutive numbers in the set. -/
def runLengths (S : Set Int) : Set Nat := {n | ∃ u : Int, ∀ x, u ≤ x → x < u + n → x ∈ S}

/-- A sequence without repetitions leaves a finite set. -/
theorem exists_first_notMem {α : Type*} {A : Set α} {f : Nat → α} (hA : A.Finite)
    (hf : f.Injective) : ∃ n, (∀ k < n, f k ∈ A) ∧ f n ∉ A := by
  classical
  have hleaves : ∃ n, f n ∉ A := by
    by_contra! hall
    exact Set.infinite_of_injective_forall_mem hf hall hA
  exact ⟨Nat.find hleaves, fun k hk => not_not.mp (Nat.find_min hleaves hk),
    Nat.find_spec hleaves⟩

theorem exists_joint (hS : S.Finite) (hv : v ∉ S) : ∃ l r, Joint S v l r := by
  obtain ⟨l, hbelow, hbefore⟩ := exists_first_notMem (f := fun k : Nat => v - k - 1) hS
    fun i j (hij : v - i - 1 = v - j - 1) => by omega
  obtain ⟨r, habove, hafter⟩ := exists_first_notMem (f := fun k : Nat => v + k + 1) hS
    fun i j (hij : v + i + 1 = v + j + 1) => by omega
  refine ⟨l, r, hv, fun x hx hxv => ?_, hbefore, fun x hx hxr => ?_, hafter⟩
  · obtain ⟨k, rfl⟩ : ∃ k : Nat, x = v - k - 1 := ⟨(v - x - 1).toNat, by omega⟩
    exact hbelow k (by omega)
  · obtain ⟨k, rfl⟩ : ∃ k : Nat, x = v + k + 1 := ⟨(x - v - 1).toNat, by omega⟩
    exact habove k (by omega)

theorem isGreatest_runLengths_empty : IsGreatest (runLengths ∅) 0 := by
  refine ⟨⟨0, fun x hx hlt => by omega⟩, fun n hn => ?_⟩
  obtain ⟨u, hu⟩ := hn
  by_contra hpos
  exact hu u le_rfl (by omega)

namespace Joint

/-- The run that ends below the number. -/
theorem left (h : Joint S v l r) (hl : 0 < l) : MaximalRun S (v - l) (v - 1) where
  le := by omega
  mem x hx hxv := h.below x hx (by omega)
  before := h.before
  after := by
    rw [Int.sub_add_cancel]
    exact h.notMem

theorem right (h : Joint S v l r) (hr : 0 < r) : MaximalRun S (v + 1) (v + r) where
  le := by omega
  mem x hx hxr := h.above x (by omega) hxr
  before := by
    rw [Int.add_sub_cancel]
    exact h.notMem
  after := h.after

theorem mem_insert (h : Joint S v l r) {x : Int} (hx : v - l ≤ x) (hxr : x ≤ v + r) :
    x ∈ insert v S := by
  rcases lt_trichotomy x v with hlt | heq | hgt
  · exact Set.mem_insert_of_mem v (h.below x hx hlt)
  · exact Or.inl heq
  · exact Set.mem_insert_of_mem v (h.above x hgt hxr)

theorem before_insert (h : Joint S v l r) : v - l - 1 ∉ insert v S := by
  rintro (heq | hmem)
  · omega
  · exact h.before hmem

theorem after_insert (h : Joint S v l r) : v + r + 1 ∉ insert v S := by
  rintro (heq | hmem)
  · omega
  · exact h.after hmem

/-- A run with the number in it lies between the two ends. -/
theorem subset (h : Joint S v l r) (hrun : ∀ x, a ≤ x → x ≤ b → x ∈ insert v S) (ha : a ≤ v)
    (hb : v ≤ b) : v - l ≤ a ∧ b ≤ v + r := by
  constructor
  · by_contra hlt
    exact h.before_insert (hrun _ (by omega) (by omega))
  · by_contra hlt
    exact h.after_insert (hrun _ (by omega) (by omega))

/-- The number joins its two neighbours to one run and leaves the others as they are. -/
theorem maximalRun (h : Joint S v l r) (hrun : MaximalRun (insert v S) a b) :
    (a = v - l ∧ b = v + r) ∨ (MaximalRun S a b ∧ (b < v - l ∨ v + r < a)) := by
  by_cases hv : a ≤ v ∧ v ≤ b
  · obtain ⟨hla, hbr⟩ := h.subset hrun.mem hv.1 hv.2
    refine Or.inl ⟨?_, ?_⟩
    · by_contra hne
      exact hrun.before (h.mem_insert (by omega) (by omega))
    · by_contra hne
      exact hrun.after (h.mem_insert (by omega) (by omega))
  · have hle := hrun.le
    refine Or.inr ⟨⟨hle, fun x hx hxb => ?_, fun hmem => ?_, fun hmem => ?_⟩, ?_⟩
    · rcases hrun.mem x hx hxb with rfl | hmem
      · exact absurd ⟨hx, hxb⟩ hv
      · exact hmem
    · exact hrun.before (Set.mem_insert_of_mem v hmem)
    · exact hrun.after (Set.mem_insert_of_mem v hmem)
    · by_contra hinside
      rcases lt_or_ge b v with hlt | hge
      · exact hrun.after (h.mem_insert (by omega) (by omega))
      · exact hrun.before (h.mem_insert (by omega) (by omega))

theorem isGreatest_runLengths (h : Joint S v l r) (hn : IsGreatest (runLengths S) n) :
    IsGreatest (runLengths (insert v S)) (max n (l + r + 1)) := by
  constructor
  · rcases Nat.le_total n (l + r + 1) with hle | hle
    · rw [Nat.max_eq_right hle]
      exact ⟨v - l, fun x hx hlt => h.mem_insert hx (by omega)⟩
    · rw [Nat.max_eq_left hle]
      obtain ⟨u, hu⟩ := hn.1
      exact ⟨u, fun x hx hlt => Set.mem_insert_of_mem v (hu x hx hlt)⟩
  · rintro m ⟨u, hu⟩
    by_cases hv : u ≤ v ∧ v < u + m
    · have hends := h.subset (b := u + m - 1) (fun x hx hle => hu x hx (by omega)) hv.1 (by omega)
      exact (show m ≤ l + r + 1 by omega).trans (Nat.le_max_right _ _)
    · refine (hn.2 ⟨u, fun x hx hlt => ?_⟩).trans (Nat.le_max_left _ _)
      rcases hu x hx hlt with rfl | hmem
      · exact absurd ⟨hx, hlt⟩ hv
      · exact hmem

end Joint

end LanguageTest
