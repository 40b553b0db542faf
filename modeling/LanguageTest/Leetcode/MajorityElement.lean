import LanguageTest.Library.Counting
import LanguageTest.Library.Elements
import LanguageTest.Library.Surplus

namespace LanguageTest.MajorityElement

structure State where
  cnt : Int
  curNum : Int

/-- The body of the loop. -/
def visit (nums : List Int) (i : Int) : Program State Unit := do
  let s ← get
  let x ← itemAt nums i
  if s.curNum = x then set { s with cnt := ← int (s.cnt + 1) }
  else if s.cnt = 0 then set (⟨1, x⟩ : State)
  else set { s with cnt := ← int (s.cnt - 1) }

def majorityElement (fuel : Nat) (nums : List Int) : Program State Int := do
  if nums.length = 0 then itemAt nums 0
  else
    set (⟨1, ← itemAt nums 0⟩ : State)
    countUp fuel 1 (pure nums.length) (visit nums)
    pure (← get).curNum

/-- The candidate after the first `i` elements. -/
structure Counted (nums : List Int) (i : Nat) (s : State) : Prop where
  nonneg : 0 ≤ s.cnt
  le : s.cnt ≤ i
  surplus : Surplus s.curNum s.cnt (nums.take i)

section
variable {nums : List Int} {i fuel : Nat} {s : State}

theorem visit_spec (hi : i < nums.length) (hn : nums.length < 2147483648) (h : Counted nums i s) :
    Runs (visit nums i) s fun _ t => Counted nums (i + 1) t := by
  obtain ⟨hnonneg, hle, hsurplus⟩ := h
  have htake : nums.take (i + 1) = nums.take i ++ [nums[i]!] := take_succ_eq hi
  rw [visit, runs_bind, runs_get, runs_bind, runs_itemAt hi]
  split_ifs with hsame hzero
  · rw [runs_int_bind (by omega) (by omega), runs_set]
    refine ⟨by dsimp only; omega, by dsimp only; omega, ?_⟩
    rw [htake, ← hsame]
    exact hsurplus.same
  · rw [runs_set]
    refine ⟨Int.one_nonneg, by dsimp only; omega, ?_⟩
    rw [htake]
    rw [hzero] at hsurplus
    exact hsurplus.replace nums[i]!
  · rw [runs_int_bind (by omega) (by omega), runs_set]
    refine ⟨by dsimp only; omega, by dsimp only; omega, ?_⟩
    rw [htake]
    exact hsurplus.other (Ne.symm hsame)

theorem majorityElement_spec (hpos : 0 < nums.length) (hn : nums.length < 2147483648)
    (hf : nums.length < fuel) :
    Runs (majorityElement fuel nums) s fun r _ =>
      ∀ v, nums.length < 2 * nums.count v → r = v := by
  have hstart : Counted nums 1 ⟨1, nums[0]!⟩ := by
    refine ⟨Int.one_nonneg, Int.le_refl 1, ?_⟩
    rw [take_succ_eq hpos]
    exact surplus_singleton _
  rw [majorityElement, if_neg (by omega), runs_bind]
  refine (runs_itemAt (i := 0) hpos).mpr ?_
  rw [runs_bind, runs_set, runs_bind]
  refine (runs_countUp (l := 1) (n := nums.length) (Counted nums)
    (fun i t _ => runs_pure.mpr ⟨Int.toNat_natCast _, rfl⟩) hn
    (fun i _ hi t ht => visit_spec hi hn ht) hstart (by omega)).mono ?_
  intro _ t ht
  rw [Nat.max_eq_right (by omega)] at ht
  rw [runs_bind, runs_get, runs_pure]
  intro v hv
  have hsurplus := ht.surplus
  rw [List.take_length] at hsurplus
  exact (hsurplus.eq_of_majority ht.nonneg hv).symm

end

theorem majorityElement_majority (s : State) (nums : List Int) (v : Int)
    (hv : nums.length < 2 * nums.count v) (hn : nums.length ≤ 2147483647) (fuel : Nat)
    (hf : nums.length < fuel) : Runs (majorityElement fuel nums) s fun r _ => r = v := by
  have hpos : 0 < nums.length := by
    have hle := nums.count_le_length (a := v)
    omega
  exact (majorityElement_spec hpos (by omega) hf).mono fun r _ h => h v hv

theorem majorityElement_majority_sample :
    Runs (majorityElement 10 [1, 2, 3, 2, 2, 2, 5, 4, 2]) ⟨0, 0⟩ fun r _ => r = 2 :=
  majorityElement_majority ⟨0, 0⟩ [1, 2, 3, 2, 2, 2, 5, 4, 2] 2 (by decide) (by decide) 10
    (by decide)

/-- One zero more than an `int` can index. -/
def zeros : List Int := List.replicate 2147483648 0

/-- The index overflows before it reaches the size. -/
theorem majorityElement_zeros : zeros.length < 2 * zeros.count 0 ∧
    ∀ (fuel : Nat) (s : State), ¬ Runs (majorityElement fuel zeros) s fun r _ => r = 0 := by
  have hlength : zeros.length = 2147483648 := List.length_replicate
  have hcount : zeros.count 0 = 2147483648 := List.count_replicate_self
  refine ⟨by omega, fun fuel s h => ?_⟩
  rw [majorityElement, if_neg (by omega), runs_bind] at h
  have hfirst : 0 < zeros.length := by omega
  have h := (runs_itemAt (i := 0) hfirst).mp h
  rw [runs_bind, runs_set, runs_bind] at h
  refine not_runs_countUp (fun _ => True) (fun t _ => ?_) (fun _ _ _ _ _ _ => trivial) trivial
    (by decide) h
  exact ensures_pure ⟨by omega, trivial⟩

end LanguageTest.MajorityElement
