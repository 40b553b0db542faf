import LanguageTest.Library.Consecutive
import LanguageTest.Library.Program
import Mathlib.Logic.Function.Basic

namespace LanguageTest.LongestConsecutive
open Function

/-- All the integers of this function are exact ones. -/
structure State where
  res : Int
  m : Int → Option Int

/-- `m.count(x) ? m[x] : 0`. -/
def lengthAt (m : Int → Option Int) (x : Int) : Int := if (m x).isSome then (m x).getD 0 else 0

/-- The body of the loop. -/
def visit (cur : Int) : Program State Unit := do
  let s ← get
  if (s.m cur).isSome then pure ()
  else
    let left := lengthAt s.m (cur - 1)
    let right := lengthAt s.m (cur + 1)
    let sum := left + right + 1
    set ({ res := max s.res sum
           m := update (update (update s.m cur sum) (cur - left) sum) (cur + right) sum } : State)

/-- The state before the loop. -/
def empty : State := ⟨0, fun _ => none⟩

def longestConsecutive (nums : List Int) : Program State Int := do
  set empty
  nums.forM visit
  pure (← get).res

/-- The values seen so far. -/
def seen (nums : List Int) : Set Int := {x | x ∈ nums}

/-- The length of every maximal run is at both its ends. The entries between them may be stale. -/
def HasLengths (S : Set Int) (m : Int → Option Int) : Prop :=
  ∀ a b, MaximalRun S a b → m a = some (b - a + 1) ∧ m b = some (b - a + 1)

structure Recorded (nums : List Int) (s : State) : Prop where
  keys : ∀ x, (s.m x).isSome ↔ x ∈ seen nums
  lengths : HasLengths (seen nums) s.m
  res : ∃ n : Nat, s.res = n ∧ IsGreatest (runLengths (seen nums)) n

/-- The map after the value and both ends of its run got the length of the run. -/
def recordRun (m : Int → Option Int) (v : Int) (l r : Nat) : Int → Option Int :=
  update (update (update m v (l + r + 1 : Int)) (v - l) (l + r + 1 : Int)) (v + r)
    (l + r + 1 : Int)

section
variable {S : Set Int} {m : Int → Option Int} {nums : List Int} {v : Int} {l r : Nat} {s : State}

theorem finite_seen : (seen nums).Finite := nums.finite_toSet

theorem seen_append : seen (nums ++ [v]) = insert v (seen nums) := by
  ext x
  simp [seen, or_comm]

theorem recorded_empty : Recorded [] empty where
  keys x := by simp [empty, seen]
  lengths a b hrun := absurd (hrun.mem a le_rfl hrun.le) List.not_mem_nil
  res := by
    refine ⟨0, rfl, ?_⟩
    have hnone : seen [] = ∅ := by simp [seen]
    rw [hnone]
    exact isGreatest_runLengths_empty

/-- What the program reads below and above a new value. -/
theorem lengthAt_left (hm : HasLengths S m) (hkeys : ∀ x, (m x).isSome ↔ x ∈ S)
    (h : Joint S v l r) : lengthAt m (v - 1) = l := by
  rcases Nat.eq_zero_or_pos l with rfl | hl
  · have hbefore := h.before
    rw [Int.natCast_zero, Int.sub_zero] at hbefore
    rw [lengthAt, if_neg (by rwa [hkeys])]
    rfl
  · have hend := (hm _ _ (h.left hl)).2
    rw [lengthAt, hend, if_pos Option.isSome_some, Option.getD_some]
    omega

theorem lengthAt_right (hm : HasLengths S m) (hkeys : ∀ x, (m x).isSome ↔ x ∈ S)
    (h : Joint S v l r) : lengthAt m (v + 1) = r := by
  rcases Nat.eq_zero_or_pos r with rfl | hr
  · have hafter := h.after
    rw [Int.natCast_zero, Int.add_zero] at hafter
    rw [lengthAt, if_neg (by rwa [hkeys])]
    rfl
  · have hend := (hm _ _ (h.right hr)).1
    rw [lengthAt, hend, if_pos Option.isSome_some, Option.getD_some]
    omega

theorem recordRun_outside {x : Int} (hx : x < v - l ∨ v + r < x) : recordRun m v l r x = m x := by
  rw [recordRun, update_of_ne (by omega), update_of_ne (by omega), update_of_ne (by omega)]

theorem recordRun_ends : recordRun m v l r (v - l) = some (l + r + 1 : Int) ∧
    recordRun m v l r (v + r) = some (l + r + 1 : Int) := by
  rw [recordRun, update_self]
  refine ⟨?_, rfl⟩
  rcases eq_or_ne (v - (l : Int)) (v + r) with heq | hne
  · rw [heq, update_self]
  · rw [update_of_ne hne, update_self]

/-- The run with the new value has its length at both ends, and the others are not changed. -/
theorem hasLengths_insert (hm : HasLengths S m) (h : Joint S v l r) :
    HasLengths (insert v S) (recordRun m v l r) := by
  intro a b hrun
  rcases h.maximalRun hrun with ⟨rfl, rfl⟩ | ⟨hold, hside⟩
  · have hlength : v + (r : Int) - (v - l) + 1 = l + r + 1 := by omega
    rw [hlength]
    exact recordRun_ends
  · have hle := hrun.le
    rw [recordRun_outside (by omega), recordRun_outside (by omega)]
    exact hm a b hold

theorem keys_insert (hkeys : ∀ x, (m x).isSome ↔ x ∈ S) (h : Joint S v l r) (x : Int) :
    (recordRun m v l r x).isSome ↔ x ∈ insert v S := by
  by_cases hends : x = v ∨ x = v - l ∨ x = v + r
  · refine iff_of_true ?_ (h.mem_insert (by omega) (by omega))
    rcases hends with rfl | rfl | rfl <;> simp [recordRun, update_apply]
  · rw [recordRun, update_of_ne (by omega), update_of_ne (by omega), update_of_ne (by omega), hkeys]
    exact (or_iff_right (by omega)).symm

theorem visit_spec (h : Recorded nums s) :
    Runs (visit v) s fun _ t => Recorded (nums ++ [v]) t := by
  rw [visit, runs_bind, runs_get]
  by_cases hv : v ∈ seen nums
  · rw [if_pos ((h.keys v).mpr hv), runs_pure]
    have hsame : seen (nums ++ [v]) = seen nums := by rw [seen_append, Set.insert_eq_of_mem hv]
    exact ⟨hsame ▸ h.keys, hsame ▸ h.lengths, hsame ▸ h.res⟩
  · obtain ⟨l, r, hjoint⟩ := exists_joint finite_seen hv
    obtain ⟨n, hres, hn⟩ := h.res
    rw [if_neg (by rwa [h.keys]), lengthAt_left h.lengths h.keys hjoint,
      lengthAt_right h.lengths h.keys hjoint, runs_set]
    refine ⟨?_, ?_, max n (l + r + 1), ?_, ?_⟩
    · rw [seen_append]
      exact keys_insert h.keys hjoint
    · rw [seen_append]
      exact hasLengths_insert h.lengths hjoint
    · change max s.res ((l : Int) + r + 1) = _
      rw [hres]
      omega
    · rw [seen_append]
      exact hjoint.isGreatest_runLengths hn

theorem visits_spec (nums : List Int) :
    Runs (nums.forM visit) empty fun _ t => Recorded nums t := by
  suffices hrest : ∀ (rest pre : List Int) (s : State), Recorded pre s →
      Runs (rest.forM visit) s fun _ t => Recorded (pre ++ rest) t by
    exact hrest nums [] empty recorded_empty
  intro rest
  induction rest with
  | nil =>
    intro pre s hs
    rw [List.append_nil]
    exact runs_pure.mpr hs
  | cons v rest ih =>
    intro pre s hs
    rw [List.forM_eq_forM, List.forM_cons, runs_bind]
    refine (visit_spec hs).mono fun _ t ht => ?_
    have hrest := ih (pre ++ [v]) t ht
    rwa [List.append_assoc] at hrest

end

/-- The length of the longest run of values that are all there. After every pass the map has the
length of each maximal run at both its ends. -/
theorem longestConsecutive_greatest (s : State) (nums : List Int) :
    (Runs (longestConsecutive nums) s fun r _ => ∃ n : Nat, r = n ∧
      IsGreatest {n : Nat | ∃ v : Int, ∀ x, v ≤ x → x < v + n → x ∈ nums} n ∧
      (nums = [] → r = 0)) ∧
    ∀ pre, pre <+: nums → Runs (pre.forM visit) empty fun _ t =>
      ∀ a b, MaximalRun {x | x ∈ pre} a b →
        t.m a = some (b - a + 1) ∧ t.m b = some (b - a + 1) := by
  refine ⟨?_, fun pre _ => (visits_spec pre).mono fun _ t ht => ht.lengths⟩
  rw [longestConsecutive, runs_bind, runs_set, runs_bind]
  refine (visits_spec nums).mono fun _ t ht => ?_
  obtain ⟨n, hres, hn⟩ := ht.res
  rw [runs_bind, runs_get, runs_pure]
  refine ⟨n, hres, hn, ?_⟩
  rintro rfl
  obtain ⟨v, hv⟩ := hn.1
  rw [hres]
  by_contra hpos
  exact List.not_mem_nil (hv v le_rfl (by omega))

end LanguageTest.LongestConsecutive
