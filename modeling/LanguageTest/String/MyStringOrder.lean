import LanguageTest.Library.Elements
import LanguageTest.String.MyStringRuns

namespace LanguageTest.MyString

/-- The value of a `char`, which has a sign. -/
def charValue (x : UInt8) : Int := if x < 128 then x.toNat else (x.toNat : Int) - 256

/-- `operator==`. -/
def equal (fuel a b : Nat) : Program State Bool := do
  if (← size a) ≠ (← size b) then pure false
  else
    loop (fun i : Nat => do
      if i < (← size a) then
        if (← element a i) ≠ (← element b i) then pure (.done false) else pure (.again (i + 1))
      else pure (.done true)) fuel 0

/-- `operator<`. -/
def less (fuel a b : Nat) : Program State Bool :=
  loop (fun i : Nat => do
    if ← ((do pure (decide (i < (← size a)))) <&&> (do pure (decide (i < (← size b))))) then
      if charValue (← element a i) > charValue (← element b i) then pure (.done true)
      else if charValue (← element a i) < charValue (← element b i) then pure (.done false)
      else pure (.again i)
    else pure (.done (decide ((← size a) > (← size b))))) fuel 0

/-- `operator>`, which calls itself. -/
def greater : Nat → Nat → Nat → Program State Bool
  | 0, _, _ => fail .outOfFuel
  | fuel + 1, a, b => do pure !(← greater fuel a b)

/-- A comparison ends with this result. -/
def Answers (m : Program State Bool) (s : State) (v : Bool) : Prop := Runs m s fun r _ => r = v

/-- The operators are those of a strict total order, as far as three objects show. -/
structure Consistent (fuel : Nat) (s : State) (a b c : Nat) : Prop where
  trichotomy : ∃ below same above, Answers (less fuel a b) s below ∧
    Answers (equal fuel a b) s same ∧ Answers (less fuel b a) s above ∧
      [below, same, above].count true = 1
  converse : ∃ v, Answers (greater fuel a b) s v ∧ Answers (less fuel b a) s v
  trans : Answers (less fuel a b) s true → Answers (less fuel b c) s true →
    Answers (less fuel a c) s true

/-- What `operator<` makes of two strings: only the first characters are compared, and the greater
one makes the lesser string. -/
def lessResult : List UInt8 → List UInt8 → Option Bool
  | x :: _, y :: _ =>
    if charValue x > charValue y then some true
    else if charValue x < charValue y then some false
    else none
  | xs, ys => some (decide (xs.length > ys.length))

section
variable {s : State} {a b i fuel : Nat} {x y : UInt8} {xs ys : List UInt8} {v : Bool}

theorem runs_size_shown {Q : Nat → State → Prop} (h : Shows s a xs) :
    Runs (size a) s Q ↔ Q xs.length s := by
  obtain ⟨_, _, hm, rfl, rfl⟩ := h.size
  exact runs_of_ok hm

theorem runs_element_shown {Q : UInt8 → State → Prop} (h : Shows s a xs) (hi : i < xs.length) :
    Runs (element a i) s Q ↔ Q xs[i]! s := by
  obtain ⟨_, _, hm, rfl, rfl⟩ := h.contents i xs[i]! (getElem!_of_lt hi)
  exact runs_of_ok hm

theorem runs_head_shown {Q : UInt8 → State → Prop} (h : Shows s a (x :: xs)) :
    Runs (element a 0) s Q ↔ Q x s :=
  runs_element_shown h (Nat.zero_lt_succ _)

theorem equal_spec (ha : Shows s a xs) (hb : Shows s b ys) (hf : xs.length < fuel) :
    Answers (equal fuel a b) s (decide (xs = ys)) := by
  rw [Answers, equal, runs_bind, runs_size_shown ha, runs_bind, runs_size_shown hb]
  split_ifs with hsize
  · have hne : xs ≠ ys := fun heq => hsize (congrArg List.length heq)
    exact runs_pure.mpr (decide_eq_false hne).symm
  rw [not_not] at hsize
  refine runs_loop (fun k (i : Nat) t => k + i = xs.length ∧ t = s ∧ ∀ j < i, xs[j]! = ys[j]!) ?_
    ⟨rfl, rfl, fun j hj => absurd hj (Nat.not_lt_zero j)⟩ hf
  rintro k i t ⟨hk, rfl, hsame⟩
  rw [runs_bind, runs_size_shown ha]
  by_cases hi : i < xs.length
  · rw [if_pos hi, runs_bind, runs_element_shown ha hi, runs_bind,
      runs_element_shown hb (hsize ▸ hi)]
    split_ifs with hne
    · have hdiffer : xs ≠ ys := fun heq => hne (by rw [heq])
      exact runs_pure.mpr (decide_eq_false hdiffer).symm
    · refine runs_pure.mpr ⟨k - 1, by omega, by omega, rfl, fun j hj => ?_⟩
      rcases Nat.lt_succ_iff_lt_or_eq.mp hj with hlt | rfl
      · exact hsame j hlt
      · exact not_not.mp hne
  · rw [if_neg hi, runs_pure]
    refine (decide_eq_true (List.ext_getElem hsize fun j hj hj' => ?_)).symm
    have heq := hsame j (by omega)
    rwa [getElem!_pos xs j hj, getElem!_pos ys j hj'] at heq

/-- The test of the loop of `operator<`, which is always at the first characters. -/
theorem runs_both_shown {Q : Bool → State → Prop} (ha : Shows s a xs) (hb : Shows s b ys) :
    Runs ((do pure (decide (0 < (← size a)))) <&&> (do pure (decide (0 < (← size b))))) s Q ↔
      Q (decide (0 < xs.length ∧ 0 < ys.length)) s := by
  rw [runs_andM, runs_bind, runs_size_shown ha, runs_pure]
  by_cases hx : 0 < xs.length
  · rw [if_pos (decide_eq_true hx), runs_bind, runs_size_shown hb, runs_pure]
    simp only [hx, true_and]
  · rw [if_neg (by simpa using hx)]
    simp only [hx, false_and, decide_false]

theorem less_empty (ha : Shows s a xs) (hb : Shows s b ys)
    (h : ¬ (0 < xs.length ∧ 0 < ys.length)) :
    Answers (less (fuel + 1) a b) s v ↔ decide (xs.length > ys.length) = v := by
  rw [Answers, less, runs_loop_succ, runs_bind, runs_both_shown ha hb, if_neg (by simpa using h),
    runs_bind, runs_size_shown ha, runs_bind, runs_size_shown hb, runs_pure]

/-- The result of `operator<` on two strings, if it has one. -/
theorem less_iff (ha : Shows s a xs) (hb : Shows s b ys) :
    Answers (less (fuel + 1) a b) s v ↔ lessResult xs ys = some v := by
  rcases xs with _ | ⟨x, xs⟩
  · rw [less_empty ha hb (by simp), lessResult, Option.some_inj]
    simp
  rcases ys with _ | ⟨y, ys⟩
  · rw [less_empty ha hb (by simp), lessResult, Option.some_inj]
    simp
  have htest : decide (0 < (x :: xs).length ∧ 0 < (y :: ys).length) = true := by simp
  rw [lessResult]
  split_ifs with hgreater hless
  · rw [Answers, less, runs_loop_succ, runs_bind, runs_both_shown ha hb, if_pos htest, runs_bind,
      runs_head_shown ha, runs_bind, runs_head_shown hb, if_pos hgreater, runs_pure,
      Option.some_inj]
  · rw [Answers, less, runs_loop_succ, runs_bind, runs_both_shown ha hb, if_pos htest, runs_bind,
      runs_head_shown ha, runs_bind, runs_head_shown hb, if_neg hgreater, runs_bind,
      runs_head_shown ha, runs_bind, runs_head_shown hb, if_pos hless, runs_pure, Option.some_inj]
  · -- the index stays at 0
    refine iff_of_false (fun h => ?_) (by simp)
    refine Runs.not_fails h (fails_loop (fun i t => i = 0 ∧ t = s) ?_ (fuel + 1) ⟨rfl, rfl⟩)
    rintro _ _ ⟨rfl, rfl⟩
    rw [runs_bind, runs_both_shown ha hb, if_pos htest, runs_bind, runs_head_shown ha, runs_bind,
      runs_head_shown hb, if_neg hgreater, runs_bind, runs_head_shown ha, runs_bind,
      runs_head_shown hb, if_neg hless, runs_pure]
    exact ⟨0, rfl, rfl, rfl⟩

/-- `operator>` never ends. -/
theorem not_runs_greater {Q : Bool → State → Prop} : ¬ Runs (greater fuel a b) s Q := by
  induction fuel generalizing Q with
  | zero => exact fun h => h.not_fails fails_fail
  | succ fuel ih => exact fun h => ih (runs_bind.mp h)

end

/-- The operators never are those of a strict total order. -/
theorem never_consistent (s : State) (a b c fuel : Nat) : ¬ Consistent fuel s a b c := by
  intro h
  obtain ⟨v, hv, -⟩ := h.converse
  exact not_runs_greater hv

/-- `"a"`, `"b"` and `"c"`. -/
def letters : List Op :=
  [.fromCString ⟨[97], by decide⟩, .fromCString ⟨[98], by decide⟩, .fromCString ⟨[99], by decide⟩]

theorem letters_not_consistent : Runs (runAll step letters) start fun rs s =>
    rs = [0, 1, 2] ∧ ∀ fuel, ¬ Consistent fuel s 0 1 2 := by
  have hruns : ((runAll step letters start).toOption.map Prod.fst) = some [0, 1, 2] := by
    decide +kernel
  cases hm : runAll step letters start with
  | error f => simp [hm, Except.toOption] at hruns
  | ok p =>
    obtain ⟨rs, s⟩ := p
    rw [hm] at hruns
    refine ⟨rs, s, hm, Option.some_inj.mp hruns, fun fuel h => ?_⟩
    obtain ⟨v, hv, -⟩ := h.converse
    exact not_runs_greater hv

end LanguageTest.MyString
