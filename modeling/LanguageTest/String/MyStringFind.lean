import LanguageTest.Library.Arithmetic
import LanguageTest.String.Kmp
import LanguageTest.String.MyStringOrder

namespace LanguageTest.MyString
open Kmp (IsFirst)

/-- The loop over `j` in `find`, with whether it returns. `at` is `operator[]`. -/
def matchesAt (fuel this input : Nat) (i : Int) : Program State Bool :=
  loop (fun j : Int => do
    if toSize j < (← size input) then
      let c ← element this (toSize (← int (i + j)))
      if c ≠ (← element input (toSize j)) then pure (.done false)
      else if toSize j = toSize ((← size input : Int) - 1) then pure (.done true)
      else pure (.again (← int (j + 1)))
    else pure (.done false)) fuel 0

def find (fuel this input : Nat) : Program State Int :=
  loop (fun i : Int => do
    if toSize i < toSize ((← size this : Int) - (← size input) + 1) then
      if ← matchesAt fuel this input i then pure (.done i)
      else pure (.again (← int (i + 1)))
    else pure (.done (-1))) fuel 0

instance (op : Op) (s : State) : Decidable (Harmless op s) :=
  Op.casesOn op (fun _ => inferInstanceAs (Decidable True))
    (fun _ => inferInstanceAs (Decidable False))
    (fun _ _ => inferInstanceAs (Decidable (_ = _))) (fun _ _ => inferInstanceAs (Decidable (¬ _)))
    (fun _ _ => inferInstanceAs (Decidable (_ ∧ (_ ∨ _ ∧ _ < _))))
    (fun _ _ _ => inferInstanceAs (Decidable True))

section
variable {s : State} {a b i m fuel : Nat} {xs ys : List UInt8}

theorem fails_element_shown (h : Shows s a xs) (hi : xs.length ≤ i) :
    Fails (element a i) s .outOfRange := by
  have hsize := h.size
  rw [size, runs_bind, runs_getFields] at hsize
  obtain ⟨o, ho, hlen⟩ := hsize
  obtain ⟨hlen, -⟩ := runs_pure.mp hlen
  rw [element]
  apply Runs.fails
  rw [runs_getFields]
  refine ⟨o, ho, ?_⟩
  rw [if_neg (by omega)]
  exact fails_fail

theorem bound_of_le (hfit : ys.length ≤ xs.length + 1) (hx : xs.length < 2147483648) :
    toSize ((xs.length : Int) - ys.length + 1) = xs.length + 1 - ys.length := by
  have hcast : (xs.length : Int) - ys.length + 1 = (xs.length + 1 - ys.length : Nat) := by omega
  rw [hcast, toSize_natCast (by omega)]

/-- The bound wraps around when the string looked for is longer by two or more. -/
theorem lt_bound (hlong : xs.length + 1 < ys.length) (hy : ys.length < 18446744073709551616) :
    xs.length < toSize ((xs.length : Int) - ys.length + 1) := by
  unfold toSize
  omega

/-- The comparison at `i` ends with the character at `m`. -/
theorem matchesAt_spec (ha : Shows s a xs) (hb : Shows s b ys) (hx : xs.length < 2147483648)
    (hy : ys.length < 18446744073709551616) (hm : m < ys.length) (him : i + m < xs.length)
    (hbefore : ∀ j < m, xs[i + j]! = ys[j]!) (hend : xs[i + m]! = ys[m]! → m + 1 = ys.length)
    (hf : xs.length < fuel) :
    Runs (matchesAt fuel a b i) s fun r t => t = s ∧ (r = true ↔ xs[i + m]! = ys[m]!) := by
  refine runs_loop (k := m) (fun r (j : Int) t => t = s ∧ ∃ k : Nat, j = k ∧ k + r = m) ?_
    ⟨rfl, 0, rfl, Nat.zero_add m⟩ (by omega)
  rintro r j _ ⟨rfl, k, rfl, hr⟩
  have hcast : (i : Int) + k = (i + k : Nat) := rfl
  have hlast : (ys.length : Int) - 1 = (ys.length - 1 : Nat) := by omega
  rw [runs_bind, runs_size_shown hb, toSize_natCast (by omega), if_pos (by omega), hcast,
    runs_int_bind (by omega) (by omega), toSize_natCast (by omega), runs_bind,
    runs_element_shown ha (by omega), runs_bind, runs_element_shown hb (by omega)]
  rcases Nat.eq_or_lt_of_le (Nat.le.intro hr) with rfl | hlt
  · by_cases heq : xs[i + k]! = ys[k]!
    · have hsize := hend heq
      rw [if_neg (not_not.mpr heq), runs_bind, runs_size_shown hb, hlast,
        toSize_natCast (by omega), if_pos (by omega), runs_pure]
      exact ⟨rfl, iff_of_true rfl heq⟩
    · rw [if_pos heq, runs_pure]
      exact ⟨rfl, iff_of_false Bool.false_ne_true heq⟩
  · rw [if_neg (not_not.mpr (hbefore k hlt)), runs_bind, runs_size_shown hb, hlast,
      toSize_natCast (by omega), if_neg (by omega), runs_int_bind (by omega) (by omega), runs_pure]
    exact ⟨r - 1, by omega, rfl, k + 1, rfl, by omega⟩

/-- Where the other string fits, the comparison finds out whether it stands there. -/
theorem matchesAt_iff (ha : Shows s a xs) (hb : Shows s b ys) (hx : xs.length < 2147483648)
    (hy : ys.length < 18446744073709551616) (hne : 0 < ys.length)
    (hin : i + ys.length ≤ xs.length) (hf : xs.length < fuel) :
    Runs (matchesAt fuel a b i) s fun r t => t = s ∧ (r = true ↔ OccursAt ys xs i) := by
  rw [occursAt_iff hin]
  by_cases hsame : ∀ k < ys.length, xs[i + k]! = ys[k]!
  · refine (matchesAt_spec (m := ys.length - 1) ha hb hx hy (by omega) (by omega)
      (fun j hj => hsame j (by omega)) (fun _ => by omega) hf).mono ?_
    rintro r t ⟨rfl, hr⟩
    exact ⟨rfl, iff_of_true (hr.mpr (hsame _ (by omega))) hsame⟩
  · simp only [not_forall] at hsame
    have hdiffers : ∃ k, k < ys.length ∧ xs[i + k]! ≠ ys[k]! :=
      hsame.imp fun k hk => ⟨hk.1, hk.2⟩
    obtain ⟨hm, hdiffer⟩ := Nat.find_spec hdiffers
    refine (matchesAt_spec (m := Nat.find hdiffers) ha hb hx hy hm (by omega) ?_
      (fun heq => absurd heq hdiffer) hf).mono ?_
    · intro j hj
      by_contra hno
      exact Nat.find_min hdiffers hj ⟨hj.trans hm, hno⟩
    · rintro r t ⟨rfl, hr⟩
      exact ⟨rfl, iff_of_false (fun htrue => hdiffer (hr.mp htrue))
        fun hall => hdiffer (hall _ hm)⟩

theorem runs_find (ha : Shows s a xs) (hb : Shows s b ys) (hx : xs.length < 2147483648)
    (hne : 0 < ys.length) (hfit : ys.length ≤ xs.length + 1) (hf : xs.length + 1 < fuel) :
    Runs (find fuel a b) s fun r _ => IsFirst ys xs r := by
  refine runs_loop (k := xs.length + 1 - ys.length) (fun r (i : Int) t => t = s ∧ ∃ k : Nat,
    i = k ∧ k + r = xs.length + 1 - ys.length ∧ ∀ p < k, ¬ OccursAt ys xs p) ?_
    ⟨rfl, 0, rfl, Nat.zero_add _, fun p hp => absurd hp (Nat.not_lt_zero p)⟩ (by omega)
  rintro r i _ ⟨rfl, k, rfl, hr, hbefore⟩
  rw [runs_bind, runs_size_shown ha, runs_bind, runs_size_shown hb, bound_of_le hfit hx,
    toSize_natCast (by omega)]
  split_ifs with hk
  · rw [runs_bind]
    refine (matchesAt_iff ha hb hx (by omega) hne (by omega) (by omega)).mono ?_
    rintro found t ⟨rfl, hfound⟩
    cases found with
    | true =>
      rw [if_pos rfl, runs_pure]
      exact .inl ⟨k, rfl, hfound.mp rfl, hbefore⟩
    | false =>
      have hno : ¬ OccursAt ys xs k := fun h => Bool.false_ne_true (hfound.mpr h)
      rw [if_neg Bool.false_ne_true, runs_int_bind (by omega) (by omega), runs_pure]
      exact ⟨r - 1, by omega, rfl, k + 1, rfl, by omega,
        Nat.forall_lt_succ_right.mpr ⟨hbefore, hno⟩⟩
  · rw [runs_pure]
    refine .inr ⟨rfl, fun p hp => hbefore p ?_ hp⟩
    have hin := hp.add_le hne
    omega

/-- The empty string is never found. -/
theorem ensures_find_empty (ha : Shows s a xs) (hb : Shows s b []) :
    Ensures (find fuel a b) s fun r _ => r = -1 := by
  have hmatches (i : Int) : Ensures (matchesAt fuel a b i) s fun r t => t = s ∧ r = false := by
    refine ensures_loop (fun _ t => t = s) ?_ rfl
    rintro j _ rfl
    refine Runs.bind_ensures ((runs_size_shown hb).mpr ?_)
    rw [List.length_nil, if_neg (Nat.not_lt_zero _)]
    exact ensures_pure ⟨rfl, rfl⟩
  refine ensures_loop (fun _ t => t = s) ?_ rfl
  rintro i _ rfl
  refine Runs.bind_ensures ((runs_size_shown ha).mpr ?_)
  refine Runs.bind_ensures ((runs_size_shown hb).mpr ?_)
  split_ifs with hi
  · refine Ensures.bind ((hmatches i).mono ?_)
    rintro r t ⟨rfl, rfl⟩
    rw [if_neg Bool.false_ne_true]
    refine Ensures.bind (ensures_int.mono ?_)
    rintro j t ⟨-, -, rfl⟩
    exact ensures_pure rfl
  · exact ensures_pure rfl

/-- A comparison that would go past the end is stopped by the assertion. -/
theorem ensures_matchesAt_long (ha : Shows s a xs) (hb : Shows s b ys)
    (hx : xs.length < 2147483648) (hlong : xs.length + 1 < ys.length)
    (hy : ys.length < 18446744073709551616) (hi : i ≤ xs.length) :
    Ensures (matchesAt fuel a b i) s fun r t => t = s ∧ r = false ∧ i < xs.length := by
  refine ensures_loop (fun (j : Int) t => t = s ∧ ∃ k : Nat, j = k ∧ i + k ≤ xs.length) ?_
    ⟨rfl, 0, rfl, hi⟩
  rintro j _ ⟨rfl, k, rfl, hk⟩
  have hcast : (i : Int) + k = (i + k : Nat) := rfl
  have hlast : (ys.length : Int) - 1 = (ys.length - 1 : Nat) := by omega
  refine Runs.bind_ensures ((runs_size_shown hb).mpr ?_)
  rw [toSize_natCast (by omega), if_pos (by omega), hcast]
  refine Runs.bind_ensures ((runs_int ⟨by omega, by omega⟩).mpr ?_)
  rw [toSize_natCast (by omega)]
  rcases Nat.eq_or_lt_of_le hk with heq | hlt
  · exact (fails_element_shown ha heq.ge).bind.ensures
  · refine Runs.bind_ensures ((runs_element_shown ha hlt).mpr ?_)
    refine Runs.bind_ensures ((runs_element_shown hb (by omega)).mpr ?_)
    split_ifs with hdiffer
    · exact ensures_pure ⟨rfl, rfl, by omega⟩
    · refine Runs.bind_ensures ((runs_size_shown hb).mpr ?_)
      rw [hlast, toSize_natCast (by omega), if_neg (by omega)]
      refine Runs.bind_ensures ((runs_int ⟨by omega, by omega⟩).mpr (ensures_pure ?_))
      exact ⟨rfl, k + 1, rfl, by omega⟩

theorem not_runs_find (ha : Shows s a xs) (hb : Shows s b ys) (hx : xs.length < 2147483648)
    (hlong : xs.length + 1 < ys.length) (hy : ys.length < 18446744073709551616)
    {Q : Int → State → Prop} : ¬ Runs (find fuel a b) s Q := by
  apply Ensures.not_runs
  refine ensures_loop (fun (i : Int) t => t = s ∧ ∃ k : Nat, i = k ∧ k ≤ xs.length) ?_
    ⟨rfl, 0, rfl, Nat.zero_le _⟩
  rintro i _ ⟨rfl, k, rfl, hk⟩
  have hbound := lt_bound hlong hy
  refine Runs.bind_ensures ((runs_size_shown ha).mpr ?_)
  refine Runs.bind_ensures ((runs_size_shown hb).mpr ?_)
  rw [toSize_natCast (by omega), if_pos (by omega)]
  refine Ensures.bind ((ensures_matchesAt_long ha hb hx hlong hy hk).mono ?_)
  rintro r t ⟨rfl, rfl, hlt⟩
  rw [if_neg Bool.false_ne_true]
  refine Runs.bind_ensures ((runs_int ⟨by omega, by omega⟩).mpr (ensures_pure ?_))
  exact ⟨rfl, k + 1, rfl, hlt⟩

theorem runs_find_iff (ha : Shows s a xs) (hb : Shows s b ys) (hx : xs.length < 2147483648)
    (hy : ys.length < 18446744073709551616) (hf : xs.length + 1 < fuel) :
    (Runs (find fuel a b) s fun r _ => IsFirst ys xs r) ↔
      ys ≠ [] ∧ ys.length ≤ xs.length + 1 := by
  constructor
  · intro hruns
    constructor
    · rintro rfl
      obtain ⟨r, _, hr, hfirst⟩ := hruns
      have hneg := ensures_find_empty ha hb r _ hr
      rcases hfirst with ⟨p, hp, -⟩ | ⟨-, hno⟩
      · omega
      · exact hno 0 List.nil_prefix
    · by_contra hlong
      exact not_runs_find ha hb hx (Nat.lt_of_not_le hlong) hy hruns
  · rintro ⟨hne, hfit⟩
    exact runs_find ha hb hx (List.length_pos_iff.mpr hne) hfit hf

end

end LanguageTest.MyString
