import LanguageTest.Library.Strings
import LanguageTest.String.Kmp

namespace LanguageTest.StrStr
open Kmp (IsFirst)

variable {σ : Type}

/-- The loop over `j`, with whether it returns. -/
def matchesAt (fuel : Nat) (haystack needle : List UInt8) (i : Int) : Program σ Bool :=
  loop (fun j : Int => do
    if j < needle.length then
      if (← getChar haystack (← int (i + j))) ≠ (← getChar needle j) then pure (.done false)
      else if toSize j = toSize ((needle.length : Int) - 1) then pure (.done true)
      else pure (.again (← int (j + 1)))
    else pure (.done false)) fuel 0

/-- The body of the loop over `i`. -/
def standsAt (fuel : Nat) (haystack needle : List UInt8) (i : Int) : Program σ Bool :=
  (do pure (decide ((← getChar haystack i) = (← getChar needle 0)))) <&&>
    matchesAt fuel haystack needle i

def strStr (fuel : Nat) (haystack needle : List UInt8) : Program σ Int := do
  if haystack.length = 0 ∧ needle.length = 0 then pure 0
  else if needle.length = 0 then pure 0
  else
    loop (fun i : Int => do
      if toSize i < toSize ((haystack.length : Int) - needle.length + 1) then
        if ← standsAt fuel haystack needle i then pure (.done i)
        else pure (.again (← int (i + 1)))
      else pure (.done (-1))) fuel 0

/-- The needle differs from the text at `i`, at an index that is an `int`. -/
def Differs (haystack needle : List UInt8) (i : Nat) : Prop :=
  ∃ j < needle.length, i + j ≤ 2147483647 ∧ haystack[i + j]! ≠ needle[j]!

/-- The needle is found within the range of `int`, or each of the places where it could stand is
tried, and the number of these is an `int`. -/
def Decided (haystack needle : List UInt8) : Prop :=
  (∃ p, p + needle.length ≤ 2147483648 ∧ OccursAt needle haystack p) ∨
    (haystack.length + 1 - needle.length ≤ 2147483647 ∧
      ∀ i < haystack.length + 1 - needle.length, Differs haystack needle i)

section
variable {haystack needle : List UInt8} {i m fuel : Nat} {t : σ}

/-- The comparison at `i` ends with the character at `m`. -/
theorem matchesAt_spec (hm : m < needle.length) (hint : i + m ≤ 2147483647)
    (him : i + m ≤ haystack.length) (hbefore : ∀ j < m, haystack[i + j]! = needle[j]!)
    (hend : haystack[i + m]! = needle[m]! → m + 1 = needle.length)
    (hn : needle.length < 18446744073709551616) (hf : needle.length < fuel) :
    Runs (matchesAt fuel haystack needle i) t fun b u => u = t ∧
      (b = true ↔ haystack[i + m]! = needle[m]!) := by
  refine runs_loop (k := m) (fun r (j : Int) u => u = t ∧ ∃ k : Nat, j = k ∧ k + r = m) ?_
    ⟨rfl, 0, rfl, Nat.zero_add m⟩ (by omega)
  intro r j u hu
  obtain ⟨rfl, k, rfl, hr⟩ := hu
  have hcast : (i : Int) + k = (i + k : Nat) := rfl
  have hlast : (needle.length : Int) - 1 = (needle.length - 1 : Nat) := by omega
  rw [if_pos (by omega), hcast, runs_int_bind (by omega) (by omega), runs_bind,
    runs_getChar (by omega), runs_bind, runs_getChar (by omega), hlast, toSize_natCast (by omega),
    toSize_natCast (by omega)]
  rcases Nat.eq_or_lt_of_le (Nat.le.intro hr) with rfl | hlt
  · by_cases heq : haystack[i + k]! = needle[k]!
    · have hsize := hend heq
      rw [if_neg (not_not.mpr heq), if_pos (by omega), runs_pure]
      exact ⟨rfl, iff_of_true rfl heq⟩
    · rw [if_pos heq, runs_pure]
      exact ⟨rfl, iff_of_false Bool.false_ne_true heq⟩
  · rw [if_neg (not_not.mpr (hbefore k hlt)), if_neg (by omega), runs_bind,
      runs_int ⟨by omega, by omega⟩, runs_pure]
    exact ⟨r - 1, by omega, rfl, k + 1, rfl, by omega⟩

/-- What a comparison has found out when it ends. -/
theorem ensures_matchesAt (hne : 0 < needle.length) (hn : needle.length < 18446744073709551616) :
    Ensures (matchesAt fuel haystack needle i) t fun b u => u = t ∧
      (b = true → i + needle.length ≤ 2147483648 ∧ i + needle.length ≤ haystack.length + 1 ∧
        ∀ j < needle.length, haystack[i + j]! = needle[j]!) ∧
      (b = false → Differs haystack needle i) := by
  refine ensures_loop (fun (j : Int) u => u = t ∧ ∃ k : Nat, j = k ∧ k < needle.length ∧
    ∀ j < k, haystack[i + j]! = needle[j]!) ?_
    ⟨rfl, 0, rfl, hne, fun j hj => absurd hj (Nat.not_lt_zero j)⟩
  intro j u hu
  obtain ⟨rfl, k, rfl, hk, hbefore⟩ := hu
  have hlast : (needle.length : Int) - 1 = (needle.length - 1 : Nat) := by omega
  rw [if_pos (by omega), hlast, toSize_natCast (by omega), toSize_natCast (by omega)]
  refine Ensures.bind (ensures_int.mono ?_)
  intro p u hp
  obtain ⟨rfl, hint, rfl⟩ := hp
  refine Ensures.bind (ensures_getChar.mono ?_)
  intro c u hc
  obtain ⟨rfl, p, hp, hle, rfl⟩ := hc
  obtain rfl : i + k = p := by omega
  have hupper := hint.2
  refine Runs.bind_ensures ((runs_getChar (by omega)).mpr ?_)
  split_ifs with hdiffers hend
  · exact ensures_pure ⟨rfl, nofun, fun _ => ⟨k, hk, by omega, hdiffers⟩⟩
  · have hlength : needle.length = k + 1 := by omega
    refine ensures_pure ⟨rfl, fun _ => ⟨by omega, by omega, ?_⟩, nofun⟩
    rw [hlength]
    exact Nat.forall_lt_succ_right.mpr ⟨hbefore, not_not.mp hdiffers⟩
  · refine Ensures.bind (ensures_int.mono ?_)
    intro j u hj
    obtain ⟨rfl, -, rfl⟩ := hj
    refine ensures_pure ⟨rfl, k + 1, rfl, by omega, ?_⟩
    exact Nat.forall_lt_succ_right.mpr ⟨hbefore, not_not.mp hdiffers⟩

/-- At a place where the needle differs from the text, the search goes on. -/
theorem Differs.goesOn (h : Differs haystack needle i)
    (hin : i + needle.length ≤ haystack.length) (hn : needle.length < 18446744073709551616)
    (hf : needle.length < fuel) : Runs (standsAt fuel haystack needle i) t fun b u =>
      u = t ∧ b = false := by
  obtain ⟨j, hj, hint, hne⟩ := h
  have hdiffers : ∃ m, haystack[i + m]! ≠ needle[m]! := ⟨j, hne⟩
  have hmj := Nat.find_min' hdiffers hne
  have hm := Nat.find_spec hdiffers
  rw [standsAt, runs_andM, runs_bind, runs_getChar (by omega), runs_bind,
    ← Int.natCast_zero, runs_getChar (Nat.zero_le _), runs_pure]
  by_cases hfirst : haystack[i]! = needle[0]!
  · rw [if_pos (by simpa using hfirst)]
    refine (matchesAt_spec (m := Nat.find hdiffers) (by omega) (by omega) (by omega) ?_
      (fun heq => absurd heq hm) hn hf).mono ?_
    · intro k hk
      exact not_not.mp (Nat.find_min hdiffers hk)
    · intro b u hb
      obtain ⟨rfl, hb⟩ := hb
      refine ⟨rfl, ?_⟩
      rw [← Bool.not_eq_true, hb]
      exact hm
  · rw [if_neg (by simpa using hfirst)]
    exact ⟨rfl, rfl⟩

/-- Where the needle stands, it is found. -/
theorem standsAt_occurs (h : OccursAt needle haystack i) (hne : 0 < needle.length)
    (hint : i + needle.length ≤ 2147483648) (hn : needle.length < 18446744073709551616)
    (hf : needle.length < fuel) : Runs (standsAt fuel haystack needle i) t fun b u =>
      u = t ∧ b = true := by
  have hin := h.add_le hne
  have hsame (j : Nat) (hj : j < needle.length) : haystack[i + j]! = needle[j]! := h.getElem! hj
  have hfirst : haystack[i]! = needle[0]! := hsame 0 hne
  rw [standsAt, runs_andM, runs_bind, runs_getChar (by omega), runs_bind,
    ← Int.natCast_zero, runs_getChar (Nat.zero_le _), runs_pure, if_pos (by simpa using hfirst)]
  refine (matchesAt_spec (m := needle.length - 1) (by omega) (by omega) (by omega)
    (fun j hj => hsame j (by omega)) (fun _ => by omega) hn hf).mono ?_
  intro b u hb
  exact ⟨hb.1, hb.2.mpr (hsame _ (by omega))⟩

/-- What the body of the outer loop has found out when it ends. -/
theorem ensures_standsAt (hne : 0 < needle.length) (hn : needle.length < 18446744073709551616)
    (hint : i ≤ 2147483647) :
    Ensures (standsAt fuel haystack needle i) t fun b u => u = t ∧ i ≤ haystack.length ∧
      (b = true → i + needle.length ≤ 2147483648 ∧ i + needle.length ≤ haystack.length + 1 ∧
        ∀ j < needle.length, haystack[i + j]! = needle[j]!) ∧
      (b = false → Differs haystack needle i) := by
  rw [standsAt, andM]
  refine Ensures.bind (Ensures.bind (ensures_getChar.mono ?_))
  intro c u hc
  obtain ⟨rfl, p, hp, hle, rfl⟩ := hc
  obtain rfl := Int.ofNat.inj hp
  rw [← Int.natCast_zero]
  refine Runs.bind_ensures ((runs_getChar (Nat.zero_le _)).mpr (ensures_pure ?_))
  by_cases hfirst : haystack[i]! = needle[0]!
  · simp only [hfirst, decide_true, toBool]
    refine (ensures_matchesAt hne hn).mono ?_
    intro b u hb
    exact ⟨hb.1, hle, hb.2⟩
  · simp only [hfirst, decide_false, toBool]
    exact ensures_pure ⟨rfl, hle, fun h => absurd h Bool.false_ne_true,
      fun _ => ⟨0, hne, hint, hfirst⟩⟩

theorem bound_of_le (hfit : needle.length ≤ haystack.length + 1)
    (hh : haystack.length < 18446744073709551616) (hne : 0 < needle.length) :
    toSize ((haystack.length : Int) - needle.length + 1) =
      haystack.length + 1 - needle.length := by
  have hcast : (haystack.length : Int) - needle.length + 1 =
      (haystack.length + 1 - needle.length : Nat) := by omega
  rw [hcast, toSize_natCast (by omega)]

/-- The bound of a needle that is longer wraps around. -/
theorem bound_of_lt (hlong : haystack.length + 1 < needle.length)
    (hn : needle.length < 18446744073709551616) :
    haystack.length + 2 ≤ toSize ((haystack.length : Int) - needle.length + 1) := by
  unfold toSize
  omega

theorem runs_strStr (hh : haystack.length < 18446744073709551616)
    (hn : needle.length < 18446744073709551616) (hf : haystack.length + needle.length < fuel)
    (hfit : needle.length ≤ haystack.length + 1) (hne : 0 < needle.length)
    (h : Decided haystack needle) :
    Runs (strStr fuel haystack needle) t fun r u => u = t ∧ IsFirst needle haystack r := by
  have hbound := bound_of_le hfit hh hne
  rw [strStr, if_neg (by omega), if_neg (by omega)]
  rcases h with ⟨q, hq, hoccurs⟩ | ⟨hint, hdiffers⟩
  · obtain ⟨p, hpq, hp⟩ := hoccurs.exists_first
    have hin := hp.1.add_le hne
    refine runs_loop (k := p) (fun r (i : Int) u => u = t ∧ ∃ k : Nat, i = k ∧ k + r = p) ?_
      ⟨rfl, 0, rfl, Nat.zero_add p⟩ (by omega)
    intro r i u hu
    obtain ⟨rfl, k, rfl, hr⟩ := hu
    rw [hbound, toSize_natCast (by omega), if_pos (by omega), runs_bind]
    rcases Nat.eq_or_lt_of_le (Nat.le.intro hr) with rfl | hlt
    · refine (standsAt_occurs hp.1 hne (by omega) hn (by omega)).mono ?_
      intro b u hb
      obtain ⟨rfl, rfl⟩ := hb
      rw [if_pos rfl, runs_pure]
      exact ⟨rfl, .inl ⟨k, rfl, hp⟩⟩
    · have hno := hp.2 k hlt
      rw [occursAt_iff (by omega)] at hno
      simp only [not_forall] at hno
      obtain ⟨j, hj, hne'⟩ := hno
      refine (Differs.goesOn ⟨j, hj, by omega, hne'⟩ (by omega) hn (by omega)).mono ?_
      intro b u hb
      obtain ⟨rfl, rfl⟩ := hb
      rw [if_neg Bool.false_ne_true, runs_bind, runs_int ⟨by omega, by omega⟩, runs_pure]
      exact ⟨r - 1, by omega, rfl, k + 1, rfl, by omega⟩
  · refine runs_loop (k := haystack.length + 1 - needle.length) (fun r (i : Int) u => u = t ∧
      ∃ k : Nat, i = k ∧ k + r = haystack.length + 1 - needle.length) ?_
      ⟨rfl, 0, rfl, Nat.zero_add _⟩ (by omega)
    intro r i u hu
    obtain ⟨rfl, k, rfl, hr⟩ := hu
    rw [hbound, toSize_natCast (by omega)]
    split_ifs with hlt
    · rw [runs_bind]
      refine ((hdiffers k hlt).goesOn (by omega) hn (by omega)).mono ?_
      intro b u hb
      obtain ⟨rfl, rfl⟩ := hb
      rw [if_neg Bool.false_ne_true, runs_bind, runs_int ⟨by omega, by omega⟩, runs_pure]
      exact ⟨r - 1, by omega, rfl, k + 1, rfl, by omega⟩
    · rw [runs_pure]
      refine ⟨rfl, .inr ⟨rfl, fun p hp => ?_⟩⟩
      have hin := hp.add_le hne
      obtain ⟨j, hj, -, hne'⟩ := hdiffers p (by omega)
      exact hne' (hp.getElem! hj)

/-- A search that ends has been decided, and the needle is no more than one longer. -/
theorem ensures_strStr (hh : haystack.length < 18446744073709551616)
    (hn : needle.length < 18446744073709551616) (hne : 0 < needle.length) :
    Ensures (strStr fuel haystack needle) t fun _ _ =>
      needle.length ≤ haystack.length + 1 ∧ Decided haystack needle := by
  rw [strStr, if_neg (by omega), if_neg (by omega)]
  refine ensures_loop (fun (i : Int) _ => ∃ k : Nat, i = k ∧ k ≤ 2147483647 ∧
    k ≤ haystack.length + 1 ∧ ∀ p < k, Differs haystack needle p) ?_
    ⟨0, rfl, by omega, by omega, fun p hp => absurd hp (Nat.not_lt_zero p)⟩
  intro i u hi
  obtain ⟨k, rfl, hint, hle, hbefore⟩ := hi
  rw [toSize_natCast (by omega)]
  split_ifs with hlt
  · refine Ensures.bind ((ensures_standsAt hne hn hint).mono ?_)
    intro b v hb
    obtain ⟨rfl, hin, htrue, hfalse⟩ := hb
    cases b with
    | true =>
      obtain ⟨hint', hend, hsame⟩ := htrue rfl
      rw [bound_of_le (by omega) hh hne] at hlt
      refine ensures_pure ⟨by omega, .inl ⟨k, hint', ?_⟩⟩
      rw [occursAt_iff (by omega)]
      exact hsame
    | false =>
      refine Ensures.bind (ensures_int.mono ?_)
      intro j w hj
      obtain ⟨rfl, hnext, rfl⟩ := hj
      have hupper := hnext.2
      refine ensures_pure ⟨k + 1, rfl, by omega, by omega, ?_⟩
      exact Nat.forall_lt_succ_right.mpr ⟨hbefore, hfalse rfl⟩
  · by_cases hfit : needle.length ≤ haystack.length + 1
    · rw [bound_of_le hfit hh hne] at hlt
      exact ensures_pure ⟨hfit, .inr ⟨by omega, fun p hp => hbefore p (by omega)⟩⟩
    · have hlarge := bound_of_lt (Nat.lt_of_not_le hfit) hn
      omega

/-- The search ends with the first place, or with -1, exactly when the unsigned bound does not wrap
around and the indexes that it needs are `int`s. -/
theorem strStr_iff (hh : haystack.length < 18446744073709551616)
    (hn : needle.length < 18446744073709551616) (hf : haystack.length + needle.length < fuel) :
    (Runs (strStr fuel haystack needle) t fun r _ =>
      (needle = [] → r = 0) ∧ (needle ≠ [] → IsFirst needle haystack r)) ↔
      needle = [] ∨ needle.length ≤ haystack.length + 1 ∧ Decided haystack needle := by
  by_cases hne : needle = []
  · refine iff_of_true ?_ (.inl hne)
    have hzero : needle.length = 0 := List.length_eq_zero_iff.mpr hne
    rw [strStr]
    split_ifs <;> exact runs_pure.mpr ⟨fun _ => rfl, fun hnot => absurd hne hnot⟩
  · have hpos := List.length_pos_iff.mpr hne
    constructor
    · intro h
      obtain ⟨r, u, -, -, hdecided⟩ := (ensures_strStr hh hn hpos).runs h
      exact .inr hdecided
    · intro h
      obtain ⟨hfit, hdecided⟩ := h.resolve_left hne
      refine (runs_strStr hh hn hf hfit hpos hdecided).mono ?_
      intro r u hr
      exact ⟨fun hnil => absurd hnil hne, fun _ => hr.2⟩

theorem strStr_iff_sample :
    (Runs (strStr 8 [104, 101, 108, 108, 111] [108, 108]) () fun r _ =>
      (([108, 108] : List UInt8) = [] → r = 0) ∧
        (([108, 108] : List UInt8) ≠ [] → IsFirst [108, 108] [104, 101, 108, 108, 111] r)) ↔
      ([108, 108] : List UInt8) = [] ∨
        ([108, 108] : List UInt8).length ≤ ([104, 101, 108, 108, 111] : List UInt8).length + 1 ∧
          Decided [104, 101, 108, 108, 111] [108, 108] :=
  strStr_iff (by decide) (by decide) (by decide)

/-- A needle of two characters is searched for in the empty text, and the character after the
terminating one is read. -/
theorem strStr_empty : Fails (strStr 8 [] [97, 97]) () .outOfRange ∧
    ¬ ∃ fuel, Runs (strStr fuel [] [97, 97]) () fun r _ => IsFirst [97, 97] [] r := by
  refine ⟨rfl, ?_⟩
  intro h
  obtain ⟨fuel, h⟩ := h
  obtain ⟨r, u, -, -, hfit, -⟩ := (ensures_strStr (by decide) (by decide) (by decide)).runs h
  exact absurd hfit (by decide)

end

end LanguageTest.StrStr
