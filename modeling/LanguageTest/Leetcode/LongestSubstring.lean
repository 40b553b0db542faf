import LanguageTest.Library.Counting
import LanguageTest.Library.Elements
import LanguageTest.Library.Windows

namespace LanguageTest.LongestSubstring

structure Lengths where
  maxLen : Int
  curLen : Int

/-- The vector `dp`, beside the two lengths. -/
abbrev State := Vec Lengths Int

/-- The `int` that a `char` is converted to, which is a signed type. -/
def charToInt (c : UInt8) : Int := if c.toNat < 128 then c.toNat else c.toNat - 256

def setCurLen (curLen : Int) : Program State Unit := do
  let s ← get
  set { s with other := { s.other with curLen := curLen } }

def setMaxLen : Program State Unit := do
  let s ← get
  set { s with other := { s.other with maxLen := max s.other.maxLen s.other.curLen } }

/-- The branches of the loop, which set `curLen`. -/
def updateLen (index i : Int) : Program State Unit := do
  let curLen := (← get).other.curLen
  if (← element index) < 0 then setCurLen (← int (curLen + 1))
  else
    let len ← int (i - (← element index))
    if curLen ≥ len then setCurLen len else setCurLen (← int (curLen + 1))

/-- The body of the loop. -/
def visit (s : List UInt8) (i : Int) : Program State Unit := do
  let index := charToInt (← itemAt s i)
  updateLen index i
  assignElement index i
  setMaxLen

def lengthOfLongestSubstring (fuel : Nat) (s : List UInt8) : Program State Int := do
  if s.length = 0 then pure 0
  else
    set (⟨⟨0, 0⟩, List.replicate 256 (-1), []⟩ : State)
    countUp fuel 0 (pure s.length) (visit s)
    pure (← get).other.maxLen

/-- A longest substring without repeated characters has this length, and no index was out of the
256 elements. -/
def IsLongest (s : List UInt8) (r : Int) (t : State) : Prop :=
  (∀ k ∈ t.touched, 0 ≤ k ∧ k ≤ 255) ∧ ∃ n : Nat, r = n ∧ IsGreatest (distinctBlocks s) n

/-- What `dp` and the lengths say about the characters `xs` so far. -/
structure Scanned (xs : List UInt8) (t : State) : Prop where
  size : t.items.length = 256
  last : ∀ c : UInt8, c.toNat < 128 → t.items[c.toNat]! = -1 ∧ c ∉ xs ∨
    ∃ k : Nat, t.items[c.toNat]! = k ∧ LastAt c xs k
  curLen : ∃ n : Nat, t.other.curLen = n ∧ DistinctEnd xs n
  maxLen : ∃ n : Nat, t.other.maxLen = n ∧ IsGreatest (distinctBlocks xs) n
  touched : ∀ k ∈ t.touched, 0 ≤ k ∧ k ≤ 255

section
variable {s xs : List UInt8} {c : UInt8} {fuel i : Nat} {t u : State}

theorem charToInt_of_lt (h : c.toNat < 128) : charToInt c = c.toNat := if_pos h

theorem charToInt_neg (h : ¬ c.toNat < 128) : charToInt c < 0 := by
  have hlt := c.toNat_lt
  rw [charToInt, if_neg h]
  omega

theorem scanned_start : Scanned [] ⟨⟨0, 0⟩, List.replicate 256 (-1), []⟩ where
  size := List.length_replicate
  last c hc := Or.inl ⟨getElem!_replicate (by omega), List.not_mem_nil⟩
  curLen := ⟨0, rfl, distinctEnd_nil⟩
  maxLen := ⟨0, rfl, isGreatest_distinctBlocks_nil⟩
  touched k hk := absurd hk List.not_mem_nil

theorem runs_setCurLen {n : Int} {Q : Unit → State → Prop} :
    Runs (setCurLen n) t Q ↔ Q () { t with other := { t.other with curLen := n } } := by
  rw [setCurLen, runs_bind, runs_get, runs_set]

theorem touched_touch (h : ∀ k ∈ t.touched, 0 ≤ k ∧ k ≤ 255) (hi : i < 256) :
    ∀ k ∈ (t.touch i).touched, 0 ≤ k ∧ k ≤ 255 :=
  List.forall_mem_append.mpr ⟨h, List.forall_mem_singleton.mpr (by omega)⟩

/-- What the branches change. -/
structure Updated (xs : List UInt8) (c : UInt8) (t u : State) : Prop where
  items : u.items = t.items
  maxLen : u.other.maxLen = t.other.maxLen
  curLen : ∃ n : Nat, u.other.curLen = n ∧ DistinctEnd (xs ++ [c]) n
  touched : ∀ k ∈ u.touched, 0 ≤ k ∧ k ≤ 255

theorem updateLen_spec (h : Scanned xs t) (hc : c.toNat < 128) (hn : xs.length < 2147483647) :
    Runs (updateLen c.toNat xs.length) t fun _ u => Updated xs c t u := by
  have hsize : c.toNat < t.items.length := by
    rw [h.size]
    omega
  have htouched := touched_touch h.touched (show c.toNat < 256 by omega)
  obtain ⟨n, hcur, hend⟩ := h.curLen
  have hle := hend.1
  rw [updateLen, runs_bind, runs_get, runs_bind, runs_element hsize, hcur]
  rcases h.last c hc with ⟨hnone, hnew⟩ | ⟨k, hk, hlast⟩
  · rw [hnone, if_pos (by decide), runs_int_bind (by omega) (by omega), runs_setCurLen]
    exact ⟨rfl, rfl, ⟨n + 1, rfl, hend.concat_new hnew⟩, htouched⟩
  · have hlt := hlast.lt
    have hnext := hend.concat_last hlast
    have htwice := touched_touch htouched (show c.toNat < 256 by omega)
    rw [hk, if_neg (by omega), runs_bind, runs_element (s := t.touch c.toNat) hsize,
      Vec.touch_items, hk, runs_int_bind (by omega) (by omega)]
    split_ifs with hcut
    · rw [runs_setCurLen]
      refine ⟨rfl, rfl, ⟨xs.length - k, by dsimp only; omega, ?_⟩, htwice⟩
      rwa [Nat.min_eq_right (by omega)] at hnext
    · rw [runs_int_bind (by omega) (by omega), runs_setCurLen]
      refine ⟨rfl, rfl, ⟨n + 1, rfl, ?_⟩, htwice⟩
      rwa [Nat.min_eq_left (by omega)] at hnext

/-- The end of a pass. -/
theorem Updated.scanned (hu : Updated xs c t u) (h : Scanned xs t) (hc : c.toNat < 128) :
    Runs (do
      assignElement c.toNat (xs.length : Int)
      setMaxLen) u fun _ v => Scanned (xs ++ [c]) v := by
  have hsize : c.toNat < u.items.length := by
    rw [hu.items, h.size]
    omega
  obtain ⟨m, hm, hgreatest⟩ := h.maxLen
  obtain ⟨n, hn, hend⟩ := hu.curLen
  rw [runs_bind, runs_assignElement hsize, setMaxLen, runs_bind, runs_get, runs_set]
  constructor
  case size =>
    rw [List.length_set, hu.items, h.size]
  case last =>
    intro d hd
    dsimp only
    rw [getElem!_set hsize]
    split_ifs with heq
    · obtain rfl := UInt8.toNat_inj.mp heq
      exact Or.inr ⟨xs.length, rfl, lastAt_concat d xs⟩
    · have hne : d ≠ c := fun hdc => heq (hdc ▸ rfl)
      rw [hu.items]
      rcases h.last d hd with ⟨hnone, hmem⟩ | ⟨k, hk, hlast⟩
      · refine Or.inl ⟨hnone, ?_⟩
        rw [List.mem_append, List.mem_singleton]
        exact not_or.mpr ⟨hmem, hne⟩
      · exact Or.inr ⟨k, hk, hlast.concat hne⟩
  case curLen =>
    exact ⟨n, hn, hend⟩
  case maxLen =>
    refine ⟨max m n, ?_, hend.isGreatest hgreatest⟩
    change max u.other.maxLen u.other.curLen = _
    rw [hu.maxLen, hm, hn]
    omega
  case touched =>
    exact touched_touch hu.touched (by omega)

theorem visit_spec (h : Scanned (s.take i) t) (hi : i < s.length) (hn : i < 2147483647)
    (hc : (s[i]!).toNat < 128) :
    Runs (visit s i) t fun _ u => Scanned (s.take (i + 1)) u := by
  have hlength : (s.take i).length = i := List.length_take_of_le (Nat.le_of_lt hi)
  have hupdate := updateLen_spec h hc (hlength.symm ▸ hn)
  rw [visit, runs_bind, runs_itemAt hi, charToInt_of_lt hc, runs_bind, take_succ_eq hi]
  rw [hlength] at hupdate
  refine hupdate.mono fun _ u hu => ?_
  have hnext := hu.scanned h hc
  rwa [hlength] at hnext

/-- A character beyond the `char` codes that are not negative has no element. -/
theorem visit_fails (hi : i < s.length) (hc : ¬ (s[i]!).toNat < 128) :
    Fails (visit s i) t .outOfRange := by
  refine Runs.fails ((runs_itemAt hi).mpr (Fails.bind (Runs.fails (runs_get.mpr ?_))))
  refine Fails.bind (Runs.fails (runs_get.mpr ?_))
  rw [if_pos (charToInt_neg hc)]
  exact fails_fail

theorem lengthOfLongestSubstring_spec (hc : ∀ c ∈ s, c.toNat < 128) (hn : s.length < 2147483648)
    (hf : s.length < fuel) :
    Runs (lengthOfLongestSubstring fuel s) ⟨⟨0, 0⟩, [], []⟩ (IsLongest s) := by
  rw [lengthOfLongestSubstring]
  split_ifs with hzero
  · obtain rfl := List.length_eq_zero_iff.mp hzero
    rw [runs_pure]
    exact ⟨fun k hk => absurd hk List.not_mem_nil, 0, rfl, isGreatest_distinctBlocks_nil⟩
  · rw [runs_bind, runs_set, runs_bind]
    refine (runs_countUp (l := 0) (n := s.length) (fun i u => Scanned (s.take i) u)
      (fun i u _ => runs_pure.mpr ⟨Int.toNat_natCast _, rfl⟩) hn (fun i _ hi u hu => ?_)
      scanned_start (by omega)).mono ?_
    · exact visit_spec hu hi (by omega) (hc _ (mem_iff_getElem!.mpr ⟨i, hi, rfl⟩))
    · intro _ u hu
      rw [Nat.max_eq_right (Nat.zero_le _), List.take_length] at hu
      rw [runs_bind, runs_get, runs_pure]
      exact ⟨hu.touched, hu.maxLen⟩

/-- A call that ends has seen no other characters, and not too many. -/
theorem condition_of_runs {Q : Int → State → Prop}
    (h : Runs (lengthOfLongestSubstring fuel s) t Q) :
    (∀ c ∈ s, c.toNat < 128) ∧ s.length < 2147483648 := by
  rw [lengthOfLongestSubstring] at h
  split_ifs at h with hzero
  · obtain rfl := List.length_eq_zero_iff.mp hzero
    exact ⟨fun c hc => absurd hc List.not_mem_nil, by decide⟩
  · rw [runs_bind, runs_set, runs_bind] at h
    constructor
    · have hseen := (ensures_counted (l := 0) (n := s.length)
        (fun i _ => ∀ c ∈ s.take i, c.toNat < 128)
        (fun i u _ => ensures_pure ⟨Int.toNat_natCast _, rfl⟩) (fun i _ hi u hu => ?_)
        (fun c hc => absurd hc List.not_mem_nil)).runs h
      · obtain ⟨_, _, -, -, hall⟩ := hseen
        rwa [Nat.max_eq_right (Nat.zero_le _), List.take_length] at hall
      · by_cases hc : (s[i]!).toNat < 128
        · refine fun _ _ _ c hmem => ?_
          rw [take_succ_eq hi, List.mem_append, List.mem_singleton] at hmem
          rcases hmem with hmem | rfl
          · exact hu c hmem
          · exact hc
        · exact (visit_fails hi hc).ensures
    · by_contra hlarge
      refine not_runs_countUp (fun _ => True) (fun u _ => ?_) (fun _ _ _ _ _ _ => trivial) trivial
        (by decide) h
      exact ensures_pure ⟨by omega, trivial⟩

end

/-- The result is right exactly when no character is negative and an `int` can index them all. -/
theorem lengthOfLongestSubstring_iff (s : List UInt8) (fuel : Nat) (hf : s.length < fuel) :
    Runs (lengthOfLongestSubstring fuel s) ⟨⟨0, 0⟩, [], []⟩ (IsLongest s) ↔
      (∀ c ∈ s, c.toNat < 128) ∧ s.length ≤ 2147483647 := by
  constructor
  · intro h
    obtain ⟨hc, hn⟩ := condition_of_runs h
    exact ⟨hc, Nat.le_of_lt_succ hn⟩
  · rintro ⟨hc, hn⟩
    exact lengthOfLongestSubstring_spec hc (Nat.lt_succ_of_le hn) hf

/-- `"pwwkew"`. -/
theorem lengthOfLongestSubstring_iff_sample :
    Runs (lengthOfLongestSubstring 7 [112, 119, 119, 107, 101, 119]) ⟨⟨0, 0⟩, [], []⟩
        (IsLongest [112, 119, 119, 107, 101, 119]) ↔
      (∀ c ∈ [(112 : UInt8), 119, 119, 107, 101, 119], c.toNat < 128) ∧
        [(112 : UInt8), 119, 119, 107, 101, 119].length ≤ 2147483647 :=
  lengthOfLongestSubstring_iff [112, 119, 119, 107, 101, 119] 7 (by decide)

/-- The first index is -128. -/
theorem lengthOfLongestSubstring_negative : charToInt 128 = -128 ∧
    (∀ fuel, Fails (lengthOfLongestSubstring (fuel + 1) [128]) ⟨⟨0, 0⟩, [], []⟩ .outOfRange) ∧
    ∀ fuel, ¬ Runs (lengthOfLongestSubstring fuel [128]) ⟨⟨0, 0⟩, [], []⟩ (IsLongest [128]) := by
  refine ⟨rfl, fun fuel => ?_, fun fuel h => ?_⟩
  · refine Runs.fails (runs_set.mpr (Fails.bind ?_))
    exact fails_countUp (runs_pure.mpr ⟨by decide, rfl⟩)
      (visit_fails (s := [128]) (i := 0) (by decide) (by decide))
  · exact absurd ((condition_of_runs h).1 128 (List.mem_singleton.mpr rfl)) (by decide)

end LanguageTest.LongestSubstring
