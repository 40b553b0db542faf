import LanguageTest.Library.Counting
import LanguageTest.Library.Strings
import Mathlib.Data.List.Basic

namespace LanguageTest.ReplaceSpace

/-- The variables. The history has the accesses of the second loop, which moves the characters. -/
structure State where
  s : List UInt8
  spaceLen : Int
  history : List Access

/-- `' '`. -/
def blank : UInt8 := 32

/-- The body of the first loop. -/
def countSpace (i : Int) : Program State Unit := do
  let u ← get
  if (← getChar u.s i) = blank then
    set ({ u with spaceLen := ← int (u.spaceLen + 1) } : State)

def readChar (i : Int) : Program State UInt8 := do
  let u ← get
  let c ← getChar u.s i
  set ({ u with history := u.history ++ [.read i] } : State)
  pure c

def writeChar (i : Int) (c : UInt8) : Program State Unit := do
  let u ← get
  if i < 0 ∨ u.s.length ≤ i.toNat then fail .outOfRange
  else set ({ u with s := u.s.set i.toNat c, history := u.history ++ [.write i] } : State)

/-- The body of the second loop, with the value of `plusNum` after it. -/
def move (i plusNum : Int) : Program State Int := do
  let index ← int (plusNum + i)
  if (← readChar i) ≠ blank then
    writeChar index (← readChar i)
    pure plusNum
  else
    writeChar index 48
    writeChar (← int (index - 1)) 50
    writeChar (← int (index - 2)) 37
    int (plusNum - 2)

def replaceSpace (fuel : Nat) (s : List UInt8) : Program State (List UInt8) := do
  set (⟨s, 0, []⟩ : State)
  let len := toInt s.length
  countUp fuel 0 (do pure (← get).s.length) countSpace
  let u ← get
  let plusNum ← int (2 * u.spaceLen)
  set ({ u with s := u.s ++ List.replicate (toSize plusNum) blank } : State)
  loop (fun v : Int × Int => do
    if v.1 ≥ 0 then
      let plusNum ← move v.1 v.2
      pure (.again (← int (v.1 - 1), plusNum))
    else pure (.done ())) fuel (← int (len - 1), plusNum)
  pure (← get).s

/-- `"%20"` for every blank. -/
def expanded (s : List UInt8) : List UInt8 :=
  s.flatMap fun c => if c = blank then [37, 50, 48] else [c]

/-- No character is written outside the buffer of `size` characters, or over one of the first `len`
that has not been read yet. -/
def Safe (len size : Nat) : List Access → Prop :=
  EachMeets fun before a => ∀ k, a = .write k →
    0 ≤ k ∧ k < size ∧ (k < len → .read k ∈ before)

def State.afterRead (u : State) (i : Nat) : State :=
  { u with history := u.history ++ [.read i] }

def State.afterWrite (u : State) (i : Nat) (c : UInt8) : State :=
  { u with s := u.s.set i c, history := u.history ++ [.write i] }

@[simp] theorem State.afterRead_s (u : State) (i : Nat) : (u.afterRead i).s = u.s := rfl

@[simp] theorem State.afterRead_history (u : State) (i : Nat) :
    (u.afterRead i).history = u.history ++ [.read i] := rfl

@[simp] theorem State.afterWrite_s (u : State) (i : Nat) (c : UInt8) :
    (u.afterWrite i c).s = u.s.set i c := rfl

@[simp] theorem State.afterWrite_history (u : State) (i : Nat) (c : UInt8) :
    (u.afterWrite i c).history = u.history ++ [.write i] := rfl

/-- The first loop after `i` passes. -/
structure Counted (s : List UInt8) (i : Nat) (u : State) : Prop where
  content : u.s = s
  spaceLen : u.spaceLen = (s.take i).count blank
  history : u.history = []

/-- The characters from `j` on have been read, and every write was safe. -/
structure Ready (s : List UInt8) (j : Nat) (log : List Access) : Prop where
  read : ∀ k : Nat, j ≤ k → k < s.length → .read k ∈ log
  safe : Safe s.length (s.length + 2 * s.count blank) log

/-- The second loop, when the characters from `j` on have been moved. -/
structure Moving (s : List UInt8) (j : Nat) (plusNum : Int) (u : State) : Prop where
  content : ∃ gap : List UInt8, u.s = s.take j ++ (gap ++ expanded (s.drop j)) ∧
    gap.length = 2 * (s.take j).count blank ∧ plusNum = gap.length
  size : u.s.length = s.length + 2 * s.count blank
  ready : Ready s j u.history

section
variable {s : List UInt8} {u : State} {i j k len size fuel : Nat} {plusNum : Int} {c : UInt8}
  {log : List Access}

theorem Ready.read_again (h : Ready s i log) (k : Int) : Ready s i (log ++ [.read k]) where
  read l hil hl := List.mem_append_left _ (h.read l hil hl)
  safe := eachMeets_concat.mpr ⟨h.safe, nofun⟩

theorem Ready.read_next (h : Ready s (i + 1) log) : Ready s i (log ++ [.read i]) where
  read k hik hk := by
    rcases Nat.eq_or_lt_of_le hik with rfl | hlt
    · simp
    · exact List.mem_append_left _ (h.read k hlt hk)
  safe := (h.read_again i).safe

/-- A write behind the characters that have not been read. -/
theorem Ready.write (h : Ready s i log) (hik : i ≤ k) (hk : k < s.length + 2 * s.count blank) :
    Ready s i (log ++ [.write k]) where
  read l hil hl := List.mem_append_left _ (h.read l hil hl)
  safe := by
    refine eachMeets_concat.mpr ⟨h.safe, fun j hj => ?_⟩
    obtain rfl := Access.write.inj hj
    exact ⟨by omega, by omega, fun hlt => h.read k hik (by omega)⟩

theorem runs_readChar {Q : UInt8 → State → Prop} (hi : i ≤ u.s.length) :
    Runs (readChar i) u Q ↔ Q u.s[i]! (u.afterRead i) := by
  rw [readChar, runs_bind, runs_get, runs_bind, runs_getChar hi, runs_bind, runs_set, runs_pure]
  rfl

theorem runs_writeChar {Q : Unit → State → Prop} (hi : i < u.s.length) :
    Runs (writeChar i c) u Q ↔ Q () (u.afterWrite i c) := by
  have hrange : ¬ ((i : Int) < 0 ∨ u.s.length ≤ (i : Int).toNat) := by omega
  rw [writeChar, runs_bind, runs_get, if_neg hrange, runs_set, Int.toNat_natCast]
  rfl

@[simp] theorem length_expanded : (expanded s).length = s.length + 2 * s.count blank := by
  induction s with
  | nil => rfl
  | cons c s ih =>
    by_cases hc : c = blank
    · simp [expanded, hc] at ih ⊢
      omega
    · simp [expanded, hc] at ih ⊢
      omega

theorem expanded_drop (hi : i < s.length) :
    expanded (s.drop i) =
      (if s[i]! = blank then [37, 50, 48] else [s[i]!]) ++ expanded (s.drop (i + 1)) := by
  rw [drop_eq_cons hi]
  rfl

theorem count_take (hi : i < s.length) :
    (s.take (i + 1)).count blank = (s.take i).count blank + if s[i]! = blank then 1 else 0 := by
  rw [take_succ_eq hi, List.count_append, List.count_singleton]
  simp

/-- The last elements of a list that is long enough. -/
theorem exists_append {α : Type} {l : List α} {k : Nat} (h : k ≤ l.length) :
    ∃ ys zs, l = ys ++ zs ∧ ys.length + k = l.length ∧ zs.length = k :=
  ⟨l.take (l.length - k), l.drop (l.length - k), (List.take_append_drop _ _).symm,
    by rw [List.length_take]; omega, by rw [List.length_drop]; omega⟩

/-- What the next pass finds. -/
theorem Moving.next (h : Moving s (i + 1) plusNum u) (hi : i < s.length) :
    ∃ gap : List UInt8, u.s = s.take i ++ (s[i]! :: gap) ++ expanded (s.drop (i + 1)) ∧
      plusNum = gap.length ∧ u.s[i]! = s[i]! ∧ i + gap.length < u.s.length ∧
      gap.length = 2 * ((s.take i).count blank + if s[i]! = blank then 1 else 0) := by
  obtain ⟨gap, hs, hgap, hplus⟩ := h.content
  have hlength : (s.take i).length = i := List.length_take_of_le (Nat.le_of_lt hi)
  rw [take_succ_eq hi] at hs
  refine ⟨gap, by simp [hs], hplus, ?_, ?_, by rw [hgap, count_take hi]⟩
  · rw [hs, List.append_assoc, List.getElem!_eq_getElem?_getD,
      List.getElem?_append_right (by omega), hlength]
    simp
  · rw [hs]
    simp only [List.length_append, List.length_singleton, hlength]
    omega

/-- A character that is no blank moves to the end of the gap. -/
theorem move_other (h : Moving s (i + 1) plusNum u) (hi : i < s.length) (hc : s[i]! ≠ blank)
    (hn : s.length + 2 * s.count blank ≤ 2147483648) :
    Runs (move i plusNum) u fun p v => Moving s i p v := by
  obtain ⟨gap, hs, hplus, hchar, hfits, hgap⟩ := h.next hi
  have hsize := h.size
  have htake : (s.take i).length = i := List.length_take_of_le (Nat.le_of_lt hi)
  have hindex : plusNum + i = (i + gap.length : Nat) := by omega
  obtain ⟨gap', last, hcons, hlength, hone⟩ := exists_append (l := s[i]! :: gap) (k := 1) (by simp)
  obtain ⟨x, rfl⟩ := List.length_eq_one_iff.mp hone
  rw [List.length_cons] at hlength
  have hbase : i + gap.length = (s.take i ++ gap').length + 0 := by
    rw [List.length_append, htake]
    omega
  rw [move, hindex, runs_int_bind (by omega) (by omega), runs_bind, runs_readChar (by omega),
    hchar, if_pos hc, runs_bind, runs_readChar (by simp; omega), State.afterRead_s, hchar,
    runs_bind, runs_writeChar (by simpa using hfits), runs_pure]
  constructor
  case content =>
    refine ⟨gap', ?_, by rw [if_neg hc] at hgap; omega, by omega⟩
    rw [State.afterWrite_s, State.afterRead_s, State.afterRead_s, hs, hcons, ← List.append_assoc,
      List.append_assoc, hbase, set_append, expanded_drop hi, if_neg hc, List.append_assoc]
    rfl
  case size => simpa using hsize
  case ready =>
    exact (h.ready.read_next.read_again i).write (by omega) (by omega)

/-- `"%20"` is written to the end of the gap. -/
theorem move_blank (h : Moving s (i + 1) plusNum u) (hi : i < s.length) (hc : s[i]! = blank)
    (hn : s.length + 2 * s.count blank ≤ 2147483648) :
    Runs (move i plusNum) u fun p v => Moving s i p v := by
  obtain ⟨gap, hs, hplus, hchar, hfits, hgap⟩ := h.next hi
  rw [if_pos hc] at hgap
  have hsize := h.size
  have htake : (s.take i).length = i := List.length_take_of_le (Nat.le_of_lt hi)
  obtain ⟨gap', last, hcons, hlength, hthree⟩ := exists_append (l := s[i]! :: gap) (k := 3)
    (by rw [List.length_cons]; omega)
  obtain ⟨x, y, z, rfl⟩ := List.length_eq_three.mp hthree
  rw [List.length_cons] at hlength
  have hbase : (s.take i ++ gap').length = i + gap'.length := by
    rw [List.length_append, htake]
  have hindex : plusNum + i = (i + gap'.length + 2 : Nat) := by omega
  have hindex₁ : ((i + gap'.length + 2 : Nat) : Int) - 1 = (i + gap'.length + 1 : Nat) := by omega
  have hindex₂ : ((i + gap'.length + 2 : Nat) : Int) - 2 = (i + gap'.length + 0 : Nat) := by omega
  have hnext : plusNum - 2 = gap'.length := by omega
  rw [move, hindex, runs_int_bind (by omega) (by omega), runs_bind, runs_readChar (by omega),
    hchar, if_neg (not_not.mpr hc), runs_bind, runs_writeChar (by simp; omega), hindex₁,
    runs_int_bind (by omega) (by omega), runs_bind, runs_writeChar (by simp; omega), hindex₂,
    runs_int_bind (by omega) (by omega), runs_bind, runs_writeChar (by simp; omega), hnext,
    runs_int ⟨by omega, by omega⟩]
  constructor
  case content =>
    refine ⟨gap', ?_, by omega, rfl⟩
    simp only [State.afterWrite_s, State.afterRead_s]
    rw [hs, hcons, ← List.append_assoc, List.append_assoc _ [x, y, z], ← hbase, set_append,
      set_append, set_append, expanded_drop hi, if_pos hc, List.append_assoc]
    rfl
  case size => simpa using hsize
  case ready =>
    exact ((h.ready.read_next.write (by omega) (by omega)).write (by omega) (by omega)).write
      (by omega) (by omega)

theorem move_spec (h : Moving s (i + 1) plusNum u) (hi : i < s.length)
    (hn : s.length + 2 * s.count blank ≤ 2147483648) :
    Runs (move i plusNum) u fun p v => Moving s i p v := by
  by_cases hc : s[i]! = blank
  · exact move_blank h hi hc hn
  · exact move_other h hi hc hn

theorem countSpace_spec (h : Counted s i u) (hi : i < s.length) (hn : s.length ≤ 2147483647) :
    Runs (countSpace i) u fun _ v => Counted s (i + 1) v := by
  have hle := List.count_le_length (a := blank) (l := s.take i)
  rw [List.length_take_of_le (Nat.le_of_lt hi)] at hle
  have hcount := count_take hi
  rw [countSpace, runs_bind, runs_get, h.content, runs_bind, runs_getChar (Nat.le_of_lt hi)]
  split_ifs with hc
  · rw [h.spaceLen, runs_int_bind (by omega) (by omega), runs_set]
    rw [if_pos hc] at hcount
    exact ⟨rfl, by rw [hcount]; rfl, h.history⟩
  · rw [if_neg hc] at hcount
    exact runs_pure.mpr ⟨h.content, by rw [hcount]; exact h.spaceLen, h.history⟩

/-- The first loop does not change the string. -/
theorem ensures_countSpace {j : Int} (h : u.s = s) :
    Ensures (countSpace j) u fun _ v => v.s = s := by
  refine Runs.bind_ensures (runs_get.mpr (Ensures.bind (ensures_getChar.mono ?_)))
  intro c v hv
  obtain ⟨rfl, -⟩ := hv
  split_ifs
  · refine Ensures.bind (ensures_int.mono ?_)
    intro n w hn
    exact (runs_set.mpr h).ensures
  · exact ensures_pure h

/-- The state before the second loop. -/
theorem Counted.moving (h : Counted s s.length u) :
    Moving s s.length ((2 * s.count blank : Nat) : Int)
      { u with s := u.s ++ List.replicate (2 * s.count blank) blank } where
  content := ⟨List.replicate (2 * s.count blank) blank, by simp [h.content, expanded], by simp,
    by simp⟩
  size := by simp [h.content]
  ready := by
    refine ⟨fun k hk hlt => by omega, ?_⟩
    rw [h.history]
    exact eachMeets_nil

theorem Moving.finished (h : Moving s 0 plusNum u) : plusNum = 0 ∧ u.s = expanded s := by
  obtain ⟨gap, hgap, hzero, hplus⟩ := h.content
  obtain rfl : gap = [] := List.length_eq_zero_iff.mp (by simpa using hzero)
  exact ⟨hplus, by simpa using hgap⟩

end

/-- Every blank is replaced, within the buffer and behind what has not been read. -/
theorem replaceSpace_expanded (u : State) (s : List UInt8) (hlen : s.length ≤ 2147483647)
    (hn : s.length + 2 * s.count blank ≤ 2147483648) (fuel : Nat) (hf : s.length < fuel) :
    Runs (replaceSpace fuel s) u fun r v =>
      r = expanded s ∧ Safe s.length r.length v.history := by
  rw [replaceSpace, runs_bind, runs_set, toInt_of_lt (by omega), runs_bind]
  refine (runs_countUp (l := 0) (n := s.length) (Counted s) ?_ (by omega) ?_
    ⟨rfl, by simp, rfl⟩ hf).mono ?_
  · intro i v hv
    rw [runs_bind, runs_get, runs_pure, hv.content]
    exact ⟨Int.toNat_natCast _, rfl⟩
  · exact fun i _ hi v hv => countSpace_spec hv hi hlen
  intro _ v hv
  rw [Nat.max_eq_right (Nat.zero_le _)] at hv
  have hcount := hv.spaceLen
  rw [List.take_length] at hcount
  have hplus : 2 * v.spaceLen = (2 * s.count blank : Nat) := by omega
  have hle := List.count_le_length (a := blank) (l := s)
  rw [runs_bind, runs_get, hplus, runs_int_bind (by omega) (by omega), runs_bind, runs_set,
    runs_int_bind (by omega) (by omega), toSize_natCast (by omega), runs_bind]
  refine (runs_loop (k := s.length) (Q := fun _ w => Moving s 0 0 w) (fun k (p : Int × Int) w =>
    p.1 = (k : Int) - 1 ∧ k ≤ s.length ∧ Moving s k p.2 w) ?_
    ⟨rfl, Nat.le_refl _, hv.moving⟩ hf).mono ?_
  · intro k p w hp
    obtain ⟨hi, hk, hw⟩ := hp
    rw [hi]
    cases k with
    | zero =>
      rw [if_neg (by omega), runs_pure]
      exact hw.finished.1 ▸ hw
    | succ k =>
      have hcast : ((k + 1 : Nat) : Int) - 1 = k := by omega
      rw [hcast, if_pos (by omega), runs_bind]
      refine (move_spec hw (by omega) hn).mono ?_
      intro q x hx
      rw [runs_int_bind (by omega) (by omega), runs_pure]
      exact ⟨k, by omega, rfl, by omega, hx⟩
  · intro _ w hw
    rw [runs_bind, runs_get, runs_pure, hw.size]
    exact ⟨hw.finished.2, hw.ready.safe⟩

theorem replaceSpace_expanded_sample :
    Runs (replaceSpace 4 [32, 97, 32]) ⟨[], 0, []⟩ fun r v =>
      r = expanded [32, 97, 32] ∧ Safe 3 r.length v.history :=
  replaceSpace_expanded ⟨[], 0, []⟩ [32, 97, 32] (by decide) (by decide) 4 (by decide)

/-- One character more than an `int` can index. -/
def long : List UInt8 := List.replicate 2147483648 97

/-- The first loop does not end. -/
theorem replaceSpace_long : ¬ ∃ (fuel : Nat) (u : State),
    Runs (replaceSpace fuel long) u fun r v =>
      r = expanded long ∧ Safe long.length r.length v.history := by
  intro h
  obtain ⟨fuel, u, h⟩ := h
  have hlength : long.length = 2147483648 := List.length_replicate
  rw [replaceSpace, runs_bind, runs_set, runs_bind] at h
  refine not_runs_countUp (fun v => v.s = long) ?_ ?_ rfl (by decide) h
  · intro v hv
    apply Runs.ensures
    rw [runs_bind, runs_get, runs_pure, hv, hlength]
    exact ⟨Int.le_refl _, rfl⟩
  · exact fun i v hv => ensures_countSpace hv

end LanguageTest.ReplaceSpace
