import LanguageTest.Library.Carry
import LanguageTest.Library.Elements

namespace LanguageTest.AddBinary
open Nat

/-- The variables of the loop. -/
structure Vars where
  m : Int
  n : Int
  carry : Int
  res : List Char

section
variable {σ : Type}

/-- `(i >= 0) ? s[i--] - '0' : 0`, and the index after it. -/
def digitAt (s : List Char) (i : Int) : Program σ (Int × Int) := do
  if i ≥ 0 then
    let c ← itemAt s i
    pure ((c.toNat : Int) - '0'.toNat, i - 1)
  else pure (0, i)

/-- One pass of the loop. -/
def pass (a b : List Char) (v : Vars) : Program σ (Step Vars Vars) := do
  if v.m ≥ 0 ∨ v.n ≥ 0 then
    let (q, m) ← digitAt a v.m
    let (p, n) ← digitAt b v.n
    let k ← int (q + p + v.carry)
    pure (.again ⟨m, n, k.tdiv 2, (toString (k.tmod 2)).toList ++ v.res⟩)
  else pure (.done v)

def addBinary (fuel : Nat) (a b : List Char) : Program σ (List Char) := do
  let m := toInt (toSize ((a.length : Int) - 1))
  let n := toInt (toSize ((b.length : Int) - 1))
  let v ← loop (pass a b) fuel ⟨m, n, 0, []⟩
  if 1 = v.carry then pure ('1' :: v.res) else pure v.res

end

def IsBinary (s : List Char) : Prop := ∀ c ∈ s, c = '0' ∨ c = '1'

/-- The digits from the least significant one on. -/
def digits (s : List Char) : List Nat := (s.map fun c => c.toNat - '0'.toNat).reverse

def value (s : List Char) : Nat := ofDigits 2 (digits s)

/-- No superfluous leading zero. -/
def Minimal (s : List Char) : Prop := ∀ rest, s = '0' :: rest → rest = []

/-- The digits so far and the sum of those that are left are all digits of the sum. -/
structure Adding (a b : List Char) (i j : Nat) (v : Vars) : Prop where
  left : v.m = (i : Int) - 1 ∧ i ≤ a.length
  right : v.n = (j : Int) - 1 ∧ j ≤ b.length
  binary : IsBinary v.res
  sum : ∃ c : Nat, v.carry = c ∧ c ≤ 1 ∧
    digits v.res ++ ripple 2 c (digits (a.take i)) (digits (b.take j)) =
      ripple 2 0 (digits a) (digits b)

section
variable {σ : Type} {s : σ} {a b xs : List Char} {c : Char} {i j r fuel : Nat} {v : Vars}

theorem digits_cons : digits (c :: xs) = digits xs ++ [c.toNat - '0'.toNat] := by
  simp [digits]

theorem digits_take (hi : i < xs.length) :
    digits (xs.take (i + 1)) = (xs[i]!.toNat - '0'.toNat) :: digits (xs.take i) := by
  rw [take_succ_eq hi, digits, List.map_append, List.reverse_append]
  rfl

theorem IsBinary.digit_le (h : IsBinary xs) : ∀ d ∈ digits xs, d < 2 := by
  intro d hd
  obtain ⟨c, hc, rfl⟩ := List.mem_map.mp (List.mem_reverse.mp hd)
  rcases h c hc with rfl | rfl <;> decide

theorem IsBinary.take (h : IsBinary xs) : IsBinary (xs.take i) :=
  fun c hc => h c (List.mem_of_mem_take hc)

theorem digitAt_spec (h : IsBinary xs) (hi : i ≤ xs.length) :
    Runs (digitAt xs ((i : Int) - 1)) s fun r t => t = s ∧
      r = (((digits (xs.take i)).headD 0 : Int), ((i - 1 : Nat) : Int) - 1) ∧
      (digits (xs.take i)).tail = digits (xs.take (i - 1)) := by
  cases i with
  | zero =>
    rw [digitAt, if_neg (by omega), runs_pure, List.take_zero]
    exact ⟨rfl, rfl, rfl⟩
  | succ i =>
    have hcast : ((i + 1 : Nat) : Int) - 1 = i := by omega
    rw [digitAt, hcast, if_pos (by omega), runs_bind, runs_itemAt hi, runs_pure, digits_take hi]
    refine ⟨rfl, Prod.ext ?_ rfl, rfl⟩
    have hmem : xs[i]! ∈ xs := mem_iff_getElem!.mpr ⟨i, hi, rfl⟩
    rcases h _ hmem with hc | hc <;> rw [hc] <;> rfl

theorem toString_digit (hr : r < 2) :
    (toString (r : Int)).toList = [if r = 0 then '0' else '1'] := by
  obtain rfl | rfl : r = 0 ∨ r = 1 := by omega
  · decide
  · decide

theorem last_index (h : xs.length ≤ 2147483648) :
    toInt (toSize ((xs.length : Int) - 1)) = (xs.length : Int) - 1 := by
  unfold toInt toSize
  split <;> omega

theorem digits_digit (hr : r < 2) :
    digits ((if r = 0 then '0' else '1') :: xs) = digits xs ++ [r] := by
  rw [digits_cons]
  obtain rfl | rfl : r = 0 ∨ r = 1 := by omega
  · rfl
  · rfl

theorem digits_take_ne_nil (hi : i ≤ xs.length) (hpos : 0 < i) : digits (xs.take i) ≠ [] := by
  obtain ⟨k, rfl⟩ : ∃ k, i = k + 1 := ⟨i - 1, by omega⟩
  rw [digits_take hi]
  exact List.cons_ne_nil _ _

/-- A pass moves the next digit of the sum to the result. -/
theorem pass_spec (ha : IsBinary a) (hb : IsBinary b) (h : Adding a b i j v)
    (hleft : 0 < i ∨ 0 < j) :
    Runs (pass a b v) s fun r t => t = s ∧ ∃ v', r = .again v' ∧ Adding a b (i - 1) (j - 1) v' := by
  obtain ⟨⟨hm, hi⟩, ⟨hn, hj⟩, hres, c, hc, hcarry, hsum⟩ := h
  rw [pass, hm, hn, if_pos (by omega), runs_bind]
  refine (digitAt_spec ha hi).mono ?_
  rintro _ _ ⟨rfl, rfl, htaila⟩
  rw [runs_bind]
  refine (digitAt_spec hb hj).mono ?_
  rintro _ _ ⟨rfl, rfl, htailb⟩
  have hx := headD_lt Nat.two_pos (ha.take (i := i)).digit_le
  have hy := headD_lt Nat.two_pos (hb.take (i := j)).digit_le
  have hne : ¬ (digits (a.take i) = [] ∧ digits (b.take j) = []) := by
    rintro ⟨hnila, hnilb⟩
    rcases hleft with hpos | hpos
    · exact digits_take_ne_nil hi hpos hnila
    · exact digits_take_ne_nil hj hpos hnilb
  have hstep := ripple_step (b := 2) (c := c) hne
  rw [htaila, htailb] at hstep
  generalize (digits (a.take i)).headD 0 = x at hx hstep
  generalize (digits (b.take j)).headD 0 = y at hy hstep
  have hcast : (x : Int) + y + v.carry = (x + y + c : Nat) := by rw [hc]; push_cast; rfl
  have hdigit : (x + y + c) % 2 < 2 := Nat.mod_lt _ Nat.two_pos
  have htext : (toString (((x + y + c : Nat) : Int).tmod 2)).toList =
      [if (x + y + c) % 2 = 0 then '0' else '1'] := toString_digit hdigit
  dsimp only
  rw [hcast, runs_int_bind (by omega) (by omega), runs_pure, htext]
  refine ⟨rfl, _, rfl, ⟨rfl, by omega⟩, ⟨rfl, by omega⟩, ?_, (x + y + c) / 2, rfl, by omega, ?_⟩
  · refine List.forall_mem_cons.mpr ⟨?_, hres⟩
    split_ifs <;> decide
  · rw [← hsum, hstep, List.singleton_append, digits_digit hdigit, List.append_assoc,
      List.singleton_append]

/-- The result holds the digits of the sum. -/
theorem runs_addBinary (ha : IsBinary a) (hb : IsBinary b) (hla : a.length ≤ 2147483648)
    (hlb : b.length ≤ 2147483648) (hf : a.length + b.length < fuel) :
    Runs (addBinary fuel a b) s fun r t => t = s ∧ IsBinary r ∧
      digits r = ripple 2 0 (digits a) (digits b) := by
  rw [addBinary, last_index hla, last_index hlb, runs_bind]
  refine (runs_loop (k := a.length + b.length) (Q := fun v t => t = s ∧ Adding a b 0 0 v)
    (fun k v t => t = s ∧ ∃ i j, k = i + j ∧ Adding a b i j v) ?_
    ⟨rfl, a.length, b.length, rfl, ⟨rfl, le_rfl⟩, ⟨rfl, le_rfl⟩, by simp [IsBinary], 0, rfl,
      Nat.zero_le 1, ?_⟩ hf).mono ?_
  · rintro _ v _ ⟨rfl, i, j, rfl, hv⟩
    by_cases hpos : 0 < i ∨ 0 < j
    · refine (pass_spec ha hb hv hpos).mono ?_
      rintro _ _ ⟨rfl, v', rfl, hv'⟩
      exact ⟨i - 1 + (j - 1), by omega, rfl, i - 1, j - 1, rfl, hv'⟩
    · obtain ⟨rfl, rfl⟩ : i = 0 ∧ j = 0 := by omega
      rw [pass, hv.left.1, hv.right.1, if_neg (by omega), runs_pure]
      exact ⟨rfl, hv⟩
  · rw [List.take_length, List.take_length]
    rfl
  · rintro v _ ⟨rfl, -, -, hres, c, hc, hcarry, hsum⟩
    rw [List.take_zero, List.take_zero] at hsum
    have hrest : ripple 2 c (digits []) (digits []) = if c = 0 then [] else [c] := ripple_nil
    rw [hrest] at hsum
    obtain rfl | rfl : c = 0 ∨ c = 1 := by omega
    · rw [if_neg (by omega), runs_pure, ← hsum, if_pos rfl, List.append_nil]
      exact ⟨rfl, hres, rfl⟩
    · rw [if_pos (by omega), runs_pure, ← hsum, if_neg Nat.one_ne_zero]
      exact ⟨rfl, List.forall_mem_cons.mpr ⟨Or.inr rfl, hres⟩, digits_cons⟩

theorem Minimal.canonical (h : Minimal xs) (hxs : IsBinary xs) : Canonical (digits xs) := by
  intro rest hrest
  cases xs with
  | nil => exact absurd hrest.symm (List.append_ne_nil_of_right_ne_nil rest (List.cons_ne_nil 0 []))
  | cons c xs =>
    rw [digits_cons] at hrest
    obtain ⟨rfl, hzero⟩ := List.append_inj' hrest rfl
    rcases hxs c List.mem_cons_self with rfl | rfl
    · rw [h xs rfl]
      rfl
    · exact absurd hzero (by decide)

theorem minimal_of_canonical (h : Canonical (digits xs)) : Minimal xs := by
  rintro rest rfl
  have hnil := h (digits rest) digits_cons
  simpa [digits] using hnil

end

/-- The binary sum, without a superfluous leading zero when the summands have none. -/
theorem addBinary_sum {σ : Type} (s : σ) (a b : List Char) (ha : IsBinary a) (hb : IsBinary b)
    (hla : a.length ≤ 2147483648) (hlb : b.length ≤ 2147483648) (fuel : Nat)
    (hf : a.length + b.length < fuel) :
    Runs (addBinary fuel a b) s fun r t => t = s ∧ IsBinary r ∧ value r = value a + value b ∧
      (Minimal a → Minimal b → Minimal r) := by
  refine (runs_addBinary ha hb hla hlb hf).mono ?_
  rintro r _ ⟨rfl, hr, hdigits⟩
  refine ⟨rfl, hr, ?_, fun hma hmb => minimal_of_canonical ?_⟩
  · rw [value, hdigits, ofDigits_ripple, Nat.add_zero]
    rfl
  · rw [hdigits]
    exact canonical_ripple Nat.one_lt_two ha.digit_le hb.digit_le (hma.canonical ha)
      (hmb.canonical hb)

theorem addBinary_sum_sample :
    Runs (addBinary 6 ['1', '1'] ['1', '0', '1']) () fun r t => t = () ∧ IsBinary r ∧
      value r = value ['1', '1'] + value ['1', '0', '1'] ∧
      (Minimal ['1', '1'] → Minimal ['1', '0', '1'] → Minimal r) :=
  addBinary_sum () ['1', '1'] ['1', '0', '1'] (by simp [IsBinary]) (by simp [IsBinary])
    (by decide) (by decide) 6 (by decide)

/-- More ones than an `int` can index. -/
def ones : List Char := '1' :: List.replicate 2147483648 '1'

section
variable {σ : Type} {s : σ} {xs : List Char} {fuel : Nat}

theorem value_one_cons : 0 < value ('1' :: xs) := by
  have hlast : ofDigits 2 (digits xs ++ [1]) =
      ofDigits 2 (digits xs) + 2 ^ (digits xs).length * 1 := by
    rw [ofDigits_append, ofDigits_singleton]
  have hpos : 0 < 2 ^ (digits xs).length := Nat.two_pow_pos _
  have hcons : digits ('1' :: xs) = digits xs ++ [1] := digits_cons
  rw [value, hcons, hlast]
  omega

/-- The last index becomes the least `int`, and no digit of the string is read. -/
theorem addBinary_of_length (hlength : xs.length = 2147483649) :
    Runs (addBinary (fuel + 2) xs ['0']) s fun r _ => r = ['0'] := by
  have hlast : toInt (toSize ((xs.length : Int) - 1)) = -2147483648 := by
    rw [hlength]
    decide
  have hzero : toInt (toSize ((['0'].length : Int) - 1)) = 0 := by decide
  have hfirst : pass xs ['0'] ⟨-2147483648, 0, 0, []⟩ s =
      .ok (.again ⟨-2147483648, -1, 0, ['0']⟩, s) := rfl
  have hsecond : pass xs ['0'] ⟨-2147483648, -1, 0, ['0']⟩ s =
      .ok (.done ⟨-2147483648, -1, 0, ['0']⟩, s) := rfl
  rw [addBinary, hlast, hzero, runs_bind, loop, runs_bind, runs_of_ok hfirst]
  dsimp only
  rw [loop, runs_bind, runs_of_ok hsecond]
  exact runs_pure.mpr (runs_pure.mpr rfl)

end

theorem addBinary_ones : IsBinary ones ∧ ∀ fuel,
    Runs (addBinary (fuel + 2) ones ['0']) () fun r _ => value r ≠ value ones + value ['0'] := by
  have hlength : ones.length = 2147483649 := by rw [ones, List.length_cons, List.length_replicate]
  constructor
  · intro c hc
    refine Or.inr ((List.mem_cons.mp hc).elim id ?_)
    exact fun hmem => List.eq_of_mem_replicate hmem
  · intro fuel
    refine (addBinary_of_length hlength).mono fun r _ hr => ?_
    have hpos : 0 < value ones := value_one_cons
    rw [hr]
    omega

end LanguageTest.AddBinary
