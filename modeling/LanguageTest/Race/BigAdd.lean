import LanguageTest.Library.Counting
import LanguageTest.Library.Positional

namespace LanguageTest.BigAdd

/-- The string `maxx`. A string is the list of the codes of its characters, 48 for `'0'`. -/
abbrev State := Vec Unit Int

/-- The numbers that a `char` holds. -/
def IsChar (v : Int) : Prop := -128 ≤ v ∧ v < 128

instance (v : Int) : Decidable (IsChar v) := inferInstanceAs (Decidable (_ ∧ _))

/-- The value that a `char` is assigned. One beyond the range would be stored as another. -/
def char (v : Int) : Program State Int := if IsChar v then pure v else fail .overflow

/-- `minn[i]`. -/
def character (minn : List Int) (i : Int) : Program State Int :=
  if i < 0 then fail .outOfRange
  else
    match minn[i.toNat]? with
    | none => fail .outOfRange
    | some v => pure v

/-- `+=`, `-=` or `++` on `maxx[i]`. -/
def update (i : Int) (f : Int → Int) : Program State Unit := do
  assignElement i (← char (f (← element i)))

/-- The loop that adds the digits of `minn`, from the last one on, and no carry. -/
def addDigits (fuel : Nat) (minn : List Int) (a b : Int) : Program State Unit :=
  loop (fun v : Int × Int => do
    let (a, i) := v
    if i ≥ 0 then
      let d := (← character minn i) - 48
      update a (· + d)
      pure (.again (a - 1, i - 1))
    else pure (.done ())) fuel (a, b)

def carry (i : Int) : Program State Unit := do
  if (← element i) > 57 then
    update i (· - 10)
    update (i - 1) (· + 1)

/-- What `bigAdd` does with the longer string and the other one. -/
def addTo (fuel : Nat) (maxx minn : List Int) : Program State (List Int) := do
  set (⟨(), maxx, []⟩ : State)
  addDigits fuel minn (toInt (maxx.length - 1)) (toInt (minn.length - 1))
  -- `for (int i = maxx.length() - 1; i > 0; --i)`
  countDown fuel (toInt ((← size) - 1)) 1 1 carry
  if (← element 0) > 57 then
    update 0 (· - 10)
    pure (49 :: (← get).items)
  else pure (← get).items

def bigAdd (fuel : Nat) (s1 s2 : List Int) : Program State (List Int) :=
  if s1 = [] ∧ s2 = [] then pure [48]
  else if s1 = [] then pure s2
  else if s2 = [] then pure s1
  else if s1.length < s2.length then addTo fuel s2 s1
  else addTo fuel s1 s2

def IsDigit (v : Int) : Prop := 48 ≤ v ∧ v ≤ 57

instance (v : Int) : Decidable (IsDigit v) := inferInstanceAs (Decidable (_ ∧ _))

/-- The decimal value. The empty string has the value 0. -/
def value (xs : List Int) : Int := positional 10 (xs.map (· - 48))

section
variable {s : State} {xs minn : List Int} {fuel i n p : Nat} {v d : Int}

theorem runs_char {Q : Int → State → Prop} (h : IsChar v) : Runs (char v) s Q ↔ Q v s := by
  rw [char, if_pos h, runs_pure]

theorem runs_character {Q : Int → State → Prop} (hi : i < minn.length) :
    Runs (character minn i) s Q ↔ Q minn[i]! s := by
  have hnonneg : ¬ ((i : Int) < 0) := by omega
  rw [character, if_neg hnonneg, Int.toNat_natCast, getElem!_of_lt hi]
  exact runs_pure

theorem runs_update {f : Int → Int} {Q : Unit → State → Prop} (hi : i < s.items.length)
    (h : IsChar (f s.items[i]!)) :
    Runs (update i f) s Q ↔
      Q () { (s.touch i).touch i with items := s.items.set i (f s.items[i]!) } := by
  rw [update, runs_bind, runs_element hi, runs_bind, runs_char h]
  exact runs_assignElement (s := s.touch i) hi

theorem value_cons : value (v :: xs) = (v - 48) * 10 ^ xs.length + value xs := by
  rw [value, List.map_cons, positional_cons, List.length_map]
  rfl

theorem getElem!_map (hi : i < xs.length) : (xs.map (· - 48))[i]! = xs[i]! - 48 := by
  rw [getElem!_pos _ i (by rwa [List.length_map]), getElem!_pos xs i hi, List.getElem_map]

theorem value_drop (hi : i < xs.length) :
    value (xs.drop i) = (xs[i]! - 48) * 10 ^ (xs.length - 1 - i) + value (xs.drop (i + 1)) := by
  rw [drop_eq_cons hi, value_cons, List.length_drop, Nat.sub_sub, Nat.add_comm 1 i]

theorem value_set (hi : i < xs.length) :
    value (xs.set i (xs[i]! + d)) = value xs + d * 10 ^ (xs.length - 1 - i) := by
  have hd : xs[i]! + d - 48 = (xs.map (· - 48))[i]! + d := by
    rw [getElem!_map hi]
    omega
  rw [value, List.map_set, hd, positional_set (by rwa [List.length_map]), List.length_map, value]

/-- The last `k` digits of `minn` are added to those of `maxx`. -/
structure Adding (maxx minn : List Int) (k : Nat) (xs : List Int) : Prop where
  size : xs.length = maxx.length
  digits : ∀ q < xs.length, 48 ≤ xs[q]! ∧ xs[q]! ≤ 66
  front : ∀ q, q + k < xs.length → xs[q]! ≤ 57
  sum : value xs = value maxx + value (minn.drop (minn.length - k))

theorem Adding.start {maxx : List Int} (h : ∀ v ∈ maxx, IsDigit v) : Adding maxx minn 0 maxx := by
  have hrange (q : Nat) (hq : q < maxx.length) : IsDigit maxx[q]! :=
    h _ (mem_iff_getElem!.mpr ⟨q, hq, rfl⟩)
  refine ⟨rfl, fun q hq => ⟨(hrange q hq).1, (hrange q hq).2.trans (by decide)⟩,
    fun q hq => (hrange q hq).2, ?_⟩
  rw [Nat.sub_zero, List.drop_length]
  exact (add_zero _).symm

theorem Adding.step {maxx : List Int} {k j : Nat} (h : Adding maxx minn k xs)
    (hminn : ∀ v ∈ minn, IsDigit v) (hp : p + k + 1 = xs.length) (hj : j + k + 1 = minn.length) :
    IsChar (xs[p]! + (minn[j]! - 48)) ∧
      Adding maxx minn (k + 1) (xs.set p (xs[p]! + (minn[j]! - 48))) := by
  have hpx : p < xs.length := by omega
  have hjx : j < minn.length := by omega
  have hdigit : IsDigit minn[j]! := hminn _ (mem_iff_getElem!.mpr ⟨j, hjx, rfl⟩)
  have hlow := (h.digits p hpx).1
  have hfront := h.front p (by omega)
  obtain ⟨hd, hd'⟩ := hdigit
  refine ⟨⟨by omega, by omega⟩, ⟨by rw [List.length_set, h.size], ?_, ?_, ?_⟩⟩
  · intro q hq
    rw [List.length_set] at hq
    rw [getElem!_set hpx]
    split_ifs
    · omega
    · exact h.digits q hq
  · intro q hq
    rw [List.length_set] at hq
    rw [getElem!_set hpx, if_neg (by omega)]
    exact h.front q (by omega)
  · have hplace : xs.length - 1 - p = minn.length - 1 - j := by omega
    have hlast : minn.length - (k + 1) = j := by omega
    have hrest : minn.length - k = j + 1 := by omega
    rw [value_set hpx, h.sum, hrest, hlast, value_drop hjx, hplace]
    ring

theorem runs_addDigits {maxx : List Int} (hmaxx : ∀ v ∈ maxx, IsDigit v)
    (hminn : ∀ v ∈ minn, IsDigit v) (hle : minn.length ≤ maxx.length) (hs : s.items = maxx)
    (hf : minn.length < fuel) :
    Runs (addDigits fuel minn (maxx.length - 1) (minn.length - 1)) s fun _ t =>
      Adding maxx minn minn.length t.items := by
  refine runs_loop (fun m (v : Int × Int) (t : State) => ∃ k, k + m = minn.length ∧
    v = ((maxx.length : Int) - 1 - k, (minn.length : Int) - 1 - k) ∧
      Adding maxx minn k t.items) ?_ ⟨0, Nat.zero_add _, by simp,
      hs.symm ▸ Adding.start hmaxx⟩ hf
  rintro m _ t ⟨k, hk, rfl, ht⟩
  dsimp only
  have hsize := ht.size
  rcases m with _ | j
  · have hend : k = minn.length := by omega
    rw [if_neg (by omega), runs_pure]
    exact hend ▸ ht
  · obtain ⟨p, hp⟩ : ∃ p, p + k + 1 = t.items.length := ⟨t.items.length - (k + 1), by omega⟩
    have ha : (maxx.length : Int) - 1 - k = p := by omega
    have hi : (minn.length : Int) - 1 - k = j := by omega
    obtain ⟨hchar, hnext⟩ := ht.step (j := j) hminn hp (by omega)
    have hpx : p < t.items.length := by omega
    have hjx : j < minn.length := by omega
    rw [if_pos (by omega), ha, hi, runs_bind, runs_character hjx, runs_bind,
      runs_update hpx hchar, runs_pure]
    exact ⟨j, Nat.lt_succ_self j, k + 1, by omega, by push_cast; congr 1 <;> omega, hnext⟩

/-- The carry is out of the places from `p` on, and at most 1 came to the one before. -/
structure Carrying (n : Nat) (total : Int) (p : Nat) (xs : List Int) : Prop where
  size : xs.length = n
  low : ∀ q < xs.length, 48 ≤ xs[q]!
  before : ∀ q, q + 1 < p → q < xs.length → xs[q]! ≤ 66
  next : ∀ q, q + 1 = p → xs[q]! ≤ 67
  done : ∀ q, p ≤ q → q < xs.length → xs[q]! ≤ 57
  sum : value xs = total

/-- What the pass for the place after `i` leaves. -/
def carried (xs : List Int) (i : Nat) : List Int :=
  if xs[i + 1]! > 57 then
    let ys := xs.set (i + 1) (xs[i + 1]! - 10)
    ys.set i (ys[i]! + 1)
  else xs

theorem value_carried (hi : i + 1 < xs.length) : value (carried xs i) = value xs := by
  unfold carried
  split_ifs
  · have hplace : xs.length - 1 - i = xs.length - 1 - (i + 1) + 1 := by omega
    have hi' : i < (xs.set (i + 1) (xs[i + 1]! - 10)).length := by
      rw [List.length_set]
      omega
    rw [value_set hi', List.length_set, Int.sub_eq_add_neg, value_set hi, hplace]
    ring
  · rfl

theorem getElem!_carried {q : Nat} (hi : i + 1 < xs.length) (hlarge : xs[i + 1]! > 57) :
    (carried xs i)[q]! =
      if q = i then xs[i]! + 1 else if q = i + 1 then xs[i + 1]! - 10 else xs[q]! := by
  have hi' : i < (xs.set (i + 1) (xs[i + 1]! - 10)).length := by
    rw [List.length_set]
    omega
  rw [carried, if_pos hlarge, getElem!_set hi', getElem!_set hi, getElem!_set hi,
    if_neg (Nat.ne_of_lt (Nat.lt_succ_self i))]

@[simp] theorem length_carried : (carried xs i).length = xs.length := by
  unfold carried
  split_ifs <;> simp

theorem Carrying.step {total : Int} (h : Carrying n total (i + 2) xs) (hi : i + 1 < xs.length) :
    Carrying n total (i + 1) (carried xs i) := by
  have hlow := h.low (i + 1) hi
  have hnext := h.next (i + 1) rfl
  have hlow' := h.low i (by omega)
  have hbefore := h.before i (by omega) (by omega)
  have hsum : value (carried xs i) = total := (value_carried hi).trans h.sum
  by_cases hlarge : xs[i + 1]! > 57
  · refine ⟨length_carried.trans h.size, ?_, ?_, ?_, ?_, hsum⟩
    · intro q hq
      rw [length_carried] at hq
      have hq' := h.low q hq
      rw [getElem!_carried hi hlarge]
      split_ifs <;> omega
    · intro q hqi hq
      rw [length_carried] at hq
      rw [getElem!_carried hi hlarge, if_neg (by omega), if_neg (by omega)]
      exact h.before q (by omega) hq
    · intro q hq
      have hqi : q = i := by omega
      rw [getElem!_carried hi hlarge, if_pos hqi]
      omega
    · intro q hiq hq
      rw [length_carried] at hq
      rw [getElem!_carried hi hlarge, if_neg (by omega)]
      split_ifs
      · omega
      · exact h.done q (by omega) hq
  · have hsame : carried xs i = xs := if_neg hlarge
    rw [hsame] at hsum ⊢
    refine ⟨h.size, h.low, fun q hqi hq => h.before q (by omega) hq, ?_, ?_, hsum⟩
    · intro q hq
      have hqi : q = i := by omega
      rw [hqi]
      omega
    · intro q hiq hq
      rcases Nat.eq_or_lt_of_le hiq with rfl | hlt
      · exact Int.not_lt.mp hlarge
      · exact h.done q hlt hq

/-- The last place has had no carry yet. -/
theorem Carrying.start {maxx : List Int} {k : Nat} (h : Adding maxx minn k xs) :
    Carrying xs.length (value xs) xs.length xs := by
  refine ⟨rfl, fun q hq => (h.digits q hq).1, fun q _ hq => (h.digits q hq).2, ?_, ?_, rfl⟩
  · intro q hq
    exact (h.digits q (by omega)).2.trans (by decide)
  · intro q hn hq
    omega

theorem runs_carry {total : Int} (h : Carrying n total (i + 2) s.items)
    (hi : i + 1 < s.items.length) :
    Runs (carry (i + 1 : Nat)) s fun _ t => Carrying n total (i + 1) t.items := by
  have hlow := h.low (i + 1) hi
  have hnext := h.next (i + 1) rfl
  have hlow' := h.low i (by omega)
  have hbefore := h.before i (by omega) (by omega)
  have hprevious : ((i + 1 : Nat) : Int) - 1 = i := by omega
  have hstep := h.step hi
  rw [carry, runs_bind, runs_element hi]
  unfold carried at hstep
  split_ifs at hstep ⊢ with hlarge
  · have hten : IsChar (s.items[i + 1]! - 10) := ⟨by omega, by omega⟩
    have hone : IsChar ((s.items.set (i + 1) (s.items[i + 1]! - 10))[i]! + 1) := by
      rw [getElem!_set hi, if_neg (Nat.ne_of_lt (Nat.lt_succ_self i))]
      exact ⟨by omega, by omega⟩
    rw [runs_bind, runs_update (s := s.touch (i + 1 : Nat)) hi hten, hprevious]
    refine (runs_update ?_ hone).mpr hstep
    rw [List.length_set]
    exact Nat.lt_of_succ_lt hi
  · exact runs_pure.mpr hstep

theorem runs_carries {maxx : List Int} {k : Nat} (h : Adding maxx minn k s.items)
    (hf : s.items.length < fuel) :
    Runs (countDown fuel (s.items.length - 1) 1 1 carry) s fun _ t =>
      ∃ p < 2, Carrying s.items.length (value s.items) p t.items := by
  refine runs_countDown (l := 1) (g := 1) Nat.one_pos
    (fun p (t : State) => Carrying s.items.length (value s.items) p t.items) ?_
    (Carrying.start h) hf
  intro p hp hps t ht
  obtain ⟨i, rfl⟩ : ∃ i, p = i + 2 := ⟨p - 2, by omega⟩
  exact runs_carry ht (by rw [ht.size]; omega)

/-- A result is a string of digits for the sum. -/
def IsSum (total : Int) (xs : List Int) : Prop :=
  xs ≠ [] ∧ (∀ v ∈ xs, IsDigit v) ∧ value xs = total

theorem Carrying.isSum {total : Int} (h : Carrying n total p xs) (hp : p < 2) (hn : 0 < n)
    (hzero : xs[0]! ≤ 57) : IsSum total xs := by
  have hsize := h.size
  refine ⟨List.ne_nil_of_length_pos (by omega), fun v hv => ?_, h.sum⟩
  obtain ⟨q, hq, rfl⟩ := mem_iff_getElem!.mp hv
  refine ⟨h.low q hq, ?_⟩
  rcases Nat.eq_zero_or_pos q with rfl | hpos
  · exact hzero
  · exact h.done q (by omega) hq

theorem Carrying.first_le {total : Int} (h : Carrying n total p xs) (hp : p < 2) (hn : 0 < n) :
    xs[0]! ≤ 67 := by
  have hsize := h.size
  rcases Nat.lt_or_ge 0 p with hpos | hnone
  · exact h.next 0 (by omega)
  · exact (h.done 0 hnone (by omega)).trans (by decide)

/-- The carry out of the first place becomes a digit before it. -/
theorem Carrying.isSum_cons {total : Int} (h : Carrying n total p xs) (hp : p < 2) (hn : 0 < n)
    (hzero : xs[0]! > 57) : IsSum total (49 :: xs.set 0 (xs[0]! - 10)) := by
  have hsize := h.size
  have hx : 0 < xs.length := by omega
  have hle := h.first_le hp hn
  refine ⟨List.cons_ne_nil _ _, ?_, ?_⟩
  · intro v hv
    rcases List.mem_cons.mp hv with rfl | hv
    · exact ⟨by decide, by decide⟩
    · obtain ⟨q, hq, rfl⟩ := mem_iff_getElem!.mp hv
      rw [List.length_set] at hq
      have hlow := h.low q hq
      rw [getElem!_set hx]
      split_ifs with hq0
      · exact ⟨by omega, by omega⟩
      · exact ⟨hlow, h.done q (by omega) hq⟩
  · obtain ⟨m, hm⟩ : ∃ m, xs.length = m + 1 := ⟨xs.length - 1, by omega⟩
    have hplace : xs.length - 1 - 0 = m := by omega
    have hten : value (xs.set 0 (xs[0]! - 10)) = total + -10 * 10 ^ m := by
      rw [Int.sub_eq_add_neg, value_set hx, h.sum, hplace]
    rw [value_cons, List.length_set, hten, hm]
    ring

theorem toInt_last (hn : 0 < n) (hn' : n ≤ 2147483648) : toInt (n - 1) = (n : Int) - 1 := by
  rw [toInt_of_lt (by omega)]
  omega

theorem runs_addTo {maxx : List Int} (hmaxx : ∀ v ∈ maxx, IsDigit v)
    (hminn : ∀ v ∈ minn, IsDigit v) (hle : minn.length ≤ maxx.length) (hne : minn ≠ [])
    (hsize : maxx.length ≤ 2147483648) (hf : maxx.length < fuel) :
    Runs (addTo fuel maxx minn) s fun r _ => IsSum (value maxx + value minn) r := by
  have hpos : 0 < minn.length := List.length_pos_iff.mpr hne
  rw [addTo, runs_bind, runs_set, runs_bind, toInt_last (by omega) hsize,
    toInt_last hpos (by omega)]
  refine (runs_addDigits hmaxx hminn hle rfl (by omega)).mono ?_
  intro _ t ht
  have htsize := ht.size
  have hsum := ht.sum
  rw [Nat.sub_self, List.drop_zero] at hsum
  rw [runs_bind, runs_size, runs_bind, toInt_last (by omega) (by omega)]
  refine (runs_carries ht (by omega)).mono ?_
  rintro _ u ⟨p, hp, hu⟩
  have husize := hu.size
  have hu0 : 0 < u.items.length := by omega
  have hzero := hu.low 0 hu0
  rw [hsum] at hu
  rw [runs_bind]
  refine (runs_element (i := 0) hu0).mpr ?_
  split_ifs with hlarge
  · have hle := hu.first_le hp (by omega)
    have hchar : IsChar (u.items[0]! - 10) := ⟨by omega, by omega⟩
    rw [runs_bind]
    refine (runs_update (i := 0) (s := u.touch 0) hu0 hchar).mpr ?_
    rw [runs_bind, runs_get, runs_pure]
    exact hu.isSum_cons hp (by omega) hlarge
  · rw [runs_bind, runs_get, runs_pure]
    exact hu.isSum hp (by omega) (Int.not_lt.mp hlarge)

/-- No character has a negative index. -/
theorem fails_update {i : Int} {f : Int → Int} (h : i < 0) :
    Fails (update i f) s .outOfRange := by
  refine Fails.bind (Runs.fails (runs_get.mpr ?_))
  rw [if_pos h]
  exact fails_fail

theorem isSum_of_digits (h : ∀ v ∈ xs, IsDigit v) (hne : xs ≠ []) : IsSum (value xs) xs :=
  ⟨hne, h, rfl⟩

theorem runs_bigAdd {s1 s2 : List Int} (h1 : ∀ v ∈ s1, IsDigit v) (h2 : ∀ v ∈ s2, IsDigit v)
    (hl1 : s1.length ≤ 2147483648) (hl2 : s2.length ≤ 2147483648) (hf1 : s1.length < fuel)
    (hf2 : s2.length < fuel) :
    Runs (bigAdd fuel s1 s2) s fun r _ => IsSum (value s1 + value s2) r := by
  have hnil : value [] = 0 := rfl
  unfold bigAdd
  split_ifs with hboth hs1 hs2 hlt
  · rw [runs_pure, hboth.1, hboth.2]
    exact ⟨by decide, by decide, by decide⟩
  · rw [runs_pure, hs1, hnil, zero_add]
    exact isSum_of_digits h2 fun hs2 => hboth ⟨hs1, hs2⟩
  · rw [runs_pure, hs2, hnil, add_zero]
    exact isSum_of_digits h1 hs1
  · rw [add_comm]
    exact runs_addTo h2 h1 hlt.le hs1 hl2 hf2
  · exact runs_addTo h1 h2 (Nat.not_lt.mp hlt) hs2 hl1 hf1

end

/-- The result is the sum in digits, and the other order of the strings gives the same value.
Every character that is stored on the way is in the range. -/
theorem bigAdd_sum (s : State) (s1 s2 : List Int) (h1 : ∀ v ∈ s1, IsDigit v)
    (h2 : ∀ v ∈ s2, IsDigit v) (hl1 : s1.length ≤ 2147483648) (hl2 : s2.length ≤ 2147483648)
    (fuel : Nat) (hf1 : s1.length < fuel) (hf2 : s2.length < fuel) :
    Runs (bigAdd fuel s1 s2) s fun r _ =>
      r ≠ [] ∧ (∀ v ∈ r, IsDigit v) ∧ value r = value s1 + value s2 ∧
        Runs (bigAdd fuel s2 s1) s fun q _ => value q = value r := by
  refine (runs_bigAdd h1 h2 hl1 hl2 hf1 hf2).mono ?_
  rintro r _ ⟨hne, hdigits, hvalue⟩
  refine ⟨hne, hdigits, hvalue, (runs_bigAdd h2 h1 hl2 hl1 hf2 hf1).mono ?_⟩
  rintro q _ ⟨-, -, hq⟩
  rw [hq, hvalue, add_comm]

/-- `"975"` and `"48"`. -/
theorem bigAdd_sum_sample :
    Runs (bigAdd 4 [57, 55, 53] [52, 56]) ⟨(), [], []⟩ fun r _ =>
      r ≠ [] ∧ (∀ v ∈ r, IsDigit v) ∧ value r = value [57, 55, 53] + value [52, 56] ∧
        Runs (bigAdd 4 [52, 56] [57, 55, 53]) ⟨(), [], []⟩ fun q _ => value q = value r :=
  bigAdd_sum ⟨(), [], []⟩ [57, 55, 53] [52, 56] (by decide) (by decide) (by decide) (by decide) 4
    (by decide) (by decide)

/-- One zero more than an `int` can index. -/
def zeros : List Int := List.replicate 2147483649 48

/-- The last index of the zeros is negative as an `int`, and it is written to. -/
theorem bigAdd_zeros : (∀ v ∈ zeros, IsDigit v) ∧ (∀ v ∈ [(49 : Int)], IsDigit v) ∧
    ∀ (fuel : Nat) (s : State), ¬ Runs (bigAdd fuel zeros [49]) s fun r _ =>
      value r = value zeros + value [49] := by
  have hlength : zeros.length = 2147483649 := List.length_replicate ..
  have hne : zeros ≠ [] := List.ne_nil_of_length_pos (by omega)
  refine ⟨fun v hv => ?_, by decide, fun fuel s h => ?_⟩
  · rw [List.eq_of_mem_replicate hv]
    decide
  · have hlast : toInt (zeros.length - 1) = -2147483648 := by
      rw [hlength]
      decide
    rw [bigAdd, if_neg (by simp), if_neg hne, if_neg (by decide), if_neg (by rw [hlength]; decide),
      addTo, runs_bind, runs_set, hlast, runs_bind] at h
    cases fuel with
    | zero => exact h.not_fails fails_fail
    | succ fuel =>
      -- the first digit of the short string goes to the negative index
      refine h.not_fails (Fails.bind (f := .outOfRange) ?_)
      exact Runs.fails ((runs_character (i := 0) (by decide)).mpr (fails_update (by decide)).bind)

end LanguageTest.BigAdd
