import LanguageTest.Library.Multiples
import LanguageTest.Library.Tables
import Mathlib.Data.Nat.Prime.Basic

namespace LanguageTest.UglyNumber

/-- The three indices. All the integers of this function are exact ones. -/
structure Cursors where
  c2 : Int
  c3 : Int
  c5 : Int

/-- The vector `dp`, beside the indices. -/
abbrev State := Vec Cursors Int

def minVal (a b c : Int) : Int := if a > b then min b c else min a c

/-- `a / b`. -/
def quotient (a b : Int) : Program State Int :=
  if b = 0 then fail .overflow else pure (a.tdiv b)

/-- `if (dp[i] / dp[c] == factor) c++`. -/
def advance (i c factor : Int) : Program State Int := do
  if (← quotient (← element i) (← element c)) = factor then pure (c + 1) else pure c

/-- The body of the loop. -/
def visit (i : Int) : Program State Unit := do
  let c := (← get).other
  assignElement i
    (minVal ((← element c.c2) * 2) ((← element c.c3) * 3) ((← element c.c5) * 5))
  let c2 ← advance i c.c2 2
  let c3 ← advance i c.c3 3
  let c5 ← advance i c.c5 5
  let s ← get
  set ({ s with other := ⟨c2, c3, c5⟩ } : State)

def nthUglyNumber (fuel : Nat) (n : Int) : Program State Int := do
  let dp ← resize (n + 1) 1 []
  set (⟨⟨0, 0, 0⟩, dp, []⟩ : State)
  loop (fun i : Int => do
    if i < n then
      visit i
      pure (.again (i + 1))
    else pure (.done ())) fuel 1
  element (n - 1)

/-- Only 2, 3 and 5 are prime factors. -/
def IsUgly (m : Nat) : Prop := 0 < m ∧ ∀ q, q.Prime → q ∣ m → q = 2 ∨ q = 3 ∨ q = 5

/-- The ugly number with this index, counted from 0. -/
noncomputable def ugly (k : Nat) : Nat := Nat.nth IsUgly k

/-- The first ugly numbers, up to the one with index `j`. -/
structure Entries (n j : Nat) (dp : List Int) : Prop where
  size : dp.length = n + 1
  entry : ∀ k ≤ j, dp[k]! = ugly k

/-- The cursors are behind the last ugly number. -/
structure Filled (n j : Nat) (t : State) : Prop where
  entries : Entries n j t.items
  cursors : ∃ a b c : Nat, t.other = ⟨a, b, c⟩ ∧ Cursor IsUgly 2 (ugly j) a ∧
    Cursor IsUgly 3 (ugly j) b ∧ Cursor IsUgly 5 (ugly j) c

theorem isUgly_mul {a m : Nat} (ha : a.Prime) (hsmall : a = 2 ∨ a = 3 ∨ a = 5) (hm : IsUgly m) :
    IsUgly (a * m) := by
  refine ⟨Nat.mul_pos ha.pos hm.1, fun q hq hdvd => ?_⟩
  rcases (Nat.Prime.dvd_mul hq).mp hdvd with hdvd | hdvd
  · exact (Nat.prime_dvd_prime_iff_eq hq ha).mp hdvd ▸ hsmall
  · exact hm.2 q hq hdvd

theorem generated_isUgly : Generated [2, 3, 5] IsUgly where
  one := ⟨Nat.one_pos, fun q hq hdvd => absurd (Nat.dvd_one.mp hdvd) hq.ne_one⟩
  pos m hm := hm.1
  factor_gt := by decide
  mul a ha m hm := by
    have hsmall : a = 2 ∨ a = 3 ∨ a = 5 := by simpa using ha
    rcases hsmall with rfl | rfl | rfl
    · exact isUgly_mul Nat.prime_two (Or.inl rfl) hm
    · exact isUgly_mul Nat.prime_three (Or.inr (Or.inl rfl)) hm
    · exact isUgly_mul Nat.prime_five (Or.inr (Or.inr rfl)) hm
  split m hm hne := by
    have hprime := Nat.minFac_prime hne
    obtain ⟨k, hk⟩ := m.minFac_dvd
    refine ⟨m.minFac, ?_, k, ⟨Nat.pos_of_ne_zero fun hzero => ?_, fun q hq hdvd => ?_⟩, hk⟩
    · have hsmall := hm.2 _ hprime m.minFac_dvd
      simpa using hsmall
    · have hpos := hm.1
      rw [hzero, Nat.mul_zero] at hk
      omega
    · refine hm.2 q hq ?_
      rw [hk]
      exact hdvd.mul_left _
  factors_ne := List.cons_ne_nil 2 [3, 5]

section
variable {n j k w a c factor fuel : Nat} {t : State}

theorem minVal_natCast (a b c : Nat) : minVal a b c = (min (min a b) c : Nat) := by
  unfold minVal
  split_ifs <;> omega

theorem ugly_pos (k : Nat) : 0 < ugly k := generated_isUgly.nth_pos k

/-- The next ugly number is the least multiple at a cursor. -/
theorem ugly_succ {c2 c3 c5 : Nat} (h2 : Cursor IsUgly 2 (ugly j) c2)
    (h3 : Cursor IsUgly 3 (ugly j) c3) (h5 : Cursor IsUgly 5 (ugly j) c5) :
    min (min (ugly c2 * 2) (ugly c3 * 3)) (ugly c5 * 5) = ugly (j + 1) := by
  have hle2 := generated_isUgly.nth_succ_le_cursor (by decide) h2
  have hle3 := generated_isUgly.nth_succ_le_cursor (by decide) h3
  have hle5 := generated_isUgly.nth_succ_le_cursor (by decide) h5
  have hone : ugly (j + 1) = 2 * ugly c2 ∨ ugly (j + 1) = 3 * ugly c3 ∨
      ugly (j + 1) = 5 * ugly c5 := by
    let cursor : Nat → Nat := fun a => if a = 2 then c2 else if a = 3 then c3 else c5
    have hcursor : ∀ a ∈ [2, 3, 5], Cursor IsUgly a (ugly j) (cursor a) := by
      simpa [cursor] using ⟨h2, h3, h5⟩
    obtain ⟨a, ha, heq⟩ := generated_isUgly.exists_nth_succ_eq hcursor
    have hsmall : a = 2 ∨ a = 3 ∨ a = 5 := by simpa using ha
    rcases hsmall with rfl | rfl | rfl
    · exact Or.inl heq
    · exact Or.inr (Or.inl heq)
    · exact Or.inr (Or.inr heq)
  unfold ugly at *
  omega

theorem runs_quotient {Q : Int → State → Prop} (hc : 0 < c) :
    Runs (quotient w c) t Q ↔ Q (w / c : Nat) t := by
  rw [quotient, if_neg (by omega), runs_pure]
  rfl

/-- The quotient is the factor exactly when the multiple at the cursor was reached. -/
theorem div_eq_iff (hc : 0 < c) (hle : w ≤ factor * c) : w / c = factor ↔ w = factor * c := by
  constructor
  · intro heq
    have hge := Nat.div_mul_le_self w c
    rw [heq] at hge
    exact Nat.le_antisymm hle hge
  · rintro rfl
    exact Nat.mul_div_cancel factor hc

/-- A cursor stays at the first index whose multiple exceeds the last value. -/
theorem advance_spec (he : Entries n (j + 1) t.items) (hj : j + 1 < n)
    (hfactor : factor ∈ [2, 3, 5]) (h : Cursor IsUgly factor (ugly j) c) :
    Runs (advance (j + 1 : Nat) c factor) t fun r u => Entries n (j + 1) u.items ∧
      ∃ d : Nat, r = d ∧ Cursor IsUgly factor (ugly (j + 1)) d := by
  have hsize := he.size
  have hc : c ≤ j := generated_isUgly.cursor_le hfactor h
  have hle : ugly (j + 1) ≤ factor * ugly c := generated_isUgly.nth_succ_le_cursor hfactor h
  have hlt : ugly j ≤ ugly (j + 1) := generated_isUgly.nth_le.mpr (Nat.le_succ j)
  have hnext : Cursor IsUgly factor (ugly (j + 1))
      (if ugly (j + 1) = factor * ugly c then c + 1 else c) :=
    generated_isUgly.cursor_next hfactor h hlt hle
  have hiff := div_eq_iff (ugly_pos c) hle
  rw [advance, runs_bind, runs_element (by omega), runs_bind,
    runs_element (by rw [Vec.touch_items]; omega), Vec.touch_items, he.entry _ le_rfl,
    he.entry c (by omega), runs_bind, runs_quotient (ugly_pos c)]
  by_cases hreached : ugly (j + 1) = factor * ugly c
  · rw [if_pos (by rw [hiff.mpr hreached]), runs_pure]
    rw [if_pos hreached] at hnext
    exact ⟨he, c + 1, by push_cast; rfl, hnext⟩
  · rw [if_neg (by rw [Int.natCast_inj, hiff]; exact hreached), runs_pure]
    rw [if_neg hreached] at hnext
    exact ⟨he, c, rfl, hnext⟩

theorem Entries.succ {dp : List Int} (h : Entries n j dp) (hj : j + 1 < n) :
    Entries n (j + 1) (dp.set (j + 1) (ugly (j + 1))) where
  size := List.length_set.trans h.size
  entry k hk := by
    have hsize := h.size
    rw [getElem!_set (by omega)]
    split_ifs with heq
    · rw [heq]
    · exact h.entry k (by omega)

theorem visit_spec (h : Filled n j t) (hj : j + 1 < n) :
    Runs (visit (j + 1 : Nat)) t fun _ u => Filled n (j + 1) u := by
  obtain ⟨c2, c3, c5, hother, h2, h3, h5⟩ := h.cursors
  have hsize := h.entries.size
  have hle2 := generated_isUgly.cursor_le (by decide) h2
  have hle3 := generated_isUgly.cursor_le (by decide) h3
  have hle5 := generated_isUgly.cursor_le (by decide) h5
  have hmin : minVal ((ugly c2 : Int) * 2) ((ugly c3 : Int) * 3) ((ugly c5 : Int) * 5) =
      ugly (j + 1) := by
    rw [← ugly_succ h2 h3 h5, ← minVal_natCast]
    push_cast
    rfl
  rw [visit, runs_bind, runs_get, hother, runs_bind, runs_element (by omega), runs_bind,
    runs_element (by rw [Vec.touch_items]; omega), runs_bind,
    runs_element (by rw [Vec.touch_items, Vec.touch_items]; omega), runs_bind,
    runs_assignElement (by rw [Vec.touch_items, Vec.touch_items, Vec.touch_items]; omega)]
  simp only [Vec.touch_items]
  rw [h.entries.entry c2 hle2, h.entries.entry c3 hle3, h.entries.entry c5 hle5, hmin]
  have hset := h.entries.succ hj
  rw [runs_bind]
  refine (advance_spec hset hj (by decide) h2).mono ?_
  rintro _ u ⟨hu, d2, rfl, hd2⟩
  rw [runs_bind]
  refine (advance_spec hu hj (by decide) h3).mono ?_
  rintro _ v ⟨hv, d3, rfl, hd3⟩
  rw [runs_bind]
  refine (advance_spec hv hj (by decide) h5).mono ?_
  rintro _ w ⟨hw, d5, rfl, hd5⟩
  rw [runs_bind, runs_get, runs_set]
  exact ⟨hw, d2, d3, d5, rfl, hd2, hd3, hd5⟩

theorem filled_start :
    Filled n 0 ⟨⟨0, 0, 0⟩, List.replicate (n + 1) 1, []⟩ where
  entries := by
    refine ⟨List.length_replicate, fun k hk => ?_⟩
    obtain rfl := Nat.le_zero.mp hk
    have hzero : ugly 0 = 1 := generated_isUgly.nth_zero
    rw [getElem!_replicate (Nat.succ_pos n), hzero]
    rfl
  cursors := ⟨0, 0, 0, rfl, generated_isUgly.cursor_start (by decide),
    generated_isUgly.cursor_start (by decide), generated_isUgly.cursor_start (by decide)⟩

/-- The entries that the program fills are the first ugly numbers. -/
theorem Entries.take {dp : List Int} (h : Entries n j dp) (hj : j < n) :
    dp.take (j + 1) = (List.range (j + 1)).map fun k => (ugly k : Int) := by
  have hsize := h.size
  refine List.ext_getElem (by simp; omega) fun k hk hk' => ?_
  rw [List.length_map, List.length_range] at hk'
  rw [List.getElem_map, List.getElem_range, List.getElem_take, ← h.entry k (by omega),
    getElem!_pos]

theorem Entries.pairwise {dp : List Int} (h : Entries n j dp) (hj : j < n) :
    (dp.take (j + 1)).Pairwise (· < ·) := by
  rw [h.take hj, List.pairwise_map]
  refine List.pairwise_lt_range.imp fun hab => ?_
  exact Int.ofNat_lt.mpr (generated_isUgly.nth_lt.mpr hab)

/-- No ugly number is missing, and none is there twice. -/
theorem Entries.count {dp : List Int} {m : Nat} (h : Entries n j dp) (hj : j < n)
    (hm : IsUgly m) (hle : m ≤ ugly j) : (dp.take (j + 1)).count (m : Int) = 1 := by
  obtain ⟨k, rfl⟩ := generated_isUgly.exists_nth hm
  have hk : k ≤ j := generated_isUgly.nth_le.mp hle
  refine List.count_eq_one_of_mem ?_ ?_
  · exact (h.pairwise hj).imp fun hab => hab.ne
  · rw [h.take hj]
    exact List.mem_map.mpr ⟨k, List.mem_range.mpr (by omega), rfl⟩

end

/-- The number with this place among the ugly ones, and all of them up to it in the vector. -/
theorem nthUglyNumber_nth (s : State) (n : Int) (hn : 1 ≤ n) (fuel : Nat) (hf : n.toNat < fuel) :
    Runs (nthUglyNumber fuel n) s fun r t => r = Nat.nth IsUgly (n.toNat - 1) ∧
      (t.items.take n.toNat).Pairwise (· < ·) ∧
      (∀ x ∈ t.items.take n.toNat, ∃ m, IsUgly m ∧ x = m) ∧
      ∀ m, IsUgly m → (m : Int) ≤ r → (t.items.take n.toNat).count (m : Int) = 1 := by
  obtain ⟨j, rfl⟩ : ∃ j : Nat, n = (j + 1 : Nat) := ⟨n.toNat - 1, by omega⟩
  rw [Int.toNat_natCast] at *
  have hcast : ((j + 1 : Nat) : Int) + 1 = (j + 2 : Nat) := by push_cast; rfl
  rw [nthUglyNumber, hcast, runs_bind, runs_resize_nil, runs_bind, runs_set, runs_bind]
  refine (runs_loop (k := j + 1) (Q := fun _ t => Filled (j + 1) j t)
    (fun k (i : Int) t => ∃ d : Nat, i = (d + 1 : Nat) ∧ d ≤ j ∧ k = j + 1 - d ∧
      Filled (j + 1) d t) ?_ ⟨0, rfl, Nat.zero_le j, rfl, filled_start⟩ hf).mono ?_
  · rintro k _ t ⟨d, rfl, hd, rfl, ht⟩
    by_cases hlt : d < j
    · rw [if_pos (by omega), runs_bind]
      refine (visit_spec ht (by omega)).mono fun _ u hu => ?_
      rw [runs_pure]
      exact ⟨j + 1 - (d + 1), by omega, d + 1, by push_cast; rfl, hlt, rfl, hu⟩
    · obtain rfl : d = j := by omega
      rw [if_neg (by omega), runs_pure]
      exact ht
  · intro _ t ht
    have hsize := ht.entries.size
    have hlast : ((j + 1 : Nat) : Int) - 1 = j := by push_cast; omega
    rw [hlast, runs_element (by omega), ht.entries.entry j le_rfl, Nat.add_sub_cancel]
    refine ⟨rfl, ht.entries.pairwise (Nat.lt_succ_self j), fun x hx => ?_, fun m hm hle => ?_⟩
    · rw [Vec.touch_items, ht.entries.take (Nat.lt_succ_self j)] at hx
      obtain ⟨k, -, rfl⟩ := List.mem_map.mp hx
      exact ⟨ugly k, generated_isUgly.nth_mem k, rfl⟩
    · exact ht.entries.count (Nat.lt_succ_self j) hm (Int.ofNat_le.mp hle)

theorem nthUglyNumber_nth_ten :
    Runs (nthUglyNumber 11 10) ⟨⟨0, 0, 0⟩, [], []⟩ fun r t =>
      r = Nat.nth IsUgly ((10 : Int).toNat - 1) ∧
      (t.items.take (10 : Int).toNat).Pairwise (· < ·) ∧
      (∀ x ∈ t.items.take (10 : Int).toNat, ∃ m, IsUgly m ∧ x = m) ∧
      ∀ m, IsUgly m → (m : Int) ≤ r → (t.items.take (10 : Int).toNat).count (m : Int) = 1 :=
  nthUglyNumber_nth ⟨⟨0, 0, 0⟩, [], []⟩ 10 (by decide) 11 (by decide)

end LanguageTest.UglyNumber
