import LanguageTest.Library.Counting
import LanguageTest.Library.LeastFactor

namespace LanguageTest.Primes
open LeastFactor

variable {σ : Type}

def isPrime (fuel : Nat) (val : Int) : Program σ Bool :=
  if val ≤ 1 then pure false
  else
    loop (fun t : Int => do
      if (← int (t * t)) < val then
        if (← rem val t) = 0 then pure (.done false) else pure (.again (← int (t + 1)))
      else pure (.done true)) fuel 2

/-- What `get_primes` has found, and which elements of `check` it has marked, in which step. -/
structure Found where
  primes : List Int
  marked : List (Int × Int)

/-- The vector `check`, beside what was found. -/
abbrev State := Vec Found Int

def setFound (f : Found → Found) : Program State Unit := do
  let s ← get
  set { s with other := f s.other }

/-- `primes[j]`. -/
def primeAt (j : Int) : Program State Int := do
  match (← get).other.primes[toSize j]? with
  | none => fail .outOfRange
  | some p => pure p

/-- `check[product] = 1` in the step for `i`. -/
def mark (i product : Int) : Program State Unit := do
  assignElement product 1
  setFound fun f => { f with marked := f.marked ++ [(i, product)] }

/-- The inner loop. -/
def markProducts (fuel : Nat) (maxV i : Int) : Program State Unit :=
  loop (fun j : Int => do
    if toSize j < (← get).other.primes.length then
      if (← int ((← primeAt j) * i)) > maxV then pure (.done ())
      else
        mark i (← int ((← primeAt j) * i))
        if (← rem i (← primeAt j)) = 0 then pure (.done ()) else pure (.again (← int (j + 1)))
    else pure (.done ())) fuel 0

def checkNumber (fuel : Nat) (maxV i : Int) : Program State Unit := do
  if (← element i) = 0 then setFound fun f => { f with primes := f.primes ++ [i] }
  markProducts fuel maxV i

/-- The bound of the outer loop is `i <= maxV`. -/
def getPrimes (fuel : Nat) (maxV : Int) : Program State Unit := do
  set (⟨⟨[], []⟩, List.replicate (toSize (← int (maxV + 1))) 0, []⟩ : State)
  assignElement 1 1
  assignElement 0 1
  countUp fuel 2 (pure (maxV + 1)) (checkNumber fuel maxV)

theorem natCast_mod_eq_zero {n d : Nat} : ((n % d : Nat) : Int) = 0 ↔ d ∣ n := by
  rw [Int.natCast_eq_zero, Nat.dvd_iff_mod_eq_zero]

section
variable {n : Nat} {s : σ} {fuel : Nat}

theorem isPrime_spec (hn : 2 ≤ n) (hmax : n < 1073741824) (hf : n < fuel) :
    Runs (isPrime fuel n) s fun b t => t = s ∧ (b = true ↔ NoneBelowRoot n) := by
  rw [isPrime, if_neg (by omega)]
  refine runs_loop (k := n) (fun k (v : Int) t => t = s ∧ ∃ d : Nat, v = d ∧ 2 ≤ d ∧
    k + d = n + 2 ∧ (d - 1) * (d - 1) < n ∧ ∀ c, 2 ≤ c → c < d → ¬ c ∣ n) ?_
    ⟨rfl, 2, rfl, le_rfl, rfl, by omega, fun c hc hlt => by omega⟩ hf
  rintro k _ _ ⟨rfl, d, rfl, hd, hk, hroot, hnone⟩
  have hbound : d ≤ 32768 := by
    by_contra hlarge
    have hle := Nat.mul_le_mul (show 32768 ≤ d - 1 by omega) (show 32768 ≤ d - 1 by omega)
    omega
  have hsquare : (d : Int) * d = (d * d : Nat) := (Nat.cast_mul d d).symm
  have hle := Nat.mul_le_mul hbound hbound
  rw [hsquare, runs_int_bind (by omega) (by omega)]
  by_cases hlt : d * d < n
  · rw [if_pos (by omega), runs_bind, runs_rem_natCast (by omega) (by omega)]
    by_cases hdvd : d ∣ n
    · rw [if_pos (natCast_mod_eq_zero.mpr hdvd), runs_pure]
      exact ⟨rfl, fun h => absurd h (by decide), fun h => absurd hdvd (h d hd hlt)⟩
    · have hself := Nat.le_mul_self d
      rw [if_neg (natCast_mod_eq_zero.not.mpr hdvd), runs_int_bind (by omega) (by omega), runs_pure]
      refine ⟨k - 1, by omega, rfl, d + 1, by push_cast; rfl, by omega, by omega, ?_, ?_⟩
      · rwa [Nat.add_sub_cancel]
      · intro c hc hcd
        rcases Nat.lt_succ_iff_lt_or_eq.mp hcd with hcd | rfl
        · exact hnone c hc hcd
        · exact hdvd
  · rw [if_neg (by omega), runs_pure]
    refine ⟨rfl, fun _ c hc hcn => hnone c hc ?_, fun _ => rfl⟩
    exact Nat.mul_self_lt_mul_self_iff.mp (by omega)

end

/-- The composite numbers that a step before `i` marks. -/
def Passed (i c : Nat) : Prop := 2 ≤ c ∧ ¬ c.Prime ∧ c / c.minFac < i

instance (i c : Nat) : Decidable (Passed i c) := inferInstanceAs (Decidable (_ ∧ _))

/-- What the outer loop has done before the step for `i`. -/
structure Sieved (maxV i : Nat) (t : State) : Prop where
  size : t.items.length = maxV + 1
  primes : t.other.primes = (primesBelow i).map Nat.cast
  check : ∀ c ≤ maxV, t.items[c]! = 0 ↔ ¬ (c ≤ 1 ∨ Passed i c)
  marked : ∀ c ≤ maxV, t.other.marked.filter (fun m => m.2 = (c : Int)) =
    if Passed i c then [(((c / c.minFac : Nat) : Int), (c : Int))] else []
  touched : ∀ k ∈ t.touched, 0 ≤ k ∧ k ≤ maxV

/-- What the inner loop has done, from the state `u`, after the products by the primes `ps`. -/
structure Marking (maxV i : Nat) (u : State) (ps : List Nat) (t : State) : Prop where
  size : t.items.length = maxV + 1
  primes : t.other.primes = u.other.primes
  check : ∀ c ≤ maxV, t.items[c]! = 0 ↔ u.items[c]! = 0 ∧ ∀ p ∈ ps, p * i ≠ c
  marked : t.other.marked = u.other.marked ++ ps.map fun p => ((i : Int), ((p * i : Nat) : Int))
  touched : ∀ k ∈ t.touched, 0 ≤ k ∧ k ≤ maxV

section
variable {c fuel i j maxV p : Nat} {ps : List Nat} {s t u : State}

theorem passed_succ : Passed (i + 1) c ↔ Passed i c ∨ 2 ≤ c ∧ ¬ c.Prime ∧ c / c.minFac = i := by
  unfold Passed
  rw [Nat.lt_succ_iff_lt_or_eq]
  tauto

/-- The products with `i` are different ones. -/
theorem filter_products (hps : ps.Nodup) (hi : 0 < i) (c : Nat) :
    (ps.map fun p => ((i : Int), ((p * i : Nat) : Int))).filter (fun m => m.2 = (c : Int)) =
      if ∃ p ∈ ps, p * i = c then [((i : Int), (c : Int))] else [] := by
  induction ps with
  | nil => simp
  | cons p ps ih =>
    rw [List.nodup_cons] at hps
    rw [List.map_cons]
    by_cases hp : p * i = c
    · have hnone : ¬ ∃ q ∈ ps, q * i = c := by
        rintro ⟨q, hq, heq⟩
        exact hps.1 (Nat.eq_of_mul_eq_mul_right hi (hp.trans heq.symm) ▸ hq)
      rw [List.filter_cons_of_pos (by rw [hp]; exact decide_eq_true rfl), ih hps.2, if_neg hnone,
        if_pos ⟨p, List.mem_cons_self .., hp⟩, hp]
    · have hsame : (∃ q ∈ p :: ps, q * i = c) ↔ ∃ q ∈ ps, q * i = c := by
        simp only [List.mem_cons, exists_eq_or_imp, hp, false_or]
      rw [List.filter_cons_of_neg (by rwa [decide_eq_true_eq, Nat.cast_inj]), ih hps.2]
      simp only [hsame]

/-- The state after a mark. -/
def marking (t : State) (i product : Nat) : State :=
  ⟨{ t.other with marked := t.other.marked ++ [((i : Int), (product : Int))] },
    t.items.set product 1, t.touched ++ [(product : Int)]⟩

theorem runs_mark {product : Nat} {Q : Unit → State → Prop} (h : product < t.items.length) :
    Runs (mark i product) t Q ↔ Q () (marking t i product) := by
  rw [mark, runs_bind, runs_assignElement h, setFound, runs_bind, runs_get, runs_set]
  rfl

theorem marking_start (hsize : u.items.length = maxV + 1)
    (htouched : ∀ k ∈ u.touched, 0 ≤ k ∧ k ≤ maxV) : Marking maxV i u [] u :=
  ⟨hsize, rfl, fun c _ => by simp, by simp, htouched⟩

theorem Marking.next (h : Marking maxV i u ps t) (hp : p * i ≤ maxV) :
    Marking maxV i u (ps ++ [p]) (marking t i (p * i)) := by
  refine ⟨by rw [marking, List.length_set]; exact h.size, h.primes, ?_, ?_, ?_⟩
  · intro c hc
    rw [marking, getElem!_set (by rw [h.size]; omega)]
    by_cases heq : c = p * i
    · subst heq
      simp
    · rw [if_neg heq, h.check c hc, List.forall_mem_append, List.forall_mem_singleton]
      exact ⟨fun h => ⟨h.1, h.2, Ne.symm heq⟩, fun h => ⟨h.1, h.2.1⟩⟩
  · rw [marking, h.marked, List.map_append, List.append_assoc, List.map_singleton]
  · exact List.forall_mem_append.mpr ⟨h.touched, List.forall_mem_singleton.mpr (by omega)⟩

theorem runs_primeAt {l : List Nat} {Q : Int → State → Prop}
    (h : t.other.primes = l.map Nat.cast) (hj : j < l.length) (hmax : j ≤ 2147483647) :
    Runs (primeAt j) t Q ↔ Q (l[j]! : Nat) t := by
  have hget : t.other.primes[toSize j]? = some ((l[j]! : Nat) : Int) := by
    rw [toSize_natCast (by omega), h, List.getElem?_map, getElem!_of_lt hj, Option.map_some]
  rw [primeAt, runs_bind, runs_get, hget]
  exact runs_pure

/-- The bound of a product, by which the loop ends before a product overflows: a prime is at most
twice the prime before it. -/
theorem product_le (hi : 2 ≤ i) (hmax : i ≤ maxV) (hj : j < (primesBelow (i + 1)).length)
    (hbefore : ∀ p ∈ (primesBelow (i + 1)).take j, p * i ≤ maxV) :
    (primesBelow (i + 1))[j]! * i ≤ 2 * maxV := by
  have hsorted := pairwise_primesBelow (i + 1)
  cases j with
  | zero =>
    have htwo : (primesBelow (i + 1))[0]! ≤ 2 := by
      by_contra hlarge
      have hmem := (mem_take_iff hsorted hj).mpr
        ⟨mem_primesBelow.mpr ⟨by omega, Nat.prime_two⟩, Nat.not_le.mp hlarge⟩
      exact absurd hmem List.not_mem_nil
    exact Nat.mul_le_mul htwo hmax
  | succ j =>
    have hmem : (primesBelow (i + 1))[j]! ∈ (primesBelow (i + 1)).take (j + 1) := by
      rw [List.take_add_one, getElem!_of_lt (by omega)]
      exact List.mem_append_right _ (List.mem_singleton.mpr rfl)
    calc (primesBelow (i + 1))[j + 1]! * i
        ≤ 2 * (primesBelow (i + 1))[j]! * i := Nat.mul_le_mul_right i (next_prime_le hj)
      _ = 2 * ((primesBelow (i + 1))[j]! * i) := Nat.mul_assoc ..
      _ ≤ 2 * maxV := Nat.mul_le_mul_left 2 (hbefore _ hmem)

/-- The inner loop before the step for the prime at `j`. -/
structure Multiplying (maxV i : Nat) (u : State) (j : Nat) (t : State) : Prop where
  products : Marking maxV i u ((primesBelow (i + 1)).take j) t
  inside : ∀ p ∈ (primesBelow (i + 1)).take j, p * i ≤ maxV
  not_dvd : ∀ p ∈ (primesBelow (i + 1)).take j, ¬ p ∣ i

/-- The inner loop has marked the products of `i` by the primes up to the least factor of `i`. -/
def Multiplied (maxV i : Nat) (u t : State) : Prop :=
  ∃ ps, Marking maxV i u ps t ∧ ps.Nodup ∧ ∀ p, p * i ≤ maxV → (p ∈ ps ↔ p.Prime ∧ p ≤ i.minFac)

theorem nodup_primesBelow_take (n j : Nat) : ((primesBelow n).take j).Nodup :=
  ((pairwise_primesBelow n).imp fun h => h.ne).sublist (List.take_sublist ..)

theorem multiplying_start (hsize : u.items.length = maxV + 1)
    (htouched : ∀ k ∈ u.touched, 0 ≤ k ∧ k ≤ maxV) : Multiplying maxV i u 0 u :=
  ⟨marking_start hsize htouched, fun _ hp => absurd hp List.not_mem_nil,
    fun _ hp => absurd hp List.not_mem_nil⟩

theorem Multiplying.over (h : Multiplying maxV i u j t) (hi : 2 ≤ i)
    (hover : maxV < (primesBelow (i + 1))[j]! * i) : Multiplied maxV i u t := by
  refine ⟨_, h.products, nodup_primesBelow_take (i + 1) j, fun p hp => ?_⟩
  have hle := le_minFac_of_not_dvd hi h.not_dvd
  rw [mem_take_of_not_dvd hi h.not_dvd]
  -- A prime whose product is in range is less than the one whose product is not.
  have hlt : p < (primesBelow (i + 1))[j]! := Nat.lt_of_mul_lt_mul_right (hp.trans_lt hover)
  exact and_congr_right fun _ => iff_of_true hlt (hlt.le.trans hle)

theorem Multiplying.mark (h : Multiplying maxV i u j t) (hj : j < (primesBelow (i + 1)).length)
    (hproduct : (primesBelow (i + 1))[j]! * i ≤ maxV) :
    Marking maxV i u ((primesBelow (i + 1)).take (j + 1))
      (marking t i ((primesBelow (i + 1))[j]! * i)) := by
  rw [take_succ_eq hj]
  exact h.products.next hproduct

theorem Multiplying.factor (h : Multiplying maxV i u j t) (hi : 2 ≤ i)
    (hproduct : (primesBelow (i + 1))[j]! * i ≤ maxV) (hdvd : (primesBelow (i + 1))[j]! ∣ i) :
    Multiplied maxV i u (marking t i ((primesBelow (i + 1))[j]! * i)) :=
  ⟨_, h.mark (lt_length_of_not_dvd hi h.not_dvd) hproduct, nodup_primesBelow_take (i + 1) (j + 1),
    fun _ _ => mem_take_of_dvd hi h.not_dvd hdvd⟩

theorem Multiplying.next (h : Multiplying maxV i u j t) (hi : 2 ≤ i)
    (hproduct : (primesBelow (i + 1))[j]! * i ≤ maxV) (hdvd : ¬ (primesBelow (i + 1))[j]! ∣ i) :
    Multiplying maxV i u (j + 1) (marking t i ((primesBelow (i + 1))[j]! * i)) := by
  have hj := lt_length_of_not_dvd hi h.not_dvd
  refine ⟨h.mark hj hproduct, ?_, ?_⟩
  · rw [take_succ_eq hj, List.forall_mem_append, List.forall_mem_singleton]
    exact ⟨h.inside, hproduct⟩
  · rw [take_succ_eq hj, List.forall_mem_append, List.forall_mem_singleton]
    exact ⟨h.not_dvd, hdvd⟩

theorem runs_markProducts (hi : 2 ≤ i) (hmax : i ≤ maxV) (hlarge : maxV < 1073741824)
    (hprimes : u.other.primes = (primesBelow (i + 1)).map Nat.cast)
    (hsize : u.items.length = maxV + 1) (htouched : ∀ k ∈ u.touched, 0 ≤ k ∧ k ≤ maxV)
    (hf : maxV + 1 < fuel) :
    Runs (markProducts fuel maxV i) u fun _ t => Multiplied maxV i u t := by
  have hlength : (primesBelow (i + 1)).length ≤ i + 1 :=
    (List.length_filter_le _ _).trans List.length_range.le
  refine runs_loop (k := (primesBelow (i + 1)).length) (fun k (v : Int) t => ∃ j : Nat, v = j ∧
    k + j = (primesBelow (i + 1)).length ∧ Multiplying maxV i u j t) ?_
    ⟨0, rfl, rfl, multiplying_start hsize htouched⟩ (by omega)
  rintro k _ t ⟨j, rfl, hk, h⟩
  have hj := lt_length_of_not_dvd hi h.not_dvd
  have hget : t.other.primes = (primesBelow (i + 1)).map Nat.cast := h.products.primes.trans hprimes
  have htwice := product_le hi hmax hj h.inside
  have hcast : (((primesBelow (i + 1))[j]! : Nat) : Int) * i =
      ((primesBelow (i + 1))[j]! * i : Nat) := (Nat.cast_mul _ _).symm
  have hmore : toSize j < t.other.primes.length := by
    rw [toSize_natCast (by omega), hget, List.length_map]
    exact hj
  rw [runs_bind, runs_get, if_pos hmore, runs_bind, runs_primeAt hget hj (by omega), hcast,
    runs_int_bind (by omega) (by omega)]
  by_cases hover : maxV < (primesBelow (i + 1))[j]! * i
  · rw [if_pos (by omega), runs_pure]
    exact h.over hi hover
  · have hproduct : (primesBelow (i + 1))[j]! * i ≤ maxV := Nat.not_lt.mp hover
    have hpos : 0 < (primesBelow (i + 1))[j]! :=
      (mem_primesBelow.mp (mem_iff_getElem!.mpr ⟨j, hj, rfl⟩)).2.pos
    rw [if_neg (by omega), runs_bind, runs_primeAt hget hj (by omega), hcast,
      runs_int_bind (by omega) (by omega), runs_bind, runs_mark (by rw [h.products.size]; omega),
      runs_bind, runs_primeAt (t := marking t i _) hget hj (by omega), runs_bind,
      runs_rem_natCast hpos (by omega)]
    by_cases hdvd : (primesBelow (i + 1))[j]! ∣ i
    · rw [if_pos (natCast_mod_eq_zero.mpr hdvd), runs_pure]
      exact h.factor hi hproduct hdvd
    · rw [if_neg (natCast_mod_eq_zero.not.mpr hdvd), runs_int_bind (by omega) (by omega), runs_pure]
      exact ⟨k - 1, by omega, j + 1, by push_cast; rfl, by omega, h.next hi hproduct hdvd⟩

theorem passed_self (hi : 2 ≤ i) : Passed i i ↔ ¬ i.Prime := by
  have hlt := Nat.div_lt_self (show 0 < i by omega)
    (Nat.minFac_prime (show i ≠ 1 by omega)).one_lt
  exact ⟨fun h => h.2.1, fun h => ⟨hi, h, hlt⟩⟩

theorem product_mem_iff (hi : 2 ≤ i) (hc : c ≤ maxV)
    (hps : ∀ p, p * i ≤ maxV → (p ∈ ps ↔ p.Prime ∧ p ≤ i.minFac)) :
    (∃ p ∈ ps, p * i = c) ↔ 2 ≤ c ∧ ¬ c.Prime ∧ c / c.minFac = i := by
  rw [← product_iff hi]
  constructor
  · rintro ⟨p, hp, rfl⟩
    obtain ⟨hprime, hle⟩ := (hps p hc).mp hp
    exact ⟨p, hprime, hle, rfl⟩
  · rintro ⟨p, hprime, hle, rfl⟩
    exact ⟨p, (hps p hc).mpr ⟨hprime, hle⟩, rfl⟩

theorem Marking.sieved (hmark : Marking maxV i u ps t) (h : Sieved maxV i s) (hi : 2 ≤ i)
    (hitems : u.items = s.items) (hmarked : u.other.marked = s.other.marked)
    (hprimes : u.other.primes = (primesBelow (i + 1)).map Nat.cast) (hnodup : ps.Nodup)
    (hps : ∀ p, p * i ≤ maxV → (p ∈ ps ↔ p.Prime ∧ p ≤ i.minFac)) : Sieved maxV (i + 1) t := by
  refine ⟨hmark.size, hmark.primes.trans hprimes, fun c hc => ?_, fun c hc => ?_, hmark.touched⟩
  · have hproduct := product_mem_iff hi hc hps
    rw [hmark.check c hc, hitems, h.check c hc, passed_succ, ← hproduct]
    simp only [ne_eq, not_or, not_exists, not_and]
    tauto
  · have hproduct := product_mem_iff hi hc hps
    rw [hmark.marked, List.filter_append, hmarked, h.marked c hc,
      filter_products hnodup (by omega)]
    by_cases hold : Passed i c
    · have hne : ¬ ∃ p ∈ ps, p * i = c := fun hex => hold.2.2.ne (hproduct.mp hex).2.2
      rw [if_pos hold, if_neg hne, if_pos (passed_succ.mpr (Or.inl hold)), List.append_nil]
    · rw [if_neg hold, List.nil_append]
      by_cases hnew : ∃ p ∈ ps, p * i = c
      · have hthis := hproduct.mp hnew
        rw [if_pos hnew, if_pos (passed_succ.mpr (Or.inr hthis)), hthis.2.2]
      · rw [if_neg hnew, if_neg]
        rw [passed_succ, ← hproduct]
        exact not_or.mpr ⟨hold, hnew⟩

/-- One step of the outer loop. -/
theorem Sieved.checkNumber (h : Sieved maxV i s) (hi : 2 ≤ i) (hmax : i ≤ maxV)
    (hlarge : maxV < 1073741824) (hf : maxV + 1 < fuel) :
    Runs (checkNumber fuel maxV i) s fun _ t => Sieved maxV (i + 1) t := by
  have htouched : ∀ k ∈ (s.touch i).touched, 0 ≤ k ∧ k ≤ (maxV : Int) :=
    List.forall_mem_append.mpr ⟨h.touched, List.forall_mem_singleton.mpr (by omega)⟩
  have hprime : s.items[i]! = 0 ↔ i.Prime := by
    rw [h.check i hmax, passed_self hi, not_or, not_not]
    exact and_iff_right (by omega)
  rw [Primes.checkNumber, runs_bind, runs_element (by rw [h.size]; omega)]
  by_cases hi0 : i.Prime
  · let u : State :=
      { s.touch i with other := { s.other with primes := s.other.primes ++ [(i : Int)] } }
    have hprimes : u.other.primes = (primesBelow (i + 1)).map Nat.cast := by
      rw [primesBelow_succ, if_pos hi0, List.map_append, ← h.primes]
      rfl
    rw [if_pos (hprime.mpr hi0), runs_bind, setFound, runs_bind, runs_get, runs_set]
    refine (runs_markProducts (u := u) hi hmax hlarge hprimes h.size htouched hf).mono ?_
    rintro _ t ⟨ps, hmark, hnodup, hps⟩
    exact hmark.sieved h hi rfl rfl hprimes hnodup hps
  · have hprimes : (s.touch i).other.primes = (primesBelow (i + 1)).map Nat.cast := by
      rw [primesBelow_succ, if_neg hi0, List.append_nil]
      exact h.primes
    rw [if_neg fun hzero => hi0 (hprime.mp hzero)]
    refine (runs_markProducts (u := s.touch i) hi hmax hlarge hprimes h.size htouched hf).mono ?_
    rintro _ t ⟨ps, hmark, hnodup, hps⟩
    exact hmark.sieved h hi rfl rfl hprimes hnodup hps

/-- The state before the outer loop. -/
def marked01 (maxV : Nat) : State :=
  ⟨⟨[], []⟩, ((List.replicate (maxV + 1) 0).set 1 1).set 0 1, [1, 0]⟩

theorem sieved_start (h : 1 ≤ maxV) : Sieved maxV 2 (marked01 maxV) := by
  have hnone : ∀ c, ¬ Passed 2 c := by
    rintro c ⟨hc, hnp, hlt⟩
    have hle := Nat.minFac_le (show 0 < c by omega)
    have hne : c.minFac ≠ c := fun heq => hnp (heq ▸ Nat.minFac_prime (by omega))
    have hproduct := Nat.mul_div_cancel' c.minFac_dvd
    have hone : c / c.minFac ≤ 1 := by omega
    have hmul := Nat.mul_le_mul_left c.minFac hone
    omega
  refine ⟨?_, rfl, fun c hc => ?_, fun c hc => ?_, ?_⟩
  · rw [marked01, List.length_set, List.length_set, List.length_replicate]
  · rw [marked01, getElem!_set (by rw [List.length_set, List.length_replicate]; omega),
      getElem!_set (by rw [List.length_replicate]; omega), or_iff_left (hnone c)]
    split_ifs with hzero hone
    · exact iff_of_false (by decide) (not_not.mpr (by omega))
    · exact iff_of_false (by decide) (not_not.mpr (by omega))
    · rw [getElem!_replicate (by omega)]
      exact iff_of_true rfl (by omega)
  · rw [if_neg (hnone c)]
    rfl
  · intro k hk
    rcases List.mem_cons.mp hk with rfl | hk
    · omega
    · rw [List.mem_singleton.mp hk]
      omega

end

/-- The primes in order, and one mark for every composite number. -/
theorem getPrimes_primes (maxV : Int) (h1 : 1 ≤ maxV) (h2 : maxV < 1073741824) (fuel : Nat)
    (hf : maxV.toNat + 1 < fuel) (s : State) :
    Runs (getPrimes fuel maxV) s fun _ t =>
      t.other.primes.Pairwise (· < ·) ∧
      (∀ p, p ∈ t.other.primes ↔ p ≤ maxV ∧ p.toNat.Prime) ∧
      (∀ k ∈ t.touched, 0 ≤ k ∧ k ≤ maxV) ∧
      ∀ c : Nat, c ≤ maxV → 2 ≤ c → ¬ c.Prime →
        t.other.marked.filter (fun m => m.2 = (c : Int)) =
          [(((c / c.minFac : Nat) : Int), (c : Int))] := by
  obtain ⟨n, rfl⟩ : ∃ n : Nat, maxV = n := ⟨maxV.toNat, by omega⟩
  have hcells : toSize ((n : Int) + 1) = n + 1 := toSize_natCast (n := n + 1) (by omega)
  have hsieved : Runs (getPrimes fuel n) s fun _ t => Sieved n (max 2 (n + 1)) t := by
    rw [getPrimes, runs_int_bind (by omega) (by omega), hcells, runs_bind, runs_set, runs_bind]
    refine (runs_assignElement (i := 1) (by rw [List.length_replicate]; omega)).mpr ?_
    rw [runs_bind]
    refine (runs_assignElement (i := 0) (by rw [List.length_set, List.length_replicate]; omega)).mpr
      ?_
    refine runs_countUp (l := 2) (fun (i : Nat) (t : State) => Sieved n i t)
      (fun i t _ => runs_pure.mpr ⟨by omega, rfl⟩) (by omega) ?_ (sieved_start (by omega))
      (by omega)
    exact fun i hi hlt t ht => ht.checkNumber hi (by omega) (by omega) (by omega)
  have hend : max 2 (n + 1) = n + 1 := by omega
  rw [hend] at hsieved
  refine hsieved.mono ?_
  rintro _ t h
  refine ⟨?_, fun p => ?_, h.touched, fun c hc htwo hnp => ?_⟩
  · rw [h.primes, List.pairwise_map]
    exact (pairwise_primesBelow (n + 1)).imp fun hlt => Int.ofNat_lt.mpr hlt
  · rw [h.primes, List.mem_map]
    constructor
    · rintro ⟨q, hq, rfl⟩
      obtain ⟨hlt, hprime⟩ := mem_primesBelow.mp hq
      exact ⟨by omega, hprime⟩
    · rintro ⟨hle, hprime⟩
      have hpos := hprime.pos
      exact ⟨p.toNat, mem_primesBelow.mpr ⟨by omega, hprime⟩, by omega⟩
  · have hlt : c / c.minFac < c :=
      Nat.div_lt_self (by omega) (Nat.minFac_prime (by omega)).one_lt
    rw [h.marked c (by omega), if_pos ⟨htwo, hnp, by omega⟩]

theorem getPrimes_primes_sample :
    Runs (getPrimes 14 12) ⟨⟨[], []⟩, [], []⟩ fun _ t =>
      t.other.primes.Pairwise (· < ·) ∧
      (∀ p, p ∈ t.other.primes ↔ p ≤ 12 ∧ p.toNat.Prime) ∧
      (∀ k ∈ t.touched, 0 ≤ k ∧ k ≤ 12) ∧
      ∀ c : Nat, (c : Int) ≤ 12 → 2 ≤ c → ¬ c.Prime →
        t.other.marked.filter (fun m => m.2 = (c : Int)) =
          [(((c / c.minFac : Nat) : Int), (c : Int))] :=
  getPrimes_primes 12 (by decide) (by decide) 14 (by decide) ⟨⟨[], []⟩, [], []⟩

/-- The answer is right exactly when the number is not the square of a prime. -/
theorem isPrime_iff {σ : Type} (s : σ) (val : Int) (hval : IsInt val) (hmax : val < 1073741824)
    (fuel : Nat) (hf : val.toNat < fuel) :
    (Runs (isPrime fuel val) s fun b t => t = s ∧ (b = true ↔ val.toNat.Prime)) ↔
    ¬ ∃ p : Nat, p.Prime ∧ val = p * p := by
  rcases Int.lt_or_le val 2 with hsmall | hlarge
  · have hnp : ¬ val.toNat.Prime := fun hp => by
      have htwo := hp.two_le
      omega
    have hsquare : ¬ ∃ p : Nat, p.Prime ∧ val = p * p := by
      rintro ⟨p, hp, rfl⟩
      have hle := Nat.mul_le_mul hp.two_le hp.two_le
      rw [← Nat.cast_mul] at hsmall
      omega
    rw [isPrime, if_pos (by omega), runs_pure]
    exact iff_of_true ⟨rfl, fun h => absurd h (by decide), fun h => absurd h hnp⟩ hsquare
  · obtain ⟨n, rfl⟩ : ∃ n : Nat, val = n := ⟨val.toNat, by omega⟩
    have hruns : Runs (isPrime fuel n) s fun b t => t = s ∧ (b = true ↔ NoneBelowRoot n) :=
      isPrime_spec (by omega) (by omega) (by omega)
    have hroot := noneBelowRoot_iff (show 2 ≤ n by omega)
    have hcast : (∃ p : Nat, p.Prime ∧ (n : Int) = p * p) ↔ ∃ p, p.Prime ∧ n = p * p := by
      simp only [← Nat.cast_mul, Nat.cast_inj]
    rw [Int.toNat_natCast, hcast]
    constructor
    · intro hclaim hsquare
      obtain ⟨b, t, -, ⟨-, hb⟩, -, hprime⟩ := hruns.and hclaim
      obtain ⟨p, hp, rfl⟩ := hsquare
      have hyes := hprime.mp (hb.mpr (hroot.mpr (Or.inr ⟨p, hp, rfl⟩)))
      exact Nat.not_prime_mul hp.ne_one hp.ne_one hyes
    · intro hsquare
      refine hruns.mono ?_
      rintro b t ⟨rfl, hb⟩
      rw [hb, hroot]
      exact ⟨rfl, fun h => h.resolve_right hsquare, Or.inl⟩

theorem isPrime_iff_sample :
    (Runs (isPrime 16 15) () fun b t => t = () ∧ (b = true ↔ (15 : Int).toNat.Prime)) ↔
    ¬ ∃ p : Nat, p.Prime ∧ (15 : Int) = p * p :=
  isPrime_iff () 15 (by decide) (by decide) 16 (by decide)

/-- The loop ends before it tries the square root. -/
theorem isPrime_four : (∀ fuel, Runs (isPrime (fuel + 1) 4) () fun b _ => b = true) ∧
    ∀ fuel, ¬ Runs (isPrime fuel 4) () fun b t => t = () ∧ (b = true ↔ (4 : Int).toNat.Prime) := by
  have hruns : ∀ fuel, Runs (isPrime (fuel + 1) 4) () fun b _ => b = true := by
    intro fuel
    rw [isPrime, if_neg (by decide), loop, runs_bind, runs_bind, runs_int (by decide),
      if_neg (by decide), runs_pure]
    exact runs_pure.mpr rfl
  refine ⟨hruns, fun fuel hclaim => ?_⟩
  cases fuel with
  | zero =>
    rw [isPrime, if_neg (by decide)] at hclaim
    exact hclaim.not_fails fails_fail
  | succ fuel =>
    obtain ⟨b, t, -, hb, -, hprime⟩ := (hruns fuel).and hclaim
    exact absurd (hprime.mp hb) (by decide)

end LanguageTest.Primes
