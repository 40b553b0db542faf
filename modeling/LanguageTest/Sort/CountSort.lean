import LanguageTest.Library.Ranks
import Mathlib.Order.MinMax

namespace LanguageTest.CountSort
open Sorting

/-- The vector, with the local vector `count` beside it. -/
abbrev State := Vec (List Int) Int

/-- The least and the greatest element. -/
def getMaxMin (vec : List Int) : Int × Int :=
  let (_max, _min) := vec.foldl (fun (_max, _min) v => (max _max v, min _min v))
    (-2147483648, 2147483647)
  (_min, _max)

/-- `v[i]` of a local vector. -/
def cellOf (v : List Int) (i : Int) : Program State Int :=
  if i < 0 then fail .outOfRange
  else
    match v[i.toNat]? with
    | none => fail .outOfRange
    | some x => pure x

def countAt (i : Int) : Program State Int := do cellOf (← get).other i

def setCount (i x : Int) : Program State Unit := do
  let s ← get
  if i < 0 ∨ s.other.length ≤ i.toNat then fail .outOfRange
  else set { s with other := s.other.set i.toNat x }

/-- `count[x]++`. -/
def increment (x : Int) : Program State Unit := do
  setCount x (← int ((← countAt x) + 1))

/-- `for (int i = 1; i < areaLen; ++i) count[i] += count[i - 1]`. -/
def accumulate (fuel : Nat) (areaLen : Int) : Program State Unit :=
  countUp fuel 1 (pure areaLen) fun i => do
    setCount i (← int ((← countAt i) + (← countAt (i - 1))))

/-- The last loop. -/
def place (fuel : Nat) (tmp : List Int) (len : Int) : Program State Unit :=
  countDown fuel (len - 1) 0 1 fun i => do
    let x ← cellOf tmp i
    assignElement (← int ((← countAt x) - 1)) x
    setCount x (← int ((← countAt x) - 1))

def countSort (fuel : Nat) : Program State Unit := do
  let len := toInt (← size)
  if len < 1 then pure ()
  else
    let arr := (← get).items
    let data := getMaxMin arr
    let areaLen ← int (data.2 - data.1)
    let cells ← int (areaLen + 1)
    set { (← get) with other := List.replicate cells.toNat (0 : Int) }
    arr.forM increment
    accumulate fuel areaLen
    place fuel arr len

/-- Which arrays are sorted although the greatest elements are put to the front. The least element
is 0. The indices that no element is put at hold the greatest element to start with, and where the
smaller element of a rank and a greatest one meet, the smaller one stands before it. -/
structure CountSortable (arr : List Int) : Prop where
  zero : (getMaxMin arr).1 = 0
  small : (getMaxMin arr).2 < 2147483647
  rest : ∀ q < arr.length, arr.count (getMaxMin arr).2 ≤ q → less (getMaxMin arr).2 arr ≤ q →
    arr[q]! = (getMaxMin arr).2
  order : ∀ i j, i < arr.length → j < arr.length → arr[i]! < (getMaxMin arr).2 →
    arr[j]! = (getMaxMin arr).2 → rank arr i = earlier arr j → i < j

/-- The index at which the last loop puts the element at `j`. Elements equal to `m`, the greatest,
are not put after the smaller ones. -/
def target (m : Int) (arr : List Int) (j : Nat) : Nat :=
  (if arr[j]! < m then less arr[j]! arr else 0) + earlier arr j

/-- The vectors before the pass of the last loop for `p - 1`. Of the elements with one target, the
first one is the last to be put there. -/
structure Placed (n p : Nat) (arr cnt items : List Int) : Prop where
  cells : cnt.length = n + 1
  counts : ∀ v ≤ n, cnt[v]! =
    ((if v < n then less (v : Int) arr else 0) + (arr.take p).count (v : Int) : Nat)
  length : items.length = arr.length
  written : ∀ j, p ≤ j → j < arr.length →
    (∀ k, p ≤ k → k < j → target n arr k ≠ target n arr j) → items[target n arr j]! = arr[j]!
  kept : ∀ q, (∀ j, p ≤ j → j < arr.length → target n arr j ≠ q) → items[q]! = arr[q]!

section
variable {s : State} {arr : List Int} {fuel i j m n p q v : Nat} {x k : Int} {cnt items : List Int}

theorem getMaxMin_eq (arr : List Int) : getMaxMin arr =
    (arr.foldl min 2147483647, arr.foldl max (-2147483648)) := by
  have h : ∀ (l : List Int) (a b : Int),
      l.foldl (fun (c : Int × Int) v => (max c.1 v, min c.2 v)) (a, b) =
        (l.foldl max a, l.foldl min b) := by
    intro l
    induction l with
    | nil => exact fun _ _ => rfl
    | cons x l ih => exact fun a b => ih _ _
  have hfold := h arr (-2147483648) 2147483647
  rw [getMaxMin]
  dsimp only
  rw [hfold]

theorem foldl_max_spec {α : Type} [LinearOrder α] (l : List α) (k : α) :
    (l.foldl max k = k ∨ l.foldl max k ∈ l) ∧ k ≤ l.foldl max k ∧ ∀ x ∈ l, x ≤ l.foldl max k := by
  induction l generalizing k with
  | nil => simp
  | cons y l ih =>
    obtain ⟨hmem, hle, hall⟩ := ih (max k y)
    rw [List.foldl_cons]
    refine ⟨?_, (le_max_left k y).trans hle, ?_⟩
    · rcases hmem with heq | hmem
      · rcases max_choice k y with h | h
        · exact Or.inl (heq.trans h)
        · exact Or.inr (List.mem_cons.mpr (Or.inl (heq.trans h)))
      · exact Or.inr (List.mem_cons_of_mem y hmem)
    · intro x hx
      rcases List.mem_cons.mp hx with rfl | hx
      · exact (le_max_right k x).trans hle
      · exact hall x hx

theorem foldl_min_spec (l : List Int) (k : Int) :
    (l.foldl min k = k ∨ l.foldl min k ∈ l) ∧ l.foldl min k ≤ k ∧ ∀ x ∈ l, l.foldl min k ≤ x :=
  @foldl_max_spec (OrderDual Int) _ l k

/-- The bounds are elements, since every `int` lies between the values to start with. -/
theorem getMaxMin_spec (hne : arr ≠ []) (hint : ∀ x ∈ arr, IsInt x) :
    ((getMaxMin arr).1 ∈ arr ∧ ∀ x ∈ arr, (getMaxMin arr).1 ≤ x) ∧
      (getMaxMin arr).2 ∈ arr ∧ ∀ x ∈ arr, x ≤ (getMaxMin arr).2 := by
  obtain ⟨x, hx⟩ := List.exists_mem_of_ne_nil arr hne
  have hrange := hint x hx
  unfold IsInt at hrange
  obtain ⟨hmin, -, hle⟩ := foldl_min_spec arr 2147483647
  obtain ⟨hmax, -, hge⟩ := foldl_max_spec arr (-2147483648)
  have hlow := hle x hx
  have hhigh := hge x hx
  rw [getMaxMin_eq]
  refine ⟨⟨?_, hle⟩, ?_, hge⟩
  · rcases hmin with heq | hmem
    · have hsame : arr.foldl min 2147483647 = x := by omega
      exact hsame ▸ hx
    · exact hmem
  · rcases hmax with heq | hmem
    · have hsame : arr.foldl max (-2147483648) = x := by omega
      exact hsame ▸ hx
    · exact hmem

/-- `count` after these elements were counted. -/
structure Tallied (n : Nat) (pre cnt : List Int) : Prop where
  length : cnt.length = n + 1
  entries : ∀ v ≤ n, cnt[v]! = pre.count (v : Int)

theorem runs_cellOf {Q : Int → State → Prop} {l : List Int} (hi : i < l.length) :
    Runs (cellOf l i) s Q ↔ Q l[i]! s := by
  rw [cellOf, if_neg (by omega), Int.toNat_natCast, getElem!_of_lt hi]
  exact runs_pure

theorem runs_countAt {Q : Int → State → Prop} (hi : i < s.other.length) :
    Runs (countAt i) s Q ↔ Q s.other[i]! s := by
  rw [countAt, runs_bind, runs_get, runs_cellOf hi]

theorem runs_setCount {Q : Unit → State → Prop} (hi : i < s.other.length) :
    Runs (setCount i x) s Q ↔ Q () { s with other := s.other.set i x } := by
  rw [setCount, runs_bind, runs_get, if_neg (by omega), runs_set, Int.toNat_natCast]

theorem ensures_countAt : Ensures (countAt x) s fun y t => t = s ∧
    ∃ i : Nat, x = i ∧ i < s.other.length ∧ y = s.other[i]! := by
  refine Runs.bind_ensures (runs_get.mpr ?_)
  rw [cellOf]
  split_ifs with hneg
  · exact fails_fail.ensures
  · cases hx : s.other[x.toNat]? with
    | none => exact fails_fail.ensures
    | some y =>
      obtain ⟨hlt, rfl⟩ := List.getElem?_eq_some_iff.mp hx
      refine ensures_pure ⟨rfl, x.toNat, by omega, hlt, ?_⟩
      rw [getElem!_pos s.other _ hlt]

theorem Tallied.next {pre : List Int} (h : Tallied n pre cnt) (hv : v ≤ n) :
    Tallied n (pre ++ [(v : Int)]) (cnt.set v (cnt[v]! + 1)) := by
  have hlength := h.length
  refine ⟨by rw [List.length_set, hlength], fun w hw => ?_⟩
  rw [getElem!_set (by omega), List.count_append, List.count_singleton]
  by_cases hwv : w = v
  · subst hwv
    rw [if_pos rfl, h.entries w hw]
    simp
  · have hne : ((v : Int) == w) = false := beq_false_of_ne (by omega)
    rw [if_neg hwv, h.entries w hw, hne]
    simp

theorem runs_increment {Q : Unit → State → Prop} (hv : v < s.other.length)
    (hint : IsInt (s.other[v]! + 1)) : Runs (increment v) s Q ↔
      Q () { s with other := s.other.set v (s.other[v]! + 1) } := by
  rw [increment, runs_bind, runs_countAt hv, runs_bind, runs_int hint, runs_setCount hv]

theorem ensures_increment : Ensures (increment x) s fun _ t => ∃ v : Nat, x = v ∧
    v < s.other.length ∧ IsInt (s.other[v]! + 1) ∧
    t = { s with other := s.other.set v (s.other[v]! + 1) } := by
  refine Ensures.bind (ensures_countAt.mono ?_)
  rintro _ s ⟨rfl, v, rfl, hv, rfl⟩
  refine Ensures.bind (ensures_int.mono ?_)
  rintro _ t ⟨rfl, hint, rfl⟩
  exact ((runs_setCount hv).mpr ⟨v, rfl, hv, hint, rfl⟩).ensures

/-- The first loop for elements that are indices of `count`, and not too many. -/
theorem runs_tally (hs : Tallied n [] s.other) (hitems : s.items = arr)
    (hrange : ∀ x ∈ arr, 0 ≤ x ∧ x ≤ n) (hsize : arr.length < 2147483648) :
    Runs (arr.forM increment) s fun _ t => t.items = arr ∧ Tallied n arr t.other := by
  refine runs_forM (fun pre (t : State) => t.items = arr ∧ Tallied n pre t.other) arr ?_
    ⟨hitems, hs⟩
  rintro pre x post t harr ⟨hitems, htally⟩
  have hmem : x ∈ arr := harr ▸ List.mem_append_right pre (List.mem_cons_self ..)
  obtain ⟨hnonneg, hxn⟩ := hrange x hmem
  obtain ⟨v, rfl⟩ : ∃ v : Nat, x = v := ⟨x.toNat, by omega⟩
  have hlength := htally.length
  have hcount : pre.count (v : Int) ≤ pre.length := List.count_le_length
  have hpre : pre.length < arr.length := by
    rw [harr, List.length_append, List.length_cons]
    omega
  have hentry := htally.entries v (by omega)
  rw [runs_increment (by omega) (by unfold IsInt; omega)]
  exact ⟨hitems, htally.next (by omega)⟩

/-- What is known when the first loop has ended: every element is an index of `count`, and no count
exceeds the range of an `int`. -/
theorem ensures_tally (hs : Tallied n [] s.other) :
    Ensures (arr.forM increment) s fun _ t => Tallied n arr t.other ∧
      (∀ x ∈ arr, 0 ≤ x ∧ x ≤ n) ∧ ∀ x : Int, arr.count x < 2147483648 := by
  refine ensures_forM_prefix (fun pre (t : State) => Tallied n pre t.other ∧
    (∀ x ∈ pre, 0 ≤ x ∧ x ≤ n) ∧ ∀ x : Int, pre.count x < 2147483648) arr ?_
    ⟨hs, by simp, by simp⟩
  rintro pre x post t - ⟨htally, hrange, hcount⟩
  refine ensures_increment.mono ?_
  rintro _ _ ⟨v, rfl, hv, hint, rfl⟩
  have hlength := htally.length
  have hvn : v ≤ n := by omega
  refine ⟨htally.next hvn, ?_, fun y => ?_⟩
  · intro y hy
    rcases List.mem_append.mp hy with hy | hy
    · exact hrange y hy
    · rw [List.mem_singleton.mp hy]
      omega
  · have hlt := hint.2
    rw [htally.entries v hvn] at hlt
    rw [List.count_append, List.count_singleton]
    have hy := hcount y
    split_ifs with heq
    · rw [beq_iff_eq] at heq
      subst heq
      omega
    · omega

/-- `count` before the pass of the second loop for `i`. The last cell is not accumulated. -/
structure Summed (n i : Nat) (arr cnt : List Int) : Prop where
  length : cnt.length = n + 1
  entries : ∀ v ≤ n, cnt[v]! =
    if v < i ∧ v < n then arr.countP (· ≤ (v : Int)) else arr.count (v : Int)

theorem countP_le_succ (v : Nat) (arr : List Int) :
    arr.countP (· ≤ ((v + 1 : Nat) : Int)) =
      arr.count ((v + 1 : Nat) : Int) + arr.countP (· ≤ (v : Int)) := by
  induction arr with
  | nil => rfl
  | cons x arr ih =>
    rw [List.countP_cons, List.count_cons, List.countP_cons, ih]
    simp only [decide_eq_true_eq, beq_iff_eq]
    split_ifs <;> omega

theorem countP_le_zero (hnonneg : ∀ x ∈ arr, 0 ≤ x) :
    arr.countP (· ≤ ((0 : Nat) : Int)) = arr.count ((0 : Nat) : Int) := by
  rw [List.count_eq_countP]
  apply List.countP_congr
  intro x hx
  have hpos := hnonneg x hx
  simp only [beq_iff_eq, decide_eq_true_eq]
  omega

theorem Summed.start (h : Tallied n arr cnt) (hnonneg : ∀ x ∈ arr, 0 ≤ x) :
    Summed n 1 arr cnt := by
  refine ⟨h.length, fun v hv => ?_⟩
  rw [h.entries v hv]
  split_ifs with hlow
  · have hzero : v = 0 := by omega
    rw [hzero, countP_le_zero hnonneg]
  · rfl

theorem Summed.next (h : Summed n i arr cnt) (hi : 1 ≤ i) (hin : i < n) :
    Summed n (i + 1) arr (cnt.set i (cnt[i]! + cnt[i - 1]!)) ∧
      cnt[i]! + cnt[i - 1]! = arr.countP (· ≤ (i : Int)) := by
  have hlength := h.length
  have hsum : cnt[i]! + cnt[i - 1]! = arr.countP (· ≤ (i : Int)) := by
    have hsucc := countP_le_succ (i - 1) arr
    rw [Nat.sub_add_cancel hi] at hsucc
    rw [h.entries i hin.le, h.entries (i - 1) (by omega), if_neg (by omega), if_pos (by omega),
      hsucc]
    omega
  refine ⟨⟨by rw [List.length_set, hlength], fun v hv => ?_⟩, hsum⟩
  rw [getElem!_set (by omega)]
  by_cases hvi : v = i
  · rw [if_pos hvi, hsum, if_pos (by omega), hvi]
  · rw [if_neg hvi, h.entries v hv]
    by_cases hlow : v < i ∧ v < n
    · rw [if_pos hlow, if_pos (by omega)]
    · rw [if_neg hlow, if_neg (by omega)]

/-- The second loop, when the sums are in the range of an `int`. -/
theorem runs_accumulate (h : Summed n 1 arr s.other) (hitems : s.items = arr)
    (hn : n < 2147483648) (hsize : arr.length < 2147483648) (hf : n < fuel) :
    Runs (accumulate fuel n) s fun _ t => t.items = arr ∧ Summed n (max 1 n) arr t.other := by
  refine runs_countUp (l := 1) (n := n) (fun i (t : State) => t.items = arr ∧
    Summed n i arr t.other) ?_ hn ?_ ⟨hitems, h⟩ (by omega)
  · exact fun i t _ => runs_pure.mpr ⟨Int.toNat_natCast n, rfl⟩
  · rintro i hi hin t ⟨hitems, hsum⟩
    have hlength := hsum.length
    have hpred : (i : Int) - 1 = (i - 1 : Nat) := by omega
    obtain ⟨hnext, hvalue⟩ := hsum.next hi hin
    have hle : arr.countP (· ≤ (i : Int)) ≤ arr.length := List.countP_le_length
    rw [hpred, runs_bind, runs_countAt (by omega), runs_bind, runs_countAt (by omega),
      runs_int_bind (by omega) (by omega), runs_setCount (by omega)]
    exact ⟨hitems, hnext⟩

/-- What is known when it has ended, whether the sums are or not. -/
theorem ensures_accumulate (h : Summed n 1 arr s.other)
    (hzero : arr.count ((0 : Nat) : Int) < 2147483648) (hnonneg : ∀ x ∈ arr, 0 ≤ x) :
    Ensures (accumulate fuel n) s fun _ _ => ∀ v < n, arr.countP (· ≤ (v : Int)) < 2147483648 := by
  refine (ensures_counted (l := 1) (n := n) (fun i (t : State) => Summed n i arr t.other ∧
    ∀ v < i, v < n → arr.countP (· ≤ (v : Int)) < 2147483648) ?_ ?_ ⟨h, ?_⟩).mono ?_
  · exact fun i t _ => ensures_pure ⟨Int.toNat_natCast n, rfl⟩
  · rintro i hi hin t ⟨hsum, hsmall⟩
    have hlength := hsum.length
    have hpred : (i : Int) - 1 = (i - 1 : Nat) := by omega
    obtain ⟨hnext, hvalue⟩ := hsum.next hi hin
    refine Runs.bind_ensures ((runs_countAt (by omega)).mpr ?_)
    refine Runs.bind_ensures (hpred ▸ (runs_countAt (by omega)).mpr ?_)
    refine Ensures.bind (ensures_int.mono ?_)
    rintro _ u ⟨rfl, hint, rfl⟩
    refine ((runs_setCount (by omega)).mpr ⟨hnext, fun v hv hvn => ?_⟩).ensures
    rcases Nat.lt_succ_iff_lt_or_eq.mp hv with hlt | rfl
    · exact hsmall v hlt hvn
    · have hlt := hint.2
      omega
  · intro v hv hvn
    rw [Nat.lt_one_iff.mp hv, countP_le_zero hnonneg]
    exact hzero
  · rintro _ t ⟨-, hsmall⟩ v hv
    exact hsmall v (by omega) hv

theorem Placed.start (h : Summed n (max 1 n) arr cnt) : Placed n arr.length arr cnt arr where
  cells := h.length
  counts v hv := by
    rw [h.entries v hv, List.take_length]
    split_ifs with hlow hlt hlt
    · rw [countP_le]
    · omega
    · omega
    · rw [Nat.zero_add]
  length := rfl
  written j hj hlt := absurd hlt (Nat.not_lt.mpr hj)
  kept _ _ := rfl

theorem target_lt (hj : j < arr.length) : target x arr j < arr.length := by
  have hearlier := earlier_lt hj
  have hle := less_add_count_le arr[j]! arr
  unfold target
  split_ifs <;> omega

theorem Placed.next (h : Placed n (p + 1) arr cnt items) (hp : p < arr.length) (hv : arr[p]! = v)
    (hvn : v ≤ n) :
    cnt[v]! - 1 = target n arr p ∧
      Placed n p arr (cnt.set v (cnt[v]! - 1)) (items.set (target n arr p) arr[p]!) := by
  have hcells := h.cells
  have htarget := target_lt (x := n) hp
  have hcount : cnt[v]! - 1 = target n arr p := by
    have htake := earlier_succ hp
    rw [hv] at htake
    rw [h.counts v hvn, htake, target, hv]
    split_ifs <;> omega
  refine ⟨hcount, ?_⟩
  constructor
  case cells => rw [List.length_set, hcells]
  case counts =>
    intro w hw
    rw [getElem!_set (by omega)]
    have hold := h.counts w hw
    rw [count_take_succ hp, hv] at hold
    generalize (if w < n then less (w : Int) arr else 0) = before at *
    by_cases hwv : w = v
    · rw [if_pos (by omega)] at hold
      rw [if_pos hwv, ← hwv]
      omega
    · rw [if_neg (by omega)] at hold
      rw [if_neg hwv]
      omega
  case length => rw [List.length_set, h.length]
  case written =>
    intro j hpj hj hfirst
    rw [getElem!_set (h.length ▸ htarget)]
    by_cases heq : target n arr j = target n arr p
    · have hjp : j = p := by
        by_contra hne
        exact hfirst p le_rfl (by omega) heq.symm
      rw [if_pos heq, hjp]
    · have hjp : j ≠ p := fun hjp => heq (hjp ▸ rfl)
      rw [if_neg heq]
      exact h.written j (by omega) hj fun k hpk hkj => hfirst k (by omega) hkj
  case kept =>
    intro q hq
    rw [getElem!_set (h.length ▸ htarget), if_neg (hq p le_rfl hp).symm]
    exact h.kept q fun j hpj hj => hq j (by omega) hj

theorem runs_place (h : Placed n arr.length arr s.other s.items) (hsize : arr.length < 2147483648)
    (hrange : ∀ x ∈ arr, 0 ≤ x ∧ x ≤ n) (hf : arr.length < fuel) :
    Runs (place fuel arr arr.length) s fun _ t => Placed n 0 arr t.other t.items := by
  have hone : (arr.length : Int) - 1 = (arr.length : Int) - (1 : Nat) := rfl
  rw [place, hone]
  refine (runs_countDown (l := 0) Nat.one_pos (fun p (t : State) => p ≤ arr.length ∧
    Placed n p arr t.other t.items) ?_ ⟨le_rfl, h⟩ hf).mono ?_
  · rintro p hp - t ⟨hle, hplaced⟩
    have hj : p - 1 < arr.length := by omega
    obtain ⟨hnonneg, hn⟩ := hrange arr[p - 1]! (mem_iff_getElem!.mpr ⟨p - 1, hj, rfl⟩)
    obtain ⟨v, hv⟩ : ∃ v : Nat, arr[p - 1]! = v := ⟨arr[p - 1]!.toNat, by omega⟩
    have hpred : p - 1 + 1 = p := by omega
    rw [← hpred] at hplaced
    obtain ⟨hcount, hnext⟩ := hplaced.next hj hv (by omega)
    have hcells := hplaced.cells
    have htarget := target_lt (x := n) hj
    have hcell : v < t.other.length := by omega
    have hint : IsInt (t.other[v]! - 1) := by
      unfold IsInt
      omega
    rw [runs_bind, runs_cellOf hj, hv, runs_bind, runs_countAt hcell, runs_bind, runs_int hint,
      hcount, runs_bind, runs_assignElement (hplaced.length ▸ htarget)]
    let u : State := { t.touch (target n arr (p - 1) : Nat) with
      items := t.items.set (target n arr (p - 1)) v }
    refine runs_bind.mpr ((runs_countAt (s := u) hcell).mpr (runs_bind.mpr ?_))
    refine (runs_int (s := u) hint).mpr ((runs_setCount (s := u) hcell).mpr ?_)
    rw [hv] at hnext
    exact ⟨by omega, hnext⟩
  · rintro _ t ⟨p, hp, -, hplaced⟩
    have hzero : p = 0 := by omega
    exact hzero ▸ hplaced

theorem target_of_lt (h : arr[j]! < x) : target x arr j = rank arr j := by
  rw [target, if_pos h, rank]

theorem target_of_eq (h : arr[j]! = x) : target x arr j = earlier arr j := by
  rw [target, if_neg (by omega), Nat.zero_add]

/-- The last element put at an index is the first one that has it as its target. -/
theorem Placed.first (h : Placed n 0 arr cnt items) (hj : j < arr.length) :
    ∃ k ≤ j, target n arr k = target n arr j ∧ items[target n arr j]! = arr[k]! := by
  classical
  have hsome : ∃ k, target n arr k = target n arr j := ⟨j, rfl⟩
  have hle : Nat.find hsome ≤ j := Nat.find_min' hsome rfl
  have heq := Nat.find_spec hsome
  have hwritten := h.written (Nat.find hsome) (Nat.zero_le _) (by omega) fun k _ hk hsame =>
    Nat.find_min hsome hk (hsame.trans heq)
  rw [heq] at hwritten
  exact ⟨Nat.find hsome, hle, heq, hwritten⟩

section
variable (h : Placed n 0 arr cnt items) (hmax : ∀ x ∈ arr, x ≤ n)
include hmax

theorem at_le (hj : j < arr.length) : arr[j]! ≤ n := hmax _ (mem_iff_getElem!.mpr ⟨j, hj, rfl⟩)

/-- Behind the smaller elements and behind the greatest ones there is no target. -/
theorem target_ne (hcount : arr.count (n : Int) ≤ q) (hless : less (n : Int) arr ≤ q) :
    ∀ j, 0 ≤ j → j < arr.length → target n arr j ≠ q := by
  intro j _ hj
  rcases (at_le hmax hj).lt_or_eq with hlt | heq
  · have hrank := rank_lt_less hj hlt
    rw [target_of_lt hlt]
    omega
  · have hearlier := earlier_lt hj
    rw [heq] at hearlier
    rw [target_of_eq heq]
    omega

include h

/-- What follows when the last loop leaves the array sorted. -/
theorem Placed.implies (hitems : items = arr.insertionSort (· ≤ ·)) :
    (∀ q < arr.length, arr.count (n : Int) ≤ q → less (n : Int) arr ≤ q → arr[q]! = n) ∧
    ∀ i j, i < arr.length → j < arr.length → arr[i]! < n → arr[j]! = n →
      rank arr i = earlier arr j → i < j := by
  constructor
  · intro q hq hcount hless
    rw [← h.kept q (target_ne hmax hcount hless), hitems, sorted_greatest hmax hless hq]
  · intro i j hi hj hlt heq hmeet
    by_contra hle
    obtain ⟨k, hkj, hsame, hitem⟩ := h.first hj
    have hk : k < arr.length := by omega
    rw [target_of_eq heq, ← hmeet, hitems, sorted_rank hi] at hitem
    have hklt : arr[k]! < n := hitem ▸ hlt
    rw [target_of_lt hklt, target_of_eq heq, ← hmeet, rank, rank, ← hitem] at hsame
    have hki := earlier_injective hk hi hitem.symm (by omega)
    have hne : i ≠ j := by
      rintro rfl
      omega
    omega

/-- The greatest elements are at the end of what the last loop leaves. -/
theorem Placed.greatest (hless : less (n : Int) arr ≤ q)
    (hrest : arr.count (n : Int) ≤ q → arr[q]! = n) : items[q]! = n := by
  by_cases hcount : arr.count (n : Int) ≤ q
  · rw [h.kept q (target_ne hmax hcount hless), hrest hcount]
  · obtain ⟨j, hj, hvalue, hearlier⟩ := exists_earlier (Nat.not_le.mp hcount)
    obtain ⟨k, hkj, hsame, hitem⟩ := h.first hj
    rw [target_of_eq hvalue, hearlier] at hsame hitem
    rw [hitem]
    refine (at_le hmax (by omega)).lt_or_eq.resolve_left fun hklt => ?_
    have hrank := rank_lt_less (by omega) hklt
    rw [target_of_lt hklt] at hsame
    omega

/-- The smaller elements are at the front, each at its rank. -/
theorem Placed.smaller (hless : q < less (n : Int) arr) (hq : q < arr.length)
    (horder : ∀ i j, i < arr.length → j < arr.length → arr[i]! < n → arr[j]! = n →
      rank arr i = earlier arr j → i < j) :
    items[q]! = (arr.insertionSort (· ≤ ·))[q]! := by
  obtain ⟨i, hi, hrank, hvalue⟩ := exists_rank hq
  have hlt : arr[i]! < n := by
    refine (at_le hmax hi).lt_of_ne fun heq => ?_
    rw [rank, heq] at hrank
    omega
  obtain ⟨k, hki, hsame, hitem⟩ := h.first hi
  have hk : k < arr.length := by omega
  rw [target_of_lt hlt, hrank] at hsame hitem
  rcases (at_le hmax hk).lt_or_eq with hklt | hkeq
  · rw [target_of_lt hklt] at hsame
    rw [hitem, ← hsame, sorted_rank hk]
  · rw [target_of_eq hkeq] at hsame
    have hik := horder i k hi hk hlt hkeq (hrank.trans hsame.symm)
    omega

/-- What the last loop leaves is sorted exactly under the conditions on the order. -/
theorem Placed.sorted_iff :
    items = arr.insertionSort (· ≤ ·) ↔
      (∀ q < arr.length, arr.count (n : Int) ≤ q → less (n : Int) arr ≤ q → arr[q]! = n) ∧
      ∀ i j, i < arr.length → j < arr.length → arr[i]! < n → arr[j]! = n →
        rank arr i = earlier arr j → i < j := by
  constructor
  · exact h.implies hmax
  · rintro ⟨hrest, horder⟩
    have hlength := h.length.trans (List.length_insertionSort (· ≤ ·) arr).symm
    refine List.ext_getElem hlength fun q hq hq' => ?_
    rw [← getElem!_pos items q hq, ← getElem!_pos _ q hq']
    rw [h.length] at hq
    rcases Nat.lt_or_ge q (less (n : Int) arr) with hless | hless
    · exact h.smaller hmax hless hq horder
    · rw [sorted_greatest hmax hless hq]
      exact h.greatest hmax hless fun hcount => hrest q hq hcount hless

end

theorem tallied_start : Tallied n [] (List.replicate (n + 1) 0) := by
  refine ⟨List.length_replicate, fun v hv => ?_⟩
  rw [getElem!_replicate (by omega)]
  rfl

/-- The run when the elements are indices of `count` and nothing overflows. -/
theorem runs_countSort (hpos : 1 ≤ s.items.length) (hsize : s.items.length < 2147483648)
    (hmin : (getMaxMin s.items).1 = 0) (hmax : (getMaxMin s.items).2 = n) (hn : n < 2147483647)
    (hrange : ∀ x ∈ s.items, 0 ≤ x ∧ x ≤ n) (hf : s.items.length < fuel) (hnf : n < fuel) :
    Runs (countSort fuel) s fun _ t => Placed n 0 s.items t.other t.items := by
  have hcells : ((n : Int) + 1).toNat = n + 1 := by omega
  rw [countSort, runs_bind, runs_size, toInt_of_lt hsize, if_neg (by omega), runs_bind, runs_get]
  dsimp only
  rw [hmin, hmax, Int.sub_zero, runs_int_bind (by omega) (by omega),
    runs_int_bind (by omega) (by omega), hcells, runs_bind, runs_get, runs_bind, runs_set,
    runs_bind]
  refine (runs_tally (s := { s with other := List.replicate (n + 1) 0 }) tallied_start rfl hrange
    hsize).mono ?_
  rintro _ t ⟨hitems, htally⟩
  rw [runs_bind]
  refine (runs_accumulate (.start htally fun x hx => (hrange x hx).1) hitems (by omega) hsize
    hnf).mono ?_
  rintro _ u ⟨hitems', hsum⟩
  have hplaced : Placed n s.items.length s.items u.other u.items := by
    rw [hitems']
    exact .start hsum
  exact runs_place hplaced hsize hrange hf

/-- What a call with a result implies: the least element is 0, and `count` and the sums fit. -/
theorem countSort_implies {Q : Unit → State → Prop} (hruns : Runs (countSort fuel) s Q)
    (hlen : 1 ≤ toInt s.items.length) (hint : ∀ x ∈ s.items, IsInt x)
    (hfit : ∀ x ∈ s.items, ∀ y ∈ s.items, IsInt (x - y)) :
    s.items.length < 2147483648 ∧ (getMaxMin s.items).1 = 0 ∧
      (getMaxMin s.items).2 < 2147483647 := by
  have hne : s.items ≠ [] := by
    intro hnil
    rw [hnil] at hlen
    exact absurd hlen (by decide)
  obtain ⟨⟨hmin, hlow⟩, hmax, hhigh⟩ := getMaxMin_spec hne hint
  rw [countSort, runs_bind, runs_size, if_neg (by omega), runs_bind, runs_get] at hruns
  dsimp only at hruns
  rw [runs_bind, runs_int (hfit _ hmax _ hmin)] at hruns
  have hle := hlow _ hmax
  obtain ⟨n, hn⟩ : ∃ n : Nat, (getMaxMin s.items).2 - (getMaxMin s.items).1 = n :=
    ⟨((getMaxMin s.items).2 - (getMaxMin s.items).1).toNat, by omega⟩
  rw [hn] at hruns
  by_cases hcell : IsInt ((n : Int) + 1)
  · have hcells : ((n : Int) + 1).toNat = n + 1 := by omega
    rw [runs_bind, runs_int hcell, hcells, runs_bind, runs_get, runs_bind, runs_set,
      runs_bind] at hruns
    obtain ⟨_, t, -, hrest, htally, hrange, hcount⟩ := (ensures_tally tallied_start).runs hruns
    have hnonneg : ∀ x ∈ s.items, 0 ≤ x := fun x hx => (hrange x hx).1
    have hminimum := hrange _ hmin
    have hmaximum := hrange _ hmax
    have hsmall := hcell.2
    rw [runs_bind] at hrest
    obtain ⟨_, u, -, -, hsums⟩ :=
      (ensures_accumulate (.start htally hnonneg) (hcount _) hnonneg).runs hrest
    have htotal : s.items.countP (· ≤ (n : Int)) = s.items.length :=
      List.countP_eq_length.mpr fun x hx => decide_eq_true (hrange x hx).2
    have htop := hcount n
    have hlength : s.items.length < 4294967295 := by
      cases n with
      | zero =>
        rw [countP_le_zero hnonneg] at htotal
        omega
      | succ n =>
        have hsum := hsums n (Nat.lt_succ_self n)
        rw [countP_le_succ] at htotal
        omega
    refine ⟨?_, by omega, by omega⟩
    unfold toInt at hlen
    omega
  · exact absurd (fails_int hcell).bind hruns.not_fails

theorem runs_countSort_short (h : toInt s.items.length < 1) :
    Runs (countSort fuel) s fun _ t => t = s := by
  rw [countSort, runs_bind, runs_size, if_pos h, runs_pure]

end

/-- It sorts an array that is sorted already when the length is no positive `int`, and else exactly
the sortable ones whose length is an `int`. -/
theorem countSort_iff (arr : List Int) (fuel : Nat) (hint : ∀ x ∈ arr, IsInt x)
    (hfit : ∀ x ∈ arr, ∀ y ∈ arr, IsInt (x - y)) (hf : arr.length < fuel)
    (hnf : ∀ x ∈ arr, x < fuel) :
    (Runs (countSort fuel) ⟨[], arr, []⟩ fun _ t => t.items = arr.insertionSort (· ≤ ·)) ↔
    toInt arr.length < 1 ∧ arr.Pairwise (· ≤ ·) ∨
      1 ≤ arr.length ∧ arr.length ≤ 2147483647 ∧ CountSortable arr := by
  by_cases hlen : toInt arr.length < 1
  · have hshort : Runs (countSort fuel) ⟨[], arr, []⟩ fun _ t => t = ⟨[], arr, []⟩ :=
      runs_countSort_short hlen
    constructor
    · intro hruns
      obtain ⟨_, t, -, hsorted, rfl⟩ := hruns.and hshort
      refine Or.inl ⟨hlen, ?_⟩
      rw [show arr = arr.insertionSort (· ≤ ·) from hsorted]
      exact List.pairwise_insertionSort _ _
    · rintro (⟨-, hsorted⟩ | ⟨hpos, hsize, -⟩)
      · refine hshort.mono ?_
        rintro _ t rfl
        exact hsorted.insertionSort_eq.symm
      · rw [toInt_of_lt (by omega)] at hlen
        omega
  · have hne : arr ≠ [] := by
      rintro rfl
      exact hlen (by decide)
    have hpos := List.length_pos_of_ne_nil hne
    obtain ⟨⟨hmin, hlow⟩, hmax, hhigh⟩ := getMaxMin_spec hne hint
    -- The call, for an array of which all but the order is known to be as it should.
    have hcall : arr.length < 2147483648 → (getMaxMin arr).1 = 0 → (getMaxMin arr).2 < 2147483647 →
        Runs (countSort fuel) ⟨[], arr, []⟩ fun _ t =>
          t.items = arr.insertionSort (· ≤ ·) ↔ CountSortable arr := by
      intro hsize hzero hsmall
      have hle := hlow _ hmax
      obtain ⟨n, hn⟩ : ∃ n : Nat, (getMaxMin arr).2 = n := ⟨(getMaxMin arr).2.toNat, by omega⟩
      have hrange : ∀ x ∈ arr, 0 ≤ x ∧ x ≤ n := fun x hx => ⟨hzero ▸ hlow x hx, hn ▸ hhigh x hx⟩
      have hfuel := hnf _ hmax
      refine (runs_countSort (s := ⟨[], arr, []⟩) hpos hsize hzero hn (by omega) hrange hf
        (by omega)).mono ?_
      intro _ t ht
      rw [ht.sorted_iff fun x hx => (hrange x hx).2, ← hn]
      exact ⟨fun h => ⟨hzero, hsmall, h.1, h.2⟩, fun h => ⟨h.rest, h.order⟩⟩
    constructor
    · intro hruns
      obtain ⟨hsize, hzero, hsmall⟩ := countSort_implies hruns (by dsimp only; omega) hint hfit
      obtain ⟨_, t, -, hsorted, hiff⟩ := hruns.and (hcall hsize hzero hsmall)
      exact Or.inr ⟨hpos, Nat.le_of_lt_succ hsize, hiff.mp hsorted⟩
    · rintro (⟨hshort, -⟩ | ⟨-, hsize, hsortable⟩)
      · exact absurd hshort hlen
      · refine (hcall (by omega) hsortable.zero hsortable.small).mono ?_
        exact fun _ t ht => ht.mpr hsortable

def sample : List Int := [0, 1, 2, 1]

theorem countSort_iff_sample :
    (Runs (countSort 5) ⟨[], sample, []⟩ fun _ t => t.items = sample.insertionSort (· ≤ ·)) ↔
    toInt sample.length < 1 ∧ sample.Pairwise (· ≤ ·) ∨
      1 ≤ sample.length ∧ sample.length ≤ 2147483647 ∧ CountSortable sample :=
  countSort_iff sample 5 (by decide) (by decide) (by decide) (by decide)

/-- The vector of `main`. -/
def vec : List Int := [1, 5, 3, 7, 6, 2, 8, 9, 4, 3, 3]

theorem countSort_vec : getMaxMin vec = (1, 9) ∧ ∀ fuel, ¬ Runs (countSort fuel) ⟨[], vec, []⟩
    fun _ t => t.items = vec.insertionSort (· ≤ ·) := by
  have hbounds : getMaxMin vec = (1, 9) := by decide
  refine ⟨hbounds, fun fuel hruns => ?_⟩
  have hzero := (countSort_implies hruns (by decide) (by decide) (by decide)).2.1
  change (getMaxMin vec).1 = 0 at hzero
  rw [hbounds] at hzero
  exact absurd hzero (by decide)

end LanguageTest.CountSort
