import LanguageTest.Library.Arithmetic
import LanguageTest.Library.Selection

namespace LanguageTest.KthLargest
open Selection

/-- A call of `partition`: its interval, and the array that it was made on. -/
structure Call where
  left : Int
  right : Int
  nums : List Int
  deriving DecidableEq

/-- The array, and as history the calls of `partition`. -/
structure State where
  nums : List Int
  calls : List Call

def element (i : Int) : Program State Int := do
  if i < 0 then fail .outOfRange
  else
    match (← get).nums[i.toNat]? with
    | none => fail .outOfRange
    | some x => pure x

def setElement (i x : Int) : Program State Unit := do
  let s ← get
  if i < 0 ∨ s.nums.length ≤ i.toNat then fail .outOfRange
  else set { s with nums := s.nums.set i.toNat x }

/-- `while (left < right && nums[left] <= val) left++`. Here and below a sum lies between two
numbers that are compared, so that none overflows. -/
def advanceLeft (fuel : Nat) (val right left : Int) : Program State Int :=
  loop (fun left => do
    if left < right then
      if (← element left) ≤ val then pure (.again (left + 1)) else pure (.done left)
    else pure (.done left)) fuel left

/-- `while (left < right && nums[right] >= val) right--`. -/
def retreatRight (fuel : Nat) (val left right : Int) : Program State Int :=
  loop (fun right => do
    if left < right then
      if (← element right) ≥ val then pure (.again (right - 1)) else pure (.done right)
    else pure (.done right)) fuel right

/-- One pass of the loop of `partition`. -/
def partitionPass (fuel : Nat) (val : Int) : Int × Int → Program State (Step (Int × Int) Int)
  | (left, right) => do
    if left < right then
      let left ← advanceLeft fuel val right left
      setElement right (← element left)
      let right ← retreatRight fuel val left right
      setElement left (← element right)
      pure (.again (left, right))
    else pure (.done left)

def partition (fuel : Nat) (left right : Int) : Program State Int := do
  let s ← get
  set { s with calls := s.calls ++ [Call.mk left right s.nums] }
  let val ← element right
  let left ← loop (partitionPass fuel val) fuel (left, right)
  setElement left val
  pure left

def findKthLargest (fuel : Nat) (k : Int) : Program State Int := do
  let n := (← get).nums.length
  if n = 0 then pure (-1)
  else if n < toSize k then pure (-1)
  else
    let k := toInt (n - toSize k)
    let left : Int := 0
    let right := toInt (n - 1)
    let cur ← partition fuel left right
    loop (fun cur => do
      if cur ≠ k then
        if cur > k then pure (.again (← partition fuel left (cur - 1)))
        else pure (.again (← partition fuel (cur + 1) right))
      else pure (.done (← element k))) fuel cur

/-- A position of the interval before which no element is greater than the pivot. -/
def Low (xs : List Int) (a b i : Nat) : Prop :=
  a ≤ i ∧ i < b ∧ ∀ j, a ≤ j → j ≤ i → xs.getD j 0 ≤ xs.getD b 0

/-- The array in the loop of `partition`. It lacks the pivot, whose place is at `r`. -/
structure Gap (xs : List Int) (a b : Nat) (ys : List Int) (l r : Nat) : Prop where
  lower : a ≤ l
  between : l ≤ r
  upper : r ≤ b
  length : ys.length = xs.length
  perm : (ys.set r (xs.getD b 0)).Perm xs
  outside : ∀ i, i < a ∨ b < i → ys[i]? = xs[i]?
  below : ∀ i, a ≤ i → i < l → ys.getD i 0 ≤ xs.getD b 0
  above : ∀ i, r < i → i ≤ b → xs.getD b 0 ≤ ys.getD i 0
  low : ∀ i, Low xs a b i → ys[i]? = xs[i]?
  passed : ys = xs ∧ l = a ∧ r = b ∨ ∀ i, Low xs a b i → i < l

/-- The array after `partition`: the pivot is at `p`, and no low position has changed. -/
structure Partitioned (xs : List Int) (a b : Nat) (ys : List Int) (p : Nat) : Prop where
  lower : a ≤ p
  upper : p ≤ b
  perm : ys.Perm xs
  outside : ∀ i, i < a ∨ b < i → ys[i]? = xs[i]?
  pivot : ys.getD p 0 = xs.getD b 0
  below : ∀ i, a ≤ i → i < p → ys.getD i 0 ≤ xs.getD b 0
  above : ∀ i, p < i → i ≤ b → xs.getD b 0 ≤ ys.getD i 0
  low : ∀ i, Low xs a b i → i < p ∧ ys[i]? = xs[i]?

section
variable {s : State} {i j a b l r m q : Nat} {x v : Int} {fuel : Nat} {xs ys : List Int}

theorem runs_element {Q : Int → State → Prop} (hi : i < s.nums.length) :
    Runs (element i) s Q ↔ Q (s.nums.getD i 0) s := by
  have hnonneg : ¬ ((i : Int) < 0) := by omega
  rw [element, if_neg hnonneg, runs_bind, runs_get, Int.toNat_natCast,
    List.getElem?_eq_getElem hi, List.getD_eq_getElem _ _ hi, runs_pure]

theorem runs_setElement {Q : Unit → State → Prop} (hi : i < s.nums.length) :
    Runs (setElement i x) s Q ↔ Q () { s with nums := s.nums.set i x } := by
  have hrange : ¬ ((i : Int) < 0 ∨ s.nums.length ≤ (i : Int).toNat) := by omega
  rw [setElement, runs_bind, runs_get, if_neg hrange, runs_set, Int.toNat_natCast]

theorem runs_advanceLeft (hle : l ≤ r) (hr : r < s.nums.length) (hf : r - l < fuel) :
    Runs (advanceLeft fuel v r l) s fun p t => t = s ∧ ∃ m : Nat, p = m ∧ l ≤ m ∧ m ≤ r ∧
      (∀ i, l ≤ i → i < m → s.nums.getD i 0 ≤ v) ∧ (m < r → v < s.nums.getD m 0) := by
  refine runs_loop (k := r - l) (fun k (p : Int) t => t = s ∧ ∃ m : Nat, p = m ∧ k = r - m ∧ l ≤ m ∧
    m ≤ r ∧ ∀ i, l ≤ i → i < m → s.nums.getD i 0 ≤ v) ?_
    ⟨rfl, l, rfl, rfl, le_rfl, hle, fun i h1 h2 => absurd h2 (Nat.not_lt.mpr h1)⟩ hf
  rintro k _ s ⟨rfl, m, rfl, rfl, hlm, hmr, hbelow⟩
  by_cases hlt : m < r
  · rw [if_pos (by omega), runs_bind, runs_element (hlt.trans hr)]
    by_cases hv : s.nums.getD m 0 ≤ v
    · rw [if_pos hv, runs_pure]
      refine ⟨r - (m + 1), by omega, rfl, m + 1, rfl, rfl, by omega, hlt, ?_⟩
      intro i h1 h2
      rcases Nat.lt_succ_iff_lt_or_eq.mp h2 with h | rfl
      · exact hbelow i h1 h
      · exact hv
    · rw [if_neg hv, runs_pure]
      exact ⟨rfl, m, rfl, hlm, hmr, hbelow, fun _ => Int.not_le.mp hv⟩
  · rw [if_neg (by omega), runs_pure]
    exact ⟨rfl, m, rfl, hlm, hmr, hbelow, fun h => absurd h hlt⟩

theorem runs_retreatRight (hle : l ≤ r) (hr : r < s.nums.length) (hf : r - l < fuel) :
    Runs (retreatRight fuel v l r) s fun p t => t = s ∧ ∃ m : Nat, p = m ∧ l ≤ m ∧ m ≤ r ∧
      (∀ i, m < i → i ≤ r → v ≤ s.nums.getD i 0) ∧ (l < m → s.nums.getD m 0 < v) := by
  refine runs_loop (k := r - l) (fun k (p : Int) t => t = s ∧ ∃ m : Nat, p = m ∧ k = m - l ∧ l ≤ m ∧
    m ≤ r ∧ ∀ i, m < i → i ≤ r → v ≤ s.nums.getD i 0) ?_
    ⟨rfl, r, rfl, rfl, hle, le_rfl, fun i h1 h2 => absurd h1 (Nat.not_lt.mpr h2)⟩ hf
  rintro k _ s ⟨rfl, m, rfl, rfl, hlm, hmr, habove⟩
  by_cases hlt : l < m
  · rw [if_pos (by omega), runs_bind, runs_element (hmr.trans_lt hr)]
    by_cases hv : s.nums.getD m 0 ≥ v
    · rw [if_pos hv, runs_pure]
      refine ⟨m - 1 - l, by omega, rfl, m - 1, by omega, rfl, by omega, by omega, ?_⟩
      intro i h1 h2
      by_cases him : i = m
      · exact him ▸ hv
      · exact habove i (by omega) h2
    · rw [if_neg hv, runs_pure]
      exact ⟨rfl, m, rfl, hlm, hmr, habove, fun _ => Int.not_le.mp hv⟩
  · rw [if_neg (by omega), runs_pure]
    exact ⟨rfl, m, rfl, hlm, hmr, habove, fun h => absurd h hlt⟩

theorem gap_start (hab : a ≤ b) (hb : b < xs.length) : Gap xs a b xs a b := by
  constructor
  case lower => exact le_rfl
  case between => exact hab
  case upper => exact le_rfl
  case length => rfl
  case perm =>
    rw [List.getD_eq_getElem _ _ hb, List.set_getElem_self]
  case outside => exact fun _ _ => rfl
  case below => exact fun i h1 h2 => absurd h2 (Nat.not_lt.mpr h1)
  case above => exact fun i h1 h2 => absurd h1 (Nat.not_lt.mpr h2)
  case low => exact fun _ _ => rfl
  case passed => exact Or.inl ⟨rfl, rfl, rfl⟩

namespace Gap

/-- The scan from the left has passed every low position. -/
theorem passes (h : Gap xs a b ys l r) (hlm : l ≤ m)
    (hstop : m < r → xs.getD b 0 < ys.getD m 0) (hi : Low xs a b i) : i < m := by
  obtain ⟨hai, hib, hlow⟩ := hi
  rcases h.passed with ⟨rfl, rfl, rfl⟩ | hpassed
  · by_contra hmi
    have hlt := hstop (by omega)
    have hle := hlow m hlm (by omega)
    omega
  · exact (hpassed i ⟨hai, hib, hlow⟩).trans_le hlm

/-- One pass: the element at `m` goes to `r`, and the element at `q` to `m`. -/
theorem pass (h : Gap xs a b ys l r) (hb : b < xs.length) (hlm : l ≤ m) (hmq : m ≤ q)
    (hqr : q ≤ r) (hleft : ∀ i, l ≤ i → i < m → ys.getD i 0 ≤ xs.getD b 0)
    (hstop : m < r → xs.getD b 0 < ys.getD m 0)
    (hright : ∀ i, q < i → i ≤ r → xs.getD b 0 ≤ (ys.set r (ys.getD m 0)).getD i 0) :
    Gap xs a b ((ys.set r (ys.getD m 0)).set m ((ys.set r (ys.getD m 0)).getD q 0)) m q := by
  have hlength := h.length
  have hlower := h.lower
  have hupper := h.upper
  have hr : r < ys.length := by omega
  have hm : m < (ys.set r (ys.getD m 0)).length := by
    rw [List.length_set]
    omega
  have hq : q < (ys.set r (ys.getD m 0)).length := by
    rw [List.length_set]
    omega
  have hpassed : ∀ i, Low xs a b i → i < m := fun i => h.passes hlm hstop
  constructor
  case lower => omega
  case between => exact hmq
  case upper => omega
  case length => rw [List.length_set, List.length_set, hlength]
  case perm =>
    refine (perm_move_gap hm hq).trans ?_
    exact (perm_move_gap hr (by omega)).trans h.perm
  case outside =>
    intro i hi
    rw [List.getElem?_set_ne (by omega), List.getElem?_set_ne (by omega), h.outside i hi]
  case below =>
    intro i hai him
    rw [getD_set hm, if_neg (by omega), getD_set hr, if_neg (by omega)]
    by_cases hil : i < l
    · exact h.below i hai hil
    · exact hleft i (by omega) him
  case above =>
    intro i hqi hib
    rw [getD_set hm, if_neg (by omega)]
    by_cases hir : i ≤ r
    · exact hright i hqi hir
    · rw [getD_set hr, if_neg (by omega)]
      exact h.above i (by omega) hib
  case low =>
    intro i hi
    have him := hpassed i hi
    rw [List.getElem?_set_ne (by omega), List.getElem?_set_ne (by omega), h.low i hi]
  case passed => exact Or.inr hpassed

theorem finish (h : Gap xs a b ys l l) (hb : b < xs.length) :
    Partitioned xs a b (ys.set l (xs.getD b 0)) l := by
  have hlength := h.length
  have hlower := h.lower
  have hupper := h.upper
  have hl : l < ys.length := by omega
  have hpassed : ∀ i, Low xs a b i → i < l := by
    intro i hi
    exact h.passes le_rfl (fun hlt => absurd hlt (Nat.lt_irrefl l)) hi
  constructor
  case lower => exact hlower
  case upper => exact hupper
  case perm => exact h.perm
  case outside =>
    intro i hi
    rw [List.getElem?_set_ne (by omega), h.outside i hi]
  case pivot => rw [getD_set hl, if_pos rfl]
  case below =>
    intro i hai hil
    rw [getD_set hl, if_neg (by omega)]
    exact h.below i hai hil
  case above =>
    intro i hli hib
    rw [getD_set hl, if_neg (by omega)]
    exact h.above i hli hib
  case low =>
    intro i hi
    have hil := hpassed i hi
    exact ⟨hil, by rw [List.getElem?_set_ne (by omega), h.low i hi]⟩

end Gap

theorem runs_partitionPass (h : Gap xs a b s.nums l r) (hb : b < xs.length) (hf : b - a < fuel) :
    Runs (partitionPass fuel (xs.getD b 0) (l, r)) s fun next t => t.calls = s.calls ∧
      match next with
      | .again p => ∃ m q : Nat, p = (↑m, ↑q) ∧ q - m < r - l ∧ Gap xs a b t.nums m q
      | .done p => p = l ∧ l = r ∧ t = s := by
  have hlength := h.length
  have hlower := h.lower
  have hupper := h.upper
  have hr : r < s.nums.length := by omega
  rw [partitionPass]
  by_cases hlt : l < r
  · rw [if_pos (by omega), runs_bind]
    refine (runs_advanceLeft h.between hr (by omega)).mono ?_
    rintro _ s ⟨rfl, m, rfl, hlm, hmr, hleft, hstop⟩
    rw [runs_bind, runs_element (by omega), runs_bind, runs_setElement hr, runs_bind]
    refine (runs_retreatRight hmr (by rw [List.length_set]; exact hr) (by omega)).mono ?_
    rintro _ t ⟨rfl, q, rfl, hmq, hqr, hright, hhalt⟩
    have hsize : ∀ i ≤ r, i < (s.nums.set r (s.nums.getD m 0)).length := by
      intro i hi
      rw [List.length_set]
      omega
    rw [runs_bind, runs_element (hsize q hqr), runs_bind, runs_setElement (hsize m hmr), runs_pure]
    refine ⟨rfl, m, q, rfl, ?_, h.pass hb hlm hmq hqr hleft hstop hright⟩
    -- The scan from the right passes the element that the one from the left put at `r`.
    by_cases hm : m < r
    · have hne : q ≠ r := by
        rintro rfl
        have hsmall := hhalt hm
        rw [getD_set hr, if_pos rfl] at hsmall
        exact Int.lt_asymm hsmall (hstop hm)
      omega
    · omega
  · rw [if_neg (by omega), runs_pure]
    exact ⟨rfl, rfl, le_antisymm h.between (Nat.not_lt.mp hlt), rfl⟩

theorem runs_passes (hab : a ≤ b) (hb : b < s.nums.length) (hf : b - a < fuel) :
    Runs (loop (partitionPass fuel (s.nums.getD b 0)) fuel (↑a, ↑b)) s fun p t =>
      t.calls = s.calls ∧ ∃ q : Nat, p = q ∧ Gap s.nums a b t.nums q q := by
  refine runs_loop (k := b - a) (fun k (i : Int × Int) t => t.calls = s.calls ∧
    ∃ l r : Nat, i = (↑l, ↑r) ∧ k = r - l ∧ Gap s.nums a b t.nums l r) ?_
    ⟨rfl, a, b, rfl, rfl, gap_start hab hb⟩ hf
  rintro k _ t ⟨hcalls, l, r, rfl, rfl, hgap⟩
  refine (runs_partitionPass hgap hb hf).mono ?_
  rintro (_ | _) u ⟨hsame, hnext⟩
  · obtain ⟨m, q, rfl, hless, hgap'⟩ := hnext
    exact ⟨q - m, hless, hsame.trans hcalls, m, q, rfl, rfl, hgap'⟩
  · obtain ⟨rfl, rfl, rfl⟩ := hnext
    exact ⟨hcalls, l, rfl, hgap⟩

theorem runs_partition (hab : a ≤ b) (hb : b < s.nums.length) (hf : b - a < fuel) :
    Runs (partition fuel a b) s fun p t => t.calls = s.calls ++ [Call.mk a b s.nums] ∧
      ∃ q : Nat, p = q ∧ Partitioned s.nums a b t.nums q := by
  let called : State := { s with calls := s.calls ++ [Call.mk a b s.nums] }
  rw [partition, runs_bind, runs_get, runs_bind, runs_set, runs_bind,
    runs_element (s := called) hb, runs_bind]
  refine (runs_passes (s := called) hab hb hf).mono ?_
  rintro _ t ⟨hcalls, q, rfl, hgap⟩
  have hq : q < t.nums.length := by
    rw [hgap.length]
    exact hgap.upper.trans_lt hb
  rw [runs_bind, runs_setElement hq, runs_pure]
  exact ⟨hcalls, q, rfl, hgap.finish hb⟩

/-- The interval of a call: the pivot is not less than what is before it, nor greater than
what is after it. -/
structure Window (xs : List Int) (a b : Nat) : Prop where
  start : a ≤ b
  stop : b < xs.length
  before : ∀ i < a, xs.getD i 0 ≤ xs.getD b 0
  after : ∀ i, b < i → i < xs.length → xs.getD b 0 ≤ xs.getD i 0

theorem low_of_splitsAt (h : SplitsAt xs q x) (hb : b < xs.length) (ha : a ≤ q) (hqb : q < b) :
    Low xs a b q := by
  have hsplit := h
  rw [← h.getD_eq (d := 0), splitsAt_iff h.lt] at hsplit
  have hqb' := hsplit.2 b hqb hb
  refine ⟨ha, hqb, fun j _ hj => ?_⟩
  rcases Nat.lt_or_eq_of_le hj with hlt | rfl
  · exact (hsplit.1 j hlt).trans hqb'
  · exact hqb'

namespace Partitioned

theorem getD (h : Partitioned xs a b ys q) (hi : i < a ∨ b < i) : ys.getD i 0 = xs.getD i 0 := by
  rw [List.getD_eq_getElem?_getD, h.outside i hi, List.getD_eq_getElem?_getD]

theorem splitsAt (h : Partitioned xs a b ys q) (hw : Window xs a b) :
    SplitsAt ys q (ys.getD q 0) := by
  have hlength := h.perm.length_eq
  have hstop := hw.stop
  have hupper := h.upper
  rw [splitsAt_iff (by omega), h.pivot]
  constructor
  · intro i hi
    by_cases hia : i < a
    · rw [h.getD (Or.inl hia)]
      exact hw.before i hia
    · exact h.below i (Nat.not_lt.mp hia) hi
  · intro i hqi hi
    by_cases hib : b < i
    · rw [h.getD (Or.inr hib)]
      exact hw.after i hib (by omega)
    · exact h.above i hqi (Nat.not_lt.mp hib)

/-- Only the end of the interval can be where the pivot was in its place already. -/
theorem eq_of_splitsAt (h : Partitioned xs a b ys q) (hb : b < xs.length)
    (hx : SplitsAt xs q x) : q = b := by
  by_contra hne
  have hlt : q < b := lt_of_le_of_ne h.upper hne
  exact Nat.lt_irrefl q (h.low q (low_of_splitsAt hx hb h.lower hlt)).1

/-- No position stops to split the array. -/
theorem splits_subset (h : Partitioned xs a b ys q) (hw : Window xs a b) :
    splits xs ⊆ splits ys := by
  have hstop := hw.stop
  intro i hi
  obtain ⟨x, hx⟩ := mem_splits.mp hi
  apply mem_splits.mpr
  by_cases hia : i < a
  · exact ⟨x, hx.of_take h.perm fun j hj => h.outside j (Or.inl (hj.trans_lt hia))⟩
  by_cases hbi : b < i
  · exact ⟨x, hx.of_drop h.perm fun j hj => h.outside j (Or.inr (hbi.trans_le hj))⟩
  rcases Nat.lt_or_eq_of_le (Nat.not_lt.mp hbi) with hib | rfl
  · refine ⟨x, hx.of_take h.perm fun j hj => ?_⟩
    by_cases hja : j < a
    · exact h.outside j (Or.inl hja)
    · obtain ⟨-, -, hlow⟩ := low_of_splitsAt hx hstop (Nat.not_lt.mp hia) hib
      have hj' : Low xs a b j :=
        ⟨Nat.not_lt.mp hja, hj.trans_lt hib, fun k hak hkj => hlow k hak (hkj.trans hj)⟩
      exact (h.low j hj').2
  · -- The pivot was in its place, so that it stays there.
    have hq : q = i := by
      by_contra hne
      have hqi : q < i := lt_of_le_of_ne h.upper hne
      rw [← hx.getD_eq (d := 0), splitsAt_iff hx.lt] at hx
      have hlow : Low xs a i q := ⟨h.lower, hqi, fun j _ hj => hx.1 j (hj.trans_lt hqi)⟩
      exact Nat.lt_irrefl q (h.low q hlow).1
    subst hq
    exact ⟨_, h.splitsAt hw⟩

/-- A call either puts one more element into its place or finds the end of the interval there. -/
theorem progress (h : Partitioned xs a b ys q) (hw : Window xs a b) :
    (splits xs).card < (splits ys).card ∨ (splits xs).card ≤ (splits ys).card ∧ q = b := by
  have hsub := h.splits_subset hw
  by_cases hq : q ∈ splits xs
  · obtain ⟨x, hx⟩ := mem_splits.mp hq
    exact Or.inr ⟨Finset.card_le_card hsub, h.eq_of_splitsAt hw.stop hx⟩
  · have hnew : q ∈ splits ys := mem_splits.mpr ⟨_, h.splitsAt hw⟩
    exact Or.inl (Finset.card_lt_card ⟨hsub, fun hsup => hq (hsup hnew)⟩)

end Partitioned

theorem window_all (h : xs ≠ []) : Window xs 0 (xs.length - 1) := by
  have hlength := List.length_pos_of_ne_nil h
  constructor
  case start => exact Nat.zero_le _
  case stop => omega
  case before => exact fun i hi => absurd hi (Nat.not_lt_zero i)
  case after => exact fun i h1 h2 => absurd h2 (by omega)

theorem window_before (h : SplitsAt xs q x) (hq : 0 < q) : Window xs 0 (q - 1) := by
  have hlt := h.lt
  rw [← h.getD_eq (d := 0), splitsAt_iff hlt] at h
  have hpivot := h.1 (q - 1) (by omega)
  constructor
  case start => exact Nat.zero_le _
  case stop => omega
  case before => exact fun i hi => absurd hi (Nat.not_lt_zero i)
  case after =>
    intro i hqi hi
    rcases Nat.lt_or_eq_of_le (show q ≤ i by omega) with hlt | rfl
    · exact hpivot.trans (h.2 i hlt hi)
    · exact hpivot

theorem window_after (h : SplitsAt xs q x) (hq : q + 1 < xs.length) :
    Window xs (q + 1) (xs.length - 1) := by
  rw [← h.getD_eq (d := 0), splitsAt_iff h.lt] at h
  have hpivot := h.2 (xs.length - 1) (by omega) (by omega)
  constructor
  case start => omega
  case stop => omega
  case before =>
    intro i hi
    rcases Nat.lt_succ_iff_lt_or_eq.mp hi with hlt | rfl
    · exact (h.1 i hlt).trans hpivot
    · exact hpivot
  case after => exact fun i h1 h2 => absurd h2 (by omega)

/-- What holds of the array and of the calls of `partition`, between two of them. -/
structure Kept (nums : List Int) (s : State) : Prop where
  perm : s.nums.Perm nums
  calls : ∀ call ∈ s.calls, 0 ≤ call.left ∧ call.left ≤ call.right ∧
    call.right < nums.length ∧ call.nums.Perm nums

variable {nums : List Int} {k c : Nat}

theorem runs_partition_kept (h : Kept nums s) (hw : Window s.nums a b) (hf : b - a < fuel) :
    Runs (partition fuel a b) s fun p t => Kept nums t ∧
      ∃ q : Nat, p = q ∧ Partitioned s.nums a b t.nums q := by
  have hlength := h.perm.length_eq
  have hstart := hw.start
  have hstop := hw.stop
  refine (runs_partition hstart hstop hf).mono ?_
  rintro p t ⟨hcalls, q, rfl, hpart⟩
  refine ⟨⟨hpart.perm.trans h.perm, ?_⟩, q, rfl, hpart⟩
  rw [hcalls]
  intro call hcall
  rcases List.mem_append.mp hcall with hcall | hcall
  · exact h.calls call hcall
  · rw [List.mem_singleton.mp hcall]
    rw [hlength] at hstop
    exact ⟨Int.natCast_nonneg a, Int.ofNat_le.mpr hstart, Int.ofNat_lt.mpr hstop, h.perm⟩

/-- The passes that are left: a pass places one more element, or else `cur` is the end of the
interval, which is one less than before or no longer below `k`. -/
noncomputable def remaining (k c : Nat) (xs : List Int) : Nat :=
  (xs.length - (splits xs).card) * (xs.length + 1) + if c < k then xs.length else c - k

theorem remaining_lt (hperm : ys.Perm xs) (hc : c < xs.length) (hq : q < xs.length)
    (h : (splits xs).card < (splits ys).card ∨ (splits xs).card ≤ (splits ys).card ∧
      (c < k ∧ k ≤ q ∨ k ≤ q ∧ q < c)) : remaining k q ys < remaining k c xs := by
  have hlength := hperm.length_eq
  have hcard := card_splits_le ys
  unfold remaining
  rw [hlength] at hcard ⊢
  rcases h with hmore | ⟨hsame, hcur⟩
  · have hsucc : xs.length - (splits ys).card + 1 ≤ xs.length - (splits xs).card := by omega
    have hmul := Nat.mul_le_mul_right (xs.length + 1) hsucc
    rw [Nat.succ_mul] at hmul
    split_ifs <;> omega
  · have hle : xs.length - (splits ys).card ≤ xs.length - (splits xs).card := by omega
    have hmul := Nat.mul_le_mul_right (xs.length + 1) hle
    split_ifs <;> omega

/-- The state when a call has returned `c`. -/
structure Narrowed (nums : List Int) (c : Nat) (s : State) : Prop extends Kept nums s where
  placed : SplitsAt s.nums c (s.nums.getD c 0)

theorem runs_partition_narrowed (h : Kept nums s) (hw : Window s.nums a b) (hf : b - a < fuel) :
    Runs (partition fuel a b) s fun p t => ∃ q : Nat, p = q ∧ Narrowed nums q t ∧
      ((splits s.nums).card < (splits t.nums).card ∨
        (splits s.nums).card ≤ (splits t.nums).card ∧ q = b) := by
  refine (runs_partition_kept h hw hf).mono ?_
  rintro _ t ⟨hkept, q, rfl, hpart⟩
  exact ⟨q, rfl, ⟨hkept, hpart.splitsAt hw⟩, hpart.progress hw⟩

/-- A pass of the loop when `cur` is not `k`. -/
theorem runs_narrow (h : Narrowed nums c s) (hw : Window s.nums a b)
    (hb : c < k ∧ k ≤ b ∨ k ≤ b ∧ b < c) (hf : nums.length ≤ fuel) :
    Runs (partition fuel a b) s fun p t => ∃ q : Nat, p = q ∧ Narrowed nums q t ∧
      remaining k q t.nums < remaining k c s.nums := by
  have hlength := h.perm.length_eq
  have hstop := hw.stop
  refine (runs_partition_narrowed h.toKept hw (by omega)).mono ?_
  rintro _ t ⟨q, rfl, hnarrow, hprogress⟩
  have hq := hnarrow.placed.lt
  have hperm : t.nums.Perm s.nums := hnarrow.perm.trans h.perm.symm
  have hsize := hperm.length_eq
  refine ⟨q, rfl, hnarrow, remaining_lt hperm h.placed.lt (by omega) ?_⟩
  rcases hprogress with hmore | ⟨hsame, rfl⟩
  · exact Or.inl hmore
  · exact Or.inr ⟨hsame, hb⟩

theorem remaining_le (h : Narrowed nums c s) :
    remaining k c s.nums < nums.length * (nums.length + 1) := by
  have hlength := h.perm.length_eq
  have hlt := h.placed.lt
  have hpos : 0 < (splits s.nums).card := Finset.card_pos.mpr ⟨c, mem_splits.mpr ⟨_, h.placed⟩⟩
  have hsucc : s.nums.length - (splits s.nums).card + 1 ≤ s.nums.length := by omega
  have hmul := Nat.mul_le_mul_right (s.nums.length + 1) hsucc
  rw [Nat.succ_mul] at hmul
  rw [remaining, ← hlength]
  split_ifs <;> omega

/-- An array whose last index is an `int`. The loop ends although `left` and `right` stay where
they are, since no call of `partition` moves an element out of its place in the order. -/
theorem runs_findKthLargest (h : Kept s.nums s) (hk : 1 ≤ k) (hkn : k ≤ s.nums.length)
    (hn : s.nums.length ≤ 2147483648) (hf : s.nums.length * (s.nums.length + 1) ≤ fuel) :
    Runs (findKthLargest fuel k) s fun x t => Kept s.nums t ∧
      (s.nums.insertionSort (· ≤ ·))[s.nums.length - k]? = some x := by
  have hsize : toSize k = k := toSize_natCast (by omega)
  have hfuel : s.nums.length ≤ fuel := (Nat.le_mul_of_pos_right _ (Nat.succ_pos _)).trans hf
  have hnonempty : s.nums ≠ [] := List.ne_nil_of_length_pos (hk.trans hkn)
  rw [findKthLargest, runs_bind, runs_get, if_neg (by omega), hsize, if_neg (by omega),
    toInt_of_lt (by omega), toInt_of_lt (by omega), runs_bind]
  refine (runs_partition_narrowed h (window_all hnonempty) (by omega)).mono ?_
  rintro _ t ⟨c, rfl, hnarrow, -⟩
  refine runs_loop (fun j (p : Int) t => ∃ c : Nat, p = c ∧ Narrowed s.nums c t ∧
    j = remaining (s.nums.length - k) c t.nums) ?_ ⟨c, rfl, hnarrow, rfl⟩
    ((remaining_le hnarrow).trans_le hf)
  rintro j _ t ⟨c, rfl, hnarrow, rfl⟩
  have hlength := hnarrow.perm.length_eq
  have hc := hnarrow.placed.lt
  by_cases hck : c = s.nums.length - k
  · rw [if_neg (by omega), runs_bind, runs_element (by omega), runs_pure, ← hck]
    refine ⟨hnarrow.toKept, ?_⟩
    rw [← hnarrow.placed.sorted, insertionSort_congr hnarrow.perm]
  rw [if_pos (by omega)]
  by_cases hgt : s.nums.length - k < c
  · have hpred : (c : Int) - 1 = (c - 1 : Nat) := by omega
    rw [if_pos (by omega), runs_bind, hpred]
    refine (runs_narrow (k := s.nums.length - k) hnarrow
      (window_before hnarrow.placed (by omega)) (by omega) hfuel).mono ?_
    rintro _ u ⟨q, rfl, hnarrow', hless⟩
    rw [runs_pure]
    exact ⟨_, hless, q, rfl, hnarrow', rfl⟩
  · have hwindow := window_after hnarrow.placed (by omega)
    rw [hlength] at hwindow
    rw [if_neg (by omega), runs_bind]
    refine (runs_narrow (k := s.nums.length - k) hnarrow hwindow (by omega) hfuel).mono ?_
    rintro _ u ⟨q, rfl, hnarrow', hless⟩
    rw [runs_pure]
    exact ⟨_, hless, q, rfl, hnarrow', rfl⟩

/-- Of a longer array the last index is not an `int`, and the conversion makes it negative. -/
theorem fails_findKthLargest (hk : k ≤ s.nums.length) (hn : 2147483648 < s.nums.length)
    (hle : s.nums.length ≤ 4294967296) : Fails (findKthLargest fuel k) s .outOfRange := by
  have hsize : toSize k = k := toSize_natCast (by omega)
  have hright : toInt (s.nums.length - 1) < 0 := by
    unfold toInt
    omega
  refine Runs.fails (runs_get.mpr ?_)
  rw [if_neg (by omega), hsize, if_neg (by omega)]
  refine Fails.bind (Runs.fails (runs_get.mpr (Runs.fails (runs_set.mpr (Fails.bind ?_)))))
  rw [element, if_pos hright]
  exact fails_fail

end

/-- The call ends and returns the `k`th largest element, counted with repetitions. The array is
a permutation of the one given at the end and at every call of `partition`, whose interval is
not empty and in range. -/
theorem findKthLargest_sorted (nums : List Int) (k fuel : Nat) (hk : 1 ≤ k)
    (hkn : k ≤ nums.length) (hn : nums.length ≤ 2147483648)
    (hf : nums.length * (nums.length + 1) ≤ fuel) :
    Runs (findKthLargest fuel k) ⟨nums, []⟩ fun x s => s.nums.Perm nums ∧
      (∀ call ∈ s.calls, 0 ≤ call.left ∧ call.left ≤ call.right ∧ call.right < nums.length ∧
        call.nums.Perm nums) ∧
      (nums.insertionSort (· ≤ ·))[nums.length - k]? = some x := by
  have hstart : Kept nums ⟨nums, []⟩ := ⟨List.Perm.refl nums, by simp⟩
  refine (runs_findKthLargest hstart hk hkn hn hf).mono ?_
  intro x s h
  exact ⟨h.1.perm, h.1.calls, h.2⟩

def sample : List Int := [3, 2, 1, 5, 6, 4]

theorem findKthLargest_sample :
    Runs (findKthLargest 42 (2 : Nat)) ⟨sample, []⟩ fun x s => s.nums.Perm sample ∧
      (∀ call ∈ s.calls, 0 ≤ call.left ∧ call.left ≤ call.right ∧ call.right < sample.length ∧
        call.nums.Perm sample) ∧
      (sample.insertionSort (· ≤ ·))[sample.length - 2]? = some x :=
  findKthLargest_sorted sample 2 42 (by decide) (by decide) (by decide) (by decide)

/-- Zeros, one more than an `int` can index. -/
def zeros : List Int := List.replicate 2147483649 0

theorem findKthLargest_zeros : zeros ≠ [] ∧ 1 ≤ zeros.length ∧
    ∀ fuel, Fails (findKthLargest fuel (1 : Nat)) ⟨zeros, []⟩ .outOfRange := by
  have hlength : zeros.length = 2147483649 := List.length_replicate
  have hone : 1 ≤ zeros.length := by omega
  refine ⟨List.ne_nil_of_length_pos hone, hone, fun fuel => ?_⟩
  exact fails_findKthLargest hone (by simpa only [hlength] using by decide)
    (by simpa only [hlength] using by decide)

end LanguageTest.KthLargest
