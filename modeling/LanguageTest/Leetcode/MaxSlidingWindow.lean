import LanguageTest.Library.Counting
import LanguageTest.Sort.HeapSort

namespace LanguageTest.MaxSlidingWindow
open Sorting
open HeapSort (State greater runs_greater)

/-- The first statements of `heapify`, up to the value of `maxId`. The shift is a division. -/
def maxIdOf (len index : Int) : Program State Int := do
  let left ← int (index / 2 + 1)
  let right ← int (index / 2 + 2)
  let maxId ← greater len left index
  greater len right maxId

def heapify (len : Int) : Nat → Int → Program State Unit
  | 0, _ => fail .outOfFuel
  | fuel + 1, index => do
    let maxId ← maxIdOf len index
    if maxId ≠ index then
      swapElements maxId index
      heapify len fuel maxId

/-- The vector `heap`, and the loop that fills it. -/
def fill (fuel : Nat) (nums : List Int) (k : Int) : Program State Unit := do
  let s ← get
  set { s with items := List.replicate k.toNat (0 : Int) }
  countUp fuel 0 sizeBound fun i => do assignElement i (← itemAt nums i)

def build (fuel : Nat) (k : Int) : Program State Unit :=
  countDown fuel (k / 2) 0 1 fun i => heapify k fuel i

/-- `if (heap[0] <= nums[i]) heap[0] = nums[i]`. -/
def raise (nums : List Int) (i : Int) : Program State Unit := do
  if (← element 0) ≤ (← itemAt nums i) then assignElement 0 (← itemAt nums i)

/-- The last loop, over `i` and `res`. -/
def slide (fuel : Nat) (nums : List Int) : Int × List Int → Program State (List Int) :=
  loop (fun (i, res) => do
    if i < nums.length then
      raise nums i
      let res := res ++ [← element 0]
      pure (.again (← int (i + 1), res))
    else pure (.done res)) fuel

def maxSlidingWindow (fuel : Nat) (nums : List Int) (k : Int) : Program State (List Int) := do
  if nums.length = 0 then pure []
  else if nums.length = 1 then pure [← itemAt nums 0]
  else if k ≤ 1 then pure [← itemAt nums 0]
  else
    fill fuel nums k
    build fuel k
    slide fuel nums (k, [← element 0])

def start : State := ⟨(), [], []⟩

/-- Every entry is the greatest number of its window. -/
structure Maxima (nums : List Int) (k : Nat) (res : List Int) : Prop where
  length : res.length = nums.length - k + 1
  upper : ∀ i p, i + k ≤ nums.length → i ≤ p → p < i + k → nums[p]! ≤ res[i]!
  mem : ∀ i, i + k ≤ nums.length → ∃ p, i ≤ p ∧ p < i + k ∧ nums[p]! = res[i]!

/-- `heapify` ends on these numbers: nothing has to go from 2 to 3, nor from 3 to 2, as it would
come back for ever. -/
structure Settles (k : Nat) (nums : List Int) : Prop where
  low : 3 < k → ∃ j, 3 ≤ j ∧ (j = 3 ∨ j ≤ k / 2) ∧ ∀ p, p < 3 → nums[j]! ≤ nums[p]!
  high : ∀ j, 3 ≤ j → j ≤ k / 2 → nums[2]! ≤ nums[j]!

/-- The numbers for which the result is right. -/
structure Works (nums : List Int) (k : Nat) : Prop where
  two : 2 ≤ k
  fits : nums.length < 2147483648
  settles : Settles k nums
  early : ∀ j, j < k → ∃ p, p < 3 ∧ p < k ∧ nums[j]! ≤ nums[p]!
  fresh : ∀ i j, i + k ≤ nums.length → j < i → ∃ p, i ≤ p ∧ p < i + k ∧ nums[j]! ≤ nums[p]!

/-- The index of the greatest of an element and those that the code takes for its children. -/
def pick (n i : Nat) (xs : List Int) : Nat :=
  let m := if i / 2 + 1 < n ∧ xs[i / 2 + 1]! > xs[i]! then i / 2 + 1 else i
  if i / 2 + 2 < n ∧ xs[i / 2 + 2]! > xs[m]! then i / 2 + 2 else m

/-- The value of `heapify` on a list, if it ends. -/
def heaped (n : Nat) : Nat → Nat → List Int → Option (List Int)
  | 0, _, _ => none
  | fuel + 1, i, xs =>
    if pick n i xs = i then some xs else heaped n fuel (pick n i xs) (swapped xs (pick n i xs) i)

/-- The passes for the indices below `p`. -/
def built (n fuel : Nat) : Nat → List Int → Option (List Int)
  | 0, xs => some xs
  | p + 1, xs => (heaped n fuel p xs).bind (built n fuel p)

section
variable {s : State} {fuel i j n p q : Nat} {xs ys zs g : List Int}

theorem pick_cases (n i : Nat) (xs : List Int) : pick n i xs = i ∨
    (pick n i xs = i / 2 + 1 ∨ pick n i xs = i / 2 + 2) ∧ pick n i xs < n ∧
      xs[i]! < xs[pick n i xs]! := by
  unfold pick
  dsimp only
  split_ifs with hleft hright hright
  · exact Or.inr ⟨Or.inr rfl, hright.1, hleft.2.trans hright.2⟩
  · exact Or.inr ⟨Or.inl rfl, hleft⟩
  · exact Or.inr ⟨Or.inr rfl, hright⟩
  · exact Or.inl rfl

theorem le_pick (n i : Nat) (xs : List Int) : xs[i]! ≤ xs[pick n i xs]! ∧
    (i / 2 + 1 < n → xs[i / 2 + 1]! ≤ xs[pick n i xs]!) ∧
      (i / 2 + 2 < n → xs[i / 2 + 2]! ≤ xs[pick n i xs]!) := by
  unfold pick
  dsimp only
  split_ifs with hleft hright hright
  · exact ⟨by omega, fun _ => by omega, fun _ => le_rfl⟩
  · exact ⟨by omega, fun _ => le_rfl, fun _ => by omega⟩
  · exact ⟨by omega, fun _ => by omega, fun _ => le_rfl⟩
  · exact ⟨le_rfl, fun _ => by omega, fun _ => by omega⟩

theorem heaped_of_eq (h : pick n i xs = i) : heaped n (fuel + 1) i xs = some xs := if_pos h

theorem heaped_of_ne (h : pick n i xs ≠ i) : heaped n (fuel + 1) i xs =
    heaped n fuel (pick n i xs) (swapped xs (pick n i xs) i) :=
  if_neg h

theorem runs_maxIdOf (hi : i < n) (hn : s.items.length = n) (hsmall : n < 2147483648) :
    Runs (maxIdOf n i) s fun m t => t.items = s.items ∧ m = pick n i s.items := by
  have hleft : (i : Int) / 2 + 1 = (i / 2 + 1 : Nat) := by omega
  have hright : (i : Int) / 2 + 2 = (i / 2 + 2 : Nat) := by omega
  rw [maxIdOf, runs_int_bind (by omega) (by omega), runs_int_bind (by omega) (by omega), runs_bind,
    hleft, hright]
  refine (runs_greater (by omega) (by omega)).mono ?_
  rintro _ t ⟨ht, rfl⟩
  have hm : (if i / 2 + 1 < n ∧ s.items[i / 2 + 1]! > s.items[i]! then i / 2 + 1 else i) <
      t.items.length := by
    rw [ht]
    split_ifs <;> omega
  refine (runs_greater hm (by rw [ht, hn])).mono ?_
  rintro _ u ⟨hu, rfl⟩
  rw [ht] at hu ⊢
  exact ⟨hu, rfl⟩

/-- `heapify` runs exactly as its value says. -/
theorem runs_heapify (hi : i < n) (hn : s.items.length = n) (hsmall : n < 2147483648)
    (h : heaped n fuel i s.items = some ys) :
    Runs (heapify n fuel i) s fun _ t => t.items = ys := by
  induction fuel generalizing i s with
  | zero => simp only [heaped, reduceCtorEq] at h
  | succ fuel ih =>
    rw [heapify, runs_bind]
    refine (runs_maxIdOf hi hn hsmall).mono ?_
    rintro _ t ⟨ht, rfl⟩
    rw [← ht] at hn h ⊢
    by_cases hm : pick n i t.items = i
    · rw [heaped_of_eq hm, Option.some_inj] at h
      rw [if_neg (by omega), runs_pure]
      exact h
    · obtain ⟨-, hlt, -⟩ := (pick_cases n i t.items).resolve_left hm
      rw [heaped_of_ne hm] at h
      rw [if_pos (by omega), runs_bind, runs_swapElements (by omega) (by omega)]
      exact ih (s := t.swap _ i) hlt (by rwa [Vec.swap_items, length_swapped]) h

theorem not_runs_heapify (hi : i < n) (hn : s.items.length = n) (hsmall : n < 2147483648)
    (h : heaped n fuel i s.items = none) {Q : Unit → State → Prop} :
    ¬ Runs (heapify n fuel i) s Q := by
  induction fuel generalizing i s with
  | zero => exact fun hruns => hruns.not_fails fails_fail
  | succ fuel ih =>
    intro hruns
    rw [heapify, runs_bind] at hruns
    obtain ⟨_, t, -, hrest, ht, rfl⟩ := hruns.and (runs_maxIdOf hi hn hsmall)
    rw [← ht] at hn h hrest
    by_cases hm : pick n i t.items = i
    · rw [heaped_of_eq hm] at h
      cases h
    · obtain ⟨-, hlt, -⟩ := (pick_cases n i t.items).resolve_left hm
      rw [heaped_of_ne hm] at h
      rw [if_pos (by omega), runs_bind, runs_swapElements (by omega) (by omega)] at hrest
      exact ih (s := t.swap _ i) hlt (by rwa [Vec.swap_items, length_swapped]) h hrest

/-- A greater number at 3 goes to 2 and back, and so on. -/
theorem heaped_swing (hn : xs.length = n) (h3 : 3 < n) :
    (xs[2]! < xs[3]! → heaped n fuel 2 xs = none) ∧
      (xs[3]! < xs[2]! → heaped n fuel 3 xs = none) := by
  induction fuel generalizing xs with
  | zero => exact ⟨fun _ => rfl, fun _ => rfl⟩
  | succ fuel ih =>
    constructor
    · intro hlt
      have hpick : pick n 2 xs = 3 := by
        have hle : xs[3]! ≤ xs[pick n 2 xs]! := (le_pick n 2 xs).2.2 h3
        rcases pick_cases n 2 xs with hm | ⟨hm | hm, -, hself⟩
        · rw [hm] at hle
          omega
        · rw [hm] at hself
          exact absurd hself (lt_irrefl _)
        · exact hm
      rw [heaped_of_ne (by omega), hpick]
      refine (ih (by rwa [length_swapped])).2 ?_
      rwa [getElem!_swapped (by omega) (by omega), getElem!_swapped (by omega) (by omega),
        if_neg (by omega), if_pos rfl, if_pos rfl]
    · intro hlt
      have hpick : pick n 3 xs = 2 := by
        have hle : xs[2]! ≤ xs[pick n 3 xs]! := (le_pick n 3 xs).2.1 (by omega)
        rcases pick_cases n 3 xs with hm | ⟨hm | hm, -, hself⟩
        · rw [hm] at hle
          omega
        · exact hm
        · rw [hm] at hself
          exact absurd hself (lt_irrefl _)
      rw [heaped_of_ne (by omega), hpick]
      refine (ih (by rwa [length_swapped])).1 ?_
      rwa [getElem!_swapped (by omega) (by omega), getElem!_swapped (by omega) (by omega),
        if_neg (by omega), if_pos rfl, if_pos rfl]

/-- From 3 on the indices go down, and what is not the least number of the range up to `i` is at
`i` in the end. -/
theorem heaped_high (hn : xs.length = n) (h3 : 3 ≤ i) (hi : i < n)
    (h : heaped n fuel i xs = some ys) : Rearranged 3 (i + 1) xs ys ∧
      (i = 3 → ys = xs ∧ xs[2]! ≤ xs[3]!) ∧ (3 < i → ∃ q, 3 ≤ q ∧ q < i ∧ ys[q]! ≤ ys[i]!) := by
  induction fuel generalizing i xs with
  | zero => simp only [heaped, reduceCtorEq] at h
  | succ fuel ih =>
    obtain ⟨hself, hleft, -⟩ := le_pick n i xs
    by_cases hm : pick n i xs = i
    · rw [heaped_of_eq hm, Option.some_inj] at h
      subst h
      rw [hm] at hleft
      refine ⟨Rearranged.refl, ?_, fun hlt => ⟨i / 2 + 1, by omega, by omega, hleft (by omega)⟩⟩
      rintro rfl
      exact ⟨rfl, hleft (by omega)⟩
    obtain ⟨hchild, hmn, hlt⟩ := (pick_cases n i xs).resolve_left hm
    by_cases h3i : i = 3
    · subst h3i
      have hdown : xs[3]! < xs[2]! := by
        rcases hchild with hchild | hchild
        · rwa [hchild] at hlt
        · rw [hchild] at hlt
          exact absurd hlt (lt_irrefl _)
      rw [(heaped_swing hn hi).2 hdown] at h
      cases h
    rw [heaped_of_ne hm] at h
    have hswap : Rearranged 3 (i + 1) xs (swapped xs (pick n i xs) i) :=
      Rearranged.swap (by omega) (by omega) (by omega) (by omega) h3 (Nat.lt_succ_self i)
    obtain ⟨hmoved, -, -⟩ := ih (by rwa [length_swapped]) (by omega) hmn h
    refine ⟨hswap.trans (hmoved.mono le_rfl (by omega)), fun he => absurd he h3i, fun _ => ?_⟩
    -- the number that was at `i` is still below
    obtain ⟨q, hq3, hq, hqe⟩ := hmoved.symm.source (k := pick n i xs) (by
      rw [hmoved.length_eq, length_swapped]
      omega) (by omega) (Nat.lt_succ_self _)
    rw [getElem!_swapped (by omega) (by omega), if_neg hm, if_pos rfl] at hqe
    refine ⟨q, hq3, by omega, ?_⟩
    rw [← hqe, hmoved.outside i (Or.inr (by omega)), getElem!_swapped (by omega) (by omega),
      if_pos rfl]
    exact hself

/-- It ends, unless a number goes to 3 that is less than the one at 2. -/
theorem heaped_high_ends (hn : xs.length = n) (h3 : 3 ≤ i) (hi : i < n) (hf : i < fuel + 3)
    (h : ∀ j, 3 ≤ j → j ≤ i → xs[2]! ≤ xs[j]!) : ∃ ys, heaped n fuel i xs = some ys := by
  induction fuel generalizing i xs with
  | zero => omega
  | succ fuel ih =>
    rcases pick_cases n i xs with hm | ⟨hchild, hmn, hlt⟩
    · exact ⟨xs, heaped_of_eq hm⟩
    · have hne : pick n i xs ≠ i := fun he => by rw [he] at hlt; exact lt_irrefl _ hlt
      have h2 := h i h3 le_rfl
      have hthree : 3 ≤ pick n i xs := by
        by_contra hcon
        have hpick : pick n i xs = 2 := by omega
        rw [hpick] at hlt
        omega
      rw [heaped_of_ne hne]
      refine ih (by rwa [length_swapped]) hthree hmn (by omega) fun j hj hji => ?_
      rw [getElem!_swapped (by omega) (by omega), getElem!_swapped (by omega) (by omega),
        if_neg (by omega), if_neg (by omega)]
      split_ifs
      · exact h _ hthree (by omega)
      · exact h2
      · exact h j hj (by omega)

/-- The first three numbers are those that one of them is compared with. -/
theorem le_pick_low (hi : i < 3) (hij : i ≤ j) (hj : j < min 3 n) :
    xs[j]! ≤ xs[pick n i xs]! := by
  obtain ⟨hself, hleft, hright⟩ := le_pick n i xs
  obtain rfl | rfl | rfl : i = 0 ∨ i = 1 ∨ i = 2 := by omega
  · obtain rfl | rfl | rfl : j = 0 ∨ j = 1 ∨ j = 2 := by omega
    · exact hself
    · exact hleft (by omega)
    · exact hright (by omega)
  · obtain rfl | rfl : j = 1 ∨ j = 2 := by omega
    · exact hself
    · exact hright (by omega)
  · obtain rfl : j = 2 := by omega
    exact hself

/-- Below 3 the indices go up, but not to 3. -/
theorem pick_low (hi : i < 3) (hm : pick n i xs ≠ i) (hle : 3 < n → i = 2 → xs[3]! ≤ xs[2]!) :
    i < pick n i xs ∧ pick n i xs < min 3 n := by
  obtain ⟨hchild, hmn, hlt⟩ := (pick_cases n i xs).resolve_left hm
  obtain rfl | rfl | rfl : i = 0 ∨ i = 1 ∨ i = 2 := by omega
  · omega
  · omega
  · rcases hchild with hchild | hchild
    · omega
    · rw [hchild] at hmn hlt
      exact absurd hlt (not_lt.mpr (hle hmn rfl))

/-- The greatest number from `i` on, but before 3, goes to `i`. -/
theorem heaped_low (hn : xs.length = n) (hi : i < 3) (hin : i < n)
    (h : heaped n fuel i xs = some ys) : Rearranged i (min 3 n) xs ys ∧
      (∀ j, i ≤ j → j < min 3 n → ys[j]! ≤ ys[i]!) ∧
        (3 < n → (∀ j, i < j → j < 3 → xs[3]! ≤ xs[j]!) →
          ∀ j, i ≤ j → j < 3 → xs[3]! ≤ ys[j]!) := by
  induction fuel generalizing i xs with
  | zero => simp only [heaped, reduceCtorEq] at h
  | succ fuel ih =>
    have hmax : ∀ j, i ≤ j → j < min 3 n → xs[j]! ≤ xs[pick n i xs]! :=
      fun j hij hj => le_pick_low hi hij hj
    by_cases hm : pick n i xs = i
    · rw [heaped_of_eq hm, Option.some_inj] at h
      subst h
      rw [hm] at hmax
      refine ⟨Rearranged.refl, hmax, fun h3 habove j hij hj => ?_⟩
      rcases Nat.eq_or_lt_of_le hij with rfl | hlt
      · by_cases h2 : i = 2
        · subst h2
          have hright : xs[3]! ≤ xs[pick n 2 xs]! := (le_pick n 2 xs).2.2 h3
          rwa [hm] at hright
        · exact (habove 2 (by omega) (by omega)).trans (hmax 2 (by omega) (by omega))
      · exact habove j hlt hj
    have hdown : 3 < n → i = 2 → xs[3]! ≤ xs[2]! := by
      rintro h3 rfl
      by_contra hcon
      rw [(heaped_swing hn h3).1 (not_le.mp hcon)] at h
      cases h
    obtain ⟨hlt, hmn⟩ := pick_low hi hm hdown
    rw [heaped_of_ne hm] at h
    have hswap : Rearranged i (min 3 n) xs (swapped xs (pick n i xs) i) :=
      Rearranged.swap (by omega) (by omega) (by omega) hmn le_rfl (by omega)
    obtain ⟨hmoved, -, hrest⟩ := ih (by rwa [length_swapped]) (by omega) (by omega) h
    have hall := hswap.trans (hmoved.mono hlt.le le_rfl)
    have hfirst : ys[i]! = xs[pick n i xs]! := by
      rw [hmoved.outside i (Or.inl hlt), getElem!_swapped (by omega) (by omega), if_pos rfl]
    refine ⟨hall, fun j hij hj => ?_, fun h3 habove j hij hj => ?_⟩
    · rw [hfirst]
      exact hall.bound (P := (· ≤ xs[pick n i xs]!)) (by omega) hmax hij hj
    have hthird : (swapped xs (pick n i xs) i)[3]! = xs[3]! := hswap.outside 3 (by omega)
    rw [hthird] at hrest
    by_cases hjm : pick n i xs ≤ j
    · refine hrest h3 (fun k hk hk3 => ?_) j hjm hj
      rw [getElem!_swapped (by omega) (by omega), if_neg (by omega), if_neg (by omega)]
      exact habove k (by omega) hk3
    · rw [hmoved.outside j (Or.inl (by omega)), getElem!_swapped (by omega) (by omega)]
      split_ifs with hji hjp
      · exact habove _ hlt (by omega)
      · omega
      · exact habove j (by omega) hj

/-- It ends, unless a number goes to 2 that is less than the one at 3. -/
theorem heaped_low_ends (hn : xs.length = n) (hi : i < 3) (hin : i < n) (hf : 3 ≤ fuel + i)
    (h : 3 < n → ∀ j, i ≤ j → j < 3 → xs[3]! ≤ xs[j]!) : ∃ ys, heaped n fuel i xs = some ys := by
  induction fuel generalizing i xs with
  | zero => omega
  | succ fuel ih =>
    by_cases hm : pick n i xs = i
    · exact ⟨xs, heaped_of_eq hm⟩
    obtain ⟨hlt, hmn⟩ := pick_low hi hm fun h3 hi2 => h h3 2 hi2.le (by omega)
    rw [heaped_of_ne hm]
    refine ih (by rwa [length_swapped]) (by omega) (by omega) (by omega) fun h3 j hij hj => ?_
    rw [getElem!_swapped (by omega) (by omega), getElem!_swapped (by omega) (by omega),
      if_neg (by omega), if_neg (by omega), if_neg (by omega)]
    split_ifs
    · exact h h3 i le_rfl hi
    · exact h h3 j (by omega) hj

/-- After the passes for the indices from 3 up to, but not at, `p`. -/
structure Sunk (p : Nat) (xs ys : List Int) : Prop where
  moved : Rearranged 3 p xs ys
  least : ∀ j, 3 ≤ j → j < p → ys[3]! ≤ ys[j]!
  above : 3 < p → ys[2]! ≤ ys[3]!

theorem sunk_three : Sunk 3 xs xs where
  moved := Rearranged.refl
  least _ hj hlt := absurd hj (not_le.mpr hlt)
  above h := absurd h (lt_irrefl 3)

/-- The pass for `p` comes before the others. -/
theorem Sunk.next (hn : xs.length = n) (h3 : 3 ≤ p) (hp : p < n)
    (h : heaped n fuel p xs = some ys) (hs : Sunk p ys zs) : Sunk (p + 1) xs zs := by
  obtain ⟨hmoved, hthree, hlow⟩ := heaped_high hn h3 hp h
  have hlength := hmoved.length_eq
  have hall := hmoved.trans (hs.moved.mono le_rfl (Nat.le_succ p))
  have hself : zs[p]! = ys[p]! := hs.moved.outside p (Or.inr le_rfl)
  refine ⟨hall, fun j hj hjp => ?_, fun _ => ?_⟩
  · rcases Nat.lt_succ_iff_lt_or_eq.mp hjp with hlt | rfl
    · exact hs.least j hj hlt
    rcases Nat.eq_or_lt_of_le h3 with rfl | hgt
    · exact le_rfl
    obtain ⟨q, hq3, hqj, hle⟩ := hlow hgt
    obtain ⟨r, hr3, hrj, hr⟩ := hs.moved.symm.source (by rw [hs.moved.length_eq]; omega) hq3 hqj
    rw [hself]
    refine (hs.least r hr3 hrj).trans ?_
    rwa [← hr]
  · rcases Nat.eq_or_lt_of_le h3 with rfl | hgt
    · have hzs : ∀ k, zs[k]! = ys[k]! := fun k => hs.moved.outside k (by omega)
      obtain ⟨rfl, hle⟩ := hthree rfl
      rwa [hzs, hzs]
    · exact hs.above hgt

/-- The passes down to 3, and those that are still to be made. -/
theorem built_sunk (hn : xs.length = n) (h3 : 3 ≤ p) (hp : p ≤ n)
    (h : built n fuel p xs = some ys) : ∃ g, built n fuel 3 g = some ys ∧ Sunk p xs g := by
  induction p, h3 using Nat.le_induction generalizing xs with
  | base => exact ⟨xs, h, sunk_three⟩
  | succ p h3 ih =>
    rw [built, Option.bind_eq_some_iff] at h
    obtain ⟨zs, hz, h⟩ := h
    have hlength := (heaped_high hn h3 hp hz).1.length_eq
    obtain ⟨g, hg, hs⟩ := ih (hlength.trans hn) (by omega) h
    exact ⟨g, hg, hs.next hn h3 hp hz⟩

theorem sunk_built (hn : xs.length = n) (h3 : 3 ≤ p) (hp : p ≤ n) (hf : n ≤ fuel)
    (h : ∀ j, 3 ≤ j → j < p → xs[2]! ≤ xs[j]!) :
    ∃ g, built n fuel p xs = built n fuel 3 g ∧ Sunk p xs g := by
  induction p, h3 using Nat.le_induction generalizing xs with
  | base => exact ⟨xs, rfl, sunk_three⟩
  | succ p h3 ih =>
    have hfuel : p < fuel + 3 := by omega
    obtain ⟨zs, hz⟩ := heaped_high_ends hn h3 hp hfuel fun j hj hjp => h j hj (by omega)
    have hmoved := (heaped_high hn h3 hp hz).1
    have htwo : zs[2]! = xs[2]! := hmoved.outside 2 (Or.inl (by omega))
    obtain ⟨g, hg, hs⟩ := ih (hmoved.length_eq.trans hn) (by omega) fun j hj hjp => by
      rw [htwo]
      exact hmoved.bound (P := (xs[2]! ≤ ·)) (by omega) (fun k hk hkp => h k hk (by omega)) hj
        (by omega)
    refine ⟨g, ?_, hs.next hn h3 hp hz⟩
    rw [built, hz, Option.bind_some, hg]

/-- The last passes bring the greatest of the first three numbers to the front. -/
theorem built_low (hn : xs.length = n) (hp : p ≤ min 3 n) (h : built n fuel p xs = some ys)
    (habove : 3 < n → ∀ j, p ≤ j → j < 3 → xs[3]! ≤ xs[j]!) :
    Rearranged 0 (min 3 n) xs ys ∧ (3 < n → ∀ j, j < 3 → xs[3]! ≤ ys[j]!) ∧
      (0 < p → ∀ j, j < min 3 n → ys[j]! ≤ ys[0]!) := by
  induction p generalizing xs with
  | zero =>
    obtain rfl := Option.some_inj.mp h
    exact ⟨Rearranged.refl, fun h3 j hj => habove h3 j (Nat.zero_le j) hj, fun hlt => absurd hlt
      (lt_irrefl 0)⟩
  | succ p ih =>
    rw [built, Option.bind_eq_some_iff] at h
    obtain ⟨zs, hz, h⟩ := h
    obtain ⟨hmoved, hmax, hnext⟩ := heaped_low hn (by omega) (by omega) hz
    have hthird : 3 < n → zs[3]! = xs[3]! := fun h3 => hmoved.outside 3 (by omega)
    have hbelow : 3 < n → ∀ j, p ≤ j → j < 3 → zs[3]! ≤ zs[j]! := by
      intro h3 j hpj hj
      rw [hthird h3]
      exact hnext h3 (fun k hk hk3 => habove h3 k hk hk3) j hpj hj
    obtain ⟨hlast, hall, hfirst⟩ := ih (hmoved.length_eq.trans hn) (by omega) h hbelow
    refine ⟨(hmoved.mono (Nat.zero_le p) le_rfl).trans hlast, fun h3 j hj => ?_, fun _ j hj => ?_⟩
    · rw [← hthird h3]
      exact hall h3 j hj
    · rcases Nat.eq_zero_or_pos p with rfl | hpos
      · obtain rfl := Option.some_inj.mp h
        exact hmax j (Nat.zero_le j) hj
      · exact hfirst hpos j hj

theorem built_low_ends (hn : xs.length = n) (hp : p ≤ min 3 n) (hf : 3 ≤ fuel)
    (habove : 3 < n → ∀ j, j < 3 → xs[3]! ≤ xs[j]!) : ∃ ys, built n fuel p xs = some ys := by
  induction p generalizing xs with
  | zero => exact ⟨xs, rfl⟩
  | succ p ih =>
    have hfuel : 3 ≤ fuel + p := by omega
    obtain ⟨zs, hz⟩ := heaped_low_ends hn (by omega) (by omega) hfuel fun h3 j _ hj =>
      habove h3 j hj
    obtain ⟨hmoved, -, -⟩ := heaped_low hn (by omega) (by omega) hz
    have hall := hmoved.mono (Nat.zero_le p) le_rfl
    obtain ⟨ys, hys⟩ := ih (hmoved.length_eq.trans hn) (by omega) fun h3 j hj => by
      rw [hmoved.outside 3 (by omega)]
      exact hall.bound (P := (xs[3]! ≤ ·)) (by omega) (fun k _ hk => habove h3 k (by omega))
        (Nat.zero_le j) (by omega)
    exact ⟨ys, by rw [built, hz, Option.bind_some, hys]⟩

/-- The number at the front is the greatest of the first three that there were. -/
structure Front (n : Nat) (xs ys : List Int) : Prop where
  length : ys.length = n
  upper : ∀ q, q < 3 → q < n → xs[q]! ≤ ys[0]!
  mem : ∃ q, q < 3 ∧ q < n ∧ xs[q]! = ys[0]!

theorem Front.of_low (hn : xs.length = n) (hpos : 0 < n) (h : Rearranged 0 (min 3 n) xs ys)
    (hmax : ∀ j, j < min 3 n → ys[j]! ≤ ys[0]!) : Front n xs ys := by
  refine ⟨h.length_eq.trans hn, ?_, ?_⟩
  · intro q hq3 hqn
    exact h.symm.bound (P := (· ≤ ys[0]!)) (by rw [h.length_eq]; omega) (fun k _ hk => hmax k hk)
      (Nat.zero_le q) (by omega)
  · obtain ⟨q, -, hq, he⟩ := h.source (by omega) (Nat.zero_le 0) (by omega)
    exact ⟨q, by omega, by omega, he.symm⟩

/-- If all passes end, then the numbers are as described, and the greatest of the first three is at
the front. -/
theorem settles_of_built (hn : xs.length = n) (h2 : 2 ≤ n)
    (h : built n fuel (n / 2 + 1) xs = some ys) : Settles n xs ∧ Front n xs ys := by
  by_cases h3 : 3 < n
  · obtain ⟨g, hg, hs⟩ := built_sunk hn (by omega) (by omega) h
    have hlength := hs.moved.length_eq.trans hn
    obtain ⟨hlow, hall, hmax⟩ := built_low hlength (by omega) hg fun _ j hj hj3 => by omega
    have hfirst : ∀ j, j < 3 → g[j]! = xs[j]! := fun j hj => hs.moved.outside j (Or.inl hj)
    have hfront := Front.of_low hlength (by omega) hlow (hmax (by omega))
    have hthird : ∀ q, q < 3 → g[3]! ≤ xs[q]! := by
      intro q hq
      obtain ⟨r, -, hr, he⟩ := hlow.symm.source (by rw [hlow.length_eq]; omega) (Nat.zero_le q)
        (show q < min 3 n by omega)
      rw [← hfirst q hq, he]
      exact hall h3 r (by omega)
    refine ⟨⟨fun _ => ?_, fun j hj hjn => ?_⟩, hfront.length, ?_, ?_⟩
    · obtain ⟨j, hj, hor⟩ := hs.moved.origin (by omega) 3
      rw [hj] at hthird
      exact ⟨j, by omega, by omega, hthird⟩
    · rw [← hfirst 2 (by omega)]
      refine (hs.above (by omega)).trans ?_
      exact hs.moved.symm.bound (P := (g[3]! ≤ ·)) (by rw [hs.moved.length_eq]; omega) hs.least hj
        (by omega)
    · intro q hq hqn
      rw [← hfirst q hq]
      exact hfront.upper q hq hqn
    · obtain ⟨q, hq, hqn, he⟩ := hfront.mem
      exact ⟨q, hq, hqn, (hfirst q hq).symm.trans he⟩
  · obtain ⟨hlow, -, hmax⟩ := built_low hn (by omega) h fun hlt => absurd hlt h3
    exact ⟨⟨fun hlt => absurd hlt h3, fun j hj hjn => by omega⟩,
      Front.of_low hn (by omega) hlow (hmax (by omega))⟩

theorem Settles.built (hn : xs.length = n) (h2 : 2 ≤ n) (hf : n < fuel) (h : Settles n xs) :
    ∃ ys, built n fuel (n / 2 + 1) xs = some ys := by
  by_cases h3 : 3 < n
  · obtain ⟨g, hg, hs⟩ := sunk_built (p := n / 2 + 1) hn (by omega) (by omega) hf.le
      fun j hj hjn => h.high j hj (by omega)
    rw [hg]
    refine built_low_ends (hs.moved.length_eq.trans hn) (by omega) (by omega) fun _ j hj => ?_
    obtain ⟨q, hq3, hqn, hle⟩ := h.low h3
    rw [hs.moved.outside j (Or.inl hj)]
    refine le_trans ?_ (hle j hj)
    by_cases hq : q < n / 2 + 1
    · exact hs.moved.symm.bound (P := (g[3]! ≤ ·)) (by rw [hs.moved.length_eq]; omega) hs.least
        hq3 hq
    · obtain rfl : q = 3 := by omega
      rw [hs.moved.outside 3 (by omega)]
  · exact built_low_ends hn (by omega) (by omega) fun hlt => absurd hlt h3

theorem length_heaped (hn : xs.length = n) (hi : i < n) (h : heaped n fuel i xs = some ys) :
    ys.length = n := by
  rcases Nat.lt_or_ge i 3 with h3 | h3
  · exact (heaped_low hn h3 hi h).1.length_eq.trans hn
  · exact (heaped_high hn h3 hi h).1.length_eq.trans hn

/-- The passes run exactly as their value says. -/
theorem runs_passes {m : Nat} (hn : s.items.length = n) (hsmall : n < 2147483648) (hp : p ≤ n)
    (hm : p < m) (h : built n fuel p s.items = some ys) :
    Runs (countDown m ((p : Int) - 1) 0 1 fun i => heapify n fuel i) s fun _ t =>
      t.items = ys := by
  induction m generalizing p s with
  | zero => omega
  | succ m ih =>
    rw [countDown, runs_loop_succ]
    rcases p with _ | p
    · rw [if_neg (by omega), runs_pure]
      exact Option.some_inj.mp h
    · have hcast : ((p + 1 : Nat) : Int) - 1 = (p : Int) := by push_cast; omega
      rw [built, Option.bind_eq_some_iff] at h
      obtain ⟨zs, hz, h⟩ := h
      rw [hcast, if_pos (by omega), runs_bind]
      refine (runs_heapify hp hn hsmall hz).mono ?_
      rintro _ t rfl
      rw [runs_pure]
      exact ih (length_heaped hn hp hz) (by omega) (by omega) h

theorem not_runs_passes {m : Nat} (hn : s.items.length = n) (hsmall : n < 2147483648) (hp : p ≤ n)
    (h : built n fuel p s.items = none) {Q : Unit → State → Prop} :
    ¬ Runs (countDown m ((p : Int) - 1) 0 1 fun i => heapify n fuel i) s Q := by
  induction m generalizing p s with
  | zero => exact fun hruns => hruns.not_fails fails_fail
  | succ m ih =>
    intro hruns
    rw [countDown, runs_loop_succ] at hruns
    rcases p with _ | p
    · cases h
    · have hcast : ((p + 1 : Nat) : Int) - 1 = (p : Int) := by push_cast; omega
      rw [hcast, if_pos (by omega), runs_bind] at hruns
      rw [built] at h
      cases hz : heaped n fuel p s.items with
      | none => exact not_runs_heapify hp hn hsmall hz hruns
      | some zs =>
        obtain ⟨_, t, -, hrest, rfl⟩ := hruns.and (runs_heapify hp hn hsmall hz)
        rw [hz, Option.bind_some] at h
        rw [runs_pure] at hrest
        exact ih (length_heaped hn hp hz) (by omega) h hrest

end

section
variable {nums res : List Int} {s : State} {fuel k d : Nat}

theorem runs_fill (hk : k ≤ nums.length) (hsmall : k < 2147483648) (hf : k < fuel) :
    Runs (fill fuel nums k) s fun _ t => t.items = nums.take k := by
  rw [fill, runs_bind, runs_get, runs_bind, runs_set, Int.toNat_natCast]
  refine (runs_countUp (l := 0) (n := k) (fun i (t : State) => t.items.length = k ∧
    ∀ j, j < i → t.items[j]! = nums[j]!) ?_ hsmall ?_ ⟨List.length_replicate, by simp⟩
    hf).mono ?_
  · rintro i t ⟨hlength, -⟩
    exact runs_sizeBound.mpr ⟨by rw [hlength, Int.toNat_natCast], rfl⟩
  · rintro i - hi t ⟨hlength, heq⟩
    rw [runs_bind, runs_itemAt (by omega), runs_assignElement (by omega)]
    refine ⟨List.length_set.trans hlength, fun j hj => ?_⟩
    rw [getElem!_set (by omega)]
    split_ifs with hji
    · rw [hji]
    · exact heq j (by omega)
  · rintro _ t ⟨hlength, heq⟩
    refine List.ext_getElem (by rw [hlength, List.length_take_of_le hk]) fun j hj _ => ?_
    rw [List.getElem_take, ← getElem!_pos t.items j hj, ← getElem!_pos nums j (by omega)]
    exact heq j (by omega)

/-- The numbers that the entry for `i` was compared with. -/
def Kept (k i p : Nat) : Prop := p < 3 ∧ p < k ∨ k ≤ p ∧ p < i + k

/-- The entries up to `d`. -/
structure Running (nums : List Int) (k d : Nat) (res : List Int) : Prop where
  length : res.length = d + 1
  upper : ∀ i p, i ≤ d → Kept k i p → nums[p]! ≤ res[i]!
  mem : ∀ i, i ≤ d → ∃ p, Kept k i p ∧ nums[p]! = res[i]!

theorem getElem!_concat {x : Int} (h : res.length = d) : (res ++ [x])[d]! = x := by
  rw [List.getElem!_eq_getElem?_getD, ← h, List.getElem?_concat_length, Option.getD_some]

theorem Running.next {x : Int} (h : Running nums k d res)
    (hx : x = max res[d]! nums[k + d]!) : Running nums k (d + 1) (res ++ [x]) := by
  have hlength := h.length
  have hlast : (res ++ [x])[d + 1]! = x := getElem!_concat hlength
  have hrest : ∀ i, i ≤ d → (res ++ [x])[i]! = res[i]! := by
    intro i hi
    rw [List.getElem!_eq_getElem?_getD, List.getElem?_append_left (by omega),
      ← List.getElem!_eq_getElem?_getD]
  constructor
  case length => rw [List.length_append, hlength, List.length_singleton]
  case upper =>
    intro i p hi hp
    rcases Nat.lt_succ_iff_lt_or_eq.mp (Nat.lt_succ_of_le hi) with hlt | rfl
    · rw [hrest i (by omega)]
      exact h.upper i p (by omega) hp
    · rw [hlast, hx]
      by_cases hpd : p = k + d
      · rw [hpd]
        exact le_max_right _ _
      · refine (h.upper d p le_rfl ?_).trans (le_max_left _ _)
        unfold Kept at hp ⊢
        omega
  case mem =>
    intro i hi
    rcases Nat.lt_succ_iff_lt_or_eq.mp (Nat.lt_succ_of_le hi) with hlt | rfl
    · rw [hrest i (by omega)]
      exact h.mem i (by omega)
    · rw [hlast, hx]
      rcases le_total nums[k + d]! res[d]! with hle | hle
      · obtain ⟨p, hp, he⟩ := h.mem d le_rfl
        refine ⟨p, ?_, he.trans (max_eq_left hle).symm⟩
        unfold Kept at hp ⊢
        omega
      · refine ⟨k + d, ?_, (max_eq_right hle).symm⟩
        unfold Kept
        omega

theorem runs_raise {i : Nat} (hpos : 0 < s.items.length) (hi : i < nums.length) :
    Runs (raise nums i) s fun _ t => t.items.length = s.items.length ∧
      t.items[0]! = max s.items[0]! nums[i]! := by
  have hzero : (0 : Int) = (0 : Nat) := rfl
  rw [raise, runs_bind, hzero, runs_element hpos, runs_bind, runs_itemAt hi]
  split_ifs with hle
  · rw [runs_bind, runs_itemAt hi, runs_assignElement (by rwa [Vec.touch_items])]
    refine ⟨List.length_set, ?_⟩
    rw [Vec.touch_items, getElem!_set hpos, if_pos rfl, max_eq_right hle]
  · rw [runs_pure]
    exact ⟨rfl, (max_eq_left (not_le.mp hle).le).symm⟩

/-- The loop keeps the greatest number so far at the front. -/
theorem runs_slide (hpos : 0 < s.items.length) (hk : k ≤ nums.length)
    (hsmall : nums.length < 2147483648) (hf : nums.length < fuel)
    (h : Running nums k 0 [s.items[0]!]) :
    Runs (slide fuel nums (k, [s.items[0]!])) s fun res _ =>
      Running nums k (nums.length - k) res := by
  refine runs_loop (k := nums.length - k) (fun v (p : Int × List Int) t => ∃ d : Nat,
    p.1 = (k + d : Nat) ∧ v = nums.length - k - d ∧ k + d ≤ nums.length ∧ 0 < t.items.length ∧
      p.2[d]! = t.items[0]! ∧ Running nums k d p.2) ?_
    ⟨0, rfl, rfl, hk, hpos, rfl, h⟩ (by omega)
  rintro _ ⟨_, res⟩ t ⟨d, rfl, rfl, hd, ht, hlast, hrun⟩
  dsimp only at hlast hrun ⊢
  split_ifs with hlt
  · have hcast : ((k + d : Nat) : Int) + 1 = (k + (d + 1) : Nat) := by push_cast; omega
    have hzero : (0 : Int) = (0 : Nat) := rfl
    rw [runs_bind]
    refine (runs_raise ht (by omega)).mono ?_
    rintro _ u ⟨hu, hmax⟩
    rw [runs_bind, hzero, runs_element (by omega), runs_int_bind (by omega) (by omega), runs_pure,
      hcast]
    have hnext := hrun.next (hlast ▸ hmax)
    exact ⟨nums.length - k - (d + 1), by omega, d + 1, rfl, rfl, by omega, hu ▸ ht,
      getElem!_concat hrun.length, hnext⟩
  · obtain rfl : nums.length - k = d := by omega
    exact runs_pure.mpr hrun

/-- No `int` reaches the end of a longer vector. -/
theorem not_runs_slide (hsmall : k < 2147483648) (hlarge : 2147483648 ≤ nums.length)
    {Q : List Int → State → Prop} : ¬ Runs (slide fuel nums (k, res)) s Q := by
  refine Ensures.not_runs ?_
  refine ensures_loop (fun (p : Int × List Int) _ => p.1 < 2147483648) ?_ (by omega)
  rintro ⟨i, res⟩ t hi
  dsimp only at hi ⊢
  rw [if_pos (by omega)]
  refine Ensures.bind fun _ u _ => Ensures.bind fun x v _ => Ensures.bind (ensures_int.mono ?_)
  rintro _ _ ⟨rfl, hint, rfl⟩
  exact ensures_pure hint.2

/-- What the result then has to do with the windows. -/
theorem Running.maxima_iff (hk : 1 ≤ k) (hkn : k ≤ nums.length)
    (h : Running nums k (nums.length - k) res) : Maxima nums k res ↔
      (∀ j, j < k → ∃ p, p < 3 ∧ p < k ∧ nums[j]! ≤ nums[p]!) ∧
        ∀ i j, i + k ≤ nums.length → j < i →
          ∃ p, i ≤ p ∧ p < i + k ∧ nums[j]! ≤ nums[p]! := by
  constructor
  · intro hmax
    have hearly : ∀ j, j < k → ∃ p, p < 3 ∧ p < k ∧ nums[j]! ≤ nums[p]! := by
      intro j hj
      obtain ⟨p, hp, he⟩ := h.mem 0 (Nat.zero_le _)
      have hle := hmax.upper 0 j (by omega) (Nat.zero_le j) (by omega)
      unfold Kept at hp
      exact ⟨p, by omega, by omega, he ▸ hle⟩
    refine ⟨hearly, fun i j hi hj => ?_⟩
    have hle : nums[j]! ≤ res[i]! := by
      by_cases hjk : j < k
      · obtain ⟨p, hp3, hpk, hle⟩ := hearly j hjk
        exact hle.trans (h.upper i p (by omega) (Or.inl ⟨hp3, hpk⟩))
      · exact h.upper i j (by omega) (Or.inr ⟨by omega, by omega⟩)
    obtain ⟨p, hip, hp, he⟩ := hmax.mem i hi
    exact ⟨p, hip, hp, he ▸ hle⟩
  · rintro ⟨hearly, hfresh⟩
    have hupper : ∀ i p, i + k ≤ nums.length → i ≤ p → p < i + k → nums[p]! ≤ res[i]! := by
      intro i p hi hip hp
      by_cases hpk : p < k
      · obtain ⟨q, hq3, hqk, hle⟩ := hearly p hpk
        exact hle.trans (h.upper i q (by omega) (Or.inl ⟨hq3, hqk⟩))
      · exact h.upper i p (by omega) (Or.inr ⟨by omega, hp⟩)
    refine ⟨h.length, hupper, fun i hi => ?_⟩
    obtain ⟨p, hp, he⟩ := h.mem i (by omega)
    unfold Kept at hp
    by_cases hip : i ≤ p
    · exact ⟨p, hip, by omega, he⟩
    · obtain ⟨q, hiq, hq, hle⟩ := hfresh i p hi (by omega)
      exact ⟨q, hiq, hq, le_antisymm (hupper i q hi hiq hq) (he ▸ hle)⟩

/-- The greatest of the first three numbers is the first entry. -/
theorem Front.running {ys : List Int} (h : Front k (nums.take k) ys) :
    Running nums k 0 [ys[0]!] := by
  refine ⟨rfl, fun i p hi hp => ?_, fun i hi => ?_⟩
  · obtain rfl : i = 0 := by omega
    unfold Kept at hp
    rw [← getElem!_take (show p < k by omega)]
    exact h.upper p (by omega) (by omega)
  · obtain rfl : i = 0 := by omega
    obtain ⟨q, hq3, hqk, he⟩ := h.mem
    refine ⟨q, Or.inl ⟨hq3, hqk⟩, ?_⟩
    rw [← getElem!_take hqk]
    exact he

theorem Settles.congr {xs : List Int} (h : Settles k xs) (heq : ∀ j, j < k → nums[j]! = xs[j]!) :
    Settles k nums := by
  refine ⟨fun h3 => ?_, fun j hj hjk => ?_⟩
  · obtain ⟨j, hj3, hj, hle⟩ := h.low h3
    refine ⟨j, hj3, hj, fun p hp => ?_⟩
    rw [heq j (by omega), heq p (by omega)]
    exact hle p hp
  · rw [heq 2 (by omega), heq j (by omega)]
    exact h.high j hj hjk

/-- If the first window settles, the greatest of its first three numbers comes to the front. -/
theorem runs_build (hint : k < 2147483648) (h2 : 2 ≤ k) (hkn : k ≤ nums.length) (hf : k < fuel)
    (hs : s.items = nums.take k) (h : Settles k nums) :
    Runs (build fuel k) s fun _ t => Front k (nums.take k) t.items := by
  have hhalf : (k : Int) / 2 = ((k / 2 + 1 : Nat) : Int) - 1 := by push_cast; omega
  have hlength : s.items.length = k := by rw [hs, List.length_take_of_le hkn]
  have hsettles : Settles k s.items := h.congr fun j hj => hs ▸ getElem!_take hj
  obtain ⟨ys, hb⟩ := hsettles.built hlength h2 hf
  have hfront := (settles_of_built hlength h2 hb).2
  rw [build, hhalf]
  refine (runs_passes hlength hint (by omega) (by omega) hb).mono ?_
  rintro _ t rfl
  rwa [← hs]

/-- And otherwise it does not end. -/
theorem settles_of_runs (hint : k < 2147483648) (h2 : 2 ≤ k) (hkn : k ≤ nums.length)
    (hs : s.items = nums.take k) {Q : Unit → State → Prop} (h : Runs (build fuel k) s Q) :
    Settles k nums := by
  have hhalf : (k : Int) / 2 = ((k / 2 + 1 : Nat) : Int) - 1 := by push_cast; omega
  have hlength : s.items.length = k := by rw [hs, List.length_take_of_le hkn]
  rw [build, hhalf] at h
  cases hb : built k fuel (k / 2 + 1) s.items with
  | none => exact (not_runs_passes hlength hint (by omega) hb h).elim
  | some ys =>
    have hsettles := (settles_of_built hlength h2 hb).1
    rw [hs] at hsettles
    exact hsettles.congr fun j hj => (getElem!_take hj).symm

/-- The result is right exactly then. The passes end for what `Settles` says, and bring the greatest
of the first three numbers to the front; nothing is ever taken from there. -/
theorem maxSlidingWindow_maxima_iff (hint : k < 2147483648) (hk : 1 ≤ k) (hkn : k ≤ nums.length)
    (hf : nums.length < fuel) :
    Runs (maxSlidingWindow fuel nums k) start (fun res _ => Maxima nums k res) ↔
      nums.length = 1 ∨ Works nums k := by
  have hlen : nums.length ≠ 0 := by omega
  have hzero : (0 : Int) = (0 : Nat) := rfl
  rw [maxSlidingWindow, if_neg hlen]
  by_cases hone : nums.length = 1
  · obtain rfl : k = 1 := by omega
    refine iff_of_true ?_ (Or.inl hone)
    rw [if_pos hone, hzero, runs_bind, runs_itemAt (by omega), runs_pure]
    refine ⟨by rw [hone]; rfl, fun i p hi hip hp => ?_, fun i hi => ?_⟩
    · obtain ⟨rfl, rfl⟩ : i = 0 ∧ p = 0 := by omega
      exact le_rfl
    · obtain rfl : i = 0 := by omega
      exact ⟨0, le_rfl, Nat.one_pos, rfl⟩
  rw [if_neg hone, or_iff_right hone]
  by_cases h2 : 2 ≤ k
  · rw [if_neg (by omega), runs_bind]
    have hfill := runs_fill (s := start) hkn hint (show k < fuel by omega)
    constructor
    · intro h
      obtain ⟨_, t, -, h, ht⟩ := h.and hfill
      rw [runs_bind] at h
      have hsettles := settles_of_runs hint h2 hkn ht h
      obtain ⟨_, u, -, h, hfront⟩ := h.and (runs_build hint h2 hkn (by omega) ht hsettles)
      have hlength := hfront.length
      rw [runs_bind, hzero, runs_element (by omega)] at h
      by_cases hfits : nums.length < 2147483648
      · have hpos : 0 < (u.touch 0).items.length := by
          rw [Vec.touch_items]
          omega
        obtain ⟨res, _, -, hmax, hrun⟩ := h.and (runs_slide hpos hkn hfits hf hfront.running)
        obtain ⟨hearly, hfresh⟩ := (hrun.maxima_iff hk hkn).mp hmax
        exact ⟨h2, hfits, hsettles, hearly, hfresh⟩
      · exact (not_runs_slide hint (by omega) h).elim
    · intro h
      refine hfill.mono ?_
      rintro _ t ht
      rw [runs_bind]
      refine (runs_build hint h2 hkn (by omega) ht h.settles).mono ?_
      rintro _ u hfront
      have hlength := hfront.length
      rw [runs_bind, hzero, runs_element (by omega)]
      have hpos : 0 < (u.touch 0).items.length := by
        rw [Vec.touch_items]
        omega
      refine (runs_slide hpos hkn h.fits hf hfront.running).mono ?_
      exact fun res _ hrun => (hrun.maxima_iff hk hkn).mpr ⟨h.early, h.fresh⟩
  · obtain rfl : k = 1 := by omega
    refine iff_of_false (fun h => ?_) fun h => absurd h.two h2
    rw [if_pos (by omega), hzero, runs_bind, runs_itemAt (by omega), runs_pure] at h
    have hlength := h.length
    rw [List.length_singleton] at hlength
    omega

theorem maxSlidingWindow_maxima_iff_three :
    Runs (maxSlidingWindow 9 [1, 3, -1, -3, 5, 3, 6, 7] 3) start
      (fun res _ => Maxima [1, 3, -1, -3, 5, 3, 6, 7] 3 res) ↔
        [1, 3, -1, -3, 5, 3, 6, 7].length = 1 ∨ Works [1, 3, -1, -3, 5, 3, 6, 7] 3 :=
  maxSlidingWindow_maxima_iff (by decide) (by decide) (by decide) (by decide)

example : ((maxSlidingWindow 9 [1, 3, -1, -3, 5, 3, 6, 7] 3).run start).toOption.map Prod.fst =
    some [3, 3, 5, 5, 6, 7] := by
  decide +kernel

/-- The 3 is not in the second window. -/
theorem maxSlidingWindow_expired : Runs (maxSlidingWindow 4 [3, 1, 2] 2) start fun res _ =>
    res = [3, 3] ∧ ¬ Maxima [3, 1, 2] 2 res := by
  refine ⟨[3, 3], _, rfl, rfl, fun h => ?_⟩
  obtain ⟨p, h1, h3, he⟩ := h.mem 1 (by decide)
  obtain rfl | rfl : p = 1 ∨ p = 2 := by omega
  · exact absurd he (by decide)
  · exact absurd he (by decide)

end

end LanguageTest.MaxSlidingWindow
