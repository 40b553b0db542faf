import LanguageTest.Library.Bisection
import LanguageTest.Library.Ranks

namespace LanguageTest.BinarySearch
open Bisection Sorting

variable {σ : Type}

/-- One pass of `binarySearch`. -/
def passOne (data : List Int) (key : Int) (v : Int × Int) : Program σ (Step (Int × Int) Int) := do
  let (low, high) := v
  if low ≤ high then
    let mid := (← int (low + high)).tdiv 2
    if (← itemAt data mid) = key then pure (.done mid)
    else if (← itemAt data mid) < key then pure (.again (← int (mid + 1), high))
    else pure (.again (low, ← int (mid - 1)))
  else pure (.done (-1))

def binarySearch (fuel : Nat) (data : List Int) (len key : Int) : Program σ Int := do
  let high ← int (len - 1)
  loop (passOne data key) fuel (0, high)

/-- The index that the comparison of an index with the key stands for. -/
def flag (mid key : Int) : Nat := if mid > key then 1 else 0

/-- One pass of `binarySearch2`. -/
def passTwo (data : List Int) (key : Int) (v : Int × Int) : Program σ (Step (Int × Int) Int) := do
  let (left, right) := v
  if left ≤ right then
    let mid := (← int (left + right)) >>> (1 : Nat)
    if (← itemAt data mid) = key then pure (.done mid)
    else
      let left ← if (← itemAt data mid) < key then int (mid + 1) else pure left
      -- the index is the result of a comparison
      let right ← if (← itemAt data (flag mid key)) ≠ 0 then int (mid - 1) else pure right
      pure (.again (left, right))
  else pure (.done (-1))

def binarySearch2 (fuel : Nat) (data : List Int) (len key : Int) : Program σ Int := do
  let right ← int (len - 1)
  loop (passTwo data key) fuel (0, right)

/-- One pass of `binarySearch3`. -/
def passThree (data : List Int) (key : Int) (v : Int × Int) :
    Program σ (Step (Int × Int) Int) := do
  let (left, right) := v
  if left ≤ right then
    let mid ← int (left + (← int (right - left)) >>> (1 : Nat))
    if (← itemAt data mid) = key then pure (.done mid)
    else
      let right ← if (← itemAt data mid) > key then int (mid - 1) else pure right
      let left ← if (← itemAt data mid) < key then int (mid + 1) else pure left
      pure (.again (left, right))
  else pure (.done (-1))

def binarySearch3 (fuel : Nat) (data : List Int) (len key : Int) : Program σ Int := do
  let right ← int (len - 1)
  loop (passThree data key) fuel (0, right)

/-- One pass of `search`. -/
def passFour (nums : List Int) (target : Int) (v : Int × Int) :
    Program σ (Step (Int × Int) Int) := do
  let (left, right) := v
  if left ≤ right then
    let mid := (← int (left + right)) >>> (1 : Nat)
    if (← itemAt nums mid) = target then pure (.done mid)
    else if (← itemAt nums mid) > target then pure (.again (left, ← int (mid - 1)))
    else pure (.again (← int (mid + 1), right))
  else pure (.done (-1))

def search (fuel : Nat) (nums : List Int) (target : Int) : Program σ Int :=
  if nums.length = 0 then pure (-1)
  else loop (passFour nums target) fuel (0, toInt (toSize ((nums.length : Int) - 1)))

/-- The index of the key, or -1. -/
def IsIndex (data : List Int) (key r : Int) : Prop :=
  (∃ k : Nat, r = k ∧ k < data.length ∧ data[k]! = key) ∨ (r = -1 ∧ key ∉ data)

/-- The ranges that a bisection for the key comes to. -/
def Visited (data : List Int) (key : Int) (l r : Nat) : Prop :=
  Reached (fun m => data[m]! < key) (fun m => key < data[m]!) data.length l r

/-- Those that `binarySearch2` comes to. It goes on above a middle only where the element of the
flag is 0, and below one only where it is not. -/
def Visited2 (data : List Int) (key : Int) (l r : Nat) : Prop :=
  Reached (fun m => data[m]! < key ∧ data[flag m key]! = 0)
    (fun m => key < data[m]! ∧ data[flag m key]! ≠ 0) data.length l r

/-- What `binarySearch2` needs at a middle that is not the key. -/
structure Harmless (data : List Int) (key : Int) (m : Nat) : Prop where
  inside : flag m key < data.length
  below : key < data[m]! → data[flag m key]! ≠ 0
  above : data[m]! < key → key ∈ data → data[flag m key]! = 0

/-- What a pass of a bisection over a range decides. -/
def Outcome (data : List Int) (key : Int) (l r : Nat) (v : Step (Int × Int) Int) : Prop :=
  data[middle l r]! = key ∧ v = .done (middle l r) ∨
    data[middle l r]! < key ∧ v = .again (ends (middle l r + 1) r) ∨
    key < data[middle l r]! ∧ v = .again (ends l (middle l r))

/-- A pass of a bisection over a range, when `ok` holds of it, and no pass otherwise. -/
structure Bisects (data : List Int) (key : Int) (ok : Nat → Nat → Prop)
    (body : Int × Int → Program σ (Step (Int × Int) Int)) : Prop where
  pass : ∀ {l r s}, l < r → r ≤ data.length → ok l r →
    Runs (body (ends l r)) s fun v t => t = s ∧ Outcome data key l r v
  stop : ∀ {l r s}, l < r → r ≤ data.length → ¬ ok l r → ¬ Runs (body (ends l r)) s fun _ _ => True
  last : ∀ {l s}, Runs (body (ends l l)) s fun v t => v = .done (-1) ∧ t = s

section
variable {data : List Int} {key : Int} {l r m fuel : Nat} {s : σ}
  {body : Int × Int → Program σ (Step (Int × Int) Int)} {ok : Nat → Nat → Prop}

theorem runs_sum {α : Type} {k : Int → Program σ α} {Q : α → σ → Prop} (hlt : l < r) :
    Runs (int ((l : Int) + ((r : Int) - 1)) >>= k) s Q ↔
      l + r ≤ 2147483648 ∧ Runs (k (l + r - 1 : Nat)) s Q := by
  have hsum : (l : Int) + ((r : Int) - 1) = (l + r - 1 : Nat) := by omega
  rw [runs_bind, runs_int_iff, hsum]
  exact and_congr_left fun _ => ⟨fun h => by have := h.2; omega, fun h => ⟨by omega, by omega⟩⟩

theorem middle_eq_tdiv : ((l + r - 1 : Nat) : Int).tdiv 2 = middle l r := rfl

theorem middle_eq_shift : ((l + r - 1 : Nat) : Int) >>> (1 : Nat) = middle l r := by
  rw [Int.shiftRight_eq_div_pow]
  rfl

theorem runs_next {α : Type} {k : Int → Program σ α} {Q : α → σ → Prop} (hm : m < 2147483647) :
    Runs (int ((m : Int) + 1) >>= k) s Q ↔ Runs (k (m + 1 : Nat)) s Q :=
  runs_int_bind (by omega) (by omega)

theorem runs_previous {α : Type} {k : Int → Program σ α} {Q : α → σ → Prop}
    (hm : m ≤ 2147483647) : Runs (int ((m : Int) - 1) >>= k) s Q ↔ Runs (k ((m : Int) - 1)) s Q :=
  runs_int_bind (by omega) (by omega)

theorem bisects_passOne (hlen : data.length ≤ 2147483647) :
    Bisects data key (fun l r => l + r ≤ 2147483648) (passOne (σ := σ) data key) where
  pass := by
    intro l r s hlt hr hok
    have hm := middle_lt hlt
    rw [ends, passOne]
    dsimp only
    rw [if_pos (by omega), runs_sum hlt, and_iff_right hok, middle_eq_tdiv, runs_bind,
      runs_itemAt (by omega)]
    split_ifs with heq
    · exact runs_pure.mpr ⟨rfl, Or.inl ⟨heq, rfl⟩⟩
    · rw [runs_bind, runs_itemAt (by omega)]
      split_ifs with hless
      · rw [runs_next (by omega), runs_pure]
        exact ⟨rfl, Or.inr (Or.inl ⟨hless, rfl⟩)⟩
      · rw [runs_previous (by omega), runs_pure]
        exact ⟨rfl, Or.inr (Or.inr ⟨by omega, rfl⟩)⟩
  stop := by
    intro l r s hlt hr hok h
    rw [ends, passOne] at h
    dsimp only at h
    rw [if_pos (by omega), runs_sum hlt] at h
    exact hok h.1
  last := by
    intro l s
    rw [ends, passOne]
    dsimp only
    rw [if_neg (by omega), runs_pure]
    exact ⟨rfl, rfl⟩

theorem bisects_passThree (hlen : data.length ≤ 2147483647) :
    Bisects data key (fun _ _ => True) (passThree (σ := σ) data key) where
  pass := by
    intro l r s hlt hr _
    have hm := middle_lt hlt
    have hdiff : (r : Int) - 1 - l = (r - 1 - l : Nat) := by omega
    have hhalf : ((r - 1 - l : Nat) : Int) >>> (1 : Nat) = ((r - 1 - l) / 2 : Nat) := by
      rw [Int.shiftRight_eq_div_pow]
      rfl
    have hmid : (l : Int) + ((r - 1 - l) / 2 : Nat) = middle l r := by
      unfold middle
      omega
    rw [ends, passThree]
    dsimp only
    rw [if_pos (by omega), runs_int_bind (by omega) (by omega), hdiff, hhalf,
      runs_int_bind (by omega) (by omega), hmid, runs_bind, runs_itemAt (by omega)]
    split_ifs with heq
    · exact runs_pure.mpr ⟨rfl, Or.inl ⟨heq, rfl⟩⟩
    · rw [runs_bind, runs_itemAt (by omega)]
      rcases Int.lt_or_gt_of_ne heq with hless | hgreater
      · rw [if_neg (by omega), runs_bind, runs_pure, runs_bind, runs_itemAt (by omega),
          if_pos hless, runs_next (by omega), runs_pure]
        exact ⟨rfl, Or.inr (Or.inl ⟨hless, rfl⟩)⟩
      · rw [if_pos hgreater, runs_previous (by omega), runs_bind, runs_itemAt (by omega),
          if_neg (by omega), runs_bind, runs_pure, runs_pure]
        exact ⟨rfl, Or.inr (Or.inr ⟨hgreater, rfl⟩)⟩
  stop := fun _ _ hok => absurd trivial hok
  last := by
    intro l s
    rw [ends, passThree]
    dsimp only
    rw [if_neg (by omega), runs_pure]
    exact ⟨rfl, rfl⟩

theorem bisects_passFour (hlen : data.length ≤ 2147483647) :
    Bisects data key (fun l r => l + r ≤ 2147483648) (passFour (σ := σ) data key) where
  pass := by
    intro l r s hlt hr hok
    have hm := middle_lt hlt
    rw [ends, passFour]
    dsimp only
    rw [if_pos (by omega), runs_sum hlt, and_iff_right hok, middle_eq_shift, runs_bind,
      runs_itemAt (by omega)]
    split_ifs with heq
    · exact runs_pure.mpr ⟨rfl, Or.inl ⟨heq, rfl⟩⟩
    · rw [runs_bind, runs_itemAt (by omega)]
      split_ifs with hgreater
      · rw [runs_previous (by omega), runs_pure]
        exact ⟨rfl, Or.inr (Or.inr ⟨hgreater, rfl⟩)⟩
      · rw [runs_next (by omega), runs_pure]
        exact ⟨rfl, Or.inr (Or.inl ⟨by omega, rfl⟩)⟩
  stop := by
    intro l r s hlt hr hok h
    rw [ends, passFour] at h
    dsimp only at h
    rw [if_pos (by omega), runs_sum hlt] at h
    exact hok h.1
  last := by
    intro l s
    rw [ends, passFour]
    dsimp only
    rw [if_neg (by omega), runs_pure]
    exact ⟨rfl, rfl⟩

theorem sorted_of_strict (hs : data.Pairwise (· < ·)) : SortedIn 0 data.length data :=
  sortedIn_of_pairwise (hs.imp Int.le_of_lt)

theorem Bisects.ensures (h : Bisects data key ok body) (hlt : l < r) (hr : r ≤ data.length) :
    Ensures (body (ends l r)) s fun v t => t = s ∧ Outcome data key l r v := by
  by_cases hok : ok l r
  · exact (h.pass hlt hr hok).ensures
  · exact ensures_of_not_runs (h.stop hlt hr hok)

theorem Outcome.above {v : Step (Int × Int) Int} (h : Outcome data key l r v)
    (hless : data[middle l r]! < key) : v = .again (ends (middle l r + 1) r) := by
  rcases h with ⟨heq, -⟩ | ⟨-, hnext⟩ | ⟨hgreater, -⟩
  · omega
  · exact hnext
  · omega

theorem Outcome.below {v : Step (Int × Int) Int} (h : Outcome data key l r v)
    (hgreater : key < data[middle l r]!) : v = .again (ends l (middle l r)) := by
  rcases h with ⟨heq, -⟩ | ⟨hless, -⟩ | ⟨-, hnext⟩
  · omega
  · omega
  · exact hnext

/-- The number of lesser elements is not beyond a greater one, and is before it when it is the
index of the key. -/
theorem less_le_of_greater (hs : data.Pairwise (· < ·)) (hgreater : key < data[m]!) :
    less key data ≤ m ∧ (key ∈ data → less key data < m) := by
  have hsorted := sorted_of_strict hs
  have hle : less key data ≤ m := hsorted.less_le (Int.le_of_lt hgreater)
  refine ⟨hle, fun hmem => Nat.lt_of_le_of_ne hle fun heq => ?_⟩
  have hkey := (hsorted.mem_iff.mp hmem).2
  rw [heq] at hkey
  omega

/-- A bisection that gets through every range that it comes to finds the index, and no other
bisection ends so. -/
theorem Bisects.runs_iff (h : Bisects data key ok body) (hs : data.Pairwise (· < ·))
    (hf : data.length < fuel) :
    (Runs (loop body fuel (ends 0 data.length)) s fun r _ => IsIndex data key r) ↔
      ∀ l r, Visited data key l r → l < r → ok l r := by
  have hsorted := sorted_of_strict hs
  constructor
  · intro hr l r hv hlt
    by_contra hok
    obtain ⟨_, hend⟩ := hv.runs
      (fun l r t hlt hr hm => (h.ensures hlt hr).mono fun v u hv => ⟨hv.2.above hm, hv.1⟩)
      (fun l r t hlt hr hm => (h.ensures hlt hr).mono fun v u hv => ⟨hv.2.below hm, hv.1⟩) hr
    exact h.stop hlt hv.bounds.2 hok (hend.pass.mono fun _ _ _ => trivial)
  · intro hok
    refine runs_bisect (c := less key data) (fun l r _ => Visited data key l r ∧
      (key ∈ data → less key data < r)) ?_ ?_ List.countP_le_length
      ⟨.start, fun hmem => (hsorted.mem_iff.mp hmem).1⟩ hf
    · rintro l r t - - hr hlt ⟨hv, hbound⟩
      have hm := middle_lt hlt
      have hiff := hsorted.lt_less_iff (x := key) (p := middle l r) (by omega)
      refine (h.pass hlt hr (hok l r hv hlt)).mono ?_
      rintro v u ⟨rfl, ⟨heq, rfl⟩ | ⟨hless, rfl⟩ | ⟨hgreater, rfl⟩⟩
      · exact Or.inl ⟨middle l r, rfl, by omega, heq⟩
      · exact Or.inl ⟨hiff.mpr hless, rfl, hv.right hlt hless, hbound⟩
      · obtain ⟨hle, hbefore⟩ := less_le_of_greater hs hgreater
        exact Or.inr (Or.inl ⟨hle, rfl, hv.left hlt hgreater, hbefore⟩)
    · rintro t ⟨-, hbound⟩
      refine h.last.mono ?_
      rintro _ _ ⟨rfl, rfl⟩
      exact Or.inr ⟨rfl, fun hmem => Nat.lt_irrefl _ (hbound hmem)⟩

/-- The variables after a pass of `binarySearch2` whose middle is not the key. -/
def nextTwo (data : List Int) (key : Int) (l r : Nat) : Int × Int :=
  (if data[middle l r]! < key then ((middle l r + 1 : Nat) : Int) else l,
    if data[flag (middle l r) key]! ≠ 0 then (middle l r : Int) - 1 else (r : Int) - 1)

theorem runs_passTwo {Q : Step (Int × Int) Int → σ → Prop} (hlen : data.length ≤ 2147483647)
    (hlt : l < r) (hr : r ≤ data.length) :
    Runs (passTwo data key (ends l r)) s Q ↔ l + r ≤ 2147483648 ∧
      if data[middle l r]! = key then Q (.done (middle l r)) s
      else flag (middle l r) key < data.length ∧ Q (.again (nextTwo data key l r)) s := by
  have hm := middle_lt hlt
  rw [ends, passTwo]
  dsimp only
  rw [if_pos (by omega), runs_sum hlt]
  refine and_congr_right fun hok => ?_
  rw [middle_eq_shift, runs_bind, runs_itemAt (by omega)]
  split_ifs with heq
  · exact runs_pure
  · rw [runs_bind, runs_itemAt (by omega), nextTwo]
    by_cases hflag : flag (middle l r) key < data.length
    · rw [and_iff_right hflag]
      split_ifs with hless hzero hzero
      · rw [runs_next (by omega), runs_bind, runs_itemAt hflag, if_pos hzero,
          runs_previous (by omega), runs_pure]
      · rw [runs_next (by omega), runs_bind, runs_itemAt hflag, if_neg hzero, runs_bind, runs_pure,
          runs_pure]
      · rw [runs_bind, runs_pure, runs_bind, runs_itemAt hflag, if_pos hzero,
          runs_previous (by omega), runs_pure]
      · rw [runs_bind, runs_pure, runs_bind, runs_itemAt hflag, if_neg hzero, runs_bind, runs_pure,
          runs_pure]
    · refine iff_of_false (fun h => ?_) fun h => hflag h.1
      by_cases hless : data[middle l r]! < key
      · rw [if_pos hless, runs_next (by omega), runs_bind, runs_itemAt_iff] at h
        obtain ⟨k, hk, hkl, -⟩ := h
        omega
      · rw [if_neg hless, runs_bind, runs_pure, runs_bind, runs_itemAt_iff] at h
        obtain ⟨k, hk, hkl, -⟩ := h
        omega

theorem last_passTwo {left right : Int} (h : right < left) {Q : Step (Int × Int) Int → σ → Prop} :
    Runs (passTwo data key (left, right)) s Q ↔ Q (.done (-1)) s := by
  rw [passTwo]
  dsimp only
  rw [if_neg (by omega), runs_pure]

theorem ensures_passTwo (hlen : data.length ≤ 2147483647) (hlt : l < r) (hr : r ≤ data.length)
    (hne : data[middle l r]! ≠ key) {j : Int × Int} (hj : nextTwo data key l r = j) :
    Ensures (passTwo data key (ends l r)) s fun v t => v = .again j ∧ t = s := by
  intro v t hm
  have hruns := (runs_passTwo hlen hlt hr).mp
    ((runs_of_ok (Q := fun w u => w = v ∧ u = t) hm).mpr ⟨rfl, rfl⟩)
  rw [if_neg hne, hj] at hruns
  exact ⟨hruns.2.2.1.symm, hruns.2.2.2.symm⟩

/-- Above the middle, where the element of the flag is 0. -/
theorem nextTwo_above (hless : data[middle l r]! < key)
    (hzero : data[flag (middle l r) key]! = 0) :
    nextTwo data key l r = ends (middle l r + 1) r := by
  rw [nextTwo, if_pos hless, if_neg (not_not.mpr hzero), ends]

theorem nextTwo_below (hgreater : key < data[middle l r]!)
    (hne : data[flag (middle l r) key]! ≠ 0) : nextTwo data key l r = ends l (middle l r) := by
  rw [nextTwo, if_neg (by omega), if_pos hne, ends]

/-- What a search that ends right says about each range that it comes to. -/
theorem harmless_of_runs (hlen : data.length ≤ 2147483647) (hlt : l < r) (hr : r ≤ data.length)
    (h : Runs (loop (passTwo data key) fuel (ends l r)) s fun v _ => IsIndex data key v) :
    l + r ≤ 2147483648 ∧ (data[middle l r]! ≠ key → Harmless data key (middle l r)) := by
  obtain ⟨hsum, hpass⟩ := (runs_passTwo hlen hlt hr).mp h.pass
  refine ⟨hsum, fun hne => ?_⟩
  rw [if_neg hne] at hpass
  obtain ⟨hflag, fuel', hrest⟩ := hpass
  refine ⟨hflag, fun hgreater hzero => ?_, fun hless hmem => ?_⟩
  · -- the variables stay as they are
    have hsame : nextTwo data key l r = ends l r := by
      rw [nextTwo, if_neg (by omega), if_neg (not_not.mpr hzero), ends]
    refine h.not_fails (fails_loop (fun i t => i = ends l r ∧ t = s) ?_ fuel ⟨rfl, rfl⟩)
    rintro _ _ ⟨rfl, rfl⟩
    rw [runs_passTwo hlen hlt hr, if_neg hne, hsame]
    exact ⟨hsum, hflag, _, rfl, rfl, rfl⟩
  · by_contra hne
    rw [nextTwo, if_pos hless, if_pos hne] at hrest
    have hlast := (last_passTwo (by omega)).mp hrest.pass
    rcases hlast with ⟨k, hk, -⟩ | ⟨-, habsent⟩
    · omega
    · exact habsent hmem

/-- The same for `binarySearch2`. -/
theorem runs_passTwo_iff (hs : data.Pairwise (· < ·)) (hlen : data.length ≤ 2147483647)
    (hf : data.length < fuel) :
    (Runs (loop (passTwo data key) fuel (ends 0 data.length)) s fun r _ => IsIndex data key r) ↔
      ∀ l r, Visited2 data key l r → l < r →
        l + r ≤ 2147483648 ∧ (data[middle l r]! ≠ key → Harmless data key (middle l r)) := by
  have hsorted := sorted_of_strict hs
  constructor
  · intro hruns l r hv hlt
    obtain ⟨_, hend⟩ := hv.runs
      (fun l r t hlt hr hm =>
        ensures_passTwo hlen hlt hr (Int.ne_of_lt hm.1) (nextTwo_above hm.1 hm.2))
      (fun l r t hlt hr hm =>
        ensures_passTwo hlen hlt hr (Int.ne_of_gt hm.1) (nextTwo_below hm.1 hm.2)) hruns
    exact harmless_of_runs hlen hlt hv.bounds.2 hend
  · intro hok
    refine runs_bisect (c := less key data) (fun l r _ => Visited2 data key l r ∧
      (key ∈ data → less key data < r)) ?_ ?_ List.countP_le_length
      ⟨.start, fun hmem => (hsorted.mem_iff.mp hmem).1⟩ hf
    · rintro l r t - - hr hlt ⟨hv, hbound⟩
      have hm := middle_lt hlt
      have hiff := hsorted.lt_less_iff (x := key) (p := middle l r) (by omega)
      obtain ⟨hsum, hharmless⟩ := hok l r hv hlt
      rw [runs_passTwo hlen hlt hr, and_iff_right hsum]
      split_ifs with heq
      · exact Or.inl ⟨middle l r, rfl, by omega, heq⟩
      · obtain ⟨hinside, hbelow, habove⟩ := hharmless heq
        refine ⟨hinside, ?_⟩
        rcases Int.lt_or_gt_of_ne heq with hless | hgreater
        · by_cases hzero : data[flag (middle l r) key]! = 0
          · exact Or.inl ⟨hiff.mpr hless, nextTwo_above hless hzero,
              hv.right hlt ⟨hless, hzero⟩, hbound⟩
          · -- both ends are moved, and the key is not there
            refine Or.inr (Or.inr ?_)
            rw [nextTwo, if_pos hless, if_pos hzero]
            refine (last_passTwo (by omega)).mpr (Or.inr ⟨rfl, fun hmem => ?_⟩)
            exact hzero (habove hless hmem)
        · have hne := hbelow hgreater
          obtain ⟨hle, hbefore⟩ := less_le_of_greater hs hgreater
          exact Or.inr (Or.inl ⟨hle, nextTwo_below hgreater hne, hv.left hlt ⟨hgreater, hne⟩,
            hbefore⟩)
    · rintro t ⟨-, hbound⟩
      refine (last_passTwo (by omega)).mpr ?_
      exact Or.inr ⟨rfl, fun hmem => Nat.lt_irrefl _ (hbound hmem)⟩

theorem runs_start {α : Type} {k : Int → Program σ α} {Q : α → σ → Prop}
    (hlen : data.length ≤ 2147483647) :
    Runs (int ((data.length : Int) - 1) >>= k) s Q ↔ Runs (k ((data.length : Int) - 1)) s Q :=
  runs_int_bind (by omega) (by omega)

/-- An empty vector is not searched. -/
theorem search_eq (hlen : data.length ≤ 2147483647) (hf : 0 < fuel) :
    search fuel data key s = loop (passFour data key) fuel (ends 0 data.length) s := by
  rw [search]
  split_ifs with hzero
  · obtain ⟨fuel, rfl⟩ := Nat.exists_eq_succ_of_ne_zero (Nat.ne_of_gt hf)
    rw [hzero]
    rfl
  · have hright : toInt (toSize ((data.length : Int) - 1)) = (data.length : Int) - 1 := by
      have hcast : (data.length : Int) - 1 = (data.length - 1 : Nat) := by omega
      rw [hcast, toSize_natCast (by omega), toInt_of_lt (by omega)]
    rw [hright, ends]
    rfl

end

theorem searches_iff (s : σ) (data : List Int) (key : Int) (hs : data.Pairwise (· < ·))
    (hlen : data.length ≤ 2147483647) (fuel : Nat) (hf : data.length < fuel) :
    ((Runs (binarySearch fuel data data.length key) s fun r _ => IsIndex data key r) ∧
      (Runs (binarySearch2 fuel data data.length key) s fun r _ => IsIndex data key r) ∧
      (Runs (binarySearch3 fuel data data.length key) s fun r _ => IsIndex data key r) ∧
      Runs (search fuel data key) s fun r _ => IsIndex data key r) ↔
      (∀ l r, Visited data key l r → l < r → l + r ≤ 2147483648) ∧
        ∀ l r, Visited2 data key l r → l < r → data[middle l r]! ≠ key →
          Harmless data key (middle l r) := by
  have hone : (Runs (binarySearch fuel data data.length key) s fun r _ => IsIndex data key r) ↔
      ∀ l r, Visited data key l r → l < r → l + r ≤ 2147483648 := by
    rw [binarySearch, runs_start hlen]
    exact (bisects_passOne hlen).runs_iff hs hf
  have htwo : (Runs (binarySearch2 fuel data data.length key) s fun r _ => IsIndex data key r) ↔
      ∀ l r, Visited2 data key l r → l < r →
        l + r ≤ 2147483648 ∧ (data[middle l r]! ≠ key → Harmless data key (middle l r)) := by
    rw [binarySearch2, runs_start hlen]
    exact runs_passTwo_iff hs hlen hf
  have hthree : Runs (binarySearch3 fuel data data.length key) s fun r _ => IsIndex data key r := by
    rw [binarySearch3, runs_start hlen]
    exact ((bisects_passThree hlen).runs_iff hs hf).mpr fun _ _ _ _ => trivial
  have hfour : (Runs (search fuel data key) s fun r _ => IsIndex data key r) ↔
      ∀ l r, Visited data key l r → l < r → l + r ≤ 2147483648 := by
    rw [Runs, search_eq hlen (Nat.zero_lt_of_lt hf)]
    exact (bisects_passFour hlen).runs_iff hs hf
  have hvisited {l r : Nat} (h : Visited2 data key l r) : Visited data key l r :=
    h.mono (fun _ => And.left) fun _ => And.left
  rw [hone, htwo, hfour]
  constructor
  · exact fun h => ⟨h.1, fun l r hv hlt => (h.2.1 l r hv hlt).2⟩
  · exact fun h => ⟨h.1, fun l r hv hlt => ⟨h.1 l r (hvisited hv) hlt, h.2 l r hv hlt⟩, hthree, h.1⟩

/-- `{1, 2, 3, 4, 5, 6}` and 4. -/
theorem searches_iff_sample :
    ((Runs (binarySearch 7 [1, 2, 3, 4, 5, 6] 6 4) () fun r _ => IsIndex [1, 2, 3, 4, 5, 6] 4 r) ∧
      (Runs (binarySearch2 7 [1, 2, 3, 4, 5, 6] 6 4) () fun r _ =>
        IsIndex [1, 2, 3, 4, 5, 6] 4 r) ∧
      (Runs (binarySearch3 7 [1, 2, 3, 4, 5, 6] 6 4) () fun r _ =>
        IsIndex [1, 2, 3, 4, 5, 6] 4 r) ∧
      Runs (search 7 [1, 2, 3, 4, 5, 6] 4) () fun r _ => IsIndex [1, 2, 3, 4, 5, 6] 4 r) ↔
      (∀ l r, Visited [1, 2, 3, 4, 5, 6] 4 l r → l < r → l + r ≤ 2147483648) ∧
        ∀ l r, Visited2 [1, 2, 3, 4, 5, 6] 4 l r → l < r →
          [1, 2, 3, 4, 5, 6][middle l r]! ≠ (4 : Int) →
            Harmless [1, 2, 3, 4, 5, 6] 4 (middle l r) :=
  searches_iff () [1, 2, 3, 4, 5, 6] 4 (by decide) (by decide) 7 (by decide)

/-- The key is above the first middle, and the element of the flag is 1. -/
theorem searches_sample : [1, 2, 3, 4, 5, (6 : Int)].Pairwise (· < ·) ∧ ∀ fuel,
    ¬ ((Runs (binarySearch fuel [1, 2, 3, 4, 5, 6] 6 4) () fun r _ =>
        IsIndex [1, 2, 3, 4, 5, 6] 4 r) ∧
      (Runs (binarySearch2 fuel [1, 2, 3, 4, 5, 6] 6 4) () fun r _ =>
        IsIndex [1, 2, 3, 4, 5, 6] 4 r) ∧
      (Runs (binarySearch3 fuel [1, 2, 3, 4, 5, 6] 6 4) () fun r _ =>
        IsIndex [1, 2, 3, 4, 5, 6] 4 r) ∧
      Runs (search fuel [1, 2, 3, 4, 5, 6] 4) () fun r _ => IsIndex [1, 2, 3, 4, 5, 6] 4 r) := by
  refine ⟨by decide, ?_⟩
  rintro fuel ⟨-, h, -, -⟩
  have hlen : [1, 2, 3, 4, 5, (6 : Int)].length ≤ 2147483647 := by decide
  rw [binarySearch2, runs_int_bind (by decide) (by decide)] at h
  have hrange := harmless_of_runs (l := 0) (r := 6) hlen (by decide) (by decide) h
  have hharmless := hrange.2 (by decide)
  exact absurd (hharmless.above (by decide) (by decide)) (by decide)

end LanguageTest.BinarySearch
