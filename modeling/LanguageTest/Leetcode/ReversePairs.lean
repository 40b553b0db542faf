import LanguageTest.Library.Rearranged

namespace LanguageTest.ReversePairs
open Sorting

/-- The vector of the caller and its copy, which the recursive calls have in turn as `data` and as
`copy`. -/
inductive Buffer where
  | first
  | second
  deriving DecidableEq

def Buffer.other : Buffer → Buffer
  | first => second
  | second => first

/-- What is known of a call after it: the range it was given as it stood in `data`, the same range
as the call left it in `copy`, and the indices that were accessed in between. -/
structure Call where
  left : Int
  right : Int
  given : List Int
  result : List Int
  touched : List Int

/-- The range was sorted, and nothing else was accessed. -/
structure Call.Sorts (c : Call) : Prop where
  sorted : c.result.Pairwise (· ≤ ·)
  perm : c.result.Perm c.given
  within : ∀ i ∈ c.touched, c.left ≤ i ∧ i ≤ c.right

/-- The vectors, and as history the indices that were accessed and the calls that returned. -/
structure State where
  vectors : Buffer → List Int
  touched : List Int
  calls : List Call

def State.touch (s : State) (i : Int) : State := { s with touched := s.touched ++ [i] }

def getAt (v : Buffer) (i : Int) : Program State Int := do
  let s ← get
  if i < 0 then fail .outOfRange
  else
    match (s.vectors v)[i.toNat]? with
    | none => fail .outOfRange
    | some x => do
      set (s.touch i)
      pure x

def setAt (v : Buffer) (i x : Int) : Program State Unit := do
  let s ← get
  if i < 0 ∨ (s.vectors v).length ≤ i.toNat then fail .outOfRange
  else
    set { s.touch i with vectors := Function.update s.vectors v ((s.vectors v).set i.toNat x) }

/-- The value of a `long long` expression. -/
def longLong (v : Int) : Program State Int :=
  if -9223372036854775808 ≤ v ∧ v < 9223372036854775808 then pure v else fail .overflow

structure Cursors where
  j : Int
  indexCopy : Int
  count : Int

/-- The `while` loop, which changes the element at `i` but not `i`. -/
def mergeBoth (fuel : Nat) (data : Buffer) (left mid i : Int) : Cursors → Program State Cursors :=
  loop (fun v => do
    if i ≥ left ∧ v.j ≥ mid + 1 then
      if (← getAt data i) > (← getAt data v.j) then
        -- `copy[indexCopy--] = data[i]--;`
        let x ← getAt data i
        setAt data i (← int (x - 1))
        setAt data.other v.indexCopy x
        let indexCopy ← int (v.indexCopy - 1)
        pure (.again ⟨v.j, indexCopy, ← longLong (v.count + (← int (v.j - mid)))⟩)
      else
        setAt data.other v.indexCopy (← getAt data v.j)
        let indexCopy ← int (v.indexCopy - 1)
        pure (.again ⟨← int (v.j - 1), indexCopy, v.count⟩)
    else pure (.done v)) fuel

/-- `for (; i >= left; i--) copy[indexCopy--] = data[i];` -/
def copyLeft (fuel : Nat) (data : Buffer) (left : Int) : Int × Int → Program State (Int × Int) :=
  loop (fun (i, indexCopy) => do
    if i ≥ left then
      setAt data.other indexCopy (← getAt data i)
      pure (.again (← int (i - 1), ← int (indexCopy - 1)))
    else pure (.done (i, indexCopy))) fuel

/-- `for (; i >= mid + 1; j--) copy[indexCopy--] = data[i];` -/
def copyRight (fuel : Nat) (data : Buffer) (mid i : Int) : Int × Int → Program State Unit :=
  loop (fun (j, indexCopy) => do
    if i ≥ mid + 1 then
      setAt data.other indexCopy (← getAt data i)
      pure (.again (← int (j - 1), ← int (indexCopy - 1)))
    else pure (.done ())) fuel

/-- The merging part of a call, with the number of pairs that it counts. -/
def merge (fuel : Nat) (data : Buffer) (left mid right : Int) : Program State Int := do
  let v ← mergeBoth fuel data left mid mid ⟨right, right, 0⟩
  let (i, indexCopy) ← copyLeft fuel data left (mid, v.indexCopy)
  copyRight fuel data mid i (v.j, indexCopy)
  pure v.count

/-- The history after a call that began in the state `s`. -/
def noteCall (data : Buffer) (left right : Int) (s : State) : Program State Unit := do
  let t ← get
  let call : Call := {
    left := left
    right := right
    given := slice left.toNat (right.toNat + 1) (s.vectors data)
    result := slice left.toNat (right.toNat + 1) (t.vectors data.other)
    touched := t.touched.drop s.touched.length }
  set { t with calls := t.calls ++ [call] }

/-- The recursive `reversePairs`, whose second vector is the other one of the two. -/
def reversePairsRange : Nat → Buffer → Int → Int → Program State Int
  | 0, _, _, _ => fail .outOfFuel
  | fuel + 1, data, left, right => do
    let s ← get
    if left = right then
      setAt data.other left (← getAt data right)
      noteCall data left right s
      pure 0
    else
      -- `>> 1` rounds towards the lesser number.
      let mid ← int (left + (← int (right - left)) / 2)
      let leftCount ← reversePairsRange fuel data.other left mid
      let rightCount ← reversePairsRange fuel data.other (← int (mid + 1)) right
      let count ← merge (fuel + 1) data left mid right
      noteCall data left right s
      longLong ((← longLong (leftCount + rightCount)) + count)

/-- `reversePairs`, for the first vector. -/
def reversePairs (fuel : Nat) : Program State Int := do
  let s ← get
  let data := s.vectors .first
  if data.length = 0 then pure 0
  else
    set { s with vectors := Function.update s.vectors .second data }
    pure ((← reversePairsRange fuel .first 0 (toInt (data.length - 1))).tmod 1000000007)

/-- A call with this vector. -/
def start (data : List Int) : State := ⟨fun _ => data, [], []⟩

/-- The number of pairs whose first element is greater. -/
def inversions : List Int → Nat
  | [] => 0
  | x :: xs => xs.countP (· < x) + inversions xs

/-- Both vectors are as they were, only indices between these two were accessed, and the calls in
between sorted their ranges. -/
structure Quiet (xs : List Int) (a b : Nat) (s t : State) : Prop where
  vectors : ∀ v, t.vectors v = xs
  touched : ∃ log, t.touched = s.touched ++ log ∧ ∀ i ∈ log, (a : Int) ≤ i ∧ i ≤ b
  calls : ∀ c ∈ t.calls, c ∈ s.calls ∨ c.Sorts

section
variable {s t u : State} {xs : List Int} {v : Buffer} {a b k l r m fuel : Nat} {i x : Int}

theorem runs_getAt {Q : Int → State → Prop} (hk : k < (s.vectors v).length) :
    Runs (getAt v k) s Q ↔ Q (s.vectors v)[k]! (s.touch k) := by
  have hnonneg : ¬ ((k : Int) < 0) := by omega
  rw [getAt, runs_bind, runs_get, if_neg hnonneg, Int.toNat_natCast, getElem!_of_lt hk]
  simp only [runs_bind, runs_set, runs_pure]

theorem runs_setAt {Q : Unit → State → Prop} (hk : k < (s.vectors v).length) :
    Runs (setAt v k x) s Q ↔
      Q () { s.touch k with vectors := Function.update s.vectors v ((s.vectors v).set k x) } := by
  have hrange : ¬ ((k : Int) < 0 ∨ (s.vectors v).length ≤ (k : Int).toNat) := by omega
  rw [setAt, runs_bind, runs_get, if_neg hrange, runs_set, Int.toNat_natCast]

theorem runs_longLong {Q : Int → State → Prop} (hlow : -9223372036854775808 ≤ x)
    (hhigh : x < 9223372036854775808) : Runs (longLong x) s Q ↔ Q x s := by
  rw [longLong, if_pos ⟨hlow, hhigh⟩, runs_pure]

theorem Quiet.refl (hs : ∀ v, s.vectors v = xs) : Quiet xs a b s s :=
  ⟨hs, ⟨[], (List.append_nil _).symm, by simp⟩, fun _ hc => Or.inl hc⟩

theorem Quiet.trans (h : Quiet xs a b s t) (h' : Quiet xs a b t u) : Quiet xs a b s u := by
  obtain ⟨log, hlog, hrange⟩ := h.touched
  obtain ⟨log', hlog', hrange'⟩ := h'.touched
  refine ⟨h'.vectors, ⟨log ++ log', ?_, ?_⟩, fun c hc => ?_⟩
  · rw [hlog', hlog, List.append_assoc]
  · exact List.forall_mem_append.mpr ⟨hrange, hrange'⟩
  · exact (h'.calls c hc).elim (h.calls c) Or.inr

theorem Quiet.mono {p q : Nat} (h : Quiet xs p q s t) (ha : a ≤ p) (hb : q ≤ b) :
    Quiet xs a b s t := by
  obtain ⟨log, hlog, hrange⟩ := h.touched
  refine ⟨h.vectors, ⟨log, hlog, fun i hi => ?_⟩, h.calls⟩
  have hi := hrange i hi
  omega

theorem Quiet.touch (hs : ∀ v, s.vectors v = xs) : Quiet xs k k s (s.touch k) :=
  ⟨hs, ⟨[(k : Int)], rfl, by simp⟩, fun _ hc => Or.inl hc⟩

/-- An element is written to where it is already. -/
theorem Quiet.write (hs : ∀ v, s.vectors v = xs) (hk : k < xs.length) :
    Quiet xs k k s
      { s.touch k with vectors := Function.update s.vectors v (xs.set k xs[k]!) } := by
  refine ⟨fun w => ?_, ⟨[(k : Int)], rfl, by simp⟩, fun _ hc => Or.inl hc⟩
  change Function.update s.vectors v (xs.set k xs[k]!) w = xs
  rw [Function.update_apply, getElem!_pos xs k hk, List.set_getElem_self]
  split_ifs
  · rfl
  · exact hs w

/-- `copy[k] = data[k]`, where both are the same. -/
theorem runs_copy {α : Type} {rest : Program State α} {Q : α → State → Prop}
    (hs : ∀ v, s.vectors v = xs) (hk : k < xs.length)
    (hrest : ∀ t, Quiet xs k k s t → Runs rest t Q) :
    Runs (do
      setAt v.other k (← getAt v k)
      rest) s Q := by
  have htouch : ∀ v, (s.touch k).vectors v = xs := hs
  rw [runs_bind, runs_getAt (by rwa [hs]), runs_bind, runs_setAt (by rwa [htouch]), hs, htouch]
  exact hrest _ ((Quiet.touch hs).trans (Quiet.write htouch hk))

theorem runs_getAt_same {Q : Int → State → Prop} (hs : ∀ v, s.vectors v = xs) (hk : k < xs.length) :
    Runs (getAt v k) s Q ↔ Q xs[k]! (s.touch k) := by
  rw [runs_getAt (by rwa [hs]), hs]

/-- With elements in order the loop copies those from the right. -/
theorem runs_mergeBoth {mid : Nat} (hs : ∀ v, s.vectors v = xs) (hl : l ≤ mid) (hm : mid < r)
    (hr : r < xs.length) (hn : r < 2147483648) (hsorted : SortedIn l (r + 1) xs)
    (hf : r - mid < fuel) :
    Runs (mergeBoth fuel v l mid mid ⟨r, r, 0⟩) s fun w t =>
      w = ⟨mid, mid, 0⟩ ∧ Quiet xs l r s t := by
  refine runs_loop (k := r - mid) (fun k (w : Cursors) t => Quiet xs l r s t ∧ k + mid ≤ r ∧
    w = ⟨(mid + k : Nat), (mid + k : Nat), 0⟩) ?_ ⟨Quiet.refl hs, by omega, ?_⟩ hf
  · rintro k _ t ⟨ht, hk, rfl⟩
    dsimp only
    cases k with
    | zero =>
      rw [if_neg (by omega), runs_pure]
      exact ⟨rfl, ht⟩
    | succ k =>
      have hmid : mid < xs.length := by omega
      have hmem : mid + (k + 1) < xs.length := by omega
      have hle := hsorted mid (mid + (k + 1)) hl (by omega) (by omega)
      have htouch : ∀ v, (t.touch mid).vectors v = xs := ht.vectors
      rw [if_pos (by omega), runs_bind, runs_getAt_same ht.vectors hmid, runs_bind,
        runs_getAt_same htouch hmem, if_neg (by omega)]
      refine runs_copy (s := (t.touch mid).touch _) ht.vectors hmem fun u hu => ?_
      rw [runs_int_bind (by omega) (by omega), runs_int_bind (by omega) (by omega), runs_pure]
      have hquiet : Quiet xs l r s u := by
        refine ht.trans (Quiet.trans ?_ (hu.mono (by omega) (by omega)))
        refine Quiet.trans ((Quiet.touch ht.vectors).mono hl (by omega)) ?_
        exact (Quiet.touch htouch).mono (by omega) (by omega)
      refine ⟨k, by omega, hquiet, by omega, ?_⟩
      congr 1 <;> push_cast <;> omega
  · congr 1 <;> push_cast <;> omega

theorem runs_copyLeft (hs : ∀ v, s.vectors v = xs) (hl : l ≤ m) (hm : m < xs.length)
    (hn : m < 2147483648) (hf : m + 1 - l < fuel) :
    Runs (copyLeft fuel v l (m, m)) s fun w t => w.1 < l ∧ Quiet xs l m s t := by
  refine runs_loop (k := m + 1 - l) (fun k (w : Int × Int) t => Quiet xs l m s t ∧ k ≤ m + 1 - l ∧
    w.1 + 1 = (l + k : Nat) ∧ w.2 = w.1) ?_ ⟨Quiet.refl hs, le_rfl, by push_cast; omega, rfl⟩ hf
  rintro k ⟨i, indexCopy⟩ t ⟨ht, hk, hi, hindex⟩
  obtain rfl : indexCopy = i := hindex
  dsimp only at hi ⊢
  cases k with
  | zero =>
    rw [if_neg (by omega), runs_pure]
    exact ⟨by dsimp only; omega, ht⟩
  | succ k =>
    obtain rfl : indexCopy = (l + k : Nat) := by omega
    rw [if_pos (by omega)]
    refine runs_copy ht.vectors (by omega) fun u hu => ?_
    rw [runs_int_bind (by omega) (by omega), runs_int_bind (by omega) (by omega), runs_pure]
    exact ⟨k, by omega, ht.trans (hu.mono (by omega) (by omega)), by omega, by push_cast; omega,
      rfl⟩

/-- The last loop has nothing to do. -/
theorem runs_copyRight {w : Int × Int} {Q : Unit → State → Prop} (hi : i < m + 1) (hf : 0 < fuel) :
    Runs (copyRight fuel v m i w) s Q ↔ Q () s := by
  obtain ⟨fuel, rfl⟩ := Nat.exists_eq_add_of_lt hf
  obtain ⟨j, indexCopy⟩ := w
  rw [Nat.zero_add, copyRight, runs_loop_succ]
  dsimp only
  rw [if_neg (by omega), runs_pure]

theorem runs_merge {mid : Nat} (hs : ∀ v, s.vectors v = xs) (hl : l ≤ mid) (hm : mid < r)
    (hr : r < xs.length) (hn : r < 2147483648) (hsorted : SortedIn l (r + 1) xs)
    (hf : r - l < fuel) :
    Runs (merge fuel v l mid r) s fun count t => count = 0 ∧ Quiet xs l r s t := by
  rw [merge, runs_bind]
  refine (runs_mergeBoth hs hl hm hr hn hsorted (by omega)).mono ?_
  rintro _ t ⟨rfl, ht⟩
  rw [runs_bind]
  refine (runs_copyLeft ht.vectors hl (by omega) (by omega) (by omega)).mono ?_
  rintro ⟨i, indexCopy⟩ u ⟨hi, hu⟩
  rw [runs_bind, runs_copyRight (by dsimp only at hi; omega) (by omega), runs_pure]
  exact ⟨rfl, ht.trans (hu.mono le_rfl (by omega))⟩

/-- A call that read and wrote back its range, which was in order. -/
theorem runs_noteCall (hq : Quiet xs l r s t) (hs : ∀ v, s.vectors v = xs)
    (hsorted : SortedIn l (r + 1) xs) (hr : r < xs.length) {Q : Unit → State → Prop}
    (hQ : ∀ u, Quiet xs l r s u → Q () u) : Runs (noteCall v l r s) t Q := by
  obtain ⟨log, hlog, hrange⟩ := hq.touched
  rw [noteCall, runs_bind, runs_get, runs_set]
  refine hQ _ ⟨hq.vectors, ⟨log, hlog, hrange⟩, fun c hc => ?_⟩
  rcases List.mem_append.mp hc with hc | hc
  · exact hq.calls c hc
  · refine Or.inr ?_
    rw [List.mem_singleton.mp hc, hq.vectors, hs, Int.toNat_natCast, Int.toNat_natCast, hlog,
      List.drop_left]
    exact ⟨(sortedIn_iff_slice (by omega)).mp hsorted, List.Perm.refl _, hrange⟩

/-- Where the range is in order a call changes nothing and counts nothing. -/
theorem runs_reversePairsRange (hs : ∀ v, s.vectors v = xs) (hl : l ≤ r) (hr : r < xs.length)
    (hn : r < 2147483648) (hsorted : SortedIn l (r + 1) xs) (hf : r - l < fuel) :
    Runs (reversePairsRange fuel v l r) s fun count t => count = 0 ∧ Quiet xs l r s t := by
  induction fuel generalizing v l r s with
  | zero => omega
  | succ fuel ih =>
    rw [reversePairsRange, runs_bind, runs_get]
    by_cases hlr : l = r
    · subst hlr
      rw [if_pos rfl]
      refine runs_copy hs hr fun t ht => ?_
      rw [runs_bind]
      exact runs_noteCall ht hs hsorted hr fun u hu => runs_pure.mpr ⟨rfl, hu⟩
    · obtain ⟨mid, hmid⟩ : ∃ mid : Nat, (l : Int) + ((r : Int) - l) / 2 = mid :=
        ⟨l + (r - l) / 2, by omega⟩
      rw [if_neg (by omega), runs_int_bind (by omega) (by omega), hmid,
        runs_int_bind (by omega) (by omega), runs_bind]
      refine (ih hs (by omega) (by omega) (by omega)
        (fun i j hi hij hj => hsorted i j hi hij (by omega)) (by omega)).mono ?_
      rintro _ t ⟨rfl, ht⟩
      have hnext : (mid : Int) + 1 = (mid + 1 : Nat) := by push_cast; rfl
      rw [runs_int_bind (by omega) (by omega), runs_bind, hnext]
      refine (ih ht.vectors (by omega) hr hn
        (fun i j hi hij hj => hsorted i j (by omega) hij (by omega)) (by omega)).mono ?_
      rintro _ u ⟨rfl, hu⟩
      rw [runs_bind]
      refine (runs_merge hu.vectors (by omega) (by omega) hr hn hsorted (by omega)).mono ?_
      rintro _ w ⟨rfl, hw⟩
      have hquiet : Quiet xs l r s w := by
        refine (ht.mono le_rfl (by omega)).trans (Quiet.trans ?_ hw)
        exact hu.mono (by omega) le_rfl
      rw [runs_bind]
      refine runs_noteCall hquiet hs hsorted hr fun x hx => ?_
      rw [runs_bind, runs_longLong (by omega) (by omega), runs_longLong (by omega) (by omega)]
      exact ⟨rfl, hx⟩

end

/-- The history goes on. -/
structure Later (s t : State) : Prop where
  calls : s.calls ⊆ t.calls
  touched : s.touched <+: t.touched

instance : Std.Refl Later := ⟨fun _ => ⟨fun _ hc => hc, List.prefix_rfl⟩⟩

instance : Trans Later Later Later where
  trans h h' := ⟨List.Subset.trans h.calls h'.calls, h.touched.trans h'.touched⟩

section
variable {s t u : State} {xs : List Int} {v : Buffer} {l r m fuel : Nat} {i x left right : Int}

/-- What holds of all calls in the end held of those before. -/
theorem calls_sort {α : Type} {p : Program State α} (hp : Keeps Later p)
    (h : Runs p s fun _ t => ∀ c ∈ t.calls, c.Sorts) : ∀ c ∈ s.calls, c.Sorts :=
  hp.runs h fun _ hlater hall c hc => hall c (hlater.calls hc)

theorem ensures_longLong : Ensures (longLong x) s fun _ t => t = s := by
  unfold longLong
  split_ifs
  · exact ensures_pure rfl
  · exact fails_fail.ensures

theorem keeps_longLong : Keeps Later (longLong x) := by
  intro s
  refine ensures_longLong.mono ?_
  rintro _ _ rfl
  exact Std.Refl.refl _

theorem ensures_getAt : Ensures (getAt v i) s fun y t => t = s.touch i ∧
    ∃ k : Nat, i = k ∧ k < (s.vectors v).length ∧ y = (s.vectors v)[k]! := by
  refine Runs.bind_ensures (runs_get.mpr ?_)
  split_ifs with hi
  · exact fails_fail.ensures
  obtain ⟨k, rfl⟩ := Int.eq_ofNat_of_zero_le (Int.not_lt.mp hi)
  rw [Int.toNat_natCast]
  by_cases hk : k < (s.vectors v).length
  · rw [getElem!_of_lt hk]
    exact Runs.bind_ensures (runs_set.mpr (ensures_pure ⟨rfl, k, rfl, hk, rfl⟩))
  · rw [List.getElem?_eq_none (Nat.le_of_not_lt hk)]
    exact fails_fail.ensures

theorem ensures_setAt : Ensures (setAt v i x) s fun _ t => t =
    { s.touch i with vectors := Function.update s.vectors v ((s.vectors v).set i.toNat x) } := by
  refine Runs.bind_ensures (runs_get.mpr ?_)
  split_ifs
  · exact fails_fail.ensures
  · refine Runs.ensures ?_
    rw [runs_set]

theorem keeps_getAt : Keeps Later (getAt v i) := by
  intro s
  refine ensures_getAt.mono ?_
  rintro _ _ ⟨rfl, -⟩
  exact ⟨fun _ hc => hc, List.prefix_append _ _⟩

theorem keeps_setAt : Keeps Later (setAt v i x) := by
  intro s
  refine ensures_setAt.mono ?_
  rintro _ _ rfl
  exact ⟨fun _ hc => hc, List.prefix_append _ _⟩

theorem keeps_mergeBoth {mid : Int} {w : Cursors} :
    Keeps Later (mergeBoth fuel v left mid i w) := by
  refine keeps_loop fun w => ?_
  split_ifs
  · refine keeps_getAt.bind fun y => keeps_getAt.bind fun z => ?_
    split_ifs
    · refine keeps_getAt.bind fun _ => keeps_int.bind fun _ => keeps_setAt.bind fun _ => ?_
      refine keeps_setAt.bind fun _ => keeps_int.bind fun _ => keeps_int.bind fun _ => ?_
      exact keeps_longLong.bind fun _ => keeps_pure
    · refine keeps_getAt.bind fun _ => keeps_setAt.bind fun _ => keeps_int.bind fun _ => ?_
      exact keeps_int.bind fun _ => keeps_pure
  · exact keeps_pure

theorem keeps_copyLeft {w : Int × Int} : Keeps Later (copyLeft fuel v left w) := by
  refine keeps_loop fun w => ?_
  obtain ⟨i, indexCopy⟩ := w
  dsimp only
  split_ifs
  · refine keeps_getAt.bind fun _ => keeps_setAt.bind fun _ => keeps_int.bind fun _ => ?_
    exact keeps_int.bind fun _ => keeps_pure
  · exact keeps_pure

theorem keeps_copyRight {mid : Int} {w : Int × Int} : Keeps Later (copyRight fuel v mid i w) := by
  refine keeps_loop fun w => ?_
  obtain ⟨j, indexCopy⟩ := w
  dsimp only
  split_ifs
  · refine keeps_getAt.bind fun _ => keeps_setAt.bind fun _ => keeps_int.bind fun _ => ?_
    exact keeps_int.bind fun _ => keeps_pure
  · exact keeps_pure

theorem keeps_merge {mid : Int} : Keeps Later (merge fuel v left mid right) := by
  refine keeps_mergeBoth.bind fun w => keeps_copyLeft.bind fun y => ?_
  exact keeps_copyRight.bind fun _ => keeps_pure

theorem keeps_noteCall : Keeps Later (noteCall v left right s) := by
  intro t
  rw [noteCall]
  refine Runs.ensures (runs_bind.mpr (runs_get.mpr (runs_set.mpr ?_)))
  exact ⟨List.subset_append_left _ _, List.prefix_rfl⟩

theorem keeps_reversePairsRange : Keeps Later (reversePairsRange fuel v left right) := by
  induction fuel generalizing v left right with
  | zero => exact fun _ => fails_fail.ensures
  | succ fuel ih =>
    intro s
    rw [reversePairsRange]
    refine Runs.bind_ensures (runs_get.mpr ?_)
    split_ifs
    · exact keeps_getAt.bind (fun _ => keeps_setAt.bind fun _ => keeps_noteCall.bind fun _ =>
        keeps_pure) s
    · refine keeps_int.bind (fun _ => keeps_int.bind fun _ => ih.bind fun _ => ?_) s
      refine keeps_int.bind fun _ => ih.bind fun _ => keeps_merge.bind fun _ => ?_
      exact keeps_noteCall.bind fun _ => keeps_longLong.bind fun _ => keeps_longLong

theorem Buffer.ne_other (v : Buffer) : v ≠ v.other := by
  cases v <;> decide

/-- The state of the first loop of a merge, after `dec` passes that decreased the element in the
middle. Without one that element was not greater than those on the right. -/
structure Merging (xs : List Int) (v : Buffer) (m r : Nat) (w : Cursors) (t : State) (j dec : Nat) :
    Prop where
  index : w.j = j
  low : m ≤ j
  high : j ≤ r
  indexCopy : w.indexCopy = j - dec
  untouched : dec = 0 → t.vectors v = xs ∧ ∀ k, j < k → k ≤ r → xs[m]! ≤ xs[k]!

theorem ensures_mergeBoth (hs : ∀ v, s.vectors v = xs) (hl : l ≤ m) (hm : m < r) :
    Ensures (mergeBoth fuel v l m m ⟨r, r, 0⟩) s fun w _ => ∃ dec : Nat, w.indexCopy = m - dec ∧
      (dec = 0 → ∀ k, m < k → k ≤ r → xs[m]! ≤ xs[k]!) := by
  refine ensures_loop (fun w t => ∃ j dec, Merging xs v m r w t j dec) ?_
    ⟨r, 0, rfl, hm.le, le_rfl, by simp, fun _ => ⟨hs v, by omega⟩⟩
  rintro w t ⟨j, dec, h⟩
  have hj := h.index
  have hindex := h.indexCopy
  have hlow := h.low
  have hhigh := h.high
  split_ifs with hgo
  · refine Ensures.bind (ensures_getAt.mono ?_)
    rintro y _ ⟨rfl, a, ha, -, rfl⟩
    refine Ensures.bind (ensures_getAt.mono ?_)
    rintro z _ ⟨rfl, b, hb, -, rfl⟩
    obtain rfl : m = a := by omega
    obtain rfl : j = b := by omega
    split_ifs with hlt
    · -- The element at `i` is decreased, and `j` stays.
      refine Ensures.bind (ensures_getAt.mono fun y t _ => ?_)
      refine Ensures.bind (ensures_int.mono fun z t _ => ?_)
      refine Ensures.bind (ensures_setAt.mono fun _ t _ => ?_)
      refine Ensures.bind (ensures_setAt.mono fun _ t _ => ?_)
      refine Ensures.bind (ensures_int.mono fun next t hnext => ?_)
      refine Ensures.bind (ensures_int.mono fun z t _ => ?_)
      refine Ensures.bind (ensures_longLong.mono fun z t _ => ?_)
      refine ensures_pure ⟨j, dec + 1, hj, hlow, hhigh, ?_, fun hzero => by omega⟩
      dsimp only
      have hvalue := hnext.1
      push_cast
      omega
    · refine Ensures.bind (ensures_getAt.mono ?_)
      rintro y _ ⟨rfl, -⟩
      refine Ensures.bind (ensures_setAt.mono ?_)
      rintro _ _ rfl
      refine Ensures.bind (ensures_int.mono ?_)
      rintro _ _ ⟨rfl, -, rfl⟩
      refine Ensures.bind (ensures_int.mono ?_)
      rintro _ _ ⟨rfl, -, rfl⟩
      refine ensures_pure ⟨j - 1, dec, by dsimp only; omega, by omega, by omega,
        by dsimp only; omega, fun hdec => ?_⟩
      obtain ⟨hsame, hless⟩ := h.untouched hdec
      have hle : xs[m]! ≤ xs[j]! := by
        have hle := not_lt.mp hlt
        rwa [State.touch, hsame] at hle
      refine ⟨?_, fun k hk hkr => ?_⟩
      · exact (Function.update_of_ne v.ne_other _ _).trans hsame
      · by_cases hkj : k = j
        · exact hkj ▸ hle
        · exact hless k (by omega) hkr
  · have hend : j = m := by omega
    refine ensures_pure ⟨dec, by omega, fun hdec k hk hkr => ?_⟩
    exact (h.untouched hdec).2 k (by omega) hkr

/-- The loop over the left side writes down to an index before the range. -/
theorem ensures_copyLeft {dec : Nat} (hl : l ≤ m) :
    Ensures (copyLeft fuel v l (m, m - dec)) s fun w t => w.1 < l ∧
      ∃ log, t.touched = s.touched ++ log ∧ (l : Int) - dec ∈ log := by
  refine ensures_loop (fun (w : Int × Int) t => w.2 = w.1 - dec ∧
    ∃ log, t.touched = s.touched ++ log ∧ ((l : Int) ≤ w.1 ∨ (l : Int) - dec ∈ log)) ?_
    ⟨rfl, [], (List.append_nil _).symm, Or.inl (Int.ofNat_le.mpr hl)⟩
  rintro ⟨i, indexCopy⟩ t ⟨hindex, log, hlog, hor⟩
  dsimp only at hindex hor ⊢
  split_ifs with hle
  · refine Ensures.bind (ensures_getAt.mono ?_)
    rintro y _ ⟨rfl, -⟩
    refine Ensures.bind (ensures_setAt.mono ?_)
    rintro _ _ rfl
    refine Ensures.bind (ensures_int.mono ?_)
    rintro _ _ ⟨rfl, -, rfl⟩
    refine Ensures.bind (ensures_int.mono ?_)
    rintro _ _ ⟨rfl, -, rfl⟩
    refine ensures_pure ⟨by dsimp only; omega, log ++ [i, indexCopy], ?_, ?_⟩
    · simp [State.touch, hlog]
    · by_cases hil : i = l
      · refine Or.inr (List.mem_append_right _ ?_)
        rw [← hil, ← hindex]
        simp
      · exact Or.inl (by dsimp only; omega)
  · exact ensures_pure ⟨by dsimp only; omega, log, hlog, hor.resolve_left (by omega)⟩

theorem ensures_copyRight {mid : Int} {w : Int × Int} (hi : i < mid + 1) :
    Ensures (copyRight fuel v mid i w) s fun _ t => t = s := by
  refine ensures_loop (fun _ t => t = s) ?_ rfl
  rintro ⟨j, indexCopy⟩ _ rfl
  dsimp only
  rw [if_neg (by omega)]
  exact ensures_pure rfl

/-- A merge that stays in its range decreased nothing. -/
theorem ensures_merge (hs : ∀ v, s.vectors v = xs) (hl : l ≤ m) (hm : m < r) :
    Ensures (merge fuel v l m r) s fun _ t => ∃ log, t.touched = s.touched ++ log ∧
      ((∀ i ∈ log, (l : Int) ≤ i) → ∀ k, m < k → k ≤ r → xs[m]! ≤ xs[k]!) := by
  have hboth : Ensures (mergeBoth fuel v l m m ⟨r, r, 0⟩) s fun w t => Later s t ∧
      ∃ dec : Nat, w.indexCopy = m - dec ∧ (dec = 0 → ∀ k, m < k → k ≤ r → xs[m]! ≤ xs[k]!) :=
    fun w t hm' => ⟨keeps_mergeBoth s w t hm', ensures_mergeBoth hs hl hm w t hm'⟩
  rw [merge]
  refine Ensures.bind (hboth.mono ?_)
  rintro w t ⟨hlater, dec, hindex, hless⟩
  rw [hindex]
  refine Ensures.bind ((ensures_copyLeft hl).mono ?_)
  rintro ⟨i, indexCopy⟩ u ⟨hi, log', hlog', hmem⟩
  dsimp only at hi ⊢
  refine Ensures.bind ((ensures_copyRight (by omega)).mono ?_)
  rintro _ _ rfl
  obtain ⟨log, hlog⟩ := hlater.touched
  refine ensures_pure ⟨log ++ log', by rw [hlog', ← hlog, List.append_assoc], fun hwithin => ?_⟩
  have hdec := hwithin _ (List.mem_append_right _ hmem)
  exact hless (by omega)

/-- A call that sorts its range as all those below it do was given one in order. -/
theorem sortedIn_of_sorts (hs : ∀ v, s.vectors v = xs) (hl : l ≤ r) (hr : r < xs.length)
    (hn : r < 2147483648) (hf : r - l < fuel)
    (h : Runs (reversePairsRange fuel v l r) s fun _ t => ∀ c ∈ t.calls, c.Sorts) :
    SortedIn l (r + 1) xs := by
  induction fuel generalizing v l r s with
  | zero => omega
  | succ fuel ih =>
    rw [reversePairsRange, runs_bind, runs_get] at h
    by_cases hlr : l = r
    · intro i j hi hij hj
      omega
    obtain ⟨mid, hmid⟩ : ∃ mid : Nat, (l : Int) + ((r : Int) - l) / 2 = mid :=
      ⟨l + (r - l) / 2, by omega⟩
    have hnext : (mid : Int) + 1 = (mid + 1 : Nat) := by push_cast; rfl
    rw [if_neg (by omega), runs_int_bind (by omega) (by omega), hmid,
      runs_int_bind (by omega) (by omega), runs_bind] at h
    have hend {leftCount rightCount count : Int} : Keeps Later (do
        longLong ((← longLong (leftCount + rightCount)) + count)) :=
      keeps_longLong.bind fun _ => keeps_longLong
    have hleft : SortedIn l (mid + 1) xs := by
      refine ih hs (by omega) (by omega) (by omega) (by omega)
        (h.mono fun _ t ht => calls_sort ?_ ht)
      refine keeps_int.bind fun _ => keeps_reversePairsRange.bind fun _ => ?_
      exact keeps_merge.bind fun _ => keeps_noteCall.bind fun _ => hend
    obtain ⟨_, t, -, h, rfl, ht⟩ :=
      h.and (runs_reversePairsRange hs (by omega) (by omega) (by omega) hleft (by omega))
    rw [runs_int_bind (by omega) (by omega), runs_bind, hnext] at h
    have hright : SortedIn (mid + 1) (r + 1) xs := by
      refine ih ht.vectors (by omega) hr hn (by omega)
        (h.mono fun _ t ht => calls_sort ?_ ht)
      exact keeps_merge.bind fun _ => keeps_noteCall.bind fun _ => hend
    obtain ⟨_, u, -, h, rfl, hu⟩ :=
      h.and (runs_reversePairsRange ht.vectors (by omega) hr hn hright (by omega))
    rw [runs_bind] at h
    obtain ⟨_, w, -, h, log, hlog, hless⟩ :=
      (ensures_merge hu.vectors (by omega) (by omega)).runs h
    rw [runs_bind, noteCall, runs_bind, runs_get, runs_set] at h
    have hcall := (calls_sort hend h _ (List.mem_append_right _ (List.mem_singleton_self _))).within
    obtain ⟨before, hbefore, -⟩ :=
      ((ht.mono le_rfl (by omega)).trans (hu.mono (by omega) (le_refl r))).touched
    have hdrop : w.touched.drop s.touched.length = before ++ log := by
      rw [hlog, hbefore, List.append_assoc, List.drop_left]
    have hmiddle : ∀ k, mid < k → k ≤ r → xs[mid]! ≤ xs[k]! := by
      refine hless fun i hi => (hcall i ?_).1
      rw [hdrop]
      exact List.mem_append_right _ hi
    refine SortedIn.join (p := mid) (fun i j hi hij hj => hleft i j hi hij (by omega)) hright ?_ ?_
    · exact fun k hk hkm => hleft k mid hk hkm (by omega)
    · exact fun k hk hkr => hmiddle k hk (by omega)

/-- The recursion does not end for a negative index on the right. -/
theorem not_runs_of_neg {Q : Int → State → Prop} (hright : right < 0)
    (hlow : -2147483648 ≤ right) : ¬ Runs (reversePairsRange fuel v 0 right) s Q := by
  induction fuel generalizing v right s Q with
  | zero => exact fun h => h.not_fails fails_fail
  | succ fuel ih =>
    intro h
    rw [reversePairsRange, runs_bind, runs_get, if_neg (by omega),
      runs_int_bind (by omega) (by omega), runs_int_bind (by omega) (by omega), runs_bind] at h
    exact ih (by omega) (by omega) h

/-- The result is the number of pairs, and every call sorts its range and keeps to it. -/
structure Counts (data : List Int) (r : Int) (t : State) : Prop where
  result : r = (inversions data % 1000000007 : Nat)
  calls : ∀ c ∈ t.calls, c.Sorts

/-- No element is less than one before it. Where the length does not fit the `int` that holds the
last index, only the part up to that index is looked at, and there is nothing to count. -/
structure InOrder (data : List Int) : Prop where
  last : 0 ≤ toInt (data.length - 1)
  sorted : SortedIn 0 ((toInt (data.length - 1)).toNat + 1) data
  count : inversions data % 1000000007 = 0

theorem inversions_eq_zero {data : List Int} (h : data.Pairwise (· ≤ ·)) : inversions data = 0 := by
  induction data with
  | nil => rfl
  | cons x xs ih =>
    obtain ⟨hx, hxs⟩ := List.pairwise_cons.mp h
    rw [inversions, ih hxs, List.countP_eq_zero.mpr]
    intro y hy
    simpa using hx y hy

/-- For a vector that an `int` can index, to be in order is to be so as a whole. -/
theorem inOrder_iff {data : List Int} (hne : data ≠ []) (hn : data.length ≤ 2147483648) :
    InOrder data ↔ data.Pairwise (· ≤ ·) := by
  have hpos := List.length_pos_iff.mpr hne
  have hlast : toInt (data.length - 1) = (data.length - 1 : Nat) := toInt_of_lt (by omega)
  have hall : SortedIn 0 data.length data ↔ data.Pairwise (· ≤ ·) := by
    rw [sortedIn_iff_slice le_rfl, slice, List.drop_zero, Nat.sub_zero, List.take_length]
  have hsucc : (toInt (data.length - 1)).toNat + 1 = data.length := by
    rw [hlast]
    omega
  rw [← hall]
  constructor
  · intro h
    rw [← hsucc]
    exact h.sorted
  · intro h
    refine ⟨by rw [hlast]; omega, by rwa [hsucc], ?_⟩
    rw [inversions_eq_zero (hall.mp h), Nat.zero_mod]

/-- The pairs are counted, and the vector is sorted by the calls, exactly where there is nothing to
count and nothing to sort: a greater element on the left is decreased instead of passed. -/
theorem reversePairs_counts_iff (data : List Int) (fuel : Nat) (hf : data.length < fuel) :
    Runs (reversePairs fuel) (start data) (Counts data) ↔ data = [] ∨ InOrder data := by
  by_cases hne : data = []
  · subst hne
    rw [reversePairs, runs_bind, runs_get]
    refine iff_of_true (runs_pure.mpr ⟨rfl, ?_⟩) (Or.inl rfl)
    exact fun c hc => absurd hc List.not_mem_nil
  have hpos := List.length_pos_iff.mpr hne
  have hle : toInt (data.length - 1) ≤ (data.length - 1 : Nat) := toInt_le
  have hint : IsInt (toInt (data.length - 1)) := isInt_toInt
  rw [or_iff_right hne, reversePairs, runs_bind, runs_get]
  dsimp only [start]
  rw [if_neg (by omega), runs_bind, runs_set, runs_bind]
  have hs : ∀ v, Function.update (fun _ => data) Buffer.second data v = data := by
    intro v
    rw [Function.update_apply]
    exact ite_self data
  unfold IsInt at hint
  constructor
  · intro h
    by_cases hlast : toInt (data.length - 1) < 0
    · exact absurd h (not_runs_of_neg hlast (by omega))
    obtain ⟨r, hr⟩ := Int.eq_ofNat_of_zero_le (not_lt.mp hlast)
    rw [hr] at h hle hint
    have hsorted : SortedIn 0 (r + 1) data := by
      refine sortedIn_of_sorts hs (Nat.zero_le r) (by omega) (by omega) (by omega) (h.mono ?_)
      exact fun count t ht => (runs_pure.mp ht).calls
    obtain ⟨_, t, -, h, rfl, -⟩ := h.and
      (runs_reversePairsRange hs (Nat.zero_le r) (by omega) (by omega) hsorted (by omega))
    have hcount := (runs_pure.mp h).result
    refine ⟨by omega, ?_, ?_⟩
    · rwa [hr, Int.toNat_natCast]
    · exact Int.ofNat_inj.mp hcount.symm
  · intro h
    obtain ⟨r, hr⟩ := Int.eq_ofNat_of_zero_le h.last
    have hsorted := h.sorted
    rw [hr, Int.toNat_natCast] at hsorted
    rw [hr] at hle hint ⊢
    refine (runs_reversePairsRange hs (Nat.zero_le r) (by omega) (by omega) hsorted
      (by omega)).mono ?_
    rintro _ t ⟨rfl, ht⟩
    refine runs_pure.mpr ⟨?_, fun c hc => (ht.calls c hc).resolve_left List.not_mem_nil⟩
    rw [h.count]
    rfl

theorem reversePairs_counts_iff_three :
    Runs (reversePairs 4) (start [1, 2, 2]) (Counts [1, 2, 2]) ↔
      ([1, 2, 2] : List Int) = [] ∨ InOrder [1, 2, 2] :=
  reversePairs_counts_iff [1, 2, 2] 4 (by decide)

/-- The last write for two elements that are not in order is before the vector. -/
theorem reversePairs_two : ¬ ∀ (data : List Int) (fuel : Nat), data.length < fuel →
    Runs (reversePairs fuel) (start data) (Counts data) := by
  intro h
  have hfail : Fails (reversePairs 3) (start [2, 1]) .outOfRange := rfl
  exact (h [2, 1] 3 (by decide)).not_fails hfail

end

end LanguageTest.ReversePairs
