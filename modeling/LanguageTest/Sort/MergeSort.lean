import LanguageTest.Library.Cells
import LanguageTest.Library.Rearranged

namespace LanguageTest.MergeSort
open Sorting

abbrev State := Vec Unit Int

def readTemp (temp : Cells Int) (i : Int) : Program State Int :=
  if i < 0 then fail .outOfRange
  else
    match temp[i.toNat]? with
    | none => fail .outOfRange
    | some none => fail .uninitialized
    | some (some x) => pure x

def writeTemp (temp : Cells Int) (i x : Int) : Program State (Cells Int) :=
  if i < 0 ∨ temp.length ≤ i.toNat then fail .outOfRange
  else pure (temp.set i.toNat (some x))

/-- The variables of the loops of `Merge`. -/
structure Cursors where
  temp : Cells Int
  i : Int
  left : Int
  right : Int

/-- `temp[i++] = data[left++]`. -/
def takeLeft (v : Cursors) : Program State Cursors := do
  let temp ← writeTemp v.temp v.i (← element v.left)
  pure { v with temp, i := ← int (v.i + 1), left := ← int (v.left + 1) }

/-- `temp[i++] = data[right++]`. -/
def takeRight (v : Cursors) : Program State Cursors := do
  let temp ← writeTemp v.temp v.i (← element v.right)
  pure { v with temp, i := ← int (v.i + 1), right := ← int (v.right + 1) }

/-- `while (left <= m && right <= r)`. -/
def mergeBoth (fuel : Nat) (m r : Int) : Cursors → Program State Cursors :=
  loop (fun v => do
    if v.left ≤ m ∧ v.right ≤ r then
      if (← element v.left) ≥ (← element v.right) then pure (.again (← takeRight v))
      else pure (.again (← takeLeft v))
    else pure (.done v)) fuel

/-- `while (left <= m)`. -/
def mergeLeft (fuel : Nat) (m : Int) : Cursors → Program State Cursors :=
  loop (fun v => do
    if v.left ≤ m then pure (.again (← takeLeft v)) else pure (.done v)) fuel

/-- `while (right <= r)`. -/
def mergeRight (fuel : Nat) (r : Int) : Cursors → Program State Cursors :=
  loop (fun v => do
    if v.right ≤ r then pure (.again (← takeRight v)) else pure (.done v)) fuel

/-- `Merge`. The array `temp` is the function's own. Its length is not negative, since the function
is called for a range of two elements or more. -/
def merge (fuel : Nat) (l m r : Int) : Program State Unit := do
  let len ← int ((← int (r - l)) + 1)
  let v : Cursors := ⟨List.replicate len.toNat none, 0, l, ← int (m + 1)⟩
  let v ← mergeBoth fuel m r v
  let v ← mergeLeft fuel m v
  let v ← mergeRight fuel r v
  countUp fuel 0 (pure len) fun j => do
    assignElement (← int (l + j)) (← readTemp v.temp j)

def mergeSort : Nat → Int → Int → Program State Unit
  | 0, _, _ => fail .outOfFuel
  | fuel + 1, l, r => do
    if l = r then pure ()
    else
      let m ← int (l + (← int (r - l)) / 2)
      mergeSort fuel l m
      mergeSort fuel (m + 1) r
      merge fuel l m r

def mergeSort2 : Nat → Int → Int → Program State Unit
  | 0, _, _ => fail .outOfFuel
  | fuel + 1, left, right => do
    if left ≥ right then pure ()
    else
      let mid := (← int (left + right)) / 2
      mergeSort2 fuel left mid
      mergeSort2 fuel (mid + 1) right
      merge fuel left mid right

/-- The merged list of two sorted ranges. Of equal elements, the one of the right range is first. -/
def merged (p q m r : Nat) (data : List Int) : List Int :=
  List.merge (slice q (r + 1) data) (slice p (m + 1) data) fun x y => x ≤ y

/-- The elements taken so far are at the start of `temp`, and with the rest they are `whole`. -/
structure Taking (whole rest : List Int) (p q : Nat) (v : Cursors) : Prop where
  temp : ∃ xs free, v.temp = written xs free ∧ v.i = xs.length ∧ xs ++ rest = whole ∧
    free.length = rest.length
  left : v.left = p
  right : v.right = q

/-- The list after its elements from index `l` on were replaced by the first `j` of these. -/
def copied (l j : Nat) (zs xs : List Int) : List Int := xs.take l ++ (zs.take j ++ xs.drop (l + j))

/-- The state between two passes: only elements of the range were accessed, and none has changed. -/
structure Reading (l r : Nat) (s t : State) : Prop where
  items : t.items = s.items
  within : Vec.Within l r s t

/-- What a call of one of the three functions does to its range. -/
structure SortedRange (l r : Nat) (s t : State) : Prop where
  rearranged : Rearranged l (r + 1) s.items t.items
  sorted : SortedIn l (r + 1) t.items
  within : Vec.Within l r s t

section
variable {s : State} {fuel k l m r p q : Nat} {v : Cursors} {data whole rest : List Int} {x : Int}

theorem runs_writeTemp {xs : List Int} {free : Cells Int} {Q : Cells Int → State → Prop}
    (hf : 0 < free.length) : Runs (writeTemp (written xs free) xs.length x) s Q ↔
      Q (written (xs ++ [x]) free.tail) s := by
  obtain ⟨y, ys, rfl⟩ := List.exists_cons_of_length_pos hf
  have hrange : ¬ ((xs.length : Int) < 0 ∨
      (written xs (y :: ys)).length ≤ (xs.length : Int).toNat) := by
    rw [length_written]
    omega
  rw [writeTemp, if_neg hrange, Int.toNat_natCast, set_written_next, runs_pure, List.tail_cons]

theorem runs_readTemp {xs : List Int} {free : Cells Int} {Q : Int → State → Prop}
    (hk : k < xs.length) : Runs (readTemp (written xs free) k) s Q ↔ Q xs[k]! s := by
  have hnonneg : ¬ ((k : Int) < 0) := by omega
  rw [readTemp, if_neg hnonneg, Int.toNat_natCast, getElem?_written hk, getElem!_of_lt hk]
  exact runs_pure

theorem runs_takeLeft (h : Taking whole (x :: rest) p q v) (hx : s.items[p]! = x)
    (hp : p < s.items.length) (hint : p < 2147483647) (hw : whole.length < 2147483648) :
    Runs (takeLeft v) s fun u t => t = s.touch p ∧ Taking whole rest (p + 1) q u := by
  obtain ⟨⟨xs, free, htemp, hi, rfl, hfree⟩, hleft, hright⟩ := h
  rw [List.length_append, List.length_cons] at hw
  rw [List.length_cons] at hfree
  rw [takeLeft, runs_bind, hleft, runs_element hp, hx, runs_bind, htemp, hi,
    runs_writeTemp (by omega), runs_int_bind (by omega) (by omega),
    runs_int_bind (by omega) (by omega), runs_pure]
  refine ⟨rfl, ⟨xs ++ [x], free.tail, rfl, by simp, by simp, ?_⟩, rfl, hright⟩
  rw [List.length_tail, hfree, Nat.add_sub_cancel]

theorem runs_takeRight (h : Taking whole (x :: rest) p q v) (hx : s.items[q]! = x)
    (hq : q < s.items.length) (hint : q < 2147483647) (hw : whole.length < 2147483648) :
    Runs (takeRight v) s fun u t => t = s.touch q ∧ Taking whole rest p (q + 1) u := by
  obtain ⟨⟨xs, free, htemp, hi, rfl, hfree⟩, hleft, hright⟩ := h
  rw [List.length_append, List.length_cons] at hw
  rw [List.length_cons] at hfree
  rw [takeRight, runs_bind, hright, runs_element hq, hx, runs_bind, htemp, hi,
    runs_writeTemp (by omega), runs_int_bind (by omega) (by omega),
    runs_int_bind (by omega) (by omega), runs_pure]
  refine ⟨rfl, ⟨xs ++ [x], free.tail, rfl, by simp, by simp, ?_⟩, hleft, rfl⟩
  rw [List.length_tail, hfree, Nat.add_sub_cancel]

/-- The next element is the first of the right range, unless that of the left range is less. -/
theorem merged_cons (hp : p ≤ m) (hq : q ≤ r) (hm : m < data.length) (hr : r < data.length) :
    merged p q m r data =
      if data[p]! ≥ data[q]! then data[q]! :: merged p (q + 1) m r data
      else data[p]! :: merged (p + 1) q m r data := by
  rw [merged, merged, merged, slice_cons (a := p) (by omega) (by omega),
    slice_cons (a := q) (by omega) (by omega), List.cons_merge_cons]
  by_cases hle : data[q]! ≤ data[p]!
  · rw [if_pos (decide_eq_true hle), if_pos hle]
  · rw [if_neg (by simpa using hle), if_neg hle]

/-- When one range is used up, the rest of the other one follows. -/
theorem merged_end (h : p = m + 1 ∨ q = r + 1) :
    merged p q m r data = slice p (m + 1) data ++ slice q (r + 1) data := by
  rcases h with rfl | rfl
  · rw [merged, slice_self, List.merge_right, List.nil_append]
  · rw [merged, slice_self, List.nil_merge, List.append_nil]

theorem Reading.touch {t : State} (h : Reading l r s t) (hl : l ≤ k) (hr : k ≤ r) :
    Reading l r s (t.touch k) :=
  ⟨h.items, h.within.next rfl (by simpa using ⟨hl, hr⟩)⟩

theorem runs_mergeBoth {s₀ : State} (h₀ : Reading l r s₀ s)
    (h : Taking whole (merged p q m r s.items) p q v)
    (hlp : l ≤ p) (hpm : p ≤ m + 1) (hmq : m + 1 ≤ q) (hqr : q ≤ r + 1)
    (hr : r < s.items.length) (hint : r < 2147483647) (hw : whole.length < 2147483648)
    (hf : m + 1 - p + (r + 1 - q) < fuel) :
    Runs (mergeBoth fuel m r v) s fun u t => Reading l r s₀ t ∧ ∃ p' q', l ≤ p' ∧ p' ≤ m + 1 ∧
      m + 1 ≤ q' ∧ q' ≤ r + 1 ∧
      Taking whole (slice p' (m + 1) t.items ++ slice q' (r + 1) t.items) p' q' u := by
  refine runs_loop (fun k v t => Reading l r s₀ t ∧ ∃ p q, k = m + 1 - p + (r + 1 - q) ∧ l ≤ p ∧
    p ≤ m + 1 ∧ m + 1 ≤ q ∧ q ≤ r + 1 ∧ Taking whole (merged p q m r t.items) p q v) ?_
    ⟨h₀, p, q, rfl, hlp, hpm, hmq, hqr, h⟩ hf
  rintro _ v t ⟨hread, p, q, rfl, hlp, hpm, hmq, hqr, h⟩
  have hlength : t.items.length = s.items.length := by rw [hread.items, h₀.items]
  by_cases hboth : p ≤ m ∧ q ≤ r
  · have hread' := (hread.touch hlp (by omega)).touch (k := q) (by omega) hboth.2
    rw [merged_cons hboth.1 hboth.2 (by omega) (by omega)] at h
    rw [h.left, h.right, if_pos (by omega), runs_elements (by omega) (by omega)]
    by_cases hge : t.items[p]! ≥ t.items[q]!
    · rw [if_pos hge] at h
      rw [if_pos hge, runs_bind]
      refine (runs_takeRight (s := (t.touch p).touch q) h rfl ?_ (by omega) hw).mono ?_
      · exact (show q < t.items.length by omega)
      · rintro u _ ⟨rfl, hu⟩
        rw [runs_pure]
        exact ⟨_, by omega, hread'.touch (by omega) hboth.2, p, q + 1, rfl, hlp, hpm, by omega,
          by omega, hu⟩
    · rw [if_neg hge] at h
      rw [if_neg hge, runs_bind]
      refine (runs_takeLeft (s := (t.touch p).touch q) h rfl ?_ (by omega) hw).mono ?_
      · exact (show p < t.items.length by omega)
      · rintro u _ ⟨rfl, hu⟩
        rw [runs_pure]
        exact ⟨_, by omega, hread'.touch hlp (by omega), p + 1, q, rfl, by omega, by omega, hmq,
          hqr, hu⟩
  · rw [merged_end (by omega)] at h
    rw [h.left, h.right, if_neg (by omega), runs_pure]
    exact ⟨hread, p, q, hlp, hpm, hmq, hqr, h⟩

theorem runs_mergeLeft {s₀ : State} (h₀ : Reading l r s₀ s)
    (h : Taking whole (slice p (m + 1) s.items ++ rest) p q v) (hlp : l ≤ p) (hpm : p ≤ m + 1)
    (hm : m < s.items.length) (hmr : m ≤ r) (hint : m < 2147483647) (hw : whole.length < 2147483648)
    (hf : m + 1 - p < fuel) :
    Runs (mergeLeft fuel m v) s fun u t => Reading l r s₀ t ∧ ∃ p', Taking whole rest p' q u := by
  refine runs_loop (fun k v t => Reading l r s₀ t ∧ ∃ p, k = m + 1 - p ∧ l ≤ p ∧ p ≤ m + 1 ∧
    Taking whole (slice p (m + 1) t.items ++ rest) p q v) ?_ ⟨h₀, p, rfl, hlp, hpm, h⟩ hf
  rintro _ v t ⟨hread, p, rfl, hlp, hpm, h⟩
  have hlength : t.items.length = s.items.length := by rw [hread.items, h₀.items]
  by_cases hle : p ≤ m
  · rw [slice_cons (by omega) (by omega), List.cons_append] at h
    rw [h.left, if_pos (by omega), runs_bind]
    refine (runs_takeLeft h rfl (by omega) (by omega) hw).mono ?_
    rintro u _ ⟨rfl, hu⟩
    rw [runs_pure]
    exact ⟨_, by omega, hread.touch hlp (by omega), p + 1, rfl, by omega, by omega, hu⟩
  · have hend : p = m + 1 := by omega
    rw [hend, slice_self, List.nil_append] at h
    rw [h.left, if_neg (by omega), runs_pure]
    exact ⟨hread, m + 1, h⟩

theorem runs_mergeRight {s₀ : State} (h₀ : Reading l r s₀ s)
    (h : Taking whole (slice q (r + 1) s.items) p q v) (hlq : l ≤ q) (hqr : q ≤ r + 1)
    (hr : r < s.items.length) (hint : r < 2147483647) (hw : whole.length < 2147483648)
    (hf : r + 1 - q < fuel) :
    Runs (mergeRight fuel r v) s fun u t => Reading l r s₀ t ∧ u.temp = written whole [] := by
  refine runs_loop (fun k v t => Reading l r s₀ t ∧ ∃ q, k = r + 1 - q ∧ l ≤ q ∧ q ≤ r + 1 ∧
    Taking whole (slice q (r + 1) t.items) p q v) ?_ ⟨h₀, q, rfl, hlq, hqr, h⟩ hf
  rintro _ v t ⟨hread, q, rfl, hlq, hqr, h⟩
  have hlength : t.items.length = s.items.length := by rw [hread.items, h₀.items]
  by_cases hle : q ≤ r
  · rw [slice_cons (by omega) (by omega)] at h
    rw [h.right, if_pos (by omega), runs_bind]
    refine (runs_takeRight h rfl (by omega) (by omega) hw).mono ?_
    rintro u _ ⟨rfl, hu⟩
    rw [runs_pure]
    exact ⟨_, by omega, hread.touch hlq hle, q + 1, rfl, by omega, by omega, hu⟩
  · have hend : q = r + 1 := by omega
    rw [hend, slice_self] at h
    obtain ⟨⟨xs, free, htemp, -, hwhole, hfree⟩, hleft, hright⟩ := h
    rw [hright, if_neg (by omega), runs_pure]
    refine ⟨hread, ?_⟩
    rw [htemp, ← hwhole, List.append_nil, List.length_eq_zero_iff.mp hfree]

theorem copied_succ {zs xs : List Int} {j : Nat} (hj : j < zs.length) (hl : l + j < xs.length) :
    (copied l j zs xs).set (l + j) zs[j]! = copied l (j + 1) zs xs := by
  have htake : (xs.take l).length = l := List.length_take_of_le (by omega)
  have hpre : (zs.take j).length = j := List.length_take_of_le hj.le
  rw [copied, copied, drop_eq_cons hl, List.set_append_right _ _ (by omega), htake,
    Nat.add_sub_cancel_left, List.set_append_right _ _ (by omega), hpre, Nat.sub_self,
    List.set_cons_zero, getElem!_pos zs j hj, List.take_add_one, List.getElem?_eq_getElem hj,
    Option.toList_some, List.append_assoc, List.singleton_append, Nat.add_assoc]

theorem length_copied {zs xs : List Int} {j : Nat} (hj : j ≤ zs.length) (hl : l + j ≤ xs.length) :
    (copied l j zs xs).length = xs.length := by
  rw [copied, List.length_append, List.length_append, List.length_take, List.length_take,
    List.length_drop]
  omega

/-- `for (int j = 0; j < len; j++) data[l + j] = temp[j]`. -/
theorem runs_copyBack {s₀ : State} (h₀ : Reading l r s₀ s) (hw : l + whole.length = r + 1)
    (hr : r < s.items.length) (hint : r < 2147483647) (hf : whole.length < fuel) :
    Runs (countUp fuel 0 (pure (whole.length : Int)) fun j => do
      assignElement (← int (l + j)) (← readTemp (written whole []) j)) s fun _ t =>
      t.items = copied l whole.length whole s.items ∧ Vec.Within l r s₀ t := by
  refine (runs_countUp (l := 0) (n := whole.length) (fun j t => t.items = copied l j whole s.items ∧
    Vec.Within l r s₀ t) ?_ (by omega) ?_ ?_ (by omega)).mono ?_
  · exact fun j t _ => runs_pure.mpr ⟨Int.toNat_natCast _, rfl⟩
  · rintro j - hj t ⟨ht, hwithin⟩
    have hcast : (l : Int) + j = (l + j : Nat) := by omega
    have hlength : l + j < t.items.length := by
      rw [ht, length_copied hj.le (by omega)]
      omega
    rw [hcast, runs_int_bind (by omega) (by omega), runs_bind, runs_readTemp hj,
      runs_assignElement hlength]
    refine ⟨?_, hwithin.next rfl (by simp; omega)⟩
    rw [← copied_succ hj (by omega), ← ht]
  · exact ⟨by simp [copied], h₀.within⟩
  · rintro _ t ⟨ht, hwithin⟩
    rw [Nat.max_eq_right (Nat.zero_le _)] at ht
    exact ⟨ht, hwithin⟩

theorem perm_merged (hlm : l ≤ m) (hmr : m < r) :
    (merged l (m + 1) m r data).Perm (slice l (r + 1) data) := by
  have hsplit : slice l (r + 1) data = slice l (m + 1) data ++ slice (m + 1) (r + 1) data :=
    slice_append (by omega) (by omega)
  rw [hsplit]
  exact (List.merge_perm_append ..).trans List.perm_append_comm

theorem pairwise_merged (hm : m < data.length) (hr : r < data.length)
    (hleft : SortedIn l (m + 1) data) (hright : SortedIn (m + 1) (r + 1) data) :
    (merged l (m + 1) m r data).Pairwise (· ≤ ·) := by
  rw [sortedIn_iff_slice hm] at hleft
  rw [sortedIn_iff_slice hr] at hright
  exact pairwise_merge_key id hright hleft

theorem runs_merge (hlm : l ≤ m) (hmr : m < r) (hr : r < s.items.length) (hint : r < 2147483647)
    (hleft : SortedIn l (m + 1) s.items) (hright : SortedIn (m + 1) (r + 1) s.items)
    (hf : r - l + 1 < fuel) : Runs (merge fuel l m r) s fun _ t => SortedRange l r s t := by
  have hperm : (merged l (m + 1) m r s.items).Perm (slice l (r + 1) s.items) :=
    perm_merged hlm hmr
  have hsorted := pairwise_merged (by omega) hr hleft hright
  have hlen : (r : Int) - l + 1 = (r + 1 - l : Nat) := by omega
  have hmid : (m : Int) + 1 = (m + 1 : Nat) := by omega
  have hwhole : (merged l (m + 1) m r s.items).length = r + 1 - l := by
    rw [hperm.length_eq, length_slice hr]
  rw [merge, runs_int_bind (by omega) (by omega), runs_int_bind (by omega) (by omega),
    runs_int_bind (by omega) (by omega), hlen, hmid, Int.toNat_natCast, runs_bind]
  have hstart : Taking (merged l (m + 1) m r s.items) (merged l (m + 1) m r s.items) l (m + 1)
      ⟨List.replicate (r + 1 - l) none, 0, l, (m + 1 : Nat)⟩ :=
    ⟨⟨[], _, rfl, rfl, List.nil_append _, List.length_replicate.trans hwhole.symm⟩, rfl, rfl⟩
  have hboth := runs_mergeBoth ⟨rfl, .refl⟩ hstart le_rfl (by omega) le_rfl (by omega) hr hint
    (by omega) (show m + 1 - l + (r + 1 - (m + 1)) < fuel by omega)
  generalize merged l (m + 1) m r s.items = whole at *
  refine hboth.mono ?_
  rintro v t ⟨hread, p, q, hlp, hpm, hmq, hqr, htaking⟩
  have hlength := congrArg List.length hread.items
  rw [runs_bind]
  refine (runs_mergeLeft hread htaking hlp hpm (by omega) hmr.le (by omega) (by omega)
    (by omega)).mono ?_
  rintro v' t' ⟨hread', p', htaking'⟩
  have hlength' := congrArg List.length hread'.items
  rw [hread.items, ← hread'.items] at htaking'
  rw [runs_bind]
  refine (runs_mergeRight hread' htaking' (by omega) hqr (by omega) hint (by omega)
    (by omega)).mono ?_
  rintro v'' t'' ⟨hread'', htemp⟩
  have hlength'' := congrArg List.length hread''.items
  rw [htemp, ← hwhole]
  refine (runs_copyBack hread'' (by omega) (by omega) hint (by omega)).mono ?_
  rintro _ u ⟨hu, hwithin⟩
  have hend : l + whole.length = r + 1 := by omega
  rw [copied, List.take_length, hend, hread''.items] at hu
  have hrearranged : Rearranged l (r + 1) s.items u.items := by
    rw [hu]
    exact .of_slice (by omega) hr hperm
  refine ⟨hrearranged, ?_, hwithin⟩
  rw [sortedIn_iff_slice (hrearranged.length_eq ▸ hr), hu, slice_of_append (by omega) hr hwhole]
  exact hsorted

/-- Two calls for the halves of a range, and a merge. -/
theorem runs_halves {f : Int → Int → Program State Unit} {b : Nat} (hb : b ≤ 2147483647)
    (ih : ∀ (l r : Nat) (s : State), l ≤ r → r < s.items.length → r < b → r - l + 2 < fuel →
      Runs (f l r) s fun _ t => SortedRange l r s t)
    (hlm : l ≤ m) (hmr : m < r) (hr : r < s.items.length) (hrb : r < b) (hf : r - l + 1 < fuel) :
    Runs (do f l m; f (m + 1 : Nat) r; merge fuel l m r) s fun _ t => SortedRange l r s t := by
  rw [runs_bind]
  refine (ih l m s hlm (by omega) (by omega) (by omega)).mono ?_
  intro _ t ht
  have hlength := ht.rearranged.length_eq
  rw [runs_bind]
  refine (ih (m + 1) r t hmr (by omega) hrb (by omega)).mono ?_
  intro _ u hu
  have hlength' := hu.rearranged.length_eq
  have hleft := ht.sorted.frame hu.rearranged (Or.inl le_rfl)
  refine (runs_merge hlm hmr (by omega) (by omega) hleft hu.sorted hf).mono ?_
  intro _ w hw
  refine ⟨?_, hw.sorted, ?_⟩
  · exact ((ht.rearranged.mono le_rfl (by omega)).trans
      (hu.rearranged.mono (by omega) le_rfl)).trans hw.rearranged
  · exact ((ht.within.mono le_rfl hmr.le).trans (hu.within.mono (by omega) le_rfl)).trans hw.within

theorem sortedRange_self {t : State} : SortedRange l l t t :=
  ⟨.refl, fun i j hi hij hj => absurd hij (by omega), .refl⟩

theorem runs_mergeSort (hlr : l ≤ r) (hr : r < s.items.length) (hint : r < 2147483647)
    (hf : r - l + 2 < fuel) : Runs (mergeSort fuel l r) s fun _ t => SortedRange l r s t := by
  induction fuel generalizing l r s with
  | zero => omega
  | succ fuel ih =>
    rw [mergeSort]
    by_cases heq : l = r
    · subst heq
      rw [if_pos rfl, runs_pure]
      exact sortedRange_self
    · have hmid : (l : Int) + (r - l) / 2 = (l + (r - l) / 2 : Nat) := by omega
      rw [if_neg (by omega), runs_int_bind (by omega) (by omega),
        runs_int_bind (by omega) (by omega), hmid]
      exact runs_halves le_rfl (fun l r s hlr hr hint hf => ih hlr hr hint hf) (by omega) (by omega)
        hr hint (by omega)

theorem runs_mergeSort2 (hlr : l ≤ r) (hr : r < s.items.length) (hint : r < 1073741825)
    (hf : r - l + 2 < fuel) : Runs (mergeSort2 fuel l r) s fun _ t => SortedRange l r s t := by
  induction fuel generalizing l r s with
  | zero => omega
  | succ fuel ih =>
    rw [mergeSort2]
    by_cases heq : l = r
    · subst heq
      rw [if_pos le_rfl, runs_pure]
      exact sortedRange_self
    · have hmid : ((l : Int) + r) / 2 = ((l + r) / 2 : Nat) := by omega
      rw [if_neg (by omega), runs_int_bind (by omega) (by omega), hmid]
      exact runs_halves (by decide) (fun l r s hlr hr hint hf => ih hlr hr hint hf) (by omega)
        (by omega) hr hint (by omega)

/-- A call for the right half leads to one where the sum is no `int`. -/
theorem not_runs_mergeSort2 (hlr : l < r) (hr : 1073741824 < r) {Q : Unit → State → Prop} :
    ¬ Runs (mergeSort2 fuel l r) s Q := by
  induction fuel generalizing l s Q with
  | zero => exact fun hruns => hruns.not_fails fails_fail
  | succ fuel ih =>
    intro hruns
    rw [mergeSort2, if_neg (by omega), runs_bind, runs_int_iff] at hruns
    obtain ⟨hint, hruns⟩ := hruns
    have hsmall := hint.2
    have hmid : ((l : Int) + r) / 2 + 1 = ((l + r) / 2 + 1 : Nat) := by omega
    rw [runs_bind] at hruns
    obtain ⟨_, t, -, hright⟩ := hruns
    rw [hmid, runs_bind] at hright
    exact ih (by omega) hright

/-- The calls for the left half never come to an end. -/
theorem not_runs_mergeSort_negative {j : Int} (hj : j < 0) {Q : Unit → State → Prop} :
    ¬ Runs (mergeSort fuel 0 j) s Q := by
  induction fuel generalizing j s Q with
  | zero => exact fun hruns => hruns.not_fails fails_fail
  | succ fuel ih =>
    intro hruns
    rw [mergeSort, if_neg hj.ne', runs_bind, runs_int_iff, Int.sub_zero, Int.zero_add, runs_bind,
      runs_int_iff, runs_bind] at hruns
    obtain ⟨-, -, hruns⟩ := hruns
    exact ih (by omega) hruns

end

/-- The range is sorted and nothing else is accessed, exactly when the range has one element or
its end is at most `2 ^ 30`. -/
theorem mergeSort2_iff (data : List Int) (left right fuel : Nat) (hlr : left ≤ right)
    (hr : right < data.length) (hf : right - left + 2 < fuel) :
    (Runs (mergeSort2 fuel left right) ⟨(), data, []⟩ fun _ t =>
      t.items = data.take left ++
        ((slice left (right + 1) data).insertionSort (· ≤ ·) ++ data.drop (right + 1)) ∧
      ∀ i ∈ t.touched, (left : Int) ≤ i ∧ i ≤ right) ↔
    left = right ∨ right ≤ 1073741824 := by
  constructor
  · intro hruns
    by_contra hnot
    exact not_runs_mergeSort2 (by omega) (by omega) hruns
  · intro hrange
    have hcall : Runs (mergeSort2 fuel left right) ⟨(), data, []⟩ fun _ t =>
        SortedRange left right ⟨(), data, []⟩ t := by
      rcases hrange with rfl | hsmall
      · cases fuel with
        | zero => omega
        | succ fuel =>
          rw [mergeSort2, if_pos le_rfl, runs_pure]
          exact sortedRange_self
      · exact runs_mergeSort2 hlr hr (by omega) hf
    refine hcall.mono ?_
    intro _ t ht
    obtain ⟨log, hlog, hmem⟩ := ht.within
    refine ⟨ht.rearranged.eq_sorted ht.sorted (by omega) hr, ?_⟩
    rwa [hlog]

def sample : List Int := [3, 1, 2, 4, 5, 8, 7, 6]

theorem mergeSort2_iff_sample :
    (Runs (mergeSort2 10 (0 : Nat) (7 : Nat)) ⟨(), sample, []⟩ fun _ t =>
      t.items = sample.take 0 ++
        ((slice 0 (7 + 1) sample).insertionSort (· ≤ ·) ++ sample.drop (7 + 1)) ∧
      ∀ i ∈ t.touched, ((0 : Nat) : Int) ≤ i ∧ i ≤ (7 : Nat)) ↔
    0 = 7 ∨ 7 ≤ 1073741824 :=
  mergeSort2_iff sample 0 7 10 (by decide) (by decide) (by decide)

def zeros : List Int := List.replicate 1073741826 0

/-- The sum of these two indices is the least number that is greater than any `int`. -/
theorem mergeSort2_zeros : 1073741823 ≤ 1073741825 ∧ 1073741825 < zeros.length ∧
    ∀ fuel, ¬ Runs (mergeSort2 fuel (1073741823 : Nat) (1073741825 : Nat)) ⟨(), zeros, []⟩
      fun _ t => t.items = zeros.take 1073741823 ++
        ((slice 1073741823 (1073741825 + 1) zeros).insertionSort (· ≤ ·) ++
          zeros.drop (1073741825 + 1)) ∧
        ∀ i ∈ t.touched, ((1073741823 : Nat) : Int) ≤ i ∧ i ≤ (1073741825 : Nat) := by
  have hlength : zeros.length = 1073741826 := List.length_replicate
  refine ⟨by decide, by omega, fun fuel => ?_⟩
  exact not_runs_mergeSort2 (by decide) (by decide)

/-- The two functions agree exactly of the arrays whose length, as an `int`, is positive and at
most `2 ^ 30 + 1`. -/
theorem mergeSort_iff (data : List Int) (fuel : Nat) (hf : data.length + 2 < fuel) :
    (Runs (do mergeSort fuel 0 (← int (toInt data.length - 1))) ⟨(), data, []⟩ fun _ t =>
      Runs (do mergeSort2 fuel 0 (← int (toInt data.length - 1))) ⟨(), data, []⟩ fun _ u =>
        u.items = t.items) ↔
    1 ≤ toInt data.length ∧ toInt data.length ≤ 1073741825 := by
  have hrange := isInt_toInt (n := data.length)
  have hle := toInt_le (n := data.length)
  generalize toInt data.length = len at *
  constructor
  · intro hruns
    by_cases hint : IsInt (len - 1)
    · rw [runs_bind, runs_int hint] at hruns
      have hpos : 1 ≤ len := by
        by_contra hneg
        exact not_runs_mergeSort_negative (by omega) hruns
      refine ⟨hpos, ?_⟩
      by_contra hlarge
      obtain ⟨_, t, -, hsecond⟩ := hruns
      obtain ⟨r, hr⟩ : ∃ r : Nat, len - 1 = r := ⟨(len - 1).toNat, by omega⟩
      rw [runs_bind, runs_int hint, hr] at hsecond
      exact not_runs_mergeSort2 (l := 0) (by omega) (by omega) hsecond
    · exact absurd (fails_int hint).bind hruns.not_fails
  · rintro ⟨hpos, hsmall⟩
    obtain ⟨r, hr⟩ : ∃ r : Nat, len - 1 = r := ⟨(len - 1).toNat, by omega⟩
    have hint : IsInt r := by
      unfold IsInt
      omega
    have hlast : r < data.length := by omega
    rw [hr, runs_bind, runs_int hint]
    refine (runs_mergeSort (s := ⟨(), data, []⟩) (Nat.zero_le r) hlast (by omega)
      (by omega)).mono ?_
    intro _ t ht
    rw [runs_bind, runs_int hint]
    refine (runs_mergeSort2 (s := ⟨(), data, []⟩) (Nat.zero_le r) hlast (by omega)
      (by omega)).mono ?_
    intro _ u hu
    rw [ht.rearranged.eq_sorted ht.sorted (Nat.zero_le _) hlast,
      hu.rearranged.eq_sorted hu.sorted (Nat.zero_le _) hlast]

theorem mergeSort_iff_sample :
    (Runs (do mergeSort 11 0 (← int (toInt sample.length - 1))) ⟨(), sample, []⟩ fun _ t =>
      Runs (do mergeSort2 11 0 (← int (toInt sample.length - 1))) ⟨(), sample, []⟩ fun _ u =>
        u.items = t.items) ↔
    1 ≤ toInt sample.length ∧ toInt sample.length ≤ 1073741825 :=
  mergeSort_iff sample 11 (by decide)

def empty : State := ⟨(), [], []⟩

/-- `mergeSort2` returns at once for the range from 0 to -1, and `mergeSort` does not return. -/
theorem mergeSort_empty :
    (∀ fuel, Runs (do mergeSort2 (fuel + 1) 0 (← int (toInt empty.items.length - 1))) empty
      fun _ u => u = empty) ∧
    ∀ fuel, ¬ Runs (do mergeSort fuel 0 (← int (toInt empty.items.length - 1))) empty fun _ t =>
      Runs (do mergeSort2 fuel 0 (← int (toInt empty.items.length - 1))) empty fun _ u =>
        u.items = t.items := by
  have hlast : toInt empty.items.length - 1 = -1 := by decide
  rw [hlast]
  constructor
  · intro fuel
    rw [runs_bind, runs_int (by decide), mergeSort2, if_pos (by decide), runs_pure]
  · intro fuel hruns
    rw [runs_bind, runs_int (by decide)] at hruns
    exact not_runs_mergeSort_negative (by decide) hruns

end LanguageTest.MergeSort
