import LanguageTest.Library.Counting
import LanguageTest.Library.Strings
import LanguageTest.Library.Words
import Mathlib.Data.List.TakeWhile

namespace LanguageTest.ReverseWords

/-- The string `rm_s`, beside the variable `left`. -/
abbrev State := Vec Int UInt8

/-- `' '`. -/
def blank : UInt8 := 32

def reverse (fuel : Nat) (left right : Int) : Program State Unit := do
  let n ← size
  if left < 0 ∨ n ≤ toSize left then pure ()
  else if right < 0 ∨ n ≤ toSize right then pure ()
  else
    loop (fun v : Int × Int => do
      if v.1 < v.2 then
        swapElements v.1 v.2
        pure (.again (← int (v.1 + 1), ← int (v.2 - 1)))
      else pure (.done ())) fuel (left, right)

/-- The index after the blanks at the beginning. -/
def skipBlanks (fuel : Nat) (s : List UInt8) : Program State Int :=
  loop (fun i => do
    if (← getChar s i) = blank ∧ i < s.length then pure (.again (← int (i + 1)))
    else pure (.done i)) fuel 0

/-- The index of the last blank of the run that `i` stands in. -/
def lastBlank (fuel : Nat) (s : List UInt8) (i : Int) : Program State Int :=
  loop (fun i => do
    let next ← int (i + 1)
    if ← (pure (decide (next < s.length)) <&&>
        (do pure (decide ((← getChar s next) = blank)))) then
      pure (.again next)
    else pure (.done i)) fuel i

/-- The loop that appends to `rm_s`. -/
def squeezeFrom (fuel : Nat) (s : List UInt8) (i : Int) : Program State (List UInt8) :=
  loop (fun v : Int × List UInt8 => do
    let (i, rm) := v
    if i < s.length then
      let i ← if (← getChar s i) = blank then lastBlank fuel s i else pure i
      let c ← getChar s i
      pure (.again (← int (i + 1), rm ++ [c]))
    else pure (.done rm)) fuel (i, [])

/-- The body of the loop that reverses the words. -/
def visit (fuel : Nat) (i : Int) : Program State Unit := do
  let s ← get
  if (← getChar s.items i) = blank then
    let right ← int (i - 1)
    reverse fuel s.other right
    let left ← int (right + 2)
    set ({ ← get with other := left } : State)
  let s ← get
  if toSize i = toSize ((s.items.length : Int) - 1) then
    reverse fuel s.other (toInt (toSize ((s.items.length : Int) - 1)))

def reverseWords (fuel : Nat) (s : List UInt8) : Program State (List UInt8) := do
  if s.length ≤ 1 ∧ s ≠ [blank] then pure s
  else
    let i ← skipBlanks fuel s
    let rm ← squeezeFrom fuel s i
    let last ← getChar rm (toSize ((rm.length : Int) - 1))
    let rm := if last = blank then rm.take (toSize ((rm.length : Int) - 1)) else rm
    set (⟨0, rm, []⟩ : State)
    countUp fuel 0 sizeBound (visit fuel)
    reverse fuel 0 (toInt (toSize (((← size : Nat) : Int) - 1)))
    pure (← get).items

/-- The words in reverse order, with one blank between any two of them. -/
noncomputable def wordsReversed (s : List UInt8) : List UInt8 :=
  joined blank (words blank s).reverse

/-- The words before the index `i` of the text `t` have been reversed. -/
structure Reversing (t : List UInt8) (i : Nat) (u : State) : Prop where
  parts : ∃ (done : List (List UInt8)) (cur rest : List UInt8),
    t = ended blank done ++ (cur ++ rest) ∧
    u.items = ended blank (done.map List.reverse) ++ (cur ++ rest) ∧
    u.other = (ended blank done).length ∧ i = (ended blank done).length + cur.length ∧
    blank ∉ cur ∧ ∀ w ∈ done, blank ∉ w
  size : u.items.length = t.length

section
variable {s t xs mid ys : List UInt8} {u : State} {i j k fuel : Nat}

/-- A part of the string is reversed. -/
theorem reverse_spec (hu : u.items = xs ++ (mid ++ ys)) (hn : u.items.length ≤ 2147483647)
    (hf : mid.length < fuel) :
    Runs (reverse fuel xs.length ((xs.length : Int) + mid.length - 1)) u fun _ v =>
      v.items = xs ++ (mid.reverse ++ ys) ∧ v.other = u.other := by
  have hsize : u.items.length = xs.length + (mid.length + ys.length) := by simp [hu]
  rw [reverse, runs_bind, runs_size, toSize_natCast (by omega)]
  have hempty (hmid : mid = []) : u.items = xs ++ (mid.reverse ++ ys) ∧ u.other = u.other := by
    simp [hu, hmid]
  split_ifs with hleft hright
  · rw [runs_pure]
    exact hempty (List.length_eq_zero_iff.mp (by omega))
  · rw [runs_pure]
    refine hempty (List.length_eq_zero_iff.mp ?_)
    rcases hright with hright | hright
    · omega
    · by_contra hpos
      have hcast : (xs.length : Int) + mid.length - 1 = (xs.length + mid.length - 1 : Nat) := by
        omega
      rw [hcast, toSize_natCast (by omega)] at hright
      omega
  · refine runs_loop (k := mid.length) (fun r (v : Int × Int) w => ∃ xs' mid' ys' : List UInt8,
      w.items = xs' ++ (mid' ++ ys') ∧ xs' ++ (mid'.reverse ++ ys') = xs ++ (mid.reverse ++ ys) ∧
      r = mid'.length ∧ v = ((xs'.length : Int), (xs'.length : Int) + mid'.length - 1) ∧
      w.other = u.other ∧ w.items.length = u.items.length) ?_
      ⟨xs, mid, ys, hu, rfl, rfl, rfl, rfl, rfl⟩ hf
    intro r v w hw
    obtain ⟨xs', mid', ys', hitems, hall, rfl, rfl, hother, hlength⟩ := hw
    have hsize' : w.items.length = xs'.length + (mid'.length + ys'.length) := by simp [hitems]
    dsimp only
    cases mid' with
    | nil =>
      have hempty : ¬ (xs'.length : Int) < xs'.length + ([] : List UInt8).length - 1 := by
        rw [List.length_nil]
        omega
      rw [if_neg hempty, runs_pure]
      exact ⟨by rw [← hall, hitems]; rfl, hother⟩
    | cons x mid' =>
      rcases List.eq_nil_or_concat mid' with rfl | ⟨m, y, rfl⟩
      · rw [if_neg (by simp), runs_pure]
        exact ⟨by rw [← hall, hitems]; rfl, hother⟩
      · rw [List.concat_eq_append] at hitems hall hsize' ⊢
        simp only [List.length_cons, List.length_append, List.length_nil] at hsize' ⊢
        have hlast : (xs'.length : Int) + ((m.length + (0 + 1) + 1 : Nat) : Int) - 1 =
            (xs'.length + (m.length + 1) : Nat) := by omega
        have hswap : (w.swap xs'.length (xs'.length + (m.length + 1))).items =
            xs' ++ y :: (m ++ x :: ys') := by
          rw [Vec.swap_items, hitems]
          simpa using swapped_append (l := xs') (m := m) (x := x) (y := y) (r := ys')
        rw [hlast, if_pos (by omega), runs_bind, runs_swapElements (by omega) (by omega), runs_bind,
          runs_int ⟨by omega, by omega⟩, runs_bind, runs_int ⟨by omega, by omega⟩, runs_pure]
        refine ⟨m.length, by omega, xs' ++ [y], m, x :: ys', by rw [hswap]; simp, ?_, rfl, ?_,
          hother, ?_⟩
        · rw [← hall]
          simp
        · simp
          omega
        · rw [Vec.swap_items, length_swapped, hlength]

theorem drop_eq_nil_or_cons (s : List UInt8) (k : Nat) :
    s.length ≤ k ∧ s.drop k = [] ∨ k < s.length ∧ s.drop k = s[k]! :: s.drop (k + 1) := by
  rcases Nat.lt_or_ge k s.length with hk | hk
  · exact .inr ⟨hk, drop_eq_cons hk⟩
  · exact .inl ⟨hk, List.drop_eq_nil_of_le hk⟩

theorem skipBlanks_spec (hn : s.length ≤ 2147483647) (hf : s.length < fuel) :
    Runs (skipBlanks fuel s) u fun i v => v = u ∧
      ∃ k : Nat, i = k ∧ k ≤ s.length ∧ s.drop k = s.dropWhile (· = blank) := by
  refine runs_loop (k := s.length) (fun r (i : Int) v => v = u ∧ ∃ k : Nat, i = k ∧
    k + r = s.length ∧ (s.drop k).dropWhile (· = blank) = s.dropWhile (· = blank)) ?_
    ⟨rfl, 0, rfl, Nat.zero_add _, rfl⟩ hf
  intro r i v hv
  obtain ⟨rfl, k, rfl, hr, hdrop⟩ := hv
  rw [runs_bind, runs_getChar (by omega)]
  rcases drop_eq_nil_or_cons s k with ⟨hk, hnil⟩ | ⟨hk, hcons⟩
  · rw [if_neg (by omega), runs_pure]
    rw [hnil] at hdrop
    exact ⟨rfl, k, rfl, by omega, hnil.trans hdrop⟩
  · rw [hcons] at hdrop
    by_cases hc : s[k]! = blank
    · rw [if_pos ⟨hc, by omega⟩, runs_bind, runs_int ⟨by omega, by omega⟩, runs_pure]
      rw [List.dropWhile_cons_of_pos (by simpa using hc)] at hdrop
      exact ⟨r - 1, by omega, rfl, k + 1, rfl, by omega, hdrop⟩
    · rw [if_neg fun h => hc h.1, runs_pure]
      rw [List.dropWhile_cons_of_neg (by simpa using hc)] at hdrop
      exact ⟨rfl, k, rfl, by omega, hcons.trans hdrop⟩

theorem lastBlank_spec (hk : k < s.length) (hc : s[k]! = blank) (hn : s.length ≤ 2147483647)
    (hf : s.length < fuel) :
    Runs (lastBlank fuel s k) u fun i v => v = u ∧ ∃ j : Nat, i = j ∧ k ≤ j ∧ j < s.length ∧
      s[j]! = blank ∧ squeeze blank (s.drop k) = blank :: squeeze blank (s.drop (j + 1)) := by
  refine runs_loop (k := s.length - k) (fun r (i : Int) v => v = u ∧ ∃ j : Nat, i = j ∧
    j + r = s.length ∧ k ≤ j ∧ j < s.length ∧ s[j]! = blank ∧
    squeeze blank (s.drop k) = squeeze blank (s.drop j)) ?_
    ⟨rfl, k, rfl, by omega, Nat.le_refl k, hk, hc, rfl⟩ (by omega)
  intro r i v hv
  obtain ⟨rfl, j, rfl, hr, hkj, hj, hblank, hsqueeze⟩ := hv
  have hnext : (j : Int) + 1 = (j + 1 : Nat) := by omega
  rw [drop_eq_cons hj, hblank] at hsqueeze
  rw [hnext, runs_int_bind (by omega) (by omega), runs_bind, runs_andM, runs_pure]
  rcases drop_eq_nil_or_cons s (j + 1) with ⟨hlast, hnil⟩ | ⟨hmore, hcons⟩
  · rw [if_neg (by simp; omega), if_neg (by simp), runs_pure]
    refine ⟨rfl, j, rfl, hkj, hj, hblank, ?_⟩
    rw [hsqueeze, hnil]
    rfl
  · rw [if_pos (by simp; omega), runs_bind, runs_getChar (by omega), runs_pure]
    by_cases hd : s[j + 1]! = blank
    · rw [if_pos (by simpa using hd), runs_pure]
      refine ⟨r - 1, by omega, rfl, j + 1, rfl, by omega, by omega, hmore, hd, ?_⟩
      rw [hsqueeze, hcons, hd, squeeze_sep_sep]
    · rw [if_neg (by simpa using hd), runs_pure]
      refine ⟨rfl, j, rfl, hkj, hj, hblank, ?_⟩
      rw [hsqueeze]
      apply squeeze_cons
      intro _ d t heq
      rw [hcons, List.cons_eq_cons] at heq
      exact heq.1 ▸ hd

theorem squeezeFrom_spec (hk : k ≤ s.length) (hn : s.length ≤ 2147483647) (hf : s.length < fuel) :
    Runs (squeezeFrom fuel s k) u fun rm v => v = u ∧ rm = squeeze blank (s.drop k) := by
  refine runs_loop (k := s.length - k) (fun r (p : Int × List UInt8) v => v = u ∧ ∃ j : Nat,
    p.1 = j ∧ j ≤ s.length ∧ r = s.length - j ∧
    p.2 ++ squeeze blank (s.drop j) = squeeze blank (s.drop k)) ?_ ⟨rfl, k, rfl, hk, rfl, rfl⟩
    (by omega)
  intro r p v hp
  obtain ⟨i, rm⟩ := p
  obtain ⟨rfl, j, rfl, hj, rfl, hall⟩ := hp
  dsimp only at hall ⊢
  rcases drop_eq_nil_or_cons s j with ⟨hlast, hnil⟩ | ⟨hmore, hcons⟩
  · rw [if_neg (by omega), runs_pure]
    rw [hnil] at hall
    exact ⟨rfl, by simpa [squeeze] using hall⟩
  · rw [if_pos (by omega), runs_bind, runs_getChar hj]
    by_cases hc : s[j]! = blank
    · rw [if_pos hc, runs_bind]
      refine (lastBlank_spec hmore hc hn hf).mono ?_
      intro i v hi
      obtain ⟨rfl, m, rfl, hjm, hm, hblank, hsqueeze⟩ := hi
      rw [runs_bind, runs_getChar (by omega), runs_bind, runs_int ⟨by omega, by omega⟩, runs_pure]
      refine ⟨s.length - (m + 1), by omega, rfl, m + 1, rfl, by omega, rfl, ?_⟩
      rw [← hall, hsqueeze, hblank]
      simp
    · rw [if_neg hc, runs_bind, runs_pure, runs_bind, runs_getChar (by omega), runs_bind,
        runs_int ⟨by omega, by omega⟩, runs_pure]
      refine ⟨s.length - (j + 1), by omega, rfl, j + 1, rfl, by omega, rfl, ?_⟩
      rw [← hall, hcons, squeeze_cons fun h => absurd h hc]
      simp

/-- The blank at the end goes away. -/
theorem trim_eq (ht : t ≠ []) :
    (if t[t.length - 1]! = blank then t.take (t.length - 1) else t) =
      if t.getLast? = some blank then t.dropLast else t := by
  have hpos := List.length_pos_of_ne_nil ht
  have hlast : t.getLast? = some t[t.length - 1]! := by
    rw [List.getLast?_eq_getElem?, getElem!_of_lt (by omega)]
  simp [hlast, List.dropLast_eq_take]

/-- The text of the words, between the pass that is to come and the end. -/
theorem Reversing.start : Reversing t 0 ⟨0, t, []⟩ where
  parts := ⟨[], [], t, by simp, by simp, by simp, by simp, by simp, by simp⟩
  size := rfl

section
variable {ws done : List (List UInt8)} {cur rest : List UInt8} {c : UInt8} {v : State}

/-- The word `cur` is over, and was reversed. -/
theorem Reversing.endWord (htext : t = ended blank done ++ (cur ++ blank :: rest))
    (hitems : v.items = ended blank (done.map List.reverse) ++ (cur.reverse ++ blank :: rest))
    (hleft : v.other = i + 1) (hcount : i = (ended blank done).length + cur.length)
    (hcur : blank ∉ cur) (hdone : ∀ w ∈ done, blank ∉ w) : Reversing t (i + 1) v := by
  refine ⟨⟨done ++ [cur], [], rest, ?_, ?_, ?_, ?_, by simp, ?_⟩, ?_⟩
  · rw [htext, ended_concat]
    simp
  · rw [hitems, List.map_append, List.map_singleton, ended_concat]
    simp
  · rw [hleft, ended_concat]
    simp
    omega
  · rw [ended_concat]
    simp
    omega
  · exact List.forall_mem_append.mpr ⟨hdone, List.forall_mem_singleton.mpr hcur⟩
  · simp [hitems, htext, length_ended_map_reverse]

/-- The word `cur` goes on. -/
theorem Reversing.goOn (htext : t = ended blank done ++ (cur ++ c :: rest))
    (hitems : v.items = ended blank (done.map List.reverse) ++ (cur ++ c :: rest))
    (hleft : v.other = (ended blank done).length)
    (hcount : i = (ended blank done).length + cur.length) (hcur : blank ∉ cur ++ [c])
    (hdone : ∀ w ∈ done, blank ∉ w) : Reversing t (i + 1) v := by
  refine ⟨⟨done, cur ++ [c], rest, ?_, ?_, hleft, ?_, hcur, hdone⟩, ?_⟩
  · simpa using htext
  · simpa using hitems
  · simp
    omega
  · simp [hitems, htext, length_ended_map_reverse]

/-- The last word is over. -/
theorem joined_reversed (hws : ∀ w ∈ ws, w ≠ [] ∧ blank ∉ w) (hne : ws ≠ [])
    (htext : joined blank ws = ended blank done ++ cur) (hcur : blank ∉ cur)
    (hdone : ∀ w ∈ done, blank ∉ w) :
    joined blank (ws.map List.reverse) = ended blank (done.map List.reverse) ++ cur.reverse := by
  have hwords : ws = done ++ [cur] := by
    refine joined_inj (fun w hw => (hws w hw).2) hne ?_ (by simp) ?_
    · exact List.forall_mem_append.mpr ⟨hdone, List.forall_mem_singleton.mpr hcur⟩
    · rw [joined_concat]
      exact htext
  rw [hwords, List.map_append, List.map_singleton, joined_concat]

end

theorem visit_spec {ws : List (List UInt8)} (hws : ∀ w ∈ ws, w ≠ [] ∧ blank ∉ w) (hne : ws ≠ [])
    (hn : (joined blank ws).length ≤ 2147483647) (hf : (joined blank ws).length < fuel)
    (hi : i < (joined blank ws).length) (h : Reversing (joined blank ws) i u) :
    Runs (visit fuel i) u fun _ v => v.items.length = (joined blank ws).length ∧
      (i + 1 < (joined blank ws).length → Reversing (joined blank ws) (i + 1) v) ∧
      (i + 1 = (joined blank ws).length → v.items = joined blank (ws.map List.reverse)) := by
  obtain ⟨done, cur, rest, htext, hitems, hleft, hcount, hcur, hdone⟩ := h.parts
  have hsize := h.size
  have hreversed := length_ended_map_reverse (b := blank) done
  obtain ⟨c, rest, rfl⟩ : ∃ c r, rest = c :: r := by
    apply List.exists_cons_of_ne_nil
    intro hnil
    rw [htext, hnil] at hi
    simp only [List.append_nil, List.length_append] at hi
    omega
  have hread : u.items[i]! = c := by
    have hi : i = (ended blank (done.map List.reverse) ++ cur).length := by
      simp [hcount, hreversed]
    rw [hitems, ← List.append_assoc, hi]
    exact getElem!_append (k := 0)
  have hlen : (joined blank ws).length = i + (rest.length + 1) := by
    rw [htext, hcount]
    simp
    omega
  have hcast : (u.items.length : Int) - 1 = (u.items.length - 1 : Nat) := by omega
  rw [visit, runs_bind, runs_get, runs_bind, runs_getChar (by omega), hread]
  by_cases hc : c = blank
  · subst hc
    have hmore : rest ≠ [] := by
      intro hnil
      obtain ⟨x, hlast, hx⟩ := getLast?_joined hne hws
      rw [htext, hnil] at hlast
      simp at hlast
      exact hx hlast.symm
    have hpos := List.length_pos_of_ne_nil hmore
    have hright : (i : Int) - 1 =
        ((ended blank (done.map List.reverse)).length : Int) + cur.length - 1 := by omega
    rw [if_pos rfl, runs_bind, runs_int ⟨by omega, by omega⟩, runs_bind, hleft,
      ← hreversed, hright]
    refine (reverse_spec hitems (by omega) (by omega)).mono ?_
    intro _ v hv
    obtain ⟨hv, -⟩ := hv
    have hlength : v.items.length = u.items.length := by simp [hv, hitems]
    rw [runs_bind, runs_int ⟨by omega, by omega⟩, runs_bind, runs_get, runs_bind, runs_set,
      runs_bind, runs_get]
    dsimp only
    rw [hlength, hcast, toSize_natCast (by omega), toSize_natCast (by omega), if_neg (by omega),
      runs_pure]
    refine ⟨hlength.trans hsize, fun _ => ?_, fun hend => by omega⟩
    exact Reversing.endWord htext hv (by dsimp only; omega) hcount hcur hdone
  · have hcur' : blank ∉ cur ++ [c] := by
      rw [List.mem_append, List.mem_singleton, not_or]
      exact ⟨hcur, fun he => hc he.symm⟩
    rw [if_neg hc, runs_bind, runs_get, hcast, toSize_natCast (by omega),
      toSize_natCast (by omega)]
    split_ifs with hend
    · obtain rfl : rest = [] := List.length_eq_zero_iff.mp (by omega)
      have hright : ((u.items.length - 1 : Nat) : Int) =
          ((ended blank (done.map List.reverse)).length : Int) + (cur ++ [c]).length - 1 := by
        simp
        omega
      have hitems' : u.items = ended blank (done.map List.reverse) ++ ((cur ++ [c]) ++ []) := by
        simpa using hitems
      rw [toInt_of_lt (by omega), hleft, ← hreversed, hright]
      refine (reverse_spec hitems' (by omega) (by simp; omega)).mono ?_
      intro _ v hv
      obtain ⟨hv, -⟩ := hv
      have hlength : v.items.length = u.items.length := by simp [hv, hitems]
      refine ⟨by omega, fun hmore => by omega, fun _ => ?_⟩
      rw [hv, List.append_nil, joined_reversed hws hne htext hcur' hdone]
    · rw [runs_pure]
      exact ⟨hsize, fun _ => Reversing.goOn htext hitems hleft hcount hcur' hdone,
        fun hlast => by omega⟩

/-- The text of the words is turned into the text of the words in reverse order. -/
theorem visits_spec {ws : List (List UInt8)} (hws : ∀ w ∈ ws, w ≠ [] ∧ blank ∉ w) (hne : ws ≠ [])
    (hn : (joined blank ws).length ≤ 2147483647) (hf : (joined blank ws).length < fuel) :
    Runs (countUp fuel 0 sizeBound (visit fuel)) ⟨0, joined blank ws, []⟩ fun _ v =>
      v.items.length = (joined blank ws).length ∧
        v.items = joined blank (ws.map List.reverse) := by
  have htext : joined blank ws ≠ [] := by
    obtain ⟨x, hlast, -⟩ := getLast?_joined hne hws
    intro hnil
    simp [hnil] at hlast
  have hpos := List.length_pos_of_ne_nil htext
  refine (runs_countUp (l := 0) (n := (joined blank ws).length)
    (fun i v => v.items.length = (joined blank ws).length ∧
      (i < (joined blank ws).length → Reversing (joined blank ws) i v) ∧
      (i = (joined blank ws).length → v.items = joined blank (ws.map List.reverse)))
    ?_ (by omega) ?_ ⟨rfl, fun _ => Reversing.start, fun h => by omega⟩ (by omega)).mono ?_
  · intro i v hv
    rw [runs_sizeBound]
    exact ⟨by simp [hv.1], rfl⟩
  · intro i _ hi v hv
    exact visit_spec hws hne hn hf hi (hv.2.1 hi)
  · intro _ v hv
    exact ⟨hv.1, hv.2.2 (Nat.zero_max _)⟩

theorem runs_reverseWords (hs : ∃ c ∈ s, c ≠ blank) (hn : s.length ≤ 2147483647)
    (hf : s.length < fuel) : Runs (reverseWords fuel s) u fun r _ => r = wordsReversed s := by
  obtain ⟨c, hmem, hc⟩ := hs
  rw [reverseWords]
  split_ifs with hsmall
  · -- a single character, the word of the text
    have hpos := List.length_pos_of_mem hmem
    obtain ⟨d, rfl⟩ := List.length_eq_one_iff.mp (show s.length = 1 by omega)
    obtain rfl := List.mem_singleton.mp hmem
    rw [runs_pure, wordsReversed, words_singleton hc]
    simp
  · obtain ⟨d, tail, hd, hdrop⟩ : ∃ d tail, d ≠ blank ∧ s.dropWhile (· = blank) = d :: tail := by
      cases hdrop : s.dropWhile (· = blank) with
      | nil =>
        have hall := List.dropWhile_eq_nil_iff.mp hdrop c hmem
        exact absurd (by simpa using hall) hc
      | cons d tail =>
        have hhead := List.head_dropWhile_not (p := (· = blank)) (l := s) (by simp [hdrop])
        simp only [hdrop, List.head_cons] at hhead
        exact ⟨d, tail, by simpa using hhead, rfl⟩
    have hwords : words blank (d :: tail) = words blank s := by rw [← hdrop, words_dropWhile]
    have hne : words blank s ≠ [] := hwords ▸ words_ne_nil hd
    obtain ⟨hsqueezed, htrim⟩ :=
      ((squeeze_spec blank tail).1 d hd).dropLast (hwords ▸ hne)
    rw [runs_bind]
    refine (skipBlanks_spec hn hf).mono ?_
    intro i v hi
    obtain ⟨rfl, k, rfl, hk, hskip⟩ := hi
    rw [runs_bind]
    refine (squeezeFrom_spec hk hn hf).mono ?_
    intro rm w hrm
    obtain ⟨rfl, rfl⟩ := hrm
    rw [hskip, hdrop]
    have hle : (squeeze blank (d :: tail)).length ≤ s.length := by
      rw [← hdrop]
      exact (length_squeeze_le blank _).trans (List.length_dropWhile_le _ s)
    have hpos := List.length_pos_of_ne_nil hsqueezed
    have hlast : ((squeeze blank (d :: tail)).length : Int) - 1 =
        ((squeeze blank (d :: tail)).length - 1 : Nat) := by omega
    have htext : (joined blank (words blank s)).length ≤ s.length := by
      rw [← hwords, ← htrim]
      split_ifs
      · rw [List.length_dropLast]
        omega
      · exact hle
    rw [hlast, toSize_natCast (by omega), runs_bind, runs_getChar (by omega), runs_bind,
      trim_eq hsqueezed, htrim, hwords, runs_set, runs_bind]
    refine (visits_spec (fun w hw => mem_words hw) hne (by omega) (by omega)).mono ?_
    intro _ v hv
    obtain ⟨hlength, hitems⟩ := hv
    have htrimmed : (joined blank (words blank s)).length ≠ 0 := by
      obtain ⟨x, hx, -⟩ := getLast?_joined hne fun w hw => mem_words hw
      intro hzero
      simp [List.length_eq_zero_iff.mp hzero] at hx
    have hcast : (v.items.length : Int) - 1 = (v.items.length - 1 : Nat) := by omega
    have hright : ((v.items.length - 1 : Nat) : Int) =
        (([] : List UInt8).length : Int) + v.items.length - 1 := by
      simp
      omega
    rw [runs_bind, runs_size, runs_bind, hcast, toSize_natCast (by omega), toInt_of_lt (by omega),
      hright]
    have hparts : v.items = ([] : List UInt8) ++ (v.items ++ []) := by simp
    refine (reverse_spec hparts (by omega) (by omega)).mono ?_
    intro _ w hw
    rw [runs_bind, runs_get, runs_pure, hw.1, hitems, reverse_joined]
    simp [wordsReversed]

/-- The character before the end of an empty `rm_s` is read. -/
theorem fails_reverseWords (hne : s ≠ []) (hs : ∀ c ∈ s, c = blank) (hn : s.length ≤ 2147483647)
    (hf : s.length < fuel) : Fails (reverseWords fuel s) u .outOfRange := by
  have hpos := List.length_pos_of_ne_nil hne
  have hlarge : ¬ (s.length ≤ 1 ∧ s ≠ [blank]) := by
    intro h
    obtain ⟨c, rfl⟩ := List.length_eq_one_iff.mp (show s.length = 1 by omega)
    exact h.2 (congrArg (fun c => [c]) (hs c (by simp)))
  have hdrop : s.dropWhile (· = blank) = [] := by
    apply List.dropWhile_eq_nil_iff.mpr
    intro c hc
    simpa using hs c hc
  rw [reverseWords, if_neg hlarge]
  refine Runs.fails ((skipBlanks_spec hn hf).mono ?_)
  intro i v hi
  obtain ⟨rfl, k, rfl, hk, hskip⟩ := hi
  refine Runs.fails ((squeezeFrom_spec hk hn hf).mono ?_)
  intro rm w hrm
  obtain ⟨rfl, rfl⟩ := hrm
  rw [hskip, hdrop]
  exact (fails_getChar (by decide)).bind

/-- No `int` reaches the end of a longer string. -/
theorem ensures_squeezeFrom (hn : 2147483648 ≤ s.length) {i : Int} (hi : IsInt i) :
    Ensures (squeezeFrom fuel s i) u fun _ _ => False := by
  refine ensures_loop (fun (p : Int × List UInt8) _ => IsInt p.1) ?_ hi
  intro p v hp
  dsimp only
  have hlt := hp.2
  have hnext (i : Int) (w : State) : Ensures (do
      let c ← getChar s i
      pure (.again (← int (i + 1), p.2 ++ [c]) : Step (Int × List UInt8) (List UInt8))) w
      fun r _ => ∃ q, r = .again q ∧ IsInt q.1 := by
    refine Ensures.bind (ensures_getChar.mono ?_)
    intro c w _
    refine Ensures.bind (ensures_int.mono ?_)
    intro j w hj
    obtain ⟨rfl, hint, -⟩ := hj
    exact ensures_pure ⟨_, rfl, hint⟩
  rw [if_pos (by omega)]
  refine Ensures.bind (ensures_getChar.mono ?_)
  intro c w _
  split_ifs
  · refine Ensures.bind fun i w _ => (hnext i w).mono ?_
    intro r _ hr
    obtain ⟨q, rfl, hint⟩ := hr
    exact hint
  · refine Ensures.bind (ensures_pure ((hnext p.1 w).mono ?_))
    intro r _ hr
    obtain ⟨q, rfl, hint⟩ := hr
    exact hint

theorem not_runs_reverseWords (hn : 2147483648 ≤ s.length) {Q : List UInt8 → State → Prop} :
    ¬ Runs (reverseWords fuel s) u Q := by
  refine Ensures.not_runs ?_
  rw [reverseWords, if_neg (by omega)]
  have hskip : Ensures (skipBlanks fuel s) u fun i _ => IsInt i := by
    refine ensures_loop (fun i _ => IsInt i) ?_ (by decide)
    intro i v hi
    refine Ensures.bind (ensures_getChar.mono ?_)
    intro c w _
    split_ifs
    · refine Ensures.bind (ensures_int.mono ?_)
      intro j w hj
      obtain ⟨rfl, hint, -⟩ := hj
      exact ensures_pure hint
    · exact ensures_pure hi
  refine Ensures.bind (hskip.mono ?_)
  intro i v hi
  refine Ensures.bind ((ensures_squeezeFrom hn hi).mono ?_)
  intro _ _ hfalse
  exact hfalse.elim

/-- The words come out in reverse order of every string that has one, or nothing at all. -/
theorem reverseWords_iff (hf : s.length < fuel) :
    (Runs (reverseWords fuel s) u fun r _ => r = wordsReversed s) ↔
      (s = [] ∨ ∃ c ∈ s, c ≠ blank) ∧ s.length ≤ 2147483647 := by
  rcases Nat.lt_or_ge 2147483647 s.length with hlong | hn
  · refine iff_of_false (not_runs_reverseWords hlong) ?_
    intro h
    omega
  · by_cases hne : s = []
    · subst hne
      refine iff_of_true ?_ ⟨.inl rfl, hn⟩
      rw [reverseWords, if_pos ⟨by simp, by simp⟩, runs_pure]
      simp [wordsReversed]
    · by_cases hs : ∃ c ∈ s, c ≠ blank
      · exact iff_of_true (runs_reverseWords hs hn hf) ⟨.inr hs, hn⟩
      · refine iff_of_false ?_ fun h => h.1.elim hne hs
        intro h
        apply h.not_fails (fails_reverseWords hne ?_ hn hf)
        intro c hc
        by_contra hcb
        exact hs ⟨c, hc, hcb⟩

/-- `" a  b"`. -/
def sample : List UInt8 := [32, 97, 32, 32, 98]

theorem reverseWords_iff_sample :
    (Runs (reverseWords 6 sample) ⟨0, [], []⟩ fun r _ => r = wordsReversed sample) ↔
      (sample = [] ∨ ∃ c ∈ sample, c ≠ blank) ∧ sample.length ≤ 2147483647 :=
  reverseWords_iff (by decide)

/-- A single blank has no words, and the string in reverse order would be empty. -/
theorem reverseWords_blank :
    ¬ Runs (reverseWords 2 [blank]) ⟨0, [], []⟩ fun r _ => r = wordsReversed [blank] := by
  intro h
  exact h.not_fails (fails_reverseWords (by simp) (by simp) (by decide) (by decide))

end

end LanguageTest.ReverseWords
