import LanguageTest.Library.Program
import LanguageTest.Library.Words
import Mathlib.Data.List.Forall2
import Mathlib.Data.List.Perm.Basic
import Mathlib.Data.List.TakeWhile

namespace LanguageTest.CoOccurrence

/-- The characters that `>>` skips. -/
def isSpace (c : UInt8) : Bool := c = 32 ∨ 9 ≤ c ∧ c ≤ 13

def blank : UInt8 := 32

def newline : UInt8 := 10

abbrev Word := List UInt8

/-- The characters that a stream has left, and its `eofbit` and `failbit`. -/
structure Stream where
  rest : List UInt8
  eof : Bool
  failed : Bool

/-- The stream, and the pairs that were printed, one on a line. -/
structure State where
  text : Stream
  out : List (Word × Word)

/-- `text >> s`, with the new value of `s`. When there is no word, it keeps the old one. -/
def extract (old : Word) : Program State Word := do
  let s ← get
  let t := s.text
  if t.eof ∨ t.failed then
    set { s with text := { t with failed := true } }
    pure old
  else
    let rest := t.rest.dropWhile isSpace
    if rest = [] then
      set { s with text := ⟨[], true, true⟩ }
      pure old
    else
      let next := rest.dropWhile (!isSpace ·)
      set { s with text := ⟨next, next.isEmpty, false⟩ }
      pure (rest.takeWhile (!isSpace ·))

/-- `text.peek()`, without a value at the end. -/
def peek : Program State (Option UInt8) := do
  let s ← get
  let t := s.text
  if t.eof ∨ t.failed then
    set { s with text := { t with failed := true } }
    pure none
  else
    match t.rest with
    | [] => do
      set { s with text := { t with eof := true } }
      pure none
    | c :: _ => pure (some c)

def eof : Program State Bool := do pure (← get).text.eof

def print (first second : Word) : Program State Unit := do
  let s ← get
  set { s with out := s.out ++ [(first, second)] }

def windowSize : Nat := 4

/-- `pop_front`. -/
def popFront (ids : List Word) : Program State (List Word) := popOf ids

/-- A pass of the loop of `coCoo`, over the variables `ids`, `center` and `context`. -/
def pass (v : List Word × Word × Word) : Program State (Step (List Word × Word × Word) Unit) := do
  let (ids, center, context) := v
  if ← eof then pure (.done ())
  else
    let center ← extract center
    if center = [] then pure (.again (ids, center, context))
    else
      ids.forM fun id => print id center
      if (← peek) = some newline then
        let context ← extract context
        pure (.again ([context], [], context))
      else
        let ids ← if ids.length > windowSize - 1 then popFront ids else pure ids
        pure (.again (ids ++ [center], center, context))

def coCoo (fuel : Nat) : Program State Unit := do
  let context ← extract []
  loop pass fuel ([context], [], context)

/-- A word has a character, and no white space. -/
def IsWord (w : Word) : Prop := w ≠ [] ∧ ∀ c ∈ w, isSpace c = false

instance (w : Word) : Decidable (IsWord w) := inferInstanceAs (Decidable (_ ∧ _))

/-- Lines of one or more words, with or without a final newline. -/
structure Text where
  lines : List (List Word)
  final : Bool
  filled : ∀ l ∈ lines, l ≠ []
  words : ∀ l ∈ lines, ∀ w ∈ l, IsWord w

/-- The lines as characters. -/
noncomputable def render (lines : List (List Word)) (final : Bool) : List UInt8 :=
  joined newline (lines.map (joined blank)) ++ if final then [newline] else []

noncomputable def start (t : Text) : State := ⟨⟨render t.lines t.final, false, false⟩, []⟩

/-- The pairs of a line for the word at `i`: with the words at the indices before it that are at
most 4 less. -/
def group (l : List Word) (i : Nat) : List (Word × Word) :=
  ((List.range l.length).filter fun j => j < i ∧ i - j ≤ 4).map fun j => (l[j]!, l[i]!)

/-- The groups of a line, one for each word. -/
def groups (l : List Word) : List (List (Word × Word)) :=
  (List.range l.length).map (group l)

/-- Exactly the pairs of each line, group by group. -/
def Grouped (lines : List (List Word)) (out : List (Word × Word)) : Prop :=
  ∃ gs, List.Forall₂ List.Perm gs (lines.flatMap groups) ∧ out = gs.flatten

/-- The words that `ids` holds after these words of a line. -/
def window (pre : List Word) : List Word := pre.drop (pre.length - windowSize)

/-- What is printed for the rest of a line. -/
def pairsFrom (pre : List Word) : List Word → List (Word × Word)
  | [] => []
  | w :: ws => (window pre).map (·, w) ++ pairsFrom (pre ++ [w]) ws

/-- What is printed for the lines. One with a single word goes on with the next one. -/
def printed : List (List Word) → List (Word × Word)
  | [] => []
  | [w] :: l :: ls => pairsFrom [w] l ++ printed ls
  | l :: ls => pairsFrom [] l ++ printed ls

section
variable {pre pre' ws l : List Word} {w : Word} {lines : List (List Word)} {i : Nat}

theorem length_window : (window pre).length = min pre.length 4 := by
  rw [window, List.length_drop, windowSize]
  omega

/-- One more word, after the first one of a full window is removed. -/
theorem window_concat :
    (if (window pre).length > windowSize - 1 then (window pre).tail else window pre) ++ [w] =
      window (pre ++ [w]) := by
  have hlength : (window pre).length = min pre.length 4 := length_window
  have hconcat : window (pre ++ [w]) = pre.drop (pre.length + 1 - windowSize) ++ [w] := by
    rw [window, List.length_append, List.length_singleton,
      List.drop_append_of_le_length (by unfold windowSize; omega)]
  rw [hconcat]
  unfold windowSize at *
  split_ifs with hfull
  · rw [window, List.tail_drop, windowSize]
    congr 2
    omega
  · rw [window, windowSize]
    congr 2
    omega

/-- The indices that are at most 4 less, in order. -/
theorem filter_range {n : Nat} (hi : i ≤ n) :
    (List.range n).filter (fun j => j < i ∧ i - j ≤ 4) = List.range' (i - 4) (min i 4) := by
  have hsplit : List.range n =
      List.range' 0 (i - 4) ++ (List.range' (i - 4) (min i 4) ++ List.range' i (n - i)) := by
    have hlow := List.range'_append_1 (s := i - 4) (m := min i 4) (n := n - i)
    have hhigh := List.range'_append_1 (s := 0) (m := i - 4) (n := min i 4 + (n - i))
    have hi4 : i - 4 + min i 4 = i := by omega
    have hn : i - 4 + (min i 4 + (n - i)) = n := by omega
    rw [hi4] at hlow
    rw [Nat.zero_add, hn] at hhigh
    rw [hlow, hhigh, List.range_eq_range']
  have hnone {a m : Nat} (h : ∀ j, a ≤ j → j < a + m → ¬ (j < i ∧ i - j ≤ 4)) :
      (List.range' a m).filter (fun j => j < i ∧ i - j ≤ 4) = [] := by
    rw [List.filter_eq_nil_iff]
    intro j hj
    rw [List.mem_range'_1] at hj
    simpa using h j hj.1 hj.2
  have hwithin : (List.range' (i - 4) (min i 4)).filter (fun j => j < i ∧ i - j ≤ 4) =
      List.range' (i - 4) (min i 4) := by
    rw [List.filter_eq_self]
    intro j hj
    rw [List.mem_range'_1] at hj
    simp only [decide_eq_true_eq]
    omega
  rw [hsplit, List.filter_append, List.filter_append, hnone fun j _ hj => by omega, hwithin,
    hnone fun j hj _ => by omega, List.append_nil, List.nil_append]

theorem group_eq : group (pre ++ w :: ws) pre.length = (window pre).map (·, w) := by
  have hlast : (pre ++ w :: ws)[pre.length]! = w := by simp
  rw [group, filter_range (by simp), hlast]
  refine List.ext_getElem ?_ fun k hk hk' => ?_
  · simp [length_window]
  · rw [List.length_map, length_window] at hk'
    have hlt : pre.length - 4 + k < pre.length := by omega
    have hword : (pre ++ w :: ws)[pre.length - 4 + k]! = pre[pre.length - 4 + k] := by
      rw [getElem!_pos _ _ (by rw [List.length_append]; omega), List.getElem_append_left hlt]
    simp only [List.getElem_map, List.getElem_range', window, List.getElem_drop, windowSize,
      Nat.one_mul, hword]

theorem pairsFrom_eq : pairsFrom pre ws =
    ((List.range' pre.length ws.length).map (group (pre ++ ws))).flatten := by
  induction ws generalizing pre with
  | nil => rfl
  | cons w ws ih =>
    rw [pairsFrom, ih, List.length_append, List.length_singleton, List.append_assoc]
    rw [List.length_cons, List.range'_succ, List.map_cons, List.flatten_cons, group_eq]
    rfl

theorem flatten_groups : (groups l).flatten = pairsFrom [] l := by
  rw [pairsFrom_eq, groups, List.range_eq_range']
  rfl

/-- More words before the rest of a line make more pairs. -/
theorem length_pairsFrom_mono (h : pre.length ≤ pre'.length) :
    (pairsFrom pre ws).length ≤ (pairsFrom pre' ws).length := by
  induction ws generalizing pre pre' with
  | nil => exact le_rfl
  | cons w ws ih =>
    have hrest : (pairsFrom (pre ++ [w]) ws).length ≤ (pairsFrom (pre' ++ [w]) ws).length :=
      ih (by simpa using h)
    simp only [pairsFrom, List.length_append, List.length_map, length_window]
    omega

theorem length_pairsFrom_single (hl : l ≠ []) :
    (pairsFrom [] l).length < (pairsFrom [w] l).length := by
  obtain ⟨v, vs, rfl⟩ := List.exists_cons_of_ne_nil hl
  have hrest : (pairsFrom [v] vs).length ≤ (pairsFrom [w, v] vs).length :=
    length_pairsFrom_mono (by simp)
  simp only [pairsFrom, List.length_append, List.length_map, length_window]
  simp only [List.length_nil, List.length_cons, List.nil_append, List.cons_append]
  omega

end

/-- What stands behind a word: nothing, or white space. -/
def Ends (more : List UInt8) : Prop := ∀ c ∈ more.head?, isSpace c = true

/-- What stands behind the words of a line. -/
noncomputable def behindLine (ls : List (List Word)) (final : Bool) : List UInt8 :=
  if ls = [] ∧ final = false then [] else newline :: render ls (final && !ls.isEmpty)

/-- What stands behind a word, before the rest of its line and the lines after it. -/
noncomputable def behindWord (ws : List Word) (ls : List (List Word)) (final : Bool) : List UInt8 :=
  if ws = [] then behindLine ls final else blank :: (joined blank ws ++ behindLine ls final)

section
variable {s : State} {old w : Word} {ws ids : List Word} {ls : List (List Word)} {final : Bool}
  {pad more : List UInt8}

theorem ends_behindLine : Ends (behindLine ls final) := by
  unfold behindLine
  split_ifs <;> simp [Ends, newline, isSpace]

theorem ends_behindWord : Ends (behindWord ws ls final) := by
  unfold behindWord
  split_ifs
  · exact ends_behindLine
  · simp [Ends, blank, isSpace]

theorem render_cons {l : List Word} :
    render (l :: ls) final = joined blank l ++ behindLine ls final := by
  unfold behindLine render
  cases ls with
  | nil => cases final <;> simp
  | cons l' ls => simp [joined_cons]

theorem joined_behind : joined blank (w :: ws) ++ behindLine ls final =
    w ++ behindWord ws ls final := by
  unfold behindWord
  split_ifs with hws
  · rw [hws, joined_singleton]
  · rw [joined_cons hws, List.append_assoc, List.cons_append]

theorem dropWhile_word (hw : IsWord w) : (w ++ more).dropWhile isSpace = w ++ more := by
  obtain ⟨c, cs, rfl⟩ := List.exists_cons_of_ne_nil hw.1
  rw [List.cons_append, List.dropWhile_cons, hw.2 c (List.mem_cons_self ..), if_neg (by simp)]

theorem takeWhile_word (hw : IsWord w) (hmore : Ends more) :
    (w ++ more).takeWhile (!isSpace ·) = w ∧ (w ++ more).dropWhile (!isSpace ·) = more := by
  have hall : ∀ c ∈ w, (!isSpace c) = true := fun c hc => by rw [hw.2 c hc]; rfl
  rw [List.takeWhile_append_of_pos hall, List.dropWhile_append_of_pos hall]
  cases more with
  | nil => simp
  | cons c cs =>
    have hc : (!isSpace c) = false := by rw [hmore c rfl]; rfl
    rw [List.takeWhile_cons, List.dropWhile_cons, hc]
    simp

theorem runs_extract {Q : Word → State → Prop} (hs : s.text = ⟨pad ++ (w ++ more), false, false⟩)
    (hpad : ∀ c ∈ pad, isSpace c = true) (hw : IsWord w) (hmore : Ends more) :
    Runs (extract old) s Q ↔ Q w { s with text := ⟨more, more.isEmpty, false⟩ } := by
  have hskip : (pad ++ (w ++ more)).dropWhile isSpace = w ++ more := by
    rw [List.dropWhile_append_of_pos hpad, dropWhile_word hw]
  have hne : w ++ more ≠ [] := fun h => hw.1 (List.append_eq_nil_iff.mp h).1
  obtain ⟨htake, hdrop⟩ := takeWhile_word hw hmore
  rw [extract, runs_bind, runs_get, hs]
  dsimp only
  rw [if_neg (by simp), hskip, if_neg hne, htake, hdrop, runs_bind, runs_set, runs_pure]

theorem runs_extract_blank {Q : Word → State → Prop} (hs : s.text = ⟨pad, false, false⟩)
    (hpad : ∀ c ∈ pad, isSpace c = true) :
    Runs (extract old) s Q ↔ Q old { s with text := ⟨[], true, true⟩ } := by
  have hskip : pad.dropWhile isSpace = [] := List.dropWhile_eq_nil_iff.mpr hpad
  rw [extract, runs_bind, runs_get, hs]
  dsimp only
  rw [if_neg (by simp), hskip, if_pos rfl, runs_bind, runs_set, runs_pure]

theorem runs_print {Q : Unit → State → Prop} {v : Word} :
    Runs (print v w) s Q ↔ Q () { s with out := s.out ++ [(v, w)] } := by
  rw [print, runs_bind, runs_get, runs_set]

theorem runs_prints {Q : Unit → State → Prop} :
    Runs (ids.forM fun id => print id w) s Q ↔
      Q () { s with out := s.out ++ ids.map (·, w) } := by
  induction ids generalizing s with
  | nil =>
    rw [List.map_nil, List.append_nil]
    exact runs_pure
  | cons id ids ih =>
    refine runs_bind.trans (runs_print.trans (ih.trans ?_))
    simp only [List.append_assoc, List.map_cons, List.singleton_append]

/-- Where the loop is: before the next word of a line, before the newline at the end of the text,
or at its end. -/
def Reading (total : List (Word × Word)) (v : List Word × Word × Word) (s : State) : Prop :=
  (∃ pre ws ls sep final, v.1 = window pre ∧ ws ≠ [] ∧ isSpace sep = true ∧
    (∀ w ∈ ws, IsWord w) ∧ (∀ l ∈ ls, l ≠ [] ∧ ∀ w ∈ l, IsWord w) ∧
    s.text = ⟨sep :: (joined blank ws ++ behindLine ls final), false, false⟩ ∧
    s.out ++ (pairsFrom pre ws ++ printed ls) = total) ∨
  (v.2.1 = [] ∧ s.text = ⟨[newline], false, false⟩ ∧ s.out = total) ∨
  (s.text.eof = true ∧ s.text.rest = [] ∧ s.out = total)

/-- The first word of a line is read into `context`. -/
theorem reading_context {total : List (Word × Word)} (pad : List UInt8)
    (hls : ∀ l ∈ ls, l ≠ [] ∧ ∀ w ∈ l, IsWord w)
    (hs : s.text = ⟨pad ++ render ls final, false, false⟩) (hpad : ∀ c ∈ pad, isSpace c = true)
    (htotal : s.out ++ printed ls = total) :
    Runs (extract old) s fun context t => Reading total ([context], [], context) t ∧
      t.text.rest.length ≤ (render ls final).length := by
  cases ls with
  | nil =>
    have hspace : ∀ c ∈ pad ++ render [] final, isSpace c = true := by
      intro c hc
      rcases List.mem_append.mp hc with hc | hc
      · exact hpad c hc
      · cases final
        · simp [render] at hc
        · have hnewline : c = newline := by simpa [render] using hc
          rw [hnewline]
          rfl
    rw [runs_extract_blank hs hspace]
    rw [printed, List.append_nil] at htotal
    exact ⟨Or.inr (Or.inr ⟨rfl, rfl, htotal⟩), Nat.zero_le _⟩
  | cons l ls =>
    obtain ⟨⟨hne, hwords⟩, hrest⟩ := List.forall_mem_cons.mp hls
    obtain ⟨w, ws, rfl⟩ := List.exists_cons_of_ne_nil hne
    rw [render_cons, joined_behind] at hs ⊢
    rw [runs_extract hs hpad (hwords w (List.mem_cons_self ..)) ends_behindWord]
    refine ⟨?_, by simp⟩
    cases ws with
    | cons v vs =>
      obtain ⟨-, hvs⟩ := List.forall_mem_cons.mp hwords
      refine Or.inl ⟨[w], v :: vs, ls, blank, final, rfl, by simp, rfl, hvs, hrest, ?_, ?_⟩
      · simp [behindWord]
      · rw [← htotal]
        simp [printed, pairsFrom, window]
    | nil =>
      cases ls with
      | nil =>
        have hout : s.out = total := by
          rw [← htotal]
          simp [printed, pairsFrom, window]
        cases final with
        | false => exact Or.inr (Or.inr ⟨rfl, rfl, hout⟩)
        | true => exact Or.inr (Or.inl ⟨rfl, rfl, hout⟩)
      | cons l' ls' =>
        obtain ⟨⟨hne', hwords'⟩, hls'⟩ := List.forall_mem_cons.mp hrest
        refine Or.inl ⟨[w], l', ls', newline, final, rfl, hne', rfl, hwords', hls', ?_, ?_⟩
        · simp [behindWord, behindLine, render_cons]
        · rw [← htotal, printed]

theorem runs_eof {Q : Bool → State → Prop} : Runs eof s Q ↔ Q s.text.eof s := by
  rw [eof, runs_bind, runs_get, runs_pure]

theorem runs_peek_end {Q : Option UInt8 → State → Prop} (hs : s.text.eof = true) :
    Runs peek s Q ↔ Q none { s with text := { s.text with failed := true } } := by
  rw [peek, runs_bind, runs_get]
  dsimp only
  rw [if_pos (Or.inl hs), runs_bind, runs_set, runs_pure]

theorem runs_peek {Q : Option UInt8 → State → Prop} {c : UInt8}
    (hs : s.text = ⟨c :: more, false, false⟩) : Runs peek s Q ↔ Q (some c) s := by
  rw [peek, runs_bind, runs_get, hs]
  dsimp only
  rw [if_neg (by simp), runs_pure]

/-- `ids` after a word that no newline follows. -/
theorem runs_push {pre : List Word} {context : Word}
    {Q : Step (List Word × Word × Word) Unit → State → Prop} :
    Runs (do
      let ids ← if (window pre).length > windowSize - 1 then popFront (window pre)
        else pure (window pre)
      pure (.again (ids ++ [w], w, context))) s Q ↔
        Q (.again (window (pre ++ [w]), w, context)) s := by
  have hconcat : (if (window pre).length > windowSize - 1 then (window pre).tail else window pre) ++
      [w] = window (pre ++ [w]) := window_concat
  split_ifs at hconcat ⊢ with hfull
  · obtain ⟨v, vs, hv⟩ := List.exists_cons_of_length_pos (Nat.zero_lt_of_lt hfull)
    rw [hv, List.tail_cons] at hconcat
    rw [popFront, hv, ← hconcat]
    exact runs_pure
  · rw [← hconcat]
    exact runs_pure

/-- The next word of a line is printed with those of the window. -/
theorem reading_word {total : List (Word × Word)} {pre : List Word} {sep : UInt8}
    {center context : Word} (hsep : isSpace sep = true) (hwords : ∀ u ∈ w :: ws, IsWord u)
    (hls : ∀ l ∈ ls, l ≠ [] ∧ ∀ u ∈ l, IsWord u)
    (hs : s.text = ⟨sep :: (joined blank (w :: ws) ++ behindLine ls final), false, false⟩)
    (htotal : s.out ++ (pairsFrom pre (w :: ws) ++ printed ls) = total) :
    Runs (pass (window pre, center, context)) s fun r t => ∃ u, r = .again u ∧
      Reading total u t ∧ t.text.rest.length < s.text.rest.length := by
  obtain ⟨hw, hrest⟩ := List.forall_mem_cons.mp hwords
  have htext : s.text = ⟨[sep] ++ (w ++ behindWord ws ls final), false, false⟩ := by
    rw [hs, joined_behind]
    rfl
  have hpad : ∀ c ∈ [sep], isSpace c = true := List.forall_mem_singleton.mpr hsep
  have hprinted : s.out ++ (window pre).map (·, w) ++ (pairsFrom (pre ++ [w]) ws ++ printed ls) =
      total := by
    rw [← htotal, pairsFrom]
    simp only [List.append_assoc]
  rw [pass, runs_bind, runs_eof, htext, if_neg (by simp), runs_bind,
    runs_extract htext hpad hw ends_behindWord, if_neg hw.1, runs_bind, runs_prints, runs_bind]
  cases ws with
  | cons v vs =>
    refine (runs_peek rfl).mpr ?_
    rw [if_neg (by decide)]
    refine runs_push.mpr ⟨_, rfl, Or.inl ⟨pre ++ [w], v :: vs, ls, blank, final, rfl, by simp, rfl,
      hrest, hls, ?_, hprinted⟩, ?_⟩
    · simp [behindWord]
    · simp only [List.length_append, List.length_cons]
      omega
  | nil =>
    by_cases hend : ls = [] ∧ final = false
    · obtain ⟨rfl, rfl⟩ := hend
      refine (runs_peek_end rfl).mpr ?_
      rw [if_neg (by simp)]
      refine runs_push.mpr ⟨_, rfl, Or.inr (Or.inr ⟨rfl, rfl, ?_⟩),
        by simp [behindWord, behindLine]⟩
      rw [← hprinted]
      simp [pairsFrom, printed]
    · have hbehind : behindWord [] ls final = newline :: render ls (final && !ls.isEmpty) := by
        rw [behindWord, if_pos rfl, behindLine, if_neg hend]
      rw [hbehind]
      refine (runs_peek rfl).mpr ?_
      rw [if_pos rfl, runs_bind]
      refine (reading_context [newline] hls rfl (List.forall_mem_singleton.mpr rfl)
        hprinted).mono ?_
      rintro context' t ⟨hreading, hle⟩
      refine runs_pure.mpr ⟨_, rfl, hreading, ?_⟩
      simp only [List.length_append, List.length_cons, List.length_nil]
      omega

theorem reading_pass {total : List (Word × Word)} {v : List Word × Word × Word}
    (h : Reading total v s) :
    Runs (pass v) s fun r t =>
      match r with
      | .again u => Reading total u t ∧ t.text.rest.length < s.text.rest.length
      | .done _ => t.out = total := by
  obtain ⟨ids, center, context⟩ := v
  rcases h with ⟨pre, ws, ls, sep, final, hids, hne, hsep, hwords, hls, hs, htotal⟩ |
    ⟨hcenter, hs, hout⟩ | ⟨heof, -, hout⟩
  · obtain ⟨w, ws, rfl⟩ := List.exists_cons_of_ne_nil hne
    obtain rfl : ids = window pre := hids
    refine (reading_word hsep hwords hls hs htotal).mono ?_
    rintro _ t ⟨u, rfl, hnext⟩
    exact hnext
  · have hspace : ∀ c ∈ [newline], isSpace c = true := List.forall_mem_singleton.mpr rfl
    obtain rfl : center = [] := hcenter
    rw [pass, runs_bind, runs_eof, hs, if_neg (by simp), runs_bind, runs_extract_blank hs hspace,
      if_pos rfl, runs_pure]
    exact ⟨Or.inr (Or.inr ⟨rfl, rfl, hout⟩), Nat.zero_lt_one⟩
  · rw [pass, runs_bind, runs_eof, if_pos heof, runs_pure]
    exact hout

theorem coCoo_spec (t : Text) {fuel : Nat} (hf : (render t.lines t.final).length < fuel) :
    Runs (coCoo fuel) (start t) fun _ u => u.out = printed t.lines := by
  have hlines : ∀ l ∈ t.lines, l ≠ [] ∧ ∀ w ∈ l, IsWord w :=
    fun l hl => ⟨t.filled l hl, t.words l hl⟩
  rw [coCoo, runs_bind]
  refine (reading_context [] hlines rfl (by simp) (List.nil_append _)).mono ?_
  rintro context u ⟨hreading, hle⟩
  refine runs_loop (fun k v u => k = u.text.rest.length ∧ Reading (printed t.lines) v u) ?_
    ⟨rfl, hreading⟩ (hle.trans_lt hf)
  rintro _ v s ⟨rfl, h⟩
  refine (reading_pass h).mono fun r u hr => ?_
  rcases r with v' | _
  · exact ⟨_, hr.2, rfl, hr.1⟩
  · exact hr

end

/-- The number of pairs of the lines. -/
def pairCount (lines : List (List Word)) : Nat := (lines.flatMap (pairsFrom [])).length

/-- A line that goes on with the next one makes more pairs. -/
theorem length_printed (lines : List (List Word)) (h : ∀ l ∈ lines, l ≠ []) :
    pairCount lines ≤ (printed lines).length ∧
      (pairCount lines = (printed lines).length → ∀ l ∈ lines.dropLast, l.length ≠ 1) := by
  fun_induction printed lines with
  | case1 => exact ⟨le_rfl, by simp⟩
  | case2 w l ls ih =>
    have hl := length_pairsFrom_single (w := w) (h l (by simp))
    have hle := (ih fun l' hl' => h l' (by simp [hl'])).1
    have hcount : pairCount ([w] :: l :: ls) = (pairsFrom [] l).length + pairCount ls := by
      simp [pairCount, pairsFrom, window]
    rw [hcount, List.length_append]
    exact ⟨by omega, fun heq => by omega⟩
  | case3 l ls hother ih =>
    obtain ⟨hle, hiff⟩ := ih fun l' hl' => h l' (by simp [hl'])
    have hcount : pairCount (l :: ls) = (pairsFrom [] l).length + pairCount ls := by
      simp [pairCount]
    rw [hcount, List.length_append]
    refine ⟨by omega, fun heq => ?_⟩
    have hrest := hiff (by omega)
    cases ls with
    | nil => simp
    | cons l' ls' =>
      rw [List.dropLast_cons_cons]
      refine List.forall_mem_cons.mpr ⟨fun hone => ?_, hrest⟩
      obtain ⟨w, rfl⟩ := List.length_eq_one_iff.mp hone
      exact hother w l' ls' rfl rfl

theorem printed_eq (lines : List (List Word)) (h : ∀ l ∈ lines.dropLast, l.length ≠ 1) :
    printed lines = (lines.flatMap groups).flatten := by
  fun_induction printed lines with
  | case1 => rfl
  | case2 w l ls ih => exact absurd rfl (h [w] (by simp))
  | case3 l ls hother ih =>
    have hrest : ∀ l' ∈ ls.dropLast, l'.length ≠ 1 := by
      intro l' hl'
      cases ls with
      | nil => simp at hl'
      | cons l'' ls' => exact h l' (List.mem_cons_of_mem _ hl')
    rw [ih hrest, List.flatMap_cons, List.flatten_append, flatten_groups]

theorem length_flatten_groups (lines : List (List Word)) :
    (lines.flatMap groups).flatten.length = pairCount lines := by
  induction lines with
  | nil => rfl
  | cons l ls ih =>
    rw [List.flatMap_cons, List.flatten_append, List.length_append, ih, flatten_groups]
    simp [pairCount]

theorem Grouped.length {lines : List (List Word)} {out : List (Word × Word)}
    (h : Grouped lines out) : out.length = pairCount lines := by
  obtain ⟨gs, hperm, rfl⟩ := h
  rw [← length_flatten_groups]
  exact (List.Perm.flatten_congr hperm).length_eq

theorem coCoo_iff (t : Text) (fuel : Nat) (hf : (render t.lines t.final).length < fuel) :
    (Runs (coCoo fuel) (start t) fun _ u => Grouped t.lines u.out) ↔
      ∀ l ∈ t.lines.dropLast, l.length ≠ 1 := by
  have hspec := coCoo_spec t hf
  constructor
  · intro hruns
    obtain ⟨_, u, -, hgrouped, hout⟩ := hspec.ensures.runs hruns
    rw [hout] at hgrouped
    exact (length_printed t.lines t.filled).2 hgrouped.length.symm
  · intro hlong
    refine hspec.mono fun _ u hout => ?_
    rw [hout, printed_eq t.lines hlong]
    exact ⟨_, List.forall₂_same.mpr fun g _ => List.Perm.refl g, rfl⟩

/-- `"a b\nc\n"`. -/
def shortEnd : Text := ⟨[[[97], [98]], [[99]]], true, by decide, by simp [IsWord, isSpace]⟩

theorem coCoo_iff_shortEnd :
    (Runs (coCoo 7) (start shortEnd) fun _ u => Grouped shortEnd.lines u.out) ↔
      ∀ l ∈ shortEnd.lines.dropLast, l.length ≠ 1 :=
  coCoo_iff shortEnd 7 (by simp [shortEnd, render, joined_cons])

/-- `"a\nb c"`. -/
def shortStart : Text := ⟨[[[97]], [[98], [99]]], false, by decide, by simp [IsWord, isSpace]⟩

/-- The word of the first line is paired with those of the second. -/
theorem coCoo_shortStart : (render shortStart.lines shortStart.final).length = 5 ∧
    ∀ fuel, 5 < fuel →
      ¬ Runs (coCoo fuel) (start shortStart) fun _ u => Grouped shortStart.lines u.out := by
  have hlength : (render shortStart.lines shortStart.final).length = 5 := by
    simp [shortStart, render, joined_cons]
  refine ⟨hlength, fun fuel hf hruns => ?_⟩
  obtain ⟨_, u, -, hgrouped, hout⟩ :=
    (coCoo_spec shortStart (hlength ▸ hf)).ensures.runs hruns
  rw [hout] at hgrouped
  exact absurd hgrouped.length (by decide)

end LanguageTest.CoOccurrence
