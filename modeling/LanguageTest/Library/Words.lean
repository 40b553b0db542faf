import Mathlib.Data.List.Basic
import Mathlib.Tactic.SplitIfs

namespace LanguageTest

variable {α : Type*}

/-- The blocks with one separator between any two of them. -/
noncomputable def joined (b : α) (ws : List (List α)) : List α := [b].intercalate ws

/-- The blocks with a separator after each of them. -/
def ended (b : α) (ws : List (List α)) : List α := ws.flatMap fun w => w ++ [b]

section
variable {b : α} {w : List α} {ws : List (List α)}

@[simp] theorem joined_empty : joined b ([] : List (List α)) = [] := rfl

@[simp] theorem joined_singleton : joined b [w] = w := List.intercalate_singleton

theorem joined_cons (h : ws ≠ []) : joined b (w :: ws) = w ++ b :: joined b ws := by
  rw [joined, List.intercalate_cons_of_ne_nil h, List.append_assoc]
  rfl

@[simp] theorem ended_nil : ended b ([] : List (List α)) = [] := rfl

theorem ended_concat : ended b (ws ++ [w]) = ended b ws ++ (w ++ [b]) := by
  simp [ended]

theorem length_ended_map_reverse (ws : List (List α)) :
    (ended b (ws.map List.reverse)).length = (ended b ws).length := by
  induction ws with
  | nil => rfl
  | cons w ws ih => simpa [ended] using ih

theorem joined_concat (ws : List (List α)) (w : List α) :
    joined b (ws ++ [w]) = ended b ws ++ w := by
  induction ws with
  | nil => simp
  | cons v ws ih =>
    rw [List.cons_append, joined_cons (by simp), ih]
    simp [ended]

theorem joined_append_singleton (h : ws ≠ []) :
    joined b (ws ++ [w]) = joined b ws ++ b :: w := by
  rcases List.eq_nil_or_concat ws with rfl | ⟨vs, v, rfl⟩
  · contradiction
  · rw [List.concat_eq_append, joined_concat, joined_concat, ended_concat]
    simp

/-- The blocks of a text are determined. -/
theorem joined_inj [DecidableEq α] {vs : List (List α)} (hws : ∀ w ∈ ws, b ∉ w) (hne : ws ≠ [])
    (hvs : ∀ w ∈ vs, b ∉ w) (hvne : vs ≠ []) (h : joined b ws = joined b vs) : ws = vs := by
  have hsplit := List.splitOn_intercalate b hws hne
  rw [← List.splitOn_intercalate b hvs hvne, ← hsplit]
  exact congrArg _ h

theorem reverse_joined (ws : List (List α)) :
    (joined b ws).reverse = joined b (ws.map List.reverse).reverse := by
  induction ws with
  | nil => rfl
  | cons v ws ih =>
    by_cases hws : ws = []
    · simp [hws]
    · rw [joined_cons hws, List.map_cons, List.reverse_cons, joined_append_singleton (by simpa)]
      simp [ih]

/-- The last element of a text of words belongs to a word. -/
theorem getLast?_joined (hws : ws ≠ []) (h : ∀ w ∈ ws, w ≠ [] ∧ b ∉ w) :
    ∃ x, (joined b ws).getLast? = some x ∧ x ≠ b := by
  rcases List.eq_nil_or_concat ws with rfl | ⟨vs, w, rfl⟩
  · contradiction
  · obtain ⟨hne, hmem⟩ := h w (by simp)
    rw [List.concat_eq_append, joined_concat, List.getLast?_append_of_ne_nil _ hne,
      List.getLast?_eq_some_getLast hne]
    exact ⟨_, rfl, fun he => hmem (he ▸ List.getLast_mem hne)⟩

end

/-- The maximal blocks without an element that separates. -/
def wordsBy (p : α → Bool) (s : List α) : List (List α) := (s.splitOnP p).filter fun w => w ≠ []

section
variable {p : α → Bool} {b c : α} {s w : List α} {ws : List (List α)}

@[simp] theorem wordsBy_nil : wordsBy p ([] : List α) = [] := rfl

theorem wordsBy_cons (hc : p c) : wordsBy p (c :: s) = wordsBy p s := by
  simp [wordsBy, List.splitOnP_cons_eq_if_modifyHead, hc]

/-- The first word, up to a separator or the end. -/
theorem wordsBy_append (hne : w ≠ []) (hw : ∀ c ∈ w, p c = false)
    (hs : ∀ c ∈ s.head?, p c = true) : wordsBy p (w ++ s) = w :: wordsBy p s := by
  cases s with
  | nil => simp [wordsBy, List.splitOnP_eq_singleton hw, hne]
  | cons c s =>
    have hc := hs c rfl
    rw [wordsBy_cons hc, wordsBy, List.splitOnP_append_cons_of_forall_mem hw c hc]
    simp [wordsBy, hne]

/-- Words with a separator between any two of them are read back. -/
theorem wordsBy_joined (hb : p b) (h : ∀ w ∈ ws, w ≠ [] ∧ ∀ c ∈ w, p c = false) :
    wordsBy p (joined b ws) = ws := by
  induction ws with
  | nil => rfl
  | cons w ws ih =>
    obtain ⟨⟨hne, hw⟩, hws⟩ := List.forall_mem_cons.mp h
    by_cases hnil : ws = []
    · subst hnil
      simpa using wordsBy_append (s := []) hne hw (by simp)
    · rw [joined_cons hnil, wordsBy_append hne hw (by simpa using hb), wordsBy_cons hb, ih hws]

end

variable [DecidableEq α]

/-- The maximal blocks without the separator. -/
def words (b : α) (s : List α) : List (List α) := (s.splitOn b).filter fun w => w ≠ []

/-- Every run of separators becomes one of them. -/
def squeeze (b : α) : List α → List α
  | [] => []
  | [c] => [c]
  | c :: d :: s => if c = b ∧ d = b then squeeze b (d :: s) else c :: squeeze b (d :: s)

/-- The words, joined, and perhaps a separator after them. -/
def Squeezed (b : α) (s x : List α) : Prop :=
  x = joined b (words b s) ∨ x = joined b (words b s) ++ [b]

section
variable {b c d : α} {s w : List α}

@[simp] theorem words_nil : words b ([] : List α) = [] := rfl

@[simp] theorem words_sep : words b (b :: s) = words b s := by
  simp [words, List.splitOn_cons_eq_if_modifyHead]

theorem words_singleton (hc : c ≠ b) : words b [c] = [[c]] := by
  simp [words, List.splitOn_cons_eq_if_modifyHead, hc]

theorem words_cons_sep (hc : c ≠ b) : words b (c :: b :: s) = [c] :: words b s := by
  simp [words, List.splitOn_cons_eq_if_modifyHead, hc]

/-- The first block goes on. -/
theorem words_cons_cons (hc : c ≠ b) (hd : d ≠ b) :
    ∃ v vs, words b (d :: s) = v :: vs ∧ words b (c :: d :: s) = (c :: v) :: vs := by
  obtain ⟨v, vs, hsplit⟩ := List.exists_cons_of_ne_nil (List.splitOn_ne_nil b s)
  refine ⟨d :: v, vs.filter fun w => w ≠ [], ?_, ?_⟩
  · simp [words, List.splitOn_cons_eq_if_modifyHead, hd, hsplit]
  · simp [words, List.splitOn_cons_eq_if_modifyHead, hc, hd, hsplit]

theorem words_ne_nil (hc : c ≠ b) : words b (c :: s) ≠ [] := by
  obtain ⟨v, vs, hsplit⟩ := List.exists_cons_of_ne_nil (List.splitOn_ne_nil b s)
  simp [words, List.splitOn_cons_eq_if_modifyHead, hc, hsplit]

theorem words_dropWhile : words b (s.dropWhile (· = b)) = words b s := by
  induction s with
  | nil => rfl
  | cons c s ih =>
    by_cases hc : c = b
    · subst hc
      simp [ih]
    · simp [hc]

/-- A word is a block without separators that is not empty. -/
theorem mem_words (hw : w ∈ words b s) : w ≠ [] ∧ b ∉ w := by
  obtain ⟨hsplit, hne⟩ := List.mem_filter.mp hw
  refine ⟨by simpa using hne, ?_⟩
  clear hw hne
  induction s generalizing w with
  | nil =>
    obtain rfl := List.mem_singleton.mp hsplit
    exact List.not_mem_nil
  | cons c s ih =>
    obtain ⟨v, vs, hs⟩ := List.exists_cons_of_ne_nil (List.splitOn_ne_nil b s)
    rw [hs] at ih
    by_cases hc : c = b
    · simp only [List.splitOn_cons_eq_if_modifyHead, hc, beq_self_eq_true, ↓reduceIte, hs] at hsplit
      rcases List.mem_cons.mp hsplit with rfl | hmem
      · exact List.not_mem_nil
      · exact ih hmem
    · simp only [List.splitOn_cons_eq_if_modifyHead, hc, beq_iff_eq, ↓reduceIte, hs,
        List.modifyHead_cons] at hsplit
      rcases List.mem_cons.mp hsplit with rfl | hmem
      · rw [List.mem_cons, not_or]
        exact ⟨Ne.symm hc, ih List.mem_cons_self⟩
      · exact ih (List.mem_cons_of_mem v hmem)

theorem squeeze_sep_sep : squeeze b (b :: b :: s) = squeeze b (b :: s) := by
  simp [squeeze]

/-- An element that starts no run of separators stays. -/
theorem squeeze_cons (h : c = b → ∀ d t, s = d :: t → d ≠ b) :
    squeeze b (c :: s) = c :: squeeze b s := by
  cases s with
  | nil => rfl
  | cons d s =>
    rw [squeeze, if_neg]
    intro hcd
    exact h hcd.1 d s rfl hcd.2

theorem length_squeeze_le (b : α) (s : List α) : (squeeze b s).length ≤ s.length := by
  induction s using squeeze.induct b with
  | case1 => simp [squeeze]
  | case2 c => simp [squeeze]
  | case3 c d s h ih =>
    rw [squeeze, if_pos h]
    exact Nat.le_succ_of_le ih
  | case4 c d s h ih =>
    rw [squeeze, if_neg h]
    exact Nat.succ_le_succ ih

/-- What squeezing leaves of a text, after a separator and after another element. -/
theorem squeeze_spec (b : α) (s : List α) :
    (∀ c, c ≠ b → Squeezed b (c :: s) (squeeze b (c :: s))) ∧
      ((words b s = [] ∧ squeeze b (b :: s) = [b]) ∨
        (words b s ≠ [] ∧ ∃ x, Squeezed b s x ∧ squeeze b (b :: s) = b :: x)) := by
  induction s with
  | nil =>
    refine ⟨fun c hc => .inl ?_, .inl ⟨rfl, rfl⟩⟩
    simp [words_singleton hc, squeeze]
  | cons d s ih =>
    obtain ⟨hother, hsep⟩ := ih
    by_cases hd : d = b
    · subst hd
      refine ⟨fun c hc => ?_, ?_⟩
      · simp only [Squeezed, words_cons_sep hc, squeeze, hc, false_and, ↓reduceIte]
        rcases hsep with ⟨hnil, heq⟩ | ⟨hne, x, hx, heq⟩
        · exact .inr (by simp [hnil, heq])
        · rw [heq, joined_cons hne]
          rcases hx with rfl | rfl
          · exact .inl rfl
          · exact .inr (by simp)
      · simpa [squeeze, Squeezed] using hsep
    · refine ⟨fun c hc => ?_, .inr ⟨words_ne_nil hd, _, hother d hd, by simp [squeeze, hd]⟩⟩
      obtain ⟨v, vs, hw, hcw⟩ := words_cons_cons (s := s) hc hd
      have hx := hother d hd
      simp only [Squeezed, hw, hcw, squeeze, hc, false_and, ↓reduceIte, joined,
        List.intercalate_cons_cons_left, List.cons_append, List.cons.injEq, true_and] at hx ⊢
      exact hx

/-- The separator after the words goes away. -/
theorem Squeezed.dropLast {x : List α} (h : Squeezed b s x) (hs : words b s ≠ []) :
    x ≠ [] ∧ (if x.getLast? = some b then x.dropLast else x) = joined b (words b s) := by
  obtain ⟨y, hlast, hy⟩ := getLast?_joined hs fun w hw => mem_words hw
  rcases h with rfl | rfl
  · refine ⟨fun hnil => by simp [hnil] at hlast, if_neg ?_⟩
    rw [hlast]
    exact fun he => hy (Option.some.inj he)
  · simp

end

section
variable {b : α} {s w : List α}

/-- What comes before the first separator belongs to the first block. -/
theorem exists_splitOn_append (hw : b ∉ w) : ∃ l ls, s.splitOn b = l :: ls ∧
    (w ++ s).splitOn b = (w ++ l) :: ls ∧ l.head? = s.head?.filter (· ≠ b) := by
  induction w with
  | nil =>
    cases s with
    | nil => exact ⟨[], [], rfl, rfl, rfl⟩
    | cons c s =>
      obtain ⟨l, ls, hsplit⟩ := List.exists_cons_of_ne_nil (List.splitOn_ne_nil b s)
      by_cases hc : c = b
      · exact ⟨[], l :: ls, by simp [List.splitOn_cons_eq_if_modifyHead, hc, hsplit, Option.filter]⟩
      · exact ⟨c :: l, ls, by simp [List.splitOn_cons_eq_if_modifyHead, hc, hsplit, Option.filter]⟩
  | cons c w ih =>
    obtain ⟨hc, hw⟩ := not_or.mp (mt List.mem_cons.mpr hw)
    obtain ⟨l, ls, hs, happ, hhead⟩ := ih hw
    refine ⟨l, ls, hs, ?_, hhead⟩
    simp [List.splitOn_cons_eq_if_modifyHead, Ne.symm hc, happ]

end

end LanguageTest
