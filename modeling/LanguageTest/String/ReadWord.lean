import LanguageTest.Library.Words

namespace LanguageTest.ReadWord

def newline : UInt8 := 10

def space : UInt8 := 32

def isBlank (c : UInt8) : Bool :=
  c = 32 || c = newline || c = 13 || c = 9 || c = 11 || c = 12 || c = 0

/-- The bytes of `</s>`. -/
def EOS : List UInt8 := [60, 47, 115, 62]

/-- What is left in the buffer of the stream, and its eofbit. -/
structure Stream where
  rest : List UInt8
  eof : Bool
  deriving DecidableEq

def readLoop (eof : Bool) (word : List UInt8) : List UInt8 → Bool × List UInt8 × Stream
  | [] => (!word.isEmpty, word, ⟨[], true⟩)
  | c :: rest =>
    if isBlank c then
      if word.isEmpty then
        if c = newline then (true, word ++ EOS, ⟨rest, eof⟩) else readLoop eof word rest
      else if c = newline then (true, word, ⟨c :: rest, eof⟩)
      else (true, word, ⟨rest, eof⟩)
    else readLoop eof (word ++ [c]) rest

def readWord (s : Stream) : Bool × List UInt8 × Stream := readLoop s.eof [] s.rest

/-- The loop of `myFun`, with the words that it reads. -/
def readAll : Nat → Stream → Option (List (List UInt8) × Stream)
  | 0, _ => none
  | fuel + 1, s =>
    match readWord s with
    | (true, word, s) => (readAll fuel s).map fun r => (word :: r.1, r.2)
    | (false, _, s) => some ([], s)

def lineWords (line : List UInt8) : List (List UInt8) := wordsBy isBlank line

/-- The words of all lines, with the end-of-sentence word for each line that ends. -/
noncomputable def tokens (text : List UInt8) : List (List UInt8) :=
  joined EOS ((text.splitOn newline).map lineWords)

/-- A word that can be written. -/
def IsWord (w : List UInt8) : Prop := w ≠ [] ∧ ∀ c ∈ w, isBlank c = false

/-- The lines, with a space between two words. -/
noncomputable def written (lines : List (List (List UInt8))) : List UInt8 :=
  joined newline (lines.map (joined space))

section
variable {c : UInt8} {w text : List UInt8} {eof : Bool} {fuel : Nat} {s : Stream}
  {lines : List (List (List UInt8))}

theorem isBlank_newline : isBlank newline = true := rfl

theorem newline_notMem (hw : ∀ c ∈ w, isBlank c = false) : newline ∉ w :=
  fun hmem => Bool.noConfusion ((hw newline hmem).symm.trans isBlank_newline)

@[simp] theorem tokens_nil : tokens [] = [] := by simp [tokens, lineWords]

@[simp] theorem tokens_newline : tokens (newline :: text) = EOS :: tokens text := by
  rw [tokens, List.splitOn_cons_eq_if_modifyHead, beq_self_eq_true, if_pos rfl, List.map_cons,
    joined_cons (by simp)]
  rfl

theorem tokens_blank (hc : isBlank c) (hne : c ≠ newline) : tokens (c :: text) = tokens text := by
  obtain ⟨l, ls, hs, happ, -⟩ := exists_splitOn_append (s := text) (w := [c])
    (by simpa using Ne.symm hne)
  rw [List.singleton_append] at happ
  simp only [tokens, hs, happ, List.map_cons, lineWords, List.cons_append, List.nil_append,
    wordsBy_cons hc]

theorem tokens_word (hw : IsWord w) (ht : ∀ c ∈ text.head?, isBlank c = true) :
    tokens (w ++ text) = w :: tokens text := by
  obtain ⟨l, ls, hs, happ, hhead⟩ := exists_splitOn_append (s := text) (newline_notMem hw.2)
  have hl : ∀ c ∈ l.head?, isBlank c = true := by
    intro c hc
    rw [hhead] at hc
    exact ht c (Option.mem_filter_iff.mp hc).1
  simp only [tokens, hs, happ, List.map_cons, lineWords, wordsBy_append hw.1 hw.2 hl, joined,
    List.intercalate_cons_cons_left]

/-- A word has been read, or there is none. -/
inductive ReadsFrom (text : List UInt8) : Bool × List UInt8 × Stream → Prop where
  | word {w rest : List UInt8} {eof : Bool} (next : tokens text = w :: tokens rest)
      (shorter : rest.length < text.length) : ReadsFrom text (true, w, ⟨rest, eof⟩)
  | none (nothing : tokens text = []) : ReadsFrom text (false, [], ⟨[], true⟩)

theorem ReadsFrom.skip {r : Bool × List UInt8 × Stream} (h : ReadsFrom text r)
    (hc : tokens (c :: text) = tokens text) : ReadsFrom (c :: text) r := by
  cases h with
  | word next shorter => exact .word (hc.trans next) (Nat.lt_succ_of_lt shorter)
  | none nothing => exact .none (hc.trans nothing)

theorem readsFrom_loop (hw : ∀ c ∈ w, isBlank c = false) :
    ReadsFrom (w ++ text) (readLoop eof w text) := by
  induction text generalizing w with
  | nil =>
    cases w with
    | nil => exact .none tokens_nil
    | cons c w => exact .word (tokens_word ⟨List.cons_ne_nil c w, hw⟩ (by simp)) (by simp)
  | cons c text ih =>
    have hlen : w ≠ [] → (c :: text).length < (w ++ c :: text).length := fun hne => by
      rw [List.length_append]
      exact Nat.lt_add_of_pos_left (List.length_pos_of_ne_nil hne)
    rw [readLoop]
    split_ifs with hc hnil hnl hnl
    · -- a line end before any word of the line
      obtain rfl := List.isEmpty_iff.mp hnil
      rw [hnl]
      exact .word tokens_newline (Nat.lt_succ_self _)
    · obtain rfl := List.isEmpty_iff.mp hnil
      exact (ih hw).skip (tokens_blank hc hnl)
    · -- the line end stays in the buffer
      have hne : w ≠ [] := mt List.isEmpty_iff.mpr hnil
      exact .word (tokens_word ⟨hne, hw⟩ (by simpa using hc)) (hlen hne)
    · have hne : w ≠ [] := mt List.isEmpty_iff.mpr hnil
      have htok : tokens (w ++ c :: text) = w :: tokens (c :: text) :=
        tokens_word ⟨hne, hw⟩ (by simpa using hc)
      rw [tokens_blank hc hnl] at htok
      exact .word htok (Nat.lt_of_succ_lt (hlen hne))
    · have hword : ∀ d ∈ w ++ [c], isBlank d = false := by
        intro d hd
        rcases List.mem_append.mp hd with hmem | hmem
        · exact hw d hmem
        · rw [List.mem_singleton.mp hmem]
          exact Bool.eq_false_iff.mpr hc
      rw [List.append_cons]
      exact ih hword

theorem readsFrom_readWord : ReadsFrom s.rest (readWord s) :=
  readsFrom_loop (fun _ hc => absurd hc List.not_mem_nil)

/-- The loop reads every text to its end. -/
theorem readAll_eq (h : s.rest.length < fuel) :
    readAll fuel s = some (tokens s.rest, ⟨[], true⟩) := by
  induction fuel generalizing s with
  | zero => exact absurd h (Nat.not_lt_zero _)
  | succ fuel ih =>
    have hread : ReadsFrom s.rest (readWord s) := readsFrom_readWord
    rw [readAll]
    generalize readWord s = r at hread
    cases hread with
    | @word w rest eof next shorter =>
      have hrest := ih (s := ⟨rest, eof⟩) (Nat.lt_of_lt_of_le shorter (Nat.le_of_lt_succ h))
      simp only [hrest, next, Option.map_some]
    | none nothing => rw [nothing]

theorem readAll_eq_sample :
    [97, 32, 98, 10, 99].length < 6 ∧
      readAll 6 ⟨[97, 32, 98, 10, 99], false⟩ =
        some (tokens [97, 32, 98, 10, 99], ⟨[], true⟩) :=
  ⟨by decide, readAll_eq (by decide)⟩

theorem lineWords_joined {line : List (List UInt8)} (h : ∀ w ∈ line, IsWord w) :
    lineWords (joined space line) = line :=
  wordsBy_joined rfl h

theorem newline_notMem_joined {line : List (List UInt8)} (h : ∀ w ∈ line, IsWord w) :
    newline ∉ joined space line := by
  induction line with
  | nil => exact List.not_mem_nil
  | cons w line ih =>
    obtain ⟨hw, hline⟩ := List.forall_mem_cons.mp h
    by_cases hnil : line = []
    · rw [hnil, joined_singleton]
      exact newline_notMem hw.2
    · rw [joined_cons hnil, List.mem_append, List.mem_cons]
      exact not_or.mpr ⟨newline_notMem hw.2, not_or.mpr ⟨by decide, ih hline⟩⟩

theorem tokens_written (hne : lines ≠ []) (h : ∀ line ∈ lines, ∀ w ∈ line, IsWord w) :
    tokens (written lines) = joined EOS lines := by
  have hsplit : (written lines).splitOn newline = lines.map (joined space) := by
    apply List.splitOn_intercalate
    · intro l hl
      obtain ⟨line, hline, rfl⟩ := List.mem_map.mp hl
      exact newline_notMem_joined (h line hline)
    · simpa using hne
  have hwords : (lines.map (joined space)).map lineWords = lines := by
    rw [List.map_map]
    calc lines.map (lineWords ∘ joined space)
        = lines.map id := List.map_congr_left fun line hline => lineWords_joined (h line hline)
      _ = lines := List.map_id lines
  rw [tokens, hsplit, hwords]

/-- What has been written in lines is read back, and the end-of-sentence words tell the lines. -/
theorem read_back (hne : lines ≠ []) (h : ∀ line ∈ lines, ∀ w ∈ line, IsWord w ∧ w ≠ EOS)
    (hf : (written lines).length < fuel) :
    ∃ ws, readAll fuel ⟨written lines, eof⟩ = some (ws, ⟨[], true⟩) ∧ ws.splitOn EOS = lines := by
  have hwords : ∀ line ∈ lines, ∀ w ∈ line, IsWord w := fun line hline w hw => (h line hline w hw).1
  refine ⟨joined EOS lines, ?_, ?_⟩
  · rw [readAll_eq hf, tokens_written hne hwords]
  · exact List.splitOn_intercalate EOS (fun line hline hmem => (h line hline EOS hmem).2 rfl) hne

theorem read_back_sample : ∃ ws,
    readAll 6 ⟨written [[[97], [98]], [[99]]], false⟩ = some (ws, ⟨[], true⟩) ∧
      ws.splitOn EOS = [[[97], [98]], [[99]]] :=
  read_back (by decide) (by simp [IsWord, EOS, isBlank, newline]) (by decide)

end

end LanguageTest.ReadWord
