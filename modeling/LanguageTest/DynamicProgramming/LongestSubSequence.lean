import LanguageTest.Library.CommonSubsequence
import LanguageTest.Library.Counting
import LanguageTest.Library.Tables

namespace LanguageTest.LongestSubSequence

/-- The tables `c` and `b`, and what has been written to `cout`. -/
structure State where
  c : List (List Int)
  b : List (List Char)
  cout : List Char

/-- `x[i]`. -/
def character (x : List Char) (i : Int) : Program State Char :=
  if i < 0 then fail .outOfRange
  else
    match x[i.toNat]? with
    | none => fail .outOfRange
    | some a => pure a

/-- `for (int i = 0; i < t.size(); ++i) t[i].resize(n)`. -/
def resizeRows {α : Type} (fuel : Nat) (n : Int) (d : α) (t : List (List α)) :
    Program State (List (List α)) :=
  loop (fun v : Int × List (List α) => do
    let (i, t) := v
    match t[i.toNat]? with
    | none => pure (.done t)
    | some row => do
      let row ← resize n d row
      pure (.again (← int (i + 1), t.set i.toNat row))) fuel (0, t)

/-- The assignments to `c[i][j]` and `b[i][j]`. -/
def assign (i j v : Int) (d : Char) : Program State Unit := do
  let s ← get
  let c ← writeEntry s.c i j v
  let b ← writeEntry s.b i j d
  set { s with c := c, b := b }

/-- The body of the nested loops. -/
def fill (x y : List Char) (i j : Int) : Program State Unit := do
  let c := (← get).c
  if (← character x (i - 1)) = (← character y (j - 1)) then
    assign i j (← int ((← readEntry c (i - 1) (j - 1)) + 1)) 'c'
  else if (← readEntry c (i - 1) j) ≥ (← readEntry c i (j - 1)) then
    assign i j (← readEntry c (i - 1) j) 'u'
  else
    assign i j (← readEntry c i (j - 1)) 'l'

def lcsLength (fuel : Nat) (x y : List Char) : Program State Unit := do
  let m := toInt x.length
  let n := toInt y.length
  let c ← resize (← int (m + 1)) [] (← get).c
  let b ← resize (← int (m + 1)) [] (← get).b
  let c ← resizeRows fuel (← int (n + 1)) 0 c
  let b ← resizeRows fuel (← int (n + 1)) (Char.ofNat 0) b
  set { (← get) with c := c, b := b }
  -- `i <= m` and `j <= n`
  countUp fuel 1 (pure (m + 1)) fun i => countUp fuel 1 (pure (n + 1)) fun j => fill x y i j

def printLcs : Nat → List Char → Int → Int → Program State Unit
  | 0, _, _, _ => fail .outOfFuel
  | fuel + 1, x, i, j => do
    if i = 0 ∨ j = 0 then pure ()
    else if (← readEntry (← get).b i j) = 'c' then
      printLcs fuel x (i - 1) (j - 1)
      let a ← character x (i - 1)
      let s ← get
      set { s with cout := s.cout ++ [a] }
    else if (← readEntry (← get).b i j) = 'u' then printLcs fuel x (i - 1) j
    else printLcs fuel x i (j - 1)

/-- Where an entry of `b` leads: to shorter strings, of which the longest common subsequence
has the same number of elements, or one less before a common last element. -/
def Leads (x y : List Char) (i j : Nat) (d : Char) : Prop :=
  (d = 'c' ∧ x[i - 1]! = y[j - 1]!) ∨
    (d = 'u' ∧ ∃ k, LongestCommon k (x.take i) (y.take j) ∧
      LongestCommon k (x.take (i - 1)) (y.take j)) ∨
    (d = 'l' ∧ ∃ k, LongestCommon k (x.take i) (y.take j) ∧
      LongestCommon k (x.take i) (y.take (j - 1)))

/-- What the two tables have in common for the first `i` and the first `j` characters. -/
structure Entry (x y : List Char) (i j : Nat) (v : Int) (d : Char) : Prop where
  longest : ∃ k : Nat, v = k ∧ LongestCommon k (x.take i) (y.take j)
  leads : 0 < i → 0 < j → Leads x y i j d

/-- The entries that were computed before the one for `i` and `j`, and those of the edge. -/
structure Filled (x y : List Char) (i j : Nat) (s : State) : Prop where
  shapeC : HasShape (x.length + 1) (y.length + 1) s.c
  shapeB : HasShape (x.length + 1) (y.length + 1) s.b
  entry : ∀ p ≤ x.length, ∀ q ≤ y.length, p < i ∨ (p = i ∧ q < j) ∨ p = 0 ∨ q = 0 →
    Entry x y p q (s.c[p]!)[q]! (s.b[p]!)[q]!

section
variable {s : State} {x y : List Char} {fuel i j p q : Nat} {v : Int} {d : Char}

theorem runs_character {Q : Char → State → Prop} (hi : i < x.length) :
    Runs (character x i) s Q ↔ Q x[i]! s := by
  have hnonneg : ¬ ((i : Int) < 0) := by omega
  rw [character, if_neg hnonneg, Int.toNat_natCast, getElem!_of_lt hi]
  exact runs_pure

theorem longestCommon_edge (h : i = 0 ∨ j = 0) : LongestCommon 0 (x.take i) (y.take j) := by
  rcases h with rfl | rfl
  · exact longestCommon_nil_left
  · exact longestCommon_nil_right

theorem entry_edge (h : i = 0 ∨ j = 0) : Entry x y i j 0 d :=
  ⟨⟨0, rfl, longestCommon_edge h⟩, fun hi hj => by omega⟩

/-- The three cases of the recurrence. -/
theorem entry_common (hi : i < x.length) (hj : j < y.length) (heq : x[i]! = y[j]!)
    (h : Entry x y i j v d) : Entry x y (i + 1) (j + 1) (v + 1) 'c' := by
  obtain ⟨k, rfl, hk⟩ := h.longest
  refine ⟨⟨k + 1, rfl, ?_⟩, fun _ _ => Or.inl ⟨rfl, heq⟩⟩
  rw [take_succ_eq hi, take_succ_eq hj, heq]
  exact hk.concat_eq

theorem entry_up {w : Int} {e : Char} (hi : i < x.length) (hj : j < y.length)
    (hne : x[i]! ≠ y[j]!) (hu : Entry x y i (j + 1) v d) (hl : Entry x y (i + 1) j w e)
    (hle : w ≤ v) : Entry x y (i + 1) (j + 1) v 'u' := by
  obtain ⟨k, rfl, hk⟩ := hu.longest
  obtain ⟨m, rfl, hm⟩ := hl.longest
  have hmax := LongestCommon.concat_ne hne (take_succ_eq hj ▸ hk) (take_succ_eq hi ▸ hm)
  rw [← take_succ_eq hi, ← take_succ_eq hj, Nat.max_eq_left (Int.ofNat_le.mp hle)] at hmax
  exact ⟨⟨k, rfl, hmax⟩, fun _ _ => Or.inr (Or.inl ⟨rfl, k, hmax, hk⟩)⟩

theorem entry_left {w : Int} {e : Char} (hi : i < x.length) (hj : j < y.length)
    (hne : x[i]! ≠ y[j]!) (hu : Entry x y i (j + 1) w e) (hl : Entry x y (i + 1) j v d)
    (hlt : w < v) : Entry x y (i + 1) (j + 1) v 'l' := by
  obtain ⟨k, rfl, hk⟩ := hu.longest
  obtain ⟨m, rfl, hm⟩ := hl.longest
  have hmax := LongestCommon.concat_ne hne (take_succ_eq hj ▸ hk) (take_succ_eq hi ▸ hm)
  have hle : k ≤ m := Int.ofNat_le.mp (Int.le_of_lt hlt)
  rw [← take_succ_eq hi, ← take_succ_eq hj, Nat.max_eq_right hle] at hmax
  exact ⟨⟨m, rfl, hmax⟩, fun _ _ => Or.inr (Or.inr ⟨rfl, m, hmax, hm⟩)⟩

theorem runs_assign (hs : Filled x y (i + 1) (j + 1) s) (hi : i < x.length) (hj : j < y.length)
    (he : Entry x y (i + 1) (j + 1) v d) :
    Runs (assign (i + 1 : Nat) (j + 1 : Nat) v d) s fun _ t => Filled x y (i + 1) (j + 2) t := by
  have hi' : i + 1 < x.length + 1 := Nat.succ_lt_succ hi
  have hj' : j + 1 < y.length + 1 := Nat.succ_lt_succ hj
  rw [assign, runs_bind, runs_get, runs_bind, runs_writeEntry hs.shapeC hi' hj', runs_bind,
    runs_writeEntry hs.shapeB hi' hj', runs_set]
  refine ⟨hs.shapeC.set hi', hs.shapeB.set hi', fun p hp q hq hpq => ?_⟩
  dsimp only
  rw [getElem!_setEntry hs.shapeC hi' hj', getElem!_setEntry hs.shapeB hi' hj']
  by_cases hsame : p = i + 1 ∧ q = j + 1
  · rw [if_pos hsame, if_pos hsame, hsame.1, hsame.2]
    exact he
  · rw [if_neg hsame, if_neg hsame]
    exact hs.entry p hp q hq (by omega)

theorem fill_spec (hs : Filled x y (i + 1) (j + 1) s) (hi : i < x.length) (hj : j < y.length)
    (hx : x.length < 2147483647) :
    Runs (fill x y (i + 1 : Nat) (j + 1 : Nat)) s fun _ t => Filled x y (i + 1) (j + 2) t := by
  have hi' : ((i + 1 : Nat) : Int) - 1 = i := by omega
  have hj' : ((j + 1 : Nat) : Int) - 1 = j := by omega
  have hdiagonal := hs.entry i (by omega) j (by omega) (by omega)
  have hup := hs.entry i (by omega) (j + 1) (by omega) (by omega)
  have hleft := hs.entry (i + 1) (by omega) j (by omega) (by omega)
  have hread {p q : Nat} {Q : Int → State → Prop} (hp : p < x.length + 1)
      (hq : q < y.length + 1) := runs_readEntry (s := s) (Q := Q) hs.shapeC hp hq
  rw [fill, runs_bind, runs_get, hi', hj', runs_bind, runs_character hi, runs_bind,
    runs_character hj]
  split_ifs with heq
  · rw [runs_bind, hread (by omega) (by omega), runs_bind]
    obtain ⟨k, hv, hk⟩ := hdiagonal.longest
    have hle := hk.le_length
    have htake := List.length_take_le i x
    have hint : IsInt ((s.c[i]!)[j]! + 1) := ⟨by omega, by omega⟩
    rw [runs_int hint]
    exact runs_assign hs hi hj (entry_common hi hj heq hdiagonal)
  · rw [runs_bind, hread (by omega) (by omega), runs_bind, hread (by omega) (by omega)]
    split_ifs with hle
    · rw [runs_bind, hread (by omega) (by omega)]
      exact runs_assign hs hi hj (entry_up hi hj heq hup hleft hle)
    · rw [runs_bind, hread (by omega) (by omega)]
      exact runs_assign hs hi hj (entry_left hi hj heq hup hleft (Int.not_le.mp hle))

theorem runs_resizeRows {α : Type} {n m : Nat} {d : α} (hm : m < 2147483648) (hf : m < fuel) :
    Runs (resizeRows fuel (n : Int) d (List.replicate m [])) s fun t u =>
      t = List.replicate m (List.replicate n d) ∧ u = s := by
  refine runs_loop (fun r (v : Int × List (List α)) u => u = s ∧ ∃ i, i + r = m ∧
    v = ((i : Int), List.replicate i (List.replicate n d) ++ List.replicate r [])) ?_
    ⟨rfl, 0, Nat.zero_add m, rfl⟩ hf
  rintro r _ u ⟨rfl, i, hi, rfl⟩
  dsimp only
  have hlength : (List.replicate i (List.replicate n d)).length = i := List.length_replicate
  have hle := Nat.le_of_eq hlength
  rw [Int.toNat_natCast, List.getElem?_append_right hle, hlength, Nat.sub_self]
  cases r with
  | zero =>
    subst hi
    rw [List.replicate_zero, List.append_nil]
    exact runs_pure.mpr ⟨rfl, rfl⟩
  | succ r =>
    have hint : IsInt ((i : Int) + 1) := ⟨by omega, by omega⟩
    rw [List.replicate_succ, List.getElem?_cons_zero]
    dsimp only
    rw [runs_bind, runs_resize_nil, runs_bind, runs_int hint, runs_pure]
    refine ⟨r, Nat.lt_succ_self r, rfl, i + 1, by omega, ?_⟩
    rw [List.set_append_right _ _ hle, hlength, Nat.sub_self, List.set_cons_zero,
      List.replicate_succ', List.append_assoc]
    rfl

theorem filled_start {cout : List Char} :
    Filled x y 1 1 ⟨List.replicate (x.length + 1) (List.replicate (y.length + 1) 0),
      List.replicate (x.length + 1) (List.replicate (y.length + 1) d), cout⟩ := by
  refine ⟨hasShape_replicate, hasShape_replicate, fun p hp q hq hpq => ?_⟩
  rw [getElem!_replicate (by omega), getElem!_replicate (by omega)]
  exact entry_edge (by omega)

theorem Filled.next_row (h : Filled x y i (y.length + 1) s) : Filled x y (i + 1) 1 s :=
  ⟨h.shapeC, h.shapeB, fun p hp q hq hpq => h.entry p hp q hq (by omega)⟩

theorem lcsLength_spec {cout : List Char} (hx : x.length < 2147483647)
    (hy : y.length < 2147483647) (hfx : x.length + 1 < fuel) (hfy : y.length + 1 < fuel) :
    Runs (lcsLength fuel x y) ⟨[], [], cout⟩ fun _ t =>
      Filled x y (x.length + 1) 1 t := by
  have hcast (m : Nat) : (m : Int) + 1 = (m + 1 : Nat) := rfl
  have hsucc {m : Nat} (hm : m < 2147483647) : IsInt (m + 1 : Nat) := ⟨by omega, by omega⟩
  have hrows : x.length + 1 < 2147483648 := Nat.succ_lt_succ hx
  simp only [lcsLength, toInt_of_lt (Nat.lt_succ_of_lt hx), toInt_of_lt (Nat.lt_succ_of_lt hy),
    hcast, runs_bind, runs_get, runs_int (hsucc hx), runs_int (hsucc hy), runs_resize_nil]
  refine (runs_resizeRows (n := y.length + 1) hrows hfx).mono ?_
  rintro _ _ ⟨rfl, rfl⟩
  refine (runs_resizeRows (n := y.length + 1) hrows hfx).mono ?_
  rintro _ _ ⟨rfl, rfl⟩
  rw [runs_set]
  refine (runs_countUp (l := 1) (fun i (t : State) => Filled x y i 1 t)
    (fun i t _ => runs_pure.mpr ⟨Int.toNat_natCast _, rfl⟩) hrows ?_ filled_start
    (by omega)).mono ?_
  · intro i hi hix t ht
    obtain ⟨p, rfl⟩ : ∃ p, i = p + 1 := ⟨i - 1, by omega⟩
    refine (runs_countUp (l := 1) (fun j (u : State) => Filled x y (p + 1) j u)
      (fun j u _ => runs_pure.mpr ⟨Int.toNat_natCast _, rfl⟩) (Nat.succ_lt_succ hy) ?_ ht
      (by omega)).mono ?_
    · intro j hj hjy u hu
      obtain ⟨q, rfl⟩ : ∃ q, j = q + 1 := ⟨j - 1, by omega⟩
      exact fill_spec hu (by omega) (by omega) hx
    · intro _ u hu
      rw [Nat.max_eq_right (by omega)] at hu
      exact hu.next_row
  · intro _ t ht
    rwa [Nat.max_eq_right (by omega)] at ht

/-- A common subsequence of the first `i` and the first `j` characters, as long as possible. -/
def IsLongest (x y : List Char) (i j : Nat) (zs : List Char) : Prop :=
  zs.Sublist (x.take i) ∧ zs.Sublist (y.take j) ∧
    LongestCommon zs.length (x.take i) (y.take j)

theorem printLcs_spec (hs : Filled x y (x.length + 1) 1 s) (hi : i ≤ x.length) (hj : j ≤ y.length)
    (hf : i + j < fuel) :
    Runs (printLcs fuel x i j) s fun _ t =>
      ∃ zs, t = { s with cout := s.cout ++ zs } ∧ IsLongest x y i j zs := by
  induction fuel generalizing i j with
  | zero => omega
  | succ fuel ih =>
    have hentry := hs.entry i hi j hj (by omega)
    rw [printLcs]
    split_ifs with hedge
    · rw [runs_pure]
      exact ⟨[], by rw [List.append_nil], List.nil_sublist _, List.nil_sublist _,
        longestCommon_edge (by omega)⟩
    · obtain ⟨p, rfl⟩ : ∃ p, i = p + 1 := ⟨i - 1, by omega⟩
      obtain ⟨q, rfl⟩ : ∃ q, j = q + 1 := ⟨j - 1, by omega⟩
      have hp : ((p + 1 : Nat) : Int) - 1 = p := by omega
      have hq : ((q + 1 : Nat) : Int) - 1 = q := by omega
      have hread {Q : Char → State → Prop} := runs_readEntry (s := s) (Q := Q) hs.shapeB
        (Nat.lt_succ_of_le hi) (Nat.lt_succ_of_le hj)
      rw [runs_bind, runs_get, runs_bind, hread, hp, hq]
      rcases hentry.leads p.succ_pos q.succ_pos with ⟨hd, heq⟩ | ⟨hd, k, hk, hk'⟩ | ⟨hd, k, hk, hk'⟩
      · rw [hd, if_pos rfl, runs_bind]
        refine (ih (i := p) (j := q) (by omega) (by omega) (by omega)).mono ?_
        rintro _ _ ⟨zs, rfl, hx, hy, hlongest⟩
        rw [runs_bind, runs_character hi, runs_bind, runs_get, runs_set]
        refine ⟨zs ++ [x[p]!], by rw [List.append_assoc], ?_⟩
        have heq : x[p]! = y[q]! := heq
        rw [IsLongest, take_succ_eq hi, take_succ_eq hj, ← heq, List.length_append]
        exact ⟨hx.append_right _, hy.append_right _, hlongest.concat_eq⟩
      · rw [hd, if_neg (by decide), runs_bind, runs_get, runs_bind, hread, hd, if_pos rfl]
        refine (ih (i := p) (j := q + 1) (by omega) hj (by omega)).mono ?_
        rintro _ _ ⟨zs, rfl, hx, hy, hlongest⟩
        refine ⟨zs, rfl, hx.trans (List.take_sublist_take_left p.le_succ), hy, ?_⟩
        rwa [hlongest.unique hk']
      · rw [hd, if_neg (by decide), runs_bind, runs_get, runs_bind, hread, hd, if_neg (by decide)]
        refine (ih (i := p + 1) (j := q) hi (by omega) (by omega)).mono ?_
        rintro _ _ ⟨zs, rfl, hx, hy, hlongest⟩
        refine ⟨zs, rfl, hx, hy.trans (List.take_sublist_take_left q.le_succ), ?_⟩
        rwa [hlongest.unique hk']

end

/-- Every entry of `c` is the greatest length of a common subsequence, and the one that is printed
for the whole strings is as long as the last entry says. -/
theorem lcsLength_longest (x y cout : List Char) (hx : x.length ≤ 2147483646)
    (hy : y.length ≤ 2147483646) (fuel : Nat) (hf : x.length + y.length + 1 < fuel) :
    Runs (lcsLength fuel x y) ⟨[], [], cout⟩ fun _ s =>
      HasShape (x.length + 1) (y.length + 1) s.c ∧
      (∀ i ≤ x.length, ∀ j ≤ y.length, ∃ k : Nat, (s.c[i]!)[j]! = k ∧
        LongestCommon k (x.take i) (y.take j)) ∧
      Runs (printLcs fuel x (toInt x.length) (toInt y.length)) s fun _ t =>
        ∃ zs, t.cout = s.cout ++ zs ∧ zs.Sublist x ∧ zs.Sublist y ∧
          (s.c[x.length]!)[y.length]! = zs.length := by
  refine (lcsLength_spec (by omega) (by omega) (by omega) (by omega)).mono fun _ s hs => ?_
  have hentry (i : Nat) (hi : i ≤ x.length) (j : Nat) (hj : j ≤ y.length) :=
    (hs.entry i hi j hj (by omega)).longest
  refine ⟨hs.shapeC, hentry, ?_⟩
  rw [toInt_of_lt (by omega), toInt_of_lt (by omega)]
  refine (printLcs_spec hs (Nat.le_refl _) (Nat.le_refl _) (by omega)).mono ?_
  rintro _ _ ⟨zs, rfl, hzx, hzy, hlongest⟩
  obtain ⟨k, hv, hk⟩ := hentry x.length (Nat.le_refl _) y.length (Nat.le_refl _)
  rw [List.take_length] at hzx hzy
  exact ⟨zs, rfl, hzx, hzy, by rw [hv, hk.unique hlongest]⟩

def sampleX : List Char := ['A', 'B', 'C', 'B', 'D', 'A', 'B']

def sampleY : List Char := ['B', 'D', 'C', 'A', 'B', 'A']

theorem lcsLength_longest_sample :
    Runs (lcsLength 15 sampleX sampleY) ⟨[], [], []⟩ fun _ s =>
      HasShape (sampleX.length + 1) (sampleY.length + 1) s.c ∧
      (∀ i ≤ sampleX.length, ∀ j ≤ sampleY.length, ∃ k : Nat, (s.c[i]!)[j]! = k ∧
        LongestCommon k (sampleX.take i) (sampleY.take j)) ∧
      Runs (printLcs 15 sampleX (toInt sampleX.length) (toInt sampleY.length)) s fun _ t =>
        ∃ zs, t.cout = s.cout ++ zs ∧ zs.Sublist sampleX ∧ zs.Sublist sampleY ∧
          (s.c[sampleX.length]!)[sampleY.length]! = zs.length :=
  lcsLength_longest sampleX sampleY [] (by decide) (by decide) 15 (by decide)

/-- As many characters as the greatest `int`, to which `lcsLength` adds 1. -/
def long : List Char := List.replicate 2147483647 'A'

theorem lcsLength_long : long.length = 2147483647 ∧
    ∀ fuel, ¬ Runs (lcsLength fuel long []) ⟨[], [], []⟩ fun _ s =>
      ∀ i ≤ long.length, ∃ k : Nat, (s.c[i]!)[0]! = k ∧ LongestCommon k (long.take i) [] := by
  have hlength : long.length = 2147483647 := List.length_replicate
  refine ⟨hlength, fun fuel h => ?_⟩
  have hover : ¬ IsInt (toInt long.length + 1) := by
    rw [hlength]
    decide
  exact h.not_fails (fails_int hover).bind

end LanguageTest.LongestSubSequence
