import LanguageTest.Library.Borders
import LanguageTest.Library.Tables

namespace LanguageTest.Kmp

/-- The vector `next`. -/
abbrev State := Vec Unit Int

/-- `s[i]`. The terminating null character stands after the others. -/
def charAt (s : List UInt8) (i : Int) : Program State UInt8 :=
  if 0 ≤ i ∧ i ≤ s.length then pure (s.getD i.toNat 0) else fail .outOfRange

/-- `while (k > 0 && T[i - 1] != T[k]) k = next[k]`. -/
def fallBack (fuel : Nat) (T : List UInt8) (i k : Int) : Program State Int :=
  loop (fun k => do
    if ← (pure (decide (k > 0)) <&&>
        (do pure (decide ((← charAt T (i - 1)) ≠ (← charAt T k))))) then
      pure (.again (← element k))
    else pure (.done k)) fuel k

def getNext (fuel : Nat) (T : List UInt8) : Program State Unit := do
  let len := toInt T.length
  let next ← resize len 0 []
  set (⟨(), next, []⟩ : State)
  assignElement 0 (-1)
  loop (fun v : Int × Int => do
    let (i, k) := v
    if i < len then
      let k ← fallBack fuel T i k
      let k ← if (← charAt T (i - 1)) = (← charAt T k) then int (k + 1) else pure k
      assignElement i k
      pure (.again (← int (i + 1), k))
    else pure (.done ())) fuel (2, 0)

/-- `fallBack` and `getNext` with another way to read a character, such as one that has no null
character after the others. -/
def fallBackBy (read : Int → Program State UInt8) (fuel : Nat) (i k : Int) : Program State Int :=
  loop (fun k => do
    if ← (pure (decide (k > 0)) <&&>
        (do pure (decide ((← read (i - 1)) ≠ (← read k))))) then
      pure (.again (← element k))
    else pure (.done k)) fuel k

def getNextBy (read : Int → Program State UInt8) (fuel : Nat) (len : Int) : Program State Unit := do
  let next ← resize len 0 []
  set (⟨(), next, []⟩ : State)
  assignElement 0 (-1)
  loop (fun v : Int × Int => do
    let (i, k) := v
    if i < len then
      let k ← fallBackBy read fuel i k
      let k ← if (← read (i - 1)) = (← read k) then int (k + 1) else pure k
      assignElement i k
      pure (.again (← int (i + 1), k))
    else pure (.done ())) fuel (2, 0)

/-- The body of the loop of `kmp` after its test. -/
def advance (s t : List UInt8) (i j : Int) : Program State (Int × Int) := do
  let (i, j) ← if (← charAt s i) = (← charAt t j) then
      do pure (← int (i + 1), ← int (j + 1))
    else do pure (i, ← element j)
  if j = -1 then pure (← int (i + 1), ← int (j + 1)) else pure (i, j)

def search (fuel : Nat) (s t : List UInt8) : Program State (Int × Int) :=
  loop (fun v : Int × Int => do
    let (i, j) := v
    if ← ((do pure (decide ((← charAt s i) ≠ 0))) <&&>
        (do pure (decide ((← charAt t j) ≠ 0)))) then
      pure (.again (← advance s t i j))
    else pure (.done (i, j))) fuel (0, 0)

/-- What `kmp` and `kmp2` do. -/
def firstMatch (fuel : Nat) (s t : List UInt8) : Program State Int := do
  getNext fuel t
  let (i, j) ← search fuel s t
  if (← charAt t j) = 0 then int (i - j) else pure (-1)

def kmp (fuel : Nat) (s t : List UInt8) : Program State Int := firstMatch fuel s t

def kmp2 (fuel : Nat) (src target : List UInt8) : Program State Int := firstMatch fuel src target

/-- The entries of `next` for the first `len` characters, as far as `i`. -/
structure Table (t : List UInt8) (len i : Nat) (next : List Int) : Prop where
  size : next.length = len
  first : next[0]! = -1
  border : ∀ m, 0 < m → m < i → m < len → ∃ b : Nat, next[m]! = b ∧ LongestBorder t m b

/-- The first place where `t` occurs in `s`, or -1. -/
def IsFirst (t s : List UInt8) (r : Int) : Prop :=
  (∃ p : Nat, r = p ∧ FirstOccurrence t s p) ∨ (r = -1 ∧ ∀ p, ¬ OccursAt t s p)

/-- The characters before the size are read as they are. -/
def Reads (t : List UInt8) (read : Int → Program State UInt8) : Prop :=
  ∀ i < t.length, ∀ u Q, Runs (read i) u Q ↔ Q t[i]! u

/-- What the step from `i` and `j` needs: an `int` for the next index, and an entry of the table. -/
def Safe (s t : List UInt8) (len i j : Nat) : Prop :=
  (s[i]! = t[j]! → i < 2147483647) ∧ (s[i]! ≠ t[j]! → j < len ∧ (j = 0 → i < 2147483647))

/-- The indices of a search. -/
structure Searching (s t : List UInt8) (i j : Nat) : Prop where
  matching : Matching t s i j
  left : i ≤ s.length
  right : j ≤ t.length
  isInt : i < 2147483648

section
variable {s t : List UInt8} {u : State} {fuel i j k n len : Nat}
  {read : Int → Program State UInt8}

theorem IsFirst.unique {r q : Int} (hr : IsFirst t s r) (hq : IsFirst t s q) : r = q := by
  rcases hr with ⟨a, rfl, ha⟩ | ⟨rfl, hnone⟩
  · rcases hq with ⟨b, rfl, hb⟩ | ⟨rfl, hnone⟩
    · rw [ha.unique hb]
    · exact absurd ha.1 (hnone a)
  · rcases hq with ⟨b, rfl, hb⟩ | ⟨rfl, -⟩
    · exact absurd hb.1 (hnone b)
    · rfl

theorem runs_charAt {Q : UInt8 → State → Prop} (hi : i ≤ t.length) :
    Runs (charAt t i) u Q ↔ Q t[i]! u := by
  have hrange : 0 ≤ (i : Int) ∧ (i : Int) ≤ t.length := ⟨by omega, by omega⟩
  rw [charAt, if_pos hrange, runs_pure, Int.toNat_natCast, List.getElem!_eq_getElem?_getD,
    List.getD_eq_getElem?_getD]
  exact Iff.rfl

theorem reads_charAt : Reads t (charAt t) := fun _ hi _ _ => runs_charAt (Nat.le_of_lt hi)

theorem reads_itemAt : Reads t (itemAt t) := fun _ hi _ _ => runs_itemAt hi

theorem getNext_eq : getNext fuel t = getNextBy (charAt t) fuel (toInt t.length) := rfl

/-- The null character is the one after the others. -/
theorem getElem!_ne_zero_iff (ht : 0 ∉ t) (hi : i ≤ t.length) : t[i]! ≠ 0 ↔ i < t.length := by
  constructor
  · intro hne
    refine Nat.lt_of_le_of_ne hi fun heq => hne ?_
    rw [heq, getElem!_neg t t.length (Nat.lt_irrefl _)]
    rfl
  · intro hlt heq
    exact ht (mem_iff_getElem!.mpr ⟨i, hlt, heq⟩)

theorem Table.runs_border {Q : Int → State → Prop} (h : Table t len i u.items) (hm : 0 < j)
    (hi : j < i) (hlen : j < len) (hq : ∀ b : Nat, LongestBorder t j b → Q b (u.touch j)) :
    Runs (element j) u Q := by
  obtain ⟨b, hb, hborder⟩ := h.border j hm hi hlen
  rw [runs_element (h.size.symm ▸ hlen), hb]
  exact hq b hborder

theorem fallBack_spec (hread : Reads t read) (hn : n + 1 < len) (hlen : len ≤ t.length)
    (ht : Table t len (n + 1) u.items)
    (hk : Extending t n k) (hf : k < fuel) :
    Runs (fallBackBy read fuel (n + 1 : Nat) k) u fun r v => v.items = u.items ∧
      ∃ m : Nat, r = m ∧ Extending t n m ∧ (m = 0 ∨ t[m]! = t[n]!) := by
  refine runs_loop (fun m (p : Int) (v : State) => p = m ∧ v.items = u.items ∧ Extending t n m) ?_
    ⟨rfl, rfl, hk⟩ hf
  rintro m _ v ⟨rfl, hv, hm⟩
  have hless := hm.less
  have hprev : ((n + 1 : Nat) : Int) - 1 = n := by omega
  rw [runs_bind, runs_andM, runs_pure]
  by_cases hpos : 0 < m
  · rw [if_pos (decide_eq_true (Int.natCast_pos.mpr hpos)), hprev, runs_bind,
      hread n (by omega), runs_bind, hread m (by omega), runs_pure]
    by_cases hne : t[n]! ≠ t[m]!
    · rw [if_pos (decide_eq_true hne), runs_bind]
      refine Table.runs_border (hv ▸ ht) hpos (by omega) (by omega) fun b hb => ?_
      rw [runs_pure]
      exact ⟨b, hb.less, rfl, hv, hm.fall hb (Ne.symm hne)⟩
    · rw [if_neg (by simpa using hne), runs_pure]
      exact ⟨hv, m, rfl, hm, Or.inr (not_not.mp hne).symm⟩
  · rw [if_neg (by simpa using hpos), if_neg Bool.false_ne_true, runs_pure]
    exact ⟨hv, m, rfl, hm, Or.inl (Nat.eq_zero_of_not_pos hpos)⟩

/-- One pass for the entry at `n + 1`, from the border of the first `n` characters. -/
theorem Table.next {next : List Int} {b : Nat} (h : Table t len (n + 1) next) (hn : n + 1 < len)
    (hb : LongestBorder t (n + 1) b) : Table t len (n + 2) (next.set (n + 1) b) := by
  have hsize : n + 1 < next.length := h.size.symm ▸ hn
  refine ⟨List.length_set.trans h.size, ?_, fun m hm hmn hlen => ?_⟩
  · rw [getElem!_set hsize, if_neg (Nat.succ_ne_zero n).symm]
    exact h.first
  · rw [getElem!_set hsize]
    by_cases heq : m = n + 1
    · rw [if_pos heq, heq]
      exact ⟨b, rfl, hb⟩
    · rw [if_neg heq]
      exact h.border m hm (by omega) hlen

theorem table_start (hlen : 0 < len) : Table t len 2 ((List.replicate len 0).set 0 (-1)) := by
  have hsize : 0 < (List.replicate len (0 : Int)).length := by rwa [List.length_replicate]
  refine ⟨by simp, ?_, fun m hm hm2 hml => ⟨0, ?_, ?_⟩⟩
  · rw [getElem!_set hsize, if_pos rfl]
  · rw [getElem!_set hsize, if_neg (Nat.ne_of_gt hm), getElem!_replicate hml]
    rfl
  · obtain rfl : m = 1 := by omega
    exact longestBorder_one

/-- One pass of the loop of `getNext`. -/
theorem nextEntry_spec {w : State} (hread : Reads t read) (hn : n + 1 < len)
    (hint : len < 2147483648) (hle : len ≤ t.length) (hk : LongestBorder t n k)
    (hw : Table t len (n + 1) w.items) (hf : len < fuel) :
    Runs (do
      let k ← fallBackBy read fuel (n + 1 : Nat) k
      let k ← if (← read ((n + 1 : Nat) - 1)) = (← read k) then int (k + 1) else pure k
      assignElement (n + 1 : Nat) k
      pure (.again (← int ((n + 1 : Nat) + 1), k))) w
        fun (v : Step (Int × Int) Unit) x => ∃ b : Nat,
          v = .again (((n + 1 + 1 : Nat) : Int), (b : Int)) ∧ LongestBorder t (n + 1) b ∧
            Table t len (n + 1 + 1) x.items := by
  have hkn := hk.less
  rw [runs_bind]
  refine (fallBack_spec hread hn hle hw hk.extending (by omega)).mono ?_
  rintro _ x ⟨hx, m, rfl, hm, hend⟩
  have hless := hm.less
  have hn' : n < t.length := by omega
  have hprev : ((n + 1 : Nat) : Int) - 1 = n := by omega
  have hnext : IsInt ((n + 1 : Nat) + 1) := ⟨by omega, by omega⟩
  have hitems : n + 1 < x.items.length := by
    rw [hx, hw.size]
    exact hn
  rw [← hx] at hw
  rw [hprev, runs_bind, hread n hn', runs_bind, hread m (by omega)]
  split_ifs with heq
  · have hgrown : IsInt ((m : Int) + 1) := ⟨by omega, by omega⟩
    have hborder := hm.found hn' heq.symm
    rw [runs_bind, runs_int hgrown, runs_bind, runs_assignElement hitems, runs_bind,
      runs_int hnext, runs_pure]
    exact ⟨m + 1, rfl, hborder, hw.next hn hborder⟩
  · obtain rfl := hend.resolve_right (Ne.symm heq)
    have hborder := hm.absent hn' (Ne.symm heq)
    rw [runs_bind, runs_pure, runs_bind, runs_assignElement hitems, runs_bind, runs_int hnext,
      runs_pure]
    exact ⟨0, rfl, hborder, hw.next hn hborder⟩

theorem getNextBy_spec (hread : Reads t read) (hint : len < 2147483648) (hpos : 0 < len)
    (hle : len ≤ t.length) (hf : len < fuel) :
    Runs (getNextBy read fuel len) u fun _ v => Table t len len v.items := by
  rw [getNextBy, runs_bind, runs_resize_nil, runs_bind, runs_set, runs_bind]
  refine (runs_assignElement (i := 0) (by simpa using hpos)).mpr ?_
  refine runs_loop (k := len - 2) (fun r (v : Int × Int) (w : State) => ∃ n k : Nat,
    len - (n + 1) = r ∧ v = (((n + 1 : Nat) : Int), (k : Int)) ∧ LongestBorder t n k ∧
      Table t len (n + 1) w.items) ?_
    ⟨1, 0, rfl, rfl, longestBorder_one, table_start hpos⟩ (by omega)
  rintro r _ w ⟨n, k, hr, rfl, hk, hw⟩
  dsimp only
  by_cases hlt : n + 1 < len
  · rw [if_pos (by omega)]
    refine (nextEntry_spec hread hlt hint hle hk hw hf).mono ?_
    rintro _ x ⟨b, rfl, hb, hx⟩
    exact ⟨len - (n + 1 + 1), by omega, n + 1, b, rfl, rfl, hb, hx⟩
  · rw [if_neg (by omega), runs_pure]
    exact ⟨hw.size, hw.first, fun m hm hml hlen => hw.border m hm (by omega) hlen⟩

theorem getNext_spec (hlen : toInt t.length = len) (hpos : 0 < len) (hle : len ≤ t.length)
    (hf : len < fuel) : Runs (getNext fuel t) u fun _ v => Table t len len v.items := by
  have hint : len < 2147483648 := by
    have hrange := (isInt_toInt (n := t.length)).2
    omega
  rw [getNext_eq, hlen]
  exact getNextBy_spec reads_charAt hint hpos hle hf

/-- The number that grows is twice the first index less the second. -/
theorem advance_spec (h : Searching s t i j) (hi : i < s.length) (hj : j < t.length)
    (ht : Table t len len u.items) (hsafe : Safe s t len i j) :
    Runs (advance s t i j) u fun v w => w.items = u.items ∧
      ∃ p q : Nat, v = ((p : Int), (q : Int)) ∧ Searching s t p q ∧ 2 * i + q < 2 * p + j := by
  have hji := h.matching.le
  rw [advance, runs_bind, runs_charAt (Nat.le_of_lt hi), runs_bind, runs_charAt (Nat.le_of_lt hj)]
  split_ifs with heq
  · have hint := hsafe.1 heq
    have hi' : IsInt ((i : Int) + 1) := ⟨by omega, by omega⟩
    have hj' : IsInt ((j : Int) + 1) := ⟨by omega, by omega⟩
    dsimp only
    rw [runs_bind, runs_int hi', runs_bind, runs_int hj', runs_bind, runs_pure]
    dsimp only
    rw [if_neg (by omega), runs_pure]
    exact ⟨rfl, i + 1, j + 1, rfl, ⟨h.matching.advance hi hj heq, hi, hj, by omega⟩, by omega⟩
  · obtain ⟨hlen, hzero⟩ := hsafe.2 heq
    dsimp only
    rcases Nat.eq_zero_or_pos j with rfl | hpos
    · have hint := hzero rfl
      have hi' : IsInt ((i : Int) + 1) := ⟨by omega, by omega⟩
      have hj' : IsInt (-1 + 1) := by decide
      rw [runs_bind, runs_element (ht.size.symm ▸ hlen), ht.first, runs_bind, runs_pure]
      dsimp only
      rw [if_pos rfl, runs_bind, runs_int hi', runs_bind, runs_int hj', runs_pure]
      exact ⟨rfl, i + 1, 0, rfl, ⟨h.matching.skip hj heq, hi, Nat.zero_le _, by omega⟩, by omega⟩
    · rw [runs_bind]
      refine ht.runs_border hpos hlen hlen fun b hb => ?_
      have hbj := hb.less
      rw [runs_bind, runs_pure]
      dsimp only
      rw [if_neg (by omega), runs_pure]
      exact ⟨rfl, i, b, rfl, ⟨h.matching.fall hj hb heq, h.left, by omega, h.isInt⟩, by omega⟩

theorem advance_stops {Q : Int × Int → State → Prop} (hi : i < s.length) (hj : j < t.length)
    (ht : Table t len len u.items) (hsafe : ¬ Safe s t len i j) :
    Ensures (advance s t i j) u Q := by
  have hover (hint : ¬ i < 2147483647) : ¬ IsInt ((i : Int) + 1) := by
    intro h
    have hlt := h.2
    omega
  refine Runs.bind_ensures ((runs_charAt (Nat.le_of_lt hi)).mpr ?_)
  refine Runs.bind_ensures ((runs_charAt (Nat.le_of_lt hj)).mpr ?_)
  split_ifs with heq
  · have hint : ¬ i < 2147483647 := fun hint =>
      hsafe ⟨fun _ => hint, fun hne => absurd heq hne⟩
    exact (fails_int (hover hint)).bind.ensures
  · rcases Nat.lt_or_ge j len with hlen | hlen
    · by_cases hzero : j = 0 → i < 2147483647
      · exact absurd ⟨fun h => absurd h heq, fun _ => ⟨hlen, hzero⟩⟩ hsafe
      · obtain ⟨rfl, hint⟩ := Classical.not_imp.mp hzero
        refine Runs.bind_ensures ((runs_element (ht.size.symm ▸ hlen)).mpr ?_)
        rw [ht.first]
        refine Runs.bind_ensures (runs_pure.mpr ?_)
        dsimp only
        rw [if_pos rfl]
        exact (fails_int (hover hint)).bind.ensures
    · exact (fails_element_of_le (ht.size.symm ▸ hlen)).bind.ensures

/-- How the search ends: behind the text, or behind the pattern. -/
def Searched (s t : List UInt8) (v : Int × Int) : Prop :=
  ∃ i j : Nat, v = ((i : Int), (j : Int)) ∧ Searching s t i j ∧ (i = s.length ∨ j = t.length)

theorem searching_start : Searching s t 0 0 :=
  ⟨matching_start, Nat.zero_le _, Nat.zero_le _, by decide⟩

/-- The test of the loop. -/
theorem runs_test {Q : Bool → State → Prop} (hs : 0 ∉ s) (ht : 0 ∉ t) (h : Searching s t i j) :
    Runs ((do pure (decide ((← charAt s i) ≠ 0))) <&&>
        (do pure (decide ((← charAt t j) ≠ 0)))) u Q ↔
      Q (decide (i < s.length ∧ j < t.length)) u := by
  have hi := getElem!_ne_zero_iff hs h.left
  have hj := getElem!_ne_zero_iff ht h.right
  rw [runs_andM, runs_bind, runs_charAt h.left, runs_pure]
  by_cases hlt : i < s.length
  · rw [if_pos (decide_eq_true (hi.mpr hlt)), runs_bind, runs_charAt h.right, runs_pure]
    simp only [hj, hlt, true_and]
  · rw [if_neg (by simpa using fun hne => hlt (hi.mp hne))]
    simp only [hlt, false_and, decide_false]

theorem search_spec (hs : 0 ∉ s) (ht : 0 ∉ t) (htable : Table t len len u.items)
    (hsafe : ∀ i j, Matching t s i j → i < s.length → j < t.length → Safe s t len i j)
    (hf : 2 * s.length < fuel) :
    Runs (search fuel s t) u fun v _ => Searched s t v := by
  refine runs_loop (fun r (v : Int × Int) (w : State) => w.items = u.items ∧ ∃ i j : Nat,
    v = ((i : Int), (j : Int)) ∧ Searching s t i j ∧ r + 2 * i = 2 * s.length + j) ?_
    ⟨rfl, 0, 0, rfl, searching_start, rfl⟩ hf
  rintro r _ w ⟨hw, i, j, rfl, h, hr⟩
  dsimp only
  rw [runs_bind, runs_test hs ht h]
  by_cases hmore : i < s.length ∧ j < t.length
  · rw [if_pos (decide_eq_true hmore), runs_bind]
    refine (advance_spec h hmore.1 hmore.2 (hw ▸ htable)
      (hsafe i j h.matching hmore.1 hmore.2)).mono ?_
    rintro _ x ⟨hx, p, q, rfl, hnext, hgrows⟩
    have hp := hnext.left
    rw [runs_pure]
    exact ⟨2 * s.length + q - 2 * p, by omega, hx.trans hw, p, q, rfl, hnext, by omega⟩
  · rw [if_neg (by simpa using hmore), runs_pure]
    have hi := h.left
    have hj := h.right
    exact ⟨i, j, rfl, h, by omega⟩

/-- A search that ends, ends so. -/
theorem ensures_search (hs : 0 ∉ s) (ht : 0 ∉ t) (htable : Table t len len u.items) :
    Ensures (search fuel s t) u fun v _ => Searched s t v := by
  refine ensures_loop (fun (v : Int × Int) (w : State) => w.items = u.items ∧ ∃ i j : Nat,
    v = ((i : Int), (j : Int)) ∧ Searching s t i j) ?_ ⟨rfl, 0, 0, rfl, searching_start⟩
  rintro _ w ⟨hw, i, j, rfl, h⟩
  dsimp only
  refine Runs.bind_ensures ((runs_test hs ht h).mpr ?_)
  by_cases hmore : i < s.length ∧ j < t.length
  · rw [if_pos (decide_eq_true hmore)]
    by_cases hsafe : Safe s t len i j
    · have hadvance := advance_spec h hmore.1 hmore.2 (hw ▸ htable) hsafe
      refine Ensures.bind (hadvance.ensures.mono ?_)
      rintro _ x ⟨hx, p, q, rfl, hnext, -⟩
      exact ensures_pure ⟨hx.trans hw, p, q, rfl, hnext⟩
    · exact Ensures.bind (advance_stops hmore.1 hmore.2 (hw ▸ htable) hsafe)
  · rw [if_neg (by simpa using hmore)]
    have hi := h.left
    have hj := h.right
    exact ensures_pure ⟨i, j, rfl, h, by omega⟩

/-- What `kmp` returns after a search, and what its indices say about the sizes. -/
theorem runs_result (ht : 0 ∉ t) {v : Int × Int} (h : Searched s t v) :
    Runs (do
      let (i, j) := v
      if (← charAt t j) = 0 then int (i - j) else pure (-1)) u fun r _ =>
        IsFirst t s r ∧ (0 ≤ r → t.length < 2147483648) ∧ (r < 0 → s.length < 2147483648) := by
  obtain ⟨i, j, rfl, h, hend⟩ := h
  have hji := h.matching.le
  have hint := h.isInt
  have hj := h.right
  dsimp only
  rw [runs_bind, runs_charAt hj]
  rcases Nat.eq_or_lt_of_le hj with rfl | hlt
  · have hzero : t[t.length]! = 0 := not_not.mp fun hne =>
      Nat.lt_irrefl _ ((getElem!_ne_zero_iff ht hj).mp hne)
    have hrange : IsInt ((i : Int) - t.length) := ⟨by omega, by omega⟩
    rw [if_pos hzero, runs_int hrange]
    exact ⟨Or.inl ⟨i - t.length, by omega, h.matching.found h.left⟩, fun _ => by omega,
      fun _ => by omega⟩
  · rw [if_neg ((getElem!_ne_zero_iff ht hj).mpr hlt), runs_pure]
    obtain rfl := hend.resolve_right (Nat.ne_of_lt hlt)
    exact ⟨Or.inr ⟨rfl, fun p => h.matching.absent hlt⟩, fun hr => absurd hr (by decide),
      fun _ => hint⟩

theorem firstMatch_spec (hs : 0 ∉ s) (ht : 0 ∉ t) (hlen : toInt t.length = len) (hpos : 0 < len)
    (hsafe : ∀ i j, Matching t s i j → i < s.length → j < t.length → Safe s t len i j)
    (hf : 2 * s.length < fuel) (hf' : t.length < fuel) :
    Runs (firstMatch fuel s t) u fun r _ => IsFirst t s r := by
  have hle : len ≤ t.length := by
    have hle := toInt_le (n := t.length)
    omega
  rw [firstMatch, runs_bind]
  refine (getNext_spec hlen hpos hle (by omega)).mono fun _ v hv => ?_
  rw [runs_bind]
  refine (search_spec hs ht hv hsafe hf).mono fun w x hw => ?_
  exact (runs_result ht hw).mono fun r _ h => h.1

/-- `next` has an entry. -/
theorem getNext_fails (hlen : ¬ 0 < toInt t.length) : Fails (getNext fuel t) u .outOfRange := by
  rw [getNext]
  rcases Int.lt_or_eq_of_le (Int.not_lt.mp hlen) with hneg | hzero
  · rw [resize, if_pos hneg]
    exact fails_fail.bind
  · rw [hzero]
    refine Runs.fails ((runs_resize_nil (n := 0)).mpr ?_)
    refine Runs.fails (runs_set.mpr (Fails.bind ?_))
    exact Runs.fails (runs_get.mpr fails_fail)

/-- Whatever the sizes are, a result is right. -/
theorem ensures_firstMatch (hs : 0 ∉ s) (ht : 0 ∉ t) (hf : t.length < fuel) :
    Ensures (firstMatch fuel s t) u fun r _ => IsFirst t s r ∧ 0 < toInt t.length ∧
      (0 ≤ r → t.length < 2147483648) ∧ (r < 0 → s.length < 2147483648) := by
  by_cases hpos : 0 < toInt t.length
  · obtain ⟨len, hlen⟩ := Int.eq_ofNat_of_zero_le (Int.le_of_lt hpos)
    have hle : len ≤ t.length := by
      have hle := toInt_le (n := t.length)
      omega
    refine Runs.bind_ensures ((getNext_spec hlen (by omega) hle (by omega)).mono fun _ v hv => ?_)
    refine Ensures.bind ((ensures_search hs ht hv).mono fun w x hw => ?_)
    exact ((runs_result ht hw).mono fun r _ h => ⟨h.1, hpos, h.2⟩).ensures
  · exact (getNext_fails hpos).bind.ensures

end

/-- For strings whose lengths are of type `int`, both find the first occurrence. -/
theorem kmp_first (u : State) (s t : List UInt8) (hs : 0 ∉ s) (ht : 0 ∉ t) (hne : t ≠ [])
    (hsl : s.length ≤ 2147483647) (htl : t.length ≤ 2147483647) (fuel : Nat)
    (hf : 2 * s.length < fuel) (hf' : t.length < fuel) :
    Runs (kmp fuel s t) u (fun r _ => IsFirst t s r) ∧
      Runs (kmp2 fuel s t) u (fun r _ => IsFirst t s r) := by
  have hlen : toInt t.length = t.length := toInt_of_lt (Nat.lt_succ_of_le htl)
  have hsafe (i j : Nat) (_ : Matching t s i j) (hi : i < s.length) (hj : j < t.length) :
      Safe s t t.length i j := ⟨fun _ => by omega, fun _ => ⟨hj, fun _ => by omega⟩⟩
  have hspec := firstMatch_spec (u := u) hs ht hlen (List.length_pos_iff.mpr hne) hsafe hf hf'
  exact ⟨hspec, hspec⟩

/-- `"ababaababc"` and `"abaab"`. -/
theorem kmp_first_sample :
    Runs (kmp 21 [97, 98, 97, 98, 97, 97, 98, 97, 98, 99] [97, 98, 97, 97, 98]) ⟨(), [], []⟩
      (fun r _ => IsFirst [97, 98, 97, 97, 98] [97, 98, 97, 98, 97, 97, 98, 97, 98, 99] r) ∧
    Runs (kmp2 21 [97, 98, 97, 98, 97, 97, 98, 97, 98, 99] [97, 98, 97, 97, 98]) ⟨(), [], []⟩
      (fun r _ => IsFirst [97, 98, 97, 97, 98] [97, 98, 97, 98, 97, 97, 98, 97, 98, 99] r) :=
  kmp_first ⟨(), [], []⟩ [97, 98, 97, 98, 97, 97, 98, 97, 98, 99] [97, 98, 97, 97, 98]
    (by decide) (by decide) (by decide) (by decide) (by decide) 21 (by decide) (by decide)

/-- A pattern of one character more than the greatest `int`. -/
def long : List UInt8 := List.replicate 2147483648 97

/-- The size of the table is negative as an `int`. -/
theorem kmp_long : 0 ∉ long ∧ long ≠ [] ∧
    ∀ (fuel : Nat) (u : State), ¬ Runs (kmp fuel [] long) u fun r _ => IsFirst long [] r := by
  have hlength : long.length = 2147483648 := List.length_replicate
  have hlen : ¬ 0 < toInt long.length := by
    rw [hlength]
    decide
  refine ⟨fun hmem => ?_, List.ne_nil_of_length_pos (by omega), fun fuel u h => ?_⟩
  · exact absurd (List.eq_of_mem_replicate hmem) (by decide)
  · exact h.not_fails (getNext_fails hlen).bind

/-- The table of a string whose length is an `int`. No character is read behind the last one. -/
theorem getNext_table (u : State) (t : List UInt8) (hne : t ≠ []) (hlen : t.length ≤ 2147483647)
    (fuel : Nat) (hf : t.length < fuel) :
    Runs (getNext fuel t) u (fun _ v => Table t t.length t.length v.items) ∧
      Runs (getNextBy (itemAt t) fuel (toInt t.length)) u fun _ v =>
        Table t t.length t.length v.items := by
  have hint : toInt t.length = t.length := toInt_of_lt (Nat.lt_succ_of_le hlen)
  have hpos := List.length_pos_iff.mpr hne
  refine ⟨getNext_spec hint hpos le_rfl hf, ?_⟩
  rw [hint]
  exact getNextBy_spec reads_itemAt (Nat.lt_succ_of_le hlen) hpos le_rfl hf

/-- `"abaab"`. -/
theorem getNext_table_sample :
    Runs (getNext 6 [97, 98, 97, 97, 98]) ⟨(), [], []⟩
      (fun _ v => Table [97, 98, 97, 97, 98] 5 5 v.items) ∧
    Runs (getNextBy (itemAt [97, 98, 97, 97, 98]) 6 (toInt 5)) ⟨(), [], []⟩ fun _ v =>
      Table [97, 98, 97, 97, 98] 5 5 v.items :=
  getNext_table ⟨(), [], []⟩ [97, 98, 97, 97, 98] (by decide) (by decide) 6 (by decide)

theorem getNext_long : long ≠ [] ∧ ∀ (fuel : Nat) (u : State),
    ¬ Runs (getNext fuel long) u fun _ v => Table long long.length long.length v.items := by
  have hlength : long.length = 2147483648 := List.length_replicate
  have hlen : ¬ 0 < toInt long.length := by
    rw [hlength]
    decide
  exact ⟨List.ne_nil_of_length_pos (by omega), fun fuel u h => h.not_fails (getNext_fails hlen)⟩

end LanguageTest.Kmp
