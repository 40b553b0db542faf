import Mathlib.Data.List.Infix
import LanguageTest.Race.Trie

namespace LanguageTest.Trie

/-- A word of the input: lower-case letters. -/
def Lower (word : List Char) : Prop := ∀ c ∈ word, c.isLower

variable {maxn : Nat} {t u : Trie maxn} {c d : Char} {k : Int} {x y : Fin maxn} {w p : List Char}

/-- The count at the end of the path `p`, or 0 where the path leaves the trie. -/
def countAt (t : Trie maxn) (p : List Char) : Int := (search t p).toOption.getD 0

/-- The child, or a new node where it is NULL. -/
def child (t : Trie maxn) (x : Fin maxn) : Trie maxn := (t.next x).getD fresh

theorem Lower.tail (h : Lower (c :: w)) : Lower w :=
  fun d hd => h d (List.mem_cons_of_mem c hd)

theorem letter_ok (hn : 26 ≤ maxn) (hc : c.isLower) : ∃ x : Fin maxn, letter c = .ok x := by
  have hr : 97 ≤ c.toNat ∧ c.toNat ≤ 122 := by
    have hval : (decide (c.val ≥ 'a'.val) && decide (c.val ≤ 'z'.val)) = true := hc
    simpa [UInt32.le_iff_toNat_le] using hval
  have hx : 97 ≤ c.toNat ∧ c.toNat - 97 < maxn := by omega
  exact ⟨⟨c.toNat - 97, hx.2⟩, dif_pos hx⟩

theorem letter_inj (hc : letter c = .ok x) (hd : letter d = .ok x) : c = d := by
  unfold letter at hc hd
  split_ifs at hc hd with h1 h2
  have hx : c.toNat - 97 = d.toNat - 97 := by
    rw [Except.ok.injEq] at hc hd
    rw [← hd, Fin.mk.injEq] at hc
    exact hc
  apply Char.ext
  apply UInt32.toNat_inj.mp
  change c.toNat = d.toNat
  omega

theorem search_cons (hc : letter c = .ok x) :
    search t (c :: p) = match t.next x with
      | none => .ok 0
      | some v => search v p := by
  rw [search, hc]
  rfl

theorem countAt_fresh (hn : 26 ≤ maxn) (hp : Lower p) : countAt (fresh : Trie maxn) p = 0 := by
  cases p with
  | nil => rfl
  | cons c p =>
    obtain ⟨x, hx⟩ := letter_ok hn (hp c (List.mem_cons_self ..))
    rw [countAt, search_cons hx]
    rfl

/-- A NULL child counts as a new one, below which every count is 0. -/
theorem countAt_cons (hn : 26 ≤ maxn) (hp : Lower p) (hc : letter c = .ok x) :
    countAt t (c :: p) = countAt (child t x) p := by
  rw [countAt, search_cons hc, child]
  cases t.next x with
  | none => exact (countAt_fresh hn hp).symm
  | some v => rfl

/-- A search ends in a count for every word. -/
theorem search_ok (hn : 26 ≤ maxn) (hp : Lower p) (t : Trie maxn) :
    search t p = .ok (countAt t p) := by
  induction p generalizing t with
  | nil => rfl
  | cons c p ih =>
    obtain ⟨x, hx⟩ := letter_ok hn (hp c (List.mem_cons_self ..))
    rw [countAt, search_cons hx]
    cases t.next x with
    | none => rfl
    | some v =>
      change search v p = _
      rw [ih hp.tail]
      rfl

theorem countAt_add : countAt (t.add k) p = countAt t p + if p = [] then k else 0 := by
  cases p with
  | nil => rfl
  | cons c p =>
    rw [if_neg (List.cons_ne_nil c p), Int.add_zero, countAt, countAt, search, search]
    rfl

theorem next_setNext : (t.setNext x u).next y = if y = x then some u else t.next y := rfl

theorem child_setNext : child (t.setNext x u) y = if y = x then u else child t y := by
  rw [child, next_setNext]
  split_ifs <;> rfl

/-- A new child changes the counts at the words that begin with its letter. -/
theorem countAt_setNext (hn : 26 ≤ maxn) (hp : Lower (d :: p)) (hc : letter c = .ok x) :
    countAt (t.setNext x u) (d :: p) = if d = c then countAt u p else countAt t (d :: p) := by
  obtain ⟨y, hy⟩ := letter_ok hn (hp d (List.mem_cons_self ..))
  rw [countAt_cons hn hp.tail hy, countAt_cons hn hp.tail hy, child_setNext]
  by_cases hd : d = c
  · subst hd
    obtain rfl : x = y := Except.ok.inj (hc.symm.trans hy)
    rw [if_pos rfl, if_pos rfl]
  · have hyx : y ≠ x := by
      rintro rfl
      exact hd (letter_inj hy hc)
    rw [if_neg hyx, if_neg hd]

theorem insert_cons (hc : letter c = .ok x) (hi : insert ((child t x).add 1) w = .ok u) :
    insert t (c :: w) = .ok (t.setNext x u) := by
  rw [insert, hc]
  change (insert ((child t x).add 1) w >>= fun child => pure (t.setNext x child)) = _
  rw [hi]
  rfl

theorem setNext_cnt : (t.setNext x u).cnt = t.cnt := rfl

/-- Inserting a word counts it at its non-empty prefixes, and nowhere else. -/
theorem insert_spec (hn : 26 ≤ maxn) (hw : Lower w) (t : Trie maxn) :
    ∃ u, insert t w = .ok u ∧
      ∀ p, Lower p → countAt u p = countAt t p + if p ≠ [] ∧ p <+: w then 1 else 0 := by
  induction w generalizing t with
  | nil =>
    refine ⟨t, rfl, fun p _ => ?_⟩
    rw [if_neg, Int.add_zero]
    intro h
    exact h.1 (List.prefix_nil.mp h.2)
  | cons c w ih =>
    obtain ⟨x, hx⟩ := letter_ok hn (hw c (List.mem_cons_self ..))
    obtain ⟨u, hu, hcount⟩ := ih hw.tail ((child t x).add 1)
    refine ⟨_, insert_cons hx hu, fun p hp => ?_⟩
    cases p with
    | nil => simp [countAt, search, setNext_cnt]
    | cons d p =>
      rw [countAt_setNext hn hp hx]
      by_cases hd : d = c
      · subst hd
        rw [if_pos rfl, hcount p hp.tail, countAt_add, countAt_cons hn hp.tail hx]
        by_cases hnil : p = []
        · subst hnil
          simp
        · simp [hnil]
      · rw [if_neg hd, if_neg, Int.add_zero]
        intro h
        exact hd (List.cons_prefix_cons.mp h.2).1

/-- The nodes of the path are there. -/
def Reaches (t : Trie maxn) : List Char → Prop
  | [] => True
  | c :: w => ∃ x v, letter c = .ok x ∧ t.next x = some v ∧ v.Reaches w

theorem reaches_of_countAt (hn : 26 ≤ maxn) (hw : Lower w) (h : countAt t w ≠ 0) :
    Reaches t w := by
  induction w generalizing t with
  | nil => trivial
  | cons c w ih =>
    obtain ⟨x, hx⟩ := letter_ok hn (hw c (List.mem_cons_self ..))
    rw [countAt, search_cons hx] at h
    cases hv : t.next x with
    | none =>
      rw [hv] at h
      exact absurd rfl h
    | some v =>
      rw [hv] at h
      exact ⟨x, v, hx, hv, ih hw.tail h⟩

theorem reaches_add (h : Reaches t w) : Reaches (t.add k) w := by
  cases w with
  | nil => trivial
  | cons c w => exact h

theorem delete_cons {v : Trie maxn} (hc : letter c = .ok x) (hv : t.next x = some v)
    (hd : delete k (v.add (-k)) w = .ok u) : delete k t (c :: w) = .ok (t.setNext x u) := by
  rw [delete, hc]
  simp only [Bind.bind, Except.bind, hv, hd]
  rfl

/-- Deleting a word that is a path cuts the nodes below it and takes `k` from the counts at its
non-empty prefixes. -/
theorem delete_spec (hn : 26 ≤ maxn) (hw : Lower w) (ht : Reaches t w) :
    ∃ u, delete k t w = .ok u ∧ ∀ p, Lower p → countAt u p =
      if w <+: p ∧ p ≠ w then 0 else countAt t p - if p ≠ [] ∧ p <+: w then k else 0 := by
  induction w generalizing t with
  | nil =>
    refine ⟨_, rfl, fun p hp => ?_⟩
    cases p with
    | nil => simp [countAt, search, cnt]
    | cons d p =>
      obtain ⟨y, hy⟩ := letter_ok hn (hp d (List.mem_cons_self ..))
      rw [countAt, search_cons hy, if_pos ⟨List.nil_prefix, List.cons_ne_nil d p⟩]
      rfl
  | cons c w ih =>
    obtain ⟨x, v, hx, hv, ht⟩ := ht
    obtain ⟨u, hu, hcount⟩ := ih hw.tail (reaches_add (k := -k) ht)
    have hchild : child t x = v := by rw [child, hv]; rfl
    refine ⟨_, delete_cons hx hv hu, fun p hp => ?_⟩
    cases p with
    | nil => simp [countAt, search, setNext_cnt]
    | cons d p =>
      rw [countAt_setNext hn hp hx]
      by_cases hd : d = c
      · subst hd
        rw [if_pos rfl, hcount p hp.tail, countAt_add, countAt_cons hn hp.tail hx, hchild]
        by_cases hnil : p = []
        · subst hnil
          by_cases hw : w = []
          · simp [hw, Int.sub_eq_add_neg]
          · simp [hw, Int.sub_eq_add_neg]
        · simp [hnil]
      · rw [if_neg hd, if_neg, if_neg, Int.sub_zero]
        · intro h
          exact hd (List.cons_prefix_cons.mp h.2).1
        · intro h
          exact hd (List.cons_prefix_cons.mp h.1).1.symm

end LanguageTest.Trie
