import Mathlib.Data.List.Nodup

namespace LanguageTest.Recency

variable {K V : Type*} [DecidableEq K]

/-- The entries of a bounded cache, the most recently used one first. -/
abbrev Entries (K V : Type*) := List (K × V)

omit [DecidableEq K] in
def keys (l : Entries K V) : List K := l.map Prod.fst

/-- The entries without the one of `k`. -/
def forget (k : K) (l : Entries K V) : Entries K V := l.filter fun e => e.1 ≠ k

/-- Reading a key moves it to the front. -/
def get (l : Entries K V) (k : K) : Option V × Entries K V :=
  match l.lookup k with
  | some v => (some v, (k, v) :: forget k l)
  | none => (none, l)

/-- Writing a key moves it to the front. A new key takes the place of the last one when `cap`
entries are present. -/
def put (cap : ℕ) (l : Entries K V) (k : K) (v : V) : Entries K V :=
  if k ∈ keys l then (k, v) :: forget k l
  else if l.length = cap then (k, v) :: l.dropLast
  else (k, v) :: l

variable {cap : ℕ} {l xs ys : Entries K V} {k : K} {v w : V}

omit [DecidableEq K] in
@[simp] theorem keys_append (xs ys : Entries K V) : keys (xs ++ ys) = keys xs ++ keys ys :=
  List.map_append

omit [DecidableEq K] in
@[simp] theorem keys_cons (e : K × V) (l : Entries K V) : keys (e :: l) = e.1 :: keys l := rfl

theorem forget_of_not_mem (h : k ∉ keys l) : forget k l = l := by
  refine List.filter_eq_self.mpr fun e he => decide_eq_true ?_
  intro heq
  subst heq
  exact h (List.mem_map_of_mem he)

theorem forget_split (hx : k ∉ keys xs) (hy : k ∉ keys ys) :
    forget k (xs ++ (k, v) :: ys) = xs ++ ys := by
  have hsplit : forget k (xs ++ (k, v) :: ys) = forget k xs ++ forget k ys := by
    simp [forget]
  rw [hsplit, forget_of_not_mem hx, forget_of_not_mem hy]

theorem lookup_of_not_mem (h : k ∉ keys l) : l.lookup k = none := by
  rw [List.lookup_eq_none_iff]
  intro entry he
  obtain ⟨j, v⟩ := entry
  refine bne_iff_ne.mpr ?_
  intro heq
  subst heq
  exact h (List.mem_map_of_mem he)

theorem lookup_split (hx : k ∉ keys xs) : (xs ++ (k, v) :: ys).lookup k = some v := by
  rw [List.lookup_append, lookup_of_not_mem hx]
  simp

omit [DecidableEq K] in
/-- Distinct keys: a key stands in one place only. -/
theorem not_mem_of_split (h : (keys (xs ++ (k, v) :: ys)).Nodup) : k ∉ keys xs ∧ k ∉ keys ys := by
  rw [keys_append, keys_cons, List.nodup_middle, List.nodup_cons, List.mem_append, not_or] at h
  exact h.1

theorem get_split (h : (keys (xs ++ (k, v) :: ys)).Nodup) :
    get (xs ++ (k, v) :: ys) k = (some v, (k, v) :: (xs ++ ys)) := by
  obtain ⟨hx, hy⟩ := not_mem_of_split h
  rw [get, lookup_split hx, forget_split hx hy]

theorem get_of_not_mem (h : k ∉ keys l) : get l k = (none, l) := by
  rw [get, lookup_of_not_mem h]

theorem put_split (h : (keys (xs ++ (k, w) :: ys)).Nodup) :
    put cap (xs ++ (k, w) :: ys) k v = (k, v) :: (xs ++ ys) := by
  obtain ⟨hx, hy⟩ := not_mem_of_split h
  rw [put, if_pos (by simp), forget_split hx hy]

theorem put_full (h : k ∉ keys l) (hl : l.length = cap) :
    put cap l k v = (k, v) :: l.dropLast := by
  rw [put, if_neg h, if_pos hl]

theorem put_room (h : k ∉ keys l) (hl : l.length ≠ cap) : put cap l k v = (k, v) :: l := by
  rw [put, if_neg h, if_neg hl]

inductive Op (K V : Type*) where
  | get (key : K)
  | put (key : K) (value : V)

/-- One operation and what it answers: the value, or `null` for a key that is not cached. -/
def step (cap : ℕ) (null : V) : Op K V → Entries K V → Option V × Entries K V
  | .get k, l => (some ((get l k).1.getD null), (get l k).2)
  | .put k v, l => (none, put cap l k v)

end LanguageTest.Recency
