import LanguageTest.Library.Elements

namespace LanguageTest

variable {σ α : Type}

/-- `t[i][j]`. -/
def readEntry (t : List (List α)) (i j : Int) : Program σ α :=
  if i < 0 ∨ j < 0 then fail .outOfRange
  else
    match t[i.toNat]? with
    | none => fail .outOfRange
    | some row =>
      match row[j.toNat]? with
      | none => fail .outOfRange
      | some x => pure x

/-- The table after `t[i][j] = x`. -/
def writeEntry (t : List (List α)) (i j : Int) (x : α) : Program σ (List (List α)) :=
  if i < 0 ∨ j < 0 then fail .outOfRange
  else
    match t[i.toNat]? with
    | none => fail .outOfRange
    | some row =>
      if j.toNat < row.length then pure (t.set i.toNat (row.set j.toNat x))
      else fail .outOfRange

/-- The vector after `resize(n, x)`. A negative `n` is converted to a size that no vector has. -/
def resize (n : Int) (x : α) (xs : List α) : Program σ (List α) :=
  if n < 0 then fail .outOfRange
  else pure (xs.take n.toNat ++ List.replicate (n.toNat - xs.length) x)

/-- A table of `m` rows of `n` elements. -/
def HasShape (m n : Nat) (t : List (List α)) : Prop := t.length = m ∧ ∀ row ∈ t, row.length = n

section
variable {s : σ} {t : List (List α)} {m n i j p q : Nat} {x : α}

theorem runs_resize_nil {Q : List α → σ → Prop} :
    Runs (resize (n : Int) x []) s Q ↔ Q (List.replicate n x) s := by
  have hnonneg : ¬ ((n : Int) < 0) := by omega
  rw [resize, if_neg hnonneg, Int.toNat_natCast, runs_pure, List.take_nil, List.nil_append,
    List.length_nil, Nat.sub_zero]

theorem HasShape.length_row (h : HasShape m n t) (hi : i < m) : t[i]!.length = n :=
  h.2 _ (mem_iff_getElem!.mpr ⟨i, h.1 ▸ hi, rfl⟩)

theorem runs_writeEntry {Q : List (List α) → σ → Prop} (h : HasShape m n t) (hi : i < m)
    (hj : j < n) : Runs (writeEntry t i j x) s Q ↔ Q (t.set i (t[i]!.set j x)) s := by
  have hrow : j < t[i]!.length := (h.length_row hi).symm ▸ hj
  have hnonneg : ¬ ((i : Int) < 0 ∨ (j : Int) < 0) := by omega
  rw [writeEntry, if_neg hnonneg, Int.toNat_natCast, Int.toNat_natCast, getElem!_of_lt (h.1 ▸ hi)]
  dsimp only
  rw [if_pos hrow]
  exact runs_pure

theorem HasShape.set (h : HasShape m n t) (hi : i < m) :
    HasShape m n (t.set i (t[i]!.set j x)) := by
  refine ⟨List.length_set.trans h.1, fun row hrow => ?_⟩
  rcases List.mem_or_eq_of_mem_set hrow with hrow | rfl
  · exact h.2 row hrow
  · exact List.length_set.trans (h.length_row hi)

theorem hasShape_replicate : HasShape m n (List.replicate m (List.replicate n x)) := by
  refine ⟨List.length_replicate, fun row hrow => ?_⟩
  rw [List.eq_of_mem_replicate hrow, List.length_replicate]

variable [Inhabited α]

theorem runs_readEntry {Q : α → σ → Prop} (h : HasShape m n t) (hi : i < m) (hj : j < n) :
    Runs (readEntry t i j) s Q ↔ Q (t[i]!)[j]! s := by
  have hrow : j < t[i]!.length := (h.length_row hi).symm ▸ hj
  have hnonneg : ¬ ((i : Int) < 0 ∨ (j : Int) < 0) := by omega
  rw [readEntry, if_neg hnonneg, Int.toNat_natCast, Int.toNat_natCast, getElem!_of_lt (h.1 ▸ hi)]
  dsimp only
  rw [getElem!_of_lt hrow]
  exact runs_pure

/-- A write changes one element. -/
theorem getElem!_setEntry (h : HasShape m n t) (hi : i < m) (hj : j < n) :
    ((t.set i (t[i]!.set j x))[p]!)[q]! = if p = i ∧ q = j then x else (t[p]!)[q]! := by
  have hrow : j < t[i]!.length := (h.length_row hi).symm ▸ hj
  rw [getElem!_set (h.1 ▸ hi)]
  by_cases hp : p = i
  · rw [if_pos hp, getElem!_set hrow, hp]
    simp only [true_and]
  · rw [if_neg hp, if_neg fun hpq => hp hpq.1]

end

end LanguageTest
