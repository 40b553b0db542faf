import LanguageTest.Library.Heap

namespace LanguageTest

/-- The elements of an array. One that has not been written yet is `none`. -/
abbrev Cells (α : Type) := List (Option α)

variable {γ α : Type}

/-- `new T[n]`, with an allocation that succeeds. -/
def newCells (n : Nat) : Program (Machine γ (Cells α)) Ptr := new (List.replicate n none)

def readCell (p : Ptr) (i : Int) : Program (Machine γ (Cells α)) α := do
  let d ← load p
  if i < 0 then fail .outOfRange
  else
    match d[i.toNat]? with
    | none => fail .outOfRange
    | some none => fail .uninitialized
    | some (some x) => pure x

def writeCell (p : Ptr) (i : Int) (x : α) : Program (Machine γ (Cells α)) Unit := do
  let d ← load p
  if i < 0 ∨ d.length ≤ i.toNat then fail .outOfRange
  else modify p fun d => d.set i.toNat (some x)

/-- A loop that copies the elements of one array from `i` on to another one from `j` on. -/
def copyCells (source : Ptr) (i : Nat) (target : Ptr) (j n : Nat) :
    Program (Machine γ (Cells α)) PUnit :=
  (List.range n).forM fun k => do
    let x ← readCell source (i + k : Nat)
    writeCell target (j + k : Nat) x

/-- An array whose first elements are these. -/
def written (xs : List α) (rest : Cells α) : Cells α := xs.map some ++ rest

/-- An array after these elements were written from index `j` on. -/
def overwrite (d : Cells α) (j : Nat) (xs : List α) : Cells α :=
  d.take j ++ written xs (d.drop (j + xs.length))

/-- The state after these elements were written to the array `d` at `a`. -/
def overwriteAt (a : Addr) (d : Cells α) (j : Nat) (xs : List α) (s : Machine γ (Cells α)) :
    Machine γ (Cells α) :=
  { s with heap := s.heap.modify a fun _ => overwrite d j xs }

section
variable {s : Machine γ (Cells α)} {a : Addr} {d rest : Cells α} {x y : α} {xs : List α}
  {i : Nat} {j : Int}

theorem readCell_eq (ha : s.heap.cells a = some d) (hi : d[i]? = some (some x)) :
    readCell (some a) i s = .ok (x, s) := by
  have hnonneg : ¬ ((i : Int) < 0) := by omega
  have hload : load (some a) s = .ok (d, s) := by simp [load, ha]
  rw [readCell, bind_eq hload, if_neg hnonneg, Int.toNat_natCast, hi]
  rfl

theorem runs_readCell {Q : α → Machine γ (Cells α) → Prop} (ha : s.heap.cells a = some d)
    (hi : d[i]? = some (some x)) : Runs (readCell (some a) i) s Q ↔ Q x s :=
  runs_of_ok (readCell_eq ha hi)

theorem fails_readCell_dangling (ha : s.heap.cells a = none) :
    Fails (readCell (some a) j) s .dangling := by
  apply Fails.bind
  simp [Fails, load, ha]

theorem fails_readCell_unwritten (ha : s.heap.cells a = some d) (hi : d[i]? = some none) :
    Fails (readCell (some a) i) s .uninitialized := by
  have hnonneg : ¬ ((i : Int) < 0) := by omega
  apply Runs.fails
  simp only [runs_load, ha, Option.some.injEq, exists_eq_left', if_neg hnonneg,
    Int.toNat_natCast, hi]
  exact fails_fail

theorem fails_readCell_range (ha : s.heap.cells a = some d) (hj : j < 0 ∨ d.length ≤ j.toNat) :
    Fails (readCell (some a) j) s .outOfRange := by
  apply Runs.fails
  simp only [runs_load, ha, Option.some.injEq, exists_eq_left']
  by_cases hneg : j < 0
  · rw [if_pos hneg]
    exact fails_fail
  · rw [if_neg hneg, List.getElem?_eq_none (hj.resolve_left hneg)]
    exact fails_fail

theorem runs_writeCell {Q : Unit → Machine γ (Cells α) → Prop} (ha : s.heap.cells a = some d)
    (hi : i < d.length) : Runs (writeCell (some a) i x) s Q ↔
      Q () { s with heap := s.heap.modify a fun d => d.set i (some x) } := by
  have hrange : ¬ ((i : Int) < 0 ∨ d.length ≤ i) := by omega
  simp only [writeCell, runs_bind, runs_load, ha, Option.some.injEq, exists_eq_left',
    Int.toNat_natCast, if_neg hrange, runs_modify, Option.isSome_some, true_and]

theorem fails_writeCell_range (ha : s.heap.cells a = some d) (hj : j < 0 ∨ d.length ≤ j.toNat) :
    Fails (writeCell (some a) j x) s .outOfRange := by
  apply Runs.fails
  simp only [runs_load, ha, Option.some.injEq, exists_eq_left', if_pos hj]
  exact fails_fail

/-- Nothing lies before an array. -/
theorem not_runs_writeCell {p : Ptr} {Q : Unit → Machine γ (Cells α) → Prop} (hj : j < 0) :
    ¬ Runs (writeCell p j x) s Q := by
  intro h
  rw [writeCell, runs_bind] at h
  obtain ⟨d, t, -, hwrite⟩ := h
  rw [if_pos (Or.inl hj)] at hwrite
  exact hwrite.not_fails fails_fail

@[simp] theorem length_written : (written xs rest).length = xs.length + rest.length := by
  simp [written]

theorem getElem?_written (h : i < xs.length) : (written xs rest)[i]? = some xs[i]? := by
  simp [written, List.getElem?_append_left, h]

theorem getElem?_written_rest : (written xs rest)[xs.length + i]? = rest[i]? := by
  simp [written, List.getElem?_append_right]

/-- Writing the next element. -/
theorem set_written_next {o : Option α} :
    (written xs (o :: rest)).set xs.length (some x) = written (xs ++ [x]) rest := by
  simp [written, List.set_append_right]

theorem overwrite_start : overwrite d 0 xs = written xs (d.drop xs.length) := by
  simp [overwrite]

theorem overwrite_nil {k : Nat} : overwrite d k [] = d := by
  simp [overwrite, written]

variable {k : Nat}

theorem length_overwrite (h : k + xs.length ≤ d.length) :
    (overwrite d k xs).length = d.length := by
  simp only [overwrite, List.length_append, List.length_take, length_written, List.length_drop]
  omega

theorem getElem?_overwrite (hi : i < k) (hk : k ≤ d.length) : (overwrite d k xs)[i]? = d[i]? := by
  rw [overwrite, List.getElem?_append_left (by rw [List.length_take]; omega), List.getElem?_take,
    if_pos hi]

theorem overwrite_written {ys : List α} {n : Nat} :
    overwrite (written xs (List.replicate n none)) xs.length ys =
      written (xs ++ ys) (List.replicate (n - ys.length) none) := by
  have hlen : (xs.map some).length = xs.length := List.length_map _
  rw [overwrite, written, List.take_left' hlen, List.drop_append, hlen, Nat.add_sub_cancel_left,
    List.drop_eq_nil_of_le (by omega), List.drop_replicate]
  simp [written]

theorem set_overwrite (h : k + xs.length < d.length) :
    (overwrite d k xs).set (k + xs.length) (some x) = overwrite d k (xs ++ [x]) := by
  have htake : (d.take k).length = k := by
    rw [List.length_take]
    omega
  have hdrop : d.drop (k + xs.length) = d[k + xs.length] :: d.drop (k + xs.length + 1) :=
    List.drop_eq_getElem_cons h
  rw [overwrite, List.set_append_right _ _ (by omega), htake, Nat.add_sub_cancel_left, hdrop,
    set_written_next, overwrite, List.length_append]
  rfl

/-- The rule for a loop that writes the elements of an array one after the other. -/
theorem runs_overwrite {f : Nat → Program (Machine γ (Cells α)) PUnit} (xs : List α) {n : Nat}
    (hn : xs.length = n) (ha : s.heap.cells a = some d) (hlen : k + n ≤ d.length)
    (hf : ∀ i x t, xs[i]? = some x → t.object = s.object →
      (∀ b, b ≠ a → t.heap.cells b = s.heap.cells b) →
      t.heap.cells a = some (overwrite d k (xs.take i)) →
      f i t = writeCell (some a) (k + i : Nat) x t)
    {Q : PUnit → Machine γ (Cells α) → Prop} :
    Runs ((List.range n).forM f) s Q ↔ Q ⟨⟩ (overwriteAt a d k xs s) := by
  subst hn
  have hloop : Runs ((List.range xs.length).forM f) s fun _ t =>
      t = overwriteAt a d k (xs.take xs.length) s := by
    apply runs_range fun (i : Nat) t => t = overwriteAt a d k (xs.take i) s
    · intro i hi t ht
      have hcells : t.heap.cells a = some (overwrite d k (xs.take i)) := by
        simp [ht, overwriteAt, ha]
      have hother : ∀ b, b ≠ a → t.heap.cells b = s.heap.cells b := by
        intro b hb
        simp [ht, overwriteAt, hb]
      have htake : (xs.take i).length = i := by
        rw [List.length_take]
        omega
      have hpass := hf i xs[i] t (List.getElem?_eq_getElem hi) (by rw [ht]; rfl) hother hcells
      have hwrite : k + i < (overwrite d k (xs.take i)).length := by
        rw [length_overwrite (by omega)]
        omega
      have hset := set_overwrite (x := xs[i]) (show k + (xs.take i).length < d.length by omega)
      rw [htake, List.take_append_getElem] at hset
      simp only [Runs, hpass]
      refine (runs_writeCell hcells hwrite).mpr ?_
      rw [ht]
      simp only [overwriteAt, Heap.modify_modify, hset]
    · rw [overwriteAt, List.take_zero, overwrite_nil, Heap.modify_self ha]
  rw [List.take_length] at hloop
  obtain ⟨_, t, ht, rfl⟩ := hloop
  exact runs_of_ok ht

/-- A copy to another array, or to a later part of the same one. -/
theorem runs_copyCells {b : Addr} {e : Cells α} (ha : s.heap.cells a = some d)
    (hd : ∀ k x, xs[k]? = some x → d[i + k]? = some (some x)) (hb : s.heap.cells b = some e)
    (hlen : k + xs.length ≤ e.length) (hapart : a ≠ b ∨ i + xs.length ≤ k)
    {Q : PUnit → Machine γ (Cells α) → Prop} :
    Runs (copyCells (some a) i (some b) k xs.length) s Q ↔ Q ⟨⟩ (overwriteAt b e k xs s) := by
  apply runs_overwrite xs rfl hb hlen
  intro m x t hx _ hother hcells
  obtain ⟨hm, -⟩ := List.getElem?_eq_some_iff.mp hx
  have hread : ∃ u, t.heap.cells a = some u ∧ u[i + m]? = some (some x) := by
    by_cases hab : a = b
    · subst hab
      obtain rfl : d = e := Option.some.inj (ha.symm.trans hb)
      have hbefore := hapart.resolve_left (fun hne => hne rfl)
      refine ⟨_, hcells, ?_⟩
      rw [getElem?_overwrite (by omega) (by omega), hd m x hx]
    · exact ⟨d, (hother a hab).trans ha, hd m x hx⟩
  obtain ⟨u, he, hex⟩ := hread
  rw [bind_eq (readCell_eq he hex)]

theorem fails_copyCells (ha : s.heap.cells a = none) {p : Ptr} {n : Nat} (hn : 0 < n) :
    Fails (copyCells (some a) i p k n) s .dangling := by
  obtain ⟨m, rfl⟩ := Nat.exists_eq_add_of_lt hn
  rw [copyCells, Nat.zero_add, List.range_succ_eq_map]
  exact ((fails_readCell_dangling ha).bind).bind

end

end LanguageTest
