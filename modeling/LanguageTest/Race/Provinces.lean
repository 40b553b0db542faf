import LanguageTest.Library.Tables
import LanguageTest.Race.UnionFindPartition
import Mathlib.Data.Set.Card

namespace LanguageTest.UnionFind
open Forest

/-- The body of the nested loops. -/
def visit (fuel : Nat) (isConnected : List (List Int)) (cell : Nat × Nat) : Program State Unit := do
  if (← readEntry isConnected cell.1 cell.2) ≠ 0 then join fuel cell.1 cell.2

/-- The loop that inserts the roots into a set, which is a list of different elements. -/
def insertRoots (fuel : Nat) : List Nat → List Nat → Program State (List Nat)
  | [], roots => pure roots
  | i :: rest, roots => do insertRoots fuel rest (roots.insert (← find fuel i))

/-- `code`. A matrix whose size is not an `int` would be larger than the address space, and so
`n` and the indices are natural numbers. -/
def code (fuel : Nat) (isConnected : List (List Int)) : Program State Nat := do
  let n := isConnected.length
  set (initial n)
  selfFathers n
  (List.range n).forM fun i => (List.range n).forM fun j => visit fuel isConnected (i, j)
  pure (← insertRoots fuel (List.range n) []).length

/-- The elements of the matrix in the order of the nested loops. -/
def cells (n : Nat) : List (Nat × Nat) :=
  (List.range n).flatMap fun i => (List.range n).map fun j => (i, j)

def Linked (isConnected : List (List Int)) (i j : Nat) : Prop := (isConnected[i]!)[j]! ≠ 0

instance (isConnected : List (List Int)) (i j : Nat) : Decidable (Linked isConnected i j) :=
  inferInstanceAs (Decidable (_ ≠ _))

def linkedPairs (isConnected : List (List Int)) (visited : List (Nat × Nat)) : List (Nat × Nat) :=
  visited.filter fun c => Linked isConnected c.1 c.2

/-- The matrix has as many columns as rows. -/
def Square (isConnected : List (List Int)) : Prop :=
  ∀ row ∈ isConnected, row.length = isConnected.length

instance (isConnected : List (List Int)) : Decidable (Square isConnected) :=
  inferInstanceAs (Decidable (∀ row ∈ isConnected, _))

section
variable {isConnected : List (List Int)} {n fuel i j : Nat} {s : State}

theorem mem_cells : (i, j) ∈ cells n ↔ i < n ∧ j < n := by
  simp [cells]

/-- The trees of the array are the classes of the equivalence closure of the links so far. -/
def Provinces (isConnected : List (List Int)) (visited : List (Nat × Nat)) (s : State) : Prop :=
  ∃ rep, Tracks isConnected.length rep s ∧
    ∀ x y, rep x = rep y ↔ Joined (linkedPairs isConnected visited) x y

theorem linkedPairs_append (visited : List (Nat × Nat)) :
    linkedPairs isConnected (visited ++ [(i, j)]) =
      if Linked isConnected i j then linkedPairs isConnected visited ++ [(i, j)]
      else linkedPairs isConnected visited := by
  split_ifs with h <;> simp [linkedPairs, h]

theorem visit_spec {visited : List (Nat × Nat)} {cell : Nat × Nat} (h : Square isConnected)
    (hcell : cell ∈ cells isConnected.length) (hf : isConnected.length ≤ fuel)
    (hs : Provinces isConnected visited s) :
    Runs (visit fuel isConnected cell) s fun _ t =>
      Provinces isConnected (visited ++ [cell]) t := by
  obtain ⟨i, j⟩ := cell
  obtain ⟨hi, hj⟩ := mem_cells.mp hcell
  obtain ⟨rep, ht, hrep⟩ := hs
  have hshape : HasShape isConnected.length isConnected.length isConnected := ⟨rfl, h⟩
  rw [visit, runs_bind, runs_readEntry hshape hi hj]
  by_cases hlink : (isConnected[i]!)[j]! ≠ 0
  · have hpairs : linkedPairs isConnected (visited ++ [(i, j)]) =
        linkedPairs isConnected visited ++ [(i, j)] :=
      (linkedPairs_append visited).trans (if_pos hlink)
    rw [if_pos hlink]
    refine (join_spec ht hi hj hf).mono fun _ t htu => ⟨_, htu, ?_⟩
    rw [hpairs]
    exact joined_unite hrep i j
  · have hpairs : linkedPairs isConnected (visited ++ [(i, j)]) =
        linkedPairs isConnected visited :=
      (linkedPairs_append visited).trans (if_neg hlink)
    rw [if_neg hlink]
    refine runs_pure.mpr ⟨rep, ht, ?_⟩
    rw [hpairs]
    exact hrep

theorem visits_spec {visited : List (Nat × Nat)} (h : Square isConnected)
    (hpre : visited <+: cells isConnected.length) (hf : isConnected.length ≤ fuel)
    (hs : Tracks isConnected.length id s) :
    Runs (visited.forM (visit fuel isConnected)) s fun _ t =>
      Provinces isConnected visited t := by
  refine runs_forM (Provinces isConnected) visited ?_ ⟨id, hs, fun _ _ => joined_nil.symm⟩
  intro pre cell post t he ht
  exact visit_spec h (hpre.subset (he ▸ by simp)) hf ht

/-- The nested loops visit the elements one after the other. -/
theorem forM_cells (f : Nat × Nat → Program State Unit) :
    ((List.range n).forM fun i => (List.range n).forM fun j => f (i, j)) = (cells n).forM f := by
  have hrows (l : List Nat) :
      (l.forM fun i => (List.range n).forM fun j => f (i, j)) =
        (l.flatMap fun i => (List.range n).map fun j => (i, j)).forM f := by
    induction l with
    | nil => rfl
    | cons i l ih =>
      simp only [List.forM_eq_forM] at ih ⊢
      rw [List.forM_cons, ih, List.flatMap_cons, List.forM_append, List.forM_map]
  exact hrows (List.range n)

theorem insertRoots_spec {rep : Nat → Nat} {l roots : List Nat} (ht : Tracks n rep s)
    (hl : ∀ i ∈ l, i < n) (hf : n ≤ fuel) (hroots : roots.Nodup) :
    Runs (insertRoots fuel l roots) s fun r t =>
      t = s ∧ r.Nodup ∧ ∀ x, x ∈ r ↔ x ∈ roots ∨ ∃ i ∈ l, rep i = x := by
  induction l generalizing roots with
  | nil =>
    rw [insertRoots, runs_pure]
    exact ⟨rfl, hroots, by simp⟩
  | cons i rest ih =>
    rw [insertRoots, runs_bind]
    refine (find_spec ht (hl i List.mem_cons_self) hf).mono ?_
    rintro _ _ ⟨rfl, rfl⟩
    refine (ih (fun k hk => hl k (List.mem_cons_of_mem _ hk)) hroots.insert).mono ?_
    rintro r t ⟨rfl, hnodup, hmem⟩
    refine ⟨rfl, hnodup, fun x => ?_⟩
    rw [hmem, List.mem_insert_iff, List.exists_mem_cons_iff]
    tauto

end

/-- The equivalence closure of the links. -/
def closure (isConnected : List (List Int)) : Setoid (Fin isConnected.length) :=
  Relation.EqvGen.setoid fun i j => Linked isConnected i j

/-- Only the roots are on a cycle of the array, and so the recursion of `find` ends. -/
structure Acyclic (n fuel : Nat) (s : State) : Prop where
  inside : ∀ x < n, parent s x < n
  cycle : ∀ x k, 0 < k → (parent s)^[k] x = x → parent s x = x
  find : ∀ x < n, Runs (find fuel x) s fun r t => RootOf (parent s) x r ∧ t = s

section
variable {isConnected : List (List Int)} {n fuel : Nat} {s : State} {rep : Nat → Nat}

theorem Tracks.acyclic (h : Tracks n rep s) (hf : n ≤ fuel) : Acyclic n fuel s := by
  refine ⟨h.inside, fun x k => h.roots.cycle, fun x hx => ?_⟩
  refine (find_spec h hx hf).mono ?_
  rintro _ _ ⟨rfl, rfl⟩
  exact ⟨h.roots x, rfl⟩

/-- An element outside is joined to itself only. -/
theorem joined_inside {x y : Nat}
    (h : Joined (linkedPairs isConnected (cells isConnected.length)) x y) :
    x = y ∨ ∃ (hx : x < isConnected.length) (hy : y < isConnected.length),
      closure isConnected ⟨x, hx⟩ ⟨y, hy⟩ := by
  induction h with
  | rel x y hm =>
    obtain ⟨hcell, hlink⟩ := List.mem_filter.mp hm
    obtain ⟨hx, hy⟩ := mem_cells.mp hcell
    exact Or.inr ⟨hx, hy, .rel _ _ (of_decide_eq_true hlink)⟩
  | refl x => exact Or.inl rfl
  | symm x y _ ih =>
    rcases ih with rfl | ⟨hx, hy, hr⟩
    · exact Or.inl rfl
    · exact Or.inr ⟨hy, hx, (closure isConnected).symm hr⟩
  | trans x y z _ _ ih ih' =>
    rcases ih with rfl | ⟨hx, hy, hr⟩
    · exact ih'
    · rcases ih' with rfl | ⟨hy', hz, hr'⟩
      · exact Or.inr ⟨hx, hy, hr⟩
      · exact Or.inr ⟨hx, hz, (closure isConnected).trans hr hr'⟩

theorem joined_iff_closure {i j : Fin isConnected.length} :
    Joined (linkedPairs isConnected (cells isConnected.length)) i j ↔ closure isConnected i j := by
  constructor
  · intro h
    rcases joined_inside h with heq | ⟨hi, hj, hr⟩
    · exact Fin.ext heq ▸ (closure isConnected).refl i
    · exact hr
  · intro h
    induction h with
    | rel i j hlink =>
      exact .rel _ _ (List.mem_filter.mpr
        ⟨mem_cells.mpr ⟨i.isLt, j.isLt⟩, decide_eq_true hlink⟩)
    | refl i => exact .refl _
    | symm i j _ ih => exact ih.symm
    | trans i j k _ _ ih ih' => exact ih.trans _ _ _ ih'

/-- There is one root for every class. -/
theorem card_classes {r : List Nat} (hrep : ∀ i j : Fin isConnected.length,
      rep i = rep j ↔ closure isConnected i j) (hnodup : r.Nodup)
    (hmem : ∀ x, x ∈ r ↔ ∃ i < isConnected.length, rep i = x) :
    r.length = Nat.card (Quotient (closure isConnected)) := by
  have hker : closure isConnected = Setoid.ker fun i : Fin isConnected.length => rep i := by
    ext i j
    exact (hrep i j).symm
  have hrange : Set.range (fun i : Fin isConnected.length => rep i) = r.toFinset := by
    ext x
    rw [Finset.mem_coe, List.mem_toFinset, hmem]
    constructor
    · rintro ⟨i, rfl⟩
      exact ⟨i, i.isLt, rfl⟩
    · rintro ⟨i, hi, rfl⟩
      exact ⟨⟨i, hi⟩, rfl⟩
  rw [hker, Nat.card_congr (Setoid.quotientKerEquivRange _), hrange, Nat.card_coe_set_eq,
    Set.ncard_coe_finset, List.toFinset_card_of_nodup hnodup]

theorem code_spec (h : Square isConnected) (hf : isConnected.length ≤ fuel) :
    Runs (code fuel isConnected) s fun r t =>
      r = Nat.card (Quotient (closure isConnected)) ∧ Acyclic isConnected.length fuel t := by
  simp only [code, runs_bind, runs_set, forM_cells]
  refine (selfFathers_spec isConnected.length).mono fun _ t ht => ?_
  refine (visits_spec h (List.prefix_refl _) hf ht).mono ?_
  rintro _ u ⟨rep, hu, hrep⟩
  refine (insertRoots_spec hu (fun i hi => List.mem_range.mp hi) hf List.nodup_nil).mono ?_
  rintro r _ ⟨rfl, hnodup, hmem⟩
  rw [runs_pure]
  refine ⟨card_classes (fun i j => (hrep i j).trans joined_iff_closure) hnodup fun x => ?_,
    hu.acyclic hf⟩
  simp only [hmem, List.not_mem_nil, false_or, List.mem_range]

end

/-- The result is the number of classes. In every state from the start on, after `m` assignments
of `init` or after the elements `pre` of the matrix, the array is a forest. -/
theorem code_provinces (s : State) (isConnected : List (List Int)) (h : Square isConnected)
    (fuel : Nat) (hf : isConnected.length ≤ fuel) :
    Runs (code fuel isConnected) s (fun r t =>
      r = Nat.card (Quotient (closure isConnected)) ∧ Acyclic isConnected.length fuel t) ∧
    (∀ m ≤ isConnected.length, Runs (do
        set (initial isConnected.length)
        selfFathers m) s fun _ t => Acyclic isConnected.length fuel t) ∧
    ∀ pre, pre <+: cells isConnected.length → Runs (do
        set (initial isConnected.length)
        selfFathers isConnected.length
        pre.forM (visit fuel isConnected)) s fun _ t => Acyclic isConnected.length fuel t := by
  refine ⟨code_spec h hf, fun m hm => ?_, fun pre hpre => ?_⟩
  · rw [runs_bind, runs_set]
    exact (selfFathers_upTo hm).mono fun _ t ht => ht.acyclic hf
  · rw [runs_bind, runs_set, runs_bind]
    refine (selfFathers_spec isConnected.length).mono fun _ t ht => ?_
    refine (visits_spec h hpre hf ht).mono ?_
    rintro _ u ⟨rep, hu, -⟩
    exact hu.acyclic hf

/-- Three cities, of which the first is linked to the last, but not the last to the first. -/
theorem code_provinces_three :
    Runs (code 3 [[1, 0, 1], [0, 0, 0], [0, 0, 1]]) [] (fun r t =>
      r = Nat.card (Quotient (closure [[1, 0, 1], [0, 0, 0], [0, 0, 1]])) ∧ Acyclic 3 3 t) ∧
    (∀ m ≤ 3, Runs (do
        set (initial 3)
        selfFathers m) [] fun _ t => Acyclic 3 3 t) ∧
    ∀ pre, pre <+: cells 3 → Runs (do
        set (initial 3)
        selfFathers 3
        pre.forM (visit 3 [[1, 0, 1], [0, 0, 0], [0, 0, 1]])) [] fun _ t => Acyclic 3 3 t :=
  code_provinces [] [[1, 0, 1], [0, 0, 0], [0, 0, 1]] (by decide) 3 (by decide)

end LanguageTest.UnionFind
