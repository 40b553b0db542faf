import LanguageTest.Library.Neighbours
import LanguageTest.Tree.RBTreeRuns

namespace LanguageTest.RBTree
open BinaryTree

variable {s : State} {spare : Ptr} {c : AddrContext Item} {T t near far : Shape} {d : Side}
  {v : Addr × Item} {fuel : Nat}

/-- The first of the values, as a pointer. -/
def firstPtr (vs : List (Addr × Item)) : Ptr := vs.head?.map Prod.fst

@[simp] theorem firstPtr_cons (v : Addr × Item) (vs : List (Addr × Item)) :
    firstPtr (v :: vs) = some v.1 := rfl

theorem firstPtr_append_of_ne_nil {vs ws : List (Addr × Item)} (h : vs ≠ []) :
    firstPtr (vs ++ ws) = firstPtr vs := by
  obtain ⟨v, vs, rfl⟩ := List.exists_cons_of_ne_nil h
  rfl

/-- The way down ends at the first node of the subtree. -/
theorem extreme_spec (h : Represents s (plug c t) spare) (ht : t ≠ nil) (hf : t.numNodes < fuel) :
    Runs (extreme d.other fuel (rootPtr t)) s fun p u =>
      u = s ∧ p = firstPtr (towards d t) := by
  rw [extreme, if_neg (by simpa using ht)]
  refine runs_loop (k := t.numNodes) (fun k (i : Ptr) u => u = s ∧ ∃ c' t', plug c' t' = plug c t ∧
    i = rootPtr t' ∧ t' ≠ nil ∧ t'.numNodes ≤ k ∧
    firstPtr (towards d t') = firstPtr (towards d t)) ?_
    ⟨rfl, c, t, rfl, rfl, ht, Nat.le_refl _, rfl⟩ hf
  intro k i u hu
  obtain ⟨rfl, c', t', hplug, rfl, hne, hk, hfirst⟩ := hu
  obtain ⟨v, a, b, rfl⟩ := exists_branch d.other hne
  rw [← hplug] at h
  have hv := h.load
  simp only [rootPtr_branch, runs_bind, runs_load, hv, Option.some.injEq, exists_eq_left',
    cellAt_child]
  rw [towards_branch_other] at hfirst
  cases a with
  | nil =>
    simp only [rootPtr_nil, Option.isSome_none, Bool.false_eq_true, ↓reduceIte, runs_pure]
    refine ⟨trivial, ?_⟩
    rw [← hfirst, towards_nil]
    rfl
  | node x la ra =>
    simp only [rootPtr_node, Option.isSome_some, ↓reduceIte, runs_bind, runs_load, hv,
      Option.some.injEq, exists_eq_left', cellAt_child, runs_pure]
    refine ⟨(node x la ra).numNodes, Nat.lt_of_lt_of_le numNodes_lt_branch hk, trivial,
      ⟨d.other, v, b⟩ :: c', _, hplug, rfl, by simp, Nat.le_refl _, ?_⟩
    rw [← hfirst, firstPtr_append_of_ne_nil (towards_ne_nil (by simp))]

/-- The way up ends at the first node beyond the subtree. -/
theorem climb_spec (h : Represents s (plug c t) spare) (ht : t ≠ nil) (hf : c.length < fuel) :
    Runs (loop (fun (x, y) => do
      if ← (pure y.isSome) <&&> (do pure (x == (← load y).child d)) then
        pure (.again (y, (← load y).parent))
      else
        pure (.done y)) fuel (rootPtr t, upPtr none c) : Program State Ptr) s fun p u =>
      u = s ∧ p = firstPtr (c.beyond d) := by
  refine runs_loop (k := c.length) (fun k (i : Ptr × Ptr) u => u = s ∧ ∃ c' t',
    plug c' t' = plug c t ∧ i = (rootPtr t', upPtr none c') ∧ t' ≠ nil ∧ c'.length ≤ k ∧
    firstPtr (c'.beyond d) = firstPtr (c.beyond d)) ?_
    ⟨rfl, c, t, rfl, rfl, ht, Nat.le_refl _, rfl⟩ hf
  intro k i u hu
  obtain ⟨rfl, c', t', hplug, rfl, hne, hk, hfirst⟩ := hu
  rw [← hplug] at h
  cases c' with
  | nil =>
    simp only [upPtr_nil, runs_bind, runs_andM, runs_pure, Option.isSome_none, Bool.false_eq_true,
      ↓reduceIte]
    exact ⟨trivial, hfirst⟩
  | cons f c' =>
    obtain ⟨e, w, o⟩ := f
    have hw := Represents.load (d := e) (v := w) (a := t') (b := o) (c := c') h
    have hsibling := h.sibling_ne (.inl hne)
    simp only [upPtr_cons, runs_bind, runs_andM, runs_pure, Option.isSome_some, ↓reduceIte,
      runs_load, hw, Option.some.injEq, exists_eq_left', cellAt_child_eq]
    rw [Context.beyond] at hfirst
    dsimp only at hfirst
    by_cases he : e = d
    · subst he
      rw [if_pos rfl] at hfirst
      simp only [↓reduceIte, beq_self_eq_true, runs_bind, runs_load, hw, Option.some.injEq,
        exists_eq_left', cellAt_parent, runs_pure]
      rw [List.length_cons] at hk
      refine ⟨c'.length, hk, trivial, c', branch e w t' o, hplug, by rw [rootPtr_branch], by simp,
        Nat.le_refl _, hfirst⟩
    · rw [if_neg he, firstPtr_cons] at hfirst
      have hother : (rootPtr t' == if d = e then rootPtr t' else rootPtr o) = false := by
        rw [if_neg fun h => he h.symm]
        simpa using hsibling.symm
      rw [hother, if_neg (by simp), runs_pure]
      exact ⟨rfl, hfirst⟩

/-- The next node towards side `d`. -/
theorem neighbour_spec (h : Represents s (plug c (branch d v near far)) spare)
    (hf : (plug c (branch d v near far)).numNodes < fuel) :
    Runs (neighbour d fuel (some v.1)) s fun p u =>
      u = s ∧ p = firstPtr (towards d near ++ c.beyond d) := by
  have hv := h.load
  have hnodes := length_le_numNodes c (branch d v near far)
  have hnear : near.numNodes < (branch d v near far).numNodes := numNodes_lt_branch
  simp only [neighbour, runs_bind, runs_load, hv, Option.some.injEq, exists_eq_left', cellAt_child]
  cases hnil : near with
  | nil =>
    subst hnil
    simp only [rootPtr_nil, Option.isSome_none, Bool.false_eq_true, ↓reduceIte, runs_bind,
      runs_load, hv, Option.some.injEq, exists_eq_left', cellAt_parent, towards_nil,
      List.nil_append]
    have hclimb := climb_spec (d := d) h (by simp) (show c.length < fuel by omega)
    rw [rootPtr_branch] at hclimb
    exact hclimb
  | node w l r =>
    rw [← hnil]
    have hne : near ≠ nil := by simp [hnil]
    have hsome : (rootPtr near).isSome = true := by simp [hnil]
    simp only [hsome, ↓reduceIte, runs_bind, runs_load, hv, Option.some.injEq, exists_eq_left',
      cellAt_child]
    rw [firstPtr_append_of_ne_nil (towards_ne_nil hne)]
    exact extreme_spec (c := ⟨d, v, far⟩ :: c) h hne (by omega)

theorem split_unique {xs ys xs' ys' : List Addr} {x : Addr} (hn : (xs ++ x :: ys).Nodup)
    (h : xs ++ x :: ys = xs' ++ x :: ys') : xs = xs' ∧ ys = ys' := by
  induction xs generalizing xs' with
  | nil =>
    cases xs' with
    | nil => simpa using h
    | cons z zs =>
      simp only [List.nil_append, List.cons_append, List.cons.injEq] at h
      obtain ⟨rfl, rfl⟩ := h
      simp at hn
  | cons z zs ih =>
    cases xs' with
    | nil =>
      simp only [List.nil_append, List.cons_append, List.cons.injEq] at h
      obtain ⟨rfl, -⟩ := h
      simp at hn
    | cons w ws =>
      simp only [List.cons_append, List.cons.injEq] at h
      obtain ⟨rfl, h⟩ := h
      obtain ⟨rfl, rfl⟩ := ih (List.nodup_cons.mp hn).2 h
      exact ⟨rfl, rfl⟩

/-- A node at a place of the in-order sequence, and what surrounds it. -/
theorem exists_place {x : Addr} {xs ys : List Addr} (hn : (addrs T).Nodup)
    (hx : addrs T = xs ++ x :: ys) : ∃ c v l r, T = plug c (node v l r) ∧ v.1 = x ∧
      xs.getLast? = firstPtr (towards .left l ++ Context.beyond .left c) ∧
      ys.head? = firstPtr (towards .right r ++ Context.beyond .right c) := by
  obtain ⟨v, hv, rfl⟩ : ∃ v ∈ T.inorder, v.1 = x := by
    apply List.mem_map.mp
    change x ∈ addrs T
    simp [hx]
  obtain ⟨c, l, r, rfl⟩ := exists_node_of_mem hv
  have hplace : addrs (plug c (node v l r)) =
      ((towards .left l ++ Context.beyond .left c).map Prod.fst).reverse ++
        v.1 :: (towards .right r ++ Context.beyond .right c).map Prod.fst := by
    have hplug : (plug c (node v l r)).inorder = _ := towards_plug (d := .right) c (node v l r)
    rw [addrs, hplug]
    simp [towards, Side.other]
  rw [hplace] at hn hx
  obtain ⟨rfl, rfl⟩ := split_unique hn hx
  refine ⟨c, v, l, r, rfl, rfl, ?_, ?_⟩
  · rw [List.getLast?_reverse, List.head?_map]
    rfl
  · rw [List.head?_map]
    rfl

/-- What the two functions return for a node with these nodes before and after it. -/
theorem neighbours_spec {x : Addr} {xs ys : List Addr} (h : Represents s T spare)
    (hf : T.numNodes < fuel) (hx : addrs T = xs ++ x :: ys) :
    (Runs (successor fuel (some x)) s fun p u => u = s ∧ p = ys.head?) ∧
      Runs (predecessor fuel (some x)) s fun p u => u = s ∧ p = xs.getLast? := by
  obtain ⟨c, v, l, r, rfl, rfl, hlast, hfirst⟩ := exists_place h.nodup hx
  rw [hlast, hfirst]
  exact ⟨neighbour_spec (d := .right) h hf, neighbour_spec (d := .left) h hf⟩

/-- The results for a node, and the way back from each of them that is not NULL. -/
structure Neighbours (fuel : Nat) (s : State) (xs : List Addr) (x : Addr) (ys : List Addr) :
    Prop where
  successor : Runs (successor fuel (some x)) s fun p u => u = s ∧ p = ys.head? ∧
    (p ≠ none → Runs (predecessor fuel p) u fun q w => w = s ∧ q = some x)
  predecessor : Runs (predecessor fuel (some x)) s fun p u => u = s ∧ p = xs.getLast? ∧
    (p ≠ none → Runs (RBTree.successor fuel p) u fun q w => w = s ∧ q = some x)

theorem Represents.neighbours {x : Addr} {xs ys : List Addr} (h : Represents s T spare)
    (hf : T.numNodes < fuel) (hx : addrs T = xs ++ x :: ys) : Neighbours fuel s xs x ys := by
  obtain ⟨hsucc, hpred⟩ := neighbours_spec h hf hx
  constructor
  · refine hsucc.mono ?_
    intro p u hp
    obtain ⟨rfl, rfl⟩ := hp
    refine ⟨rfl, rfl, ?_⟩
    intro hne
    cases ys with
    | nil => contradiction
    | cons y ys =>
      have hy : addrs T = (xs ++ [x]) ++ y :: ys := by simpa using hx
      simpa using (neighbours_spec h hf hy).2
  · refine hpred.mono ?_
    intro p u hp
    obtain ⟨rfl, rfl⟩ := hp
    refine ⟨rfl, rfl, ?_⟩
    intro hne
    rcases List.eq_nil_or_concat xs with rfl | ⟨zs, z, rfl⟩
    · contradiction
    · rw [List.concat_eq_append] at hx ⊢
      have hz : addrs T = zs ++ z :: (x :: ys) := by simpa using hx
      simpa using (neighbours_spec h hf hz).1

/-- In every tree that calls can build, both functions follow the in-order sequence of the nodes,
whatever their keys. -/
theorem run_neighbours (ops : List Op) (fuel : Nat) (hf : ops.length < fuel) :
    Runs (run fuel ops) initial fun _ s =>
      ∃ T, Represents s T none ∧ ∀ fuel', ops.length < fuel' →
        ∀ xs x ys, addrs T = xs ++ x :: ys → Neighbours fuel' s xs x ys := by
  refine (run_valid hf).mono ?_
  intro _ s hvalid
  obtain ⟨T, m, hr, -, -, hn⟩ := hvalid
  exact ⟨T, hr, fun fuel' hf' xs x ys hx => hr.neighbours (by omega) hx⟩

theorem run_neighbours_removal :
    Runs (run 5 [.insert 2, .insert 2, .insert 1, .remove 2]) initial fun _ s =>
      ∃ T, Represents s T none ∧ ∀ fuel', 4 < fuel' →
        ∀ xs x ys, addrs T = xs ++ x :: ys → Neighbours fuel' s xs x ys :=
  run_neighbours [.insert 2, .insert 2, .insert 1, .remove 2] 5 (by decide)

end LanguageTest.RBTree
