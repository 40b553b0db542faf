import LanguageTest.Tree.RBTreeInsert
import LanguageTest.Tree.RBTreeRemove

namespace LanguageTest.RBTree
open BinaryTree

variable {s : State} {spare : Ptr} {c : AddrContext Item} {T : Shape} {key : Int} {fuel : Nat}

/-- What a search may return: a node of the tree that holds the key, or NULL when none does. -/
def Finds (T : Shape) (key : Int) (p : Ptr) : Prop :=
  (p = none ∧ key ∉ keys T) ∨
    ∃ c v l r, T = plug c (node v l r) ∧ p = some v.1 ∧ keyOf v = key

theorem search_finds {t : Shape} (h : Represents s (plug c t) spare)
    (hs : Sorted keyOf (plug c t)) (ha : Avoids keyOf key c) (hf : t.numNodes < fuel) :
    Runs (search key fuel (rootPtr t)) s fun p u => u = s ∧ Finds (plug c t) key p := by
  induction fuel generalizing c t with
  | zero => omega
  | succ fuel ih =>
    cases t with
    | nil =>
      simp only [rootPtr_nil, search, runs_pure]
      exact ⟨trivial, .inl ⟨rfl, ha.not_mem⟩⟩
    | node v l r =>
      have hv := h.load (d := .left)
      simp only [numNodes] at hf
      simp only [rootPtr_node, search, runs_bind, runs_load, hv, Option.some.injEq,
        exists_eq_left', cellAt_key]
      split_ifs with he
      · simp only [runs_pure]
        exact ⟨trivial, .inr ⟨c, v, l, r, rfl, rfl, he⟩⟩
      simp only [runs_bind, runs_load, hv, Option.some.injEq, exists_eq_left', cellAt_key]
      split_ifs with hk
      · simp only [runs_bind, runs_load, hv, Option.some.injEq, exists_eq_left']
        exact ih (c := ⟨.left, v, r⟩ :: c) h hs (ha.left hs hk) (by omega)
      · simp only [runs_bind, runs_load, hv, Option.some.injEq, exists_eq_left']
        exact ih (c := ⟨.right, v, l⟩ :: c) h hs
          (ha.right hs (lt_of_le_of_ne (not_lt.mp hk) he)) (by omega)

theorem iterativeSearch_finds (h : Represents s T spare) (hs : Sorted keyOf T)
    (hf : T.numNodes < fuel) :
    Runs (iterativeSearch key fuel (rootPtr T)) s fun p u => u = s ∧ Finds T key p := by
  refine runs_loop (k := T.numNodes) (fun j i u => u = s ∧ ∃ c t, plug c t = T ∧
    i = rootPtr t ∧ Avoids keyOf key c ∧ t.numNodes ≤ j) ?_
    ⟨rfl, [], T, rfl, rfl, avoids_nil, le_rfl⟩ hf
  intro j _ _ hpost
  obtain ⟨rfl, c, t, rfl, rfl, ha, hj⟩ := hpost
  cases t with
  | nil =>
    simp only [runs_bind, runs_andM, runs_pure, rootPtr_nil, Option.isSome_none,
      Bool.false_eq_true, ↓reduceIte]
    exact ⟨trivial, .inl ⟨rfl, ha.not_mem⟩⟩
  | node v l r =>
    have hv := h.load (d := .left)
    simp only [numNodes] at hj
    simp only [runs_bind, runs_andM, runs_pure, rootPtr_node, Option.isSome_some, ↓reduceIte,
      runs_load, hv, Option.some.injEq, exists_eq_left', cellAt_key, bne_iff_ne, ne_eq]
    split_ifs with he
    · simp only [runs_pure]
      exact ⟨trivial, .inr ⟨c, v, l, r, rfl, rfl, he⟩⟩
    simp only [runs_bind, runs_load, hv, Option.some.injEq, exists_eq_left', cellAt_key]
    split_ifs with hk
    · simp only [runs_bind, runs_load, hv, Option.some.injEq, exists_eq_left', runs_pure]
      exact ⟨l.numNodes, by omega, trivial, ⟨.left, v, r⟩ :: c, l, rfl, rfl, ha.left hs hk, le_rfl⟩
    · simp only [runs_bind, runs_load, hv, Option.some.injEq, exists_eq_left', runs_pure]
      exact ⟨r.numNodes, by omega, trivial, ⟨.right, v, l⟩ :: c, r, rfl, rfl,
        ha.right hs (lt_of_le_of_ne (not_lt.mp hk) he), le_rfl⟩

theorem inOrder_keys {t : Shape} (h : Represents s (plug c t) spare) (hf : t.numNodes < fuel) :
    Runs (inOrder fuel (rootPtr t)) s fun ks u => u = s ∧ ks = keys t := by
  induction fuel generalizing c t with
  | zero => omega
  | succ fuel ih =>
    cases t with
    | nil => simp [inOrder, keys]
    | node v l r =>
      have hv := h.load (d := .left)
      simp only [numNodes] at hf
      simp only [rootPtr_node, inOrder, runs_bind, runs_load, hv, Option.some.injEq,
        exists_eq_left']
      refine (ih (c := ⟨.left, v, r⟩ :: c) (t := l) h (by omega)).mono ?_
      intro _ _ hpost
      obtain ⟨rfl, rfl⟩ := hpost
      simp only [hv, Option.some.injEq, exists_eq_left', cellAt_key]
      refine (ih (c := ⟨.right, v, l⟩ :: c) (t := r) h (by omega)).mono ?_
      intro _ _ hpost
      obtain ⟨rfl, rfl⟩ := hpost
      simp [keys, keyOf]

/-- The public `remove` takes out one node with the key, or changes nothing. -/
theorem remove_spec {m : Nat} (h : Represents s T none) (hs : Sorted keyOf T)
    (hT : RedBlack isRed false m T) (hf : T.numNodes < fuel) :
    Runs (remove fuel key) s fun _ u => (key ∉ keys T ∧ u = s) ∨
      ∃ T' m' a, Represents u T' none ∧ RedBlack isRed false m' T' ∧ Sorted keyOf T' ∧
        (entries T).Perm ((a, key) :: entries T') := by
  simp only [remove, runs_bind, runs_getObject, h.root]
  refine (search_finds (c := []) h hs avoids_nil hf).mono ?_
  intro _ _ hpost
  rcases hpost with ⟨rfl, ⟨rfl, hk⟩ | ⟨c, v, l, r, rfl, rfl, rfl⟩⟩
  · simp only [Option.isSome_none, Bool.false_eq_true, ↓reduceIte, runs_pure]
    exact .inl ⟨hk, trivial⟩
  · simp only [Option.isSome_some, ↓reduceIte]
    refine (removeNode_spec h hT hf).mono ?_
    intro _ u hpost
    obtain ⟨T', m', hu, hT', xs, ys, hE, hE'⟩ := hpost
    refine .inr ⟨T', m', v.1, hu, hT', ?_, ?_⟩
    · rw [sorted_iff] at hs ⊢
      refine hs.sublist ?_
      have hsub : (entries T').Sublist (entries (plug c (node v l r))) := by
        rw [hE, hE']
        exact (List.sublist_cons_self _ _).append_left xs
      rw [keys_eq_entries, keys_eq_entries]
      exact hsub.map Prod.snd
    · rw [hE, hE']
      exact List.perm_middle

/-- What every sequence of calls keeps; `n` bounds the number of stored keys. -/
def Valid (n : Nat) (s : State) : Prop :=
  ∃ T m, Represents s T none ∧ RedBlack isRed false m T ∧ Sorted keyOf T ∧ T.numNodes ≤ n

theorem length_entries (t : Shape) : (entries t).length = t.numNodes := by
  simp [entries]

theorem step_valid {n : Nat} (h : Valid n s) (hf : n < fuel) (op : Op) :
    Runs (step fuel op) s fun _ u => Valid (n + 1) u := by
  obtain ⟨T, m, hr, hT, hs, hn⟩ := h
  cases op with
  | insert key =>
    refine (insert_spec hr hs hT (by omega)).mono ?_
    intro _ u hpost
    obtain ⟨T', m', z, hu, hT', hs', -, hE⟩ := hpost
    have hlen := hE.length_eq
    rw [List.length_cons, length_entries, length_entries] at hlen
    exact ⟨T', m', hu, hT', hs', by omega⟩
  | remove key =>
    refine (remove_spec hr hs hT (by omega)).mono ?_
    intro _ u hpost
    rcases hpost with ⟨-, rfl⟩ | ⟨T', m', a, hu, hT', hs', hE⟩
    · exact ⟨T, m, hr, hT, hs, by omega⟩
    · have hlen := hE.length_eq
      rw [List.length_cons, length_entries, length_entries] at hlen
      exact ⟨T', m', hu, hT', hs', by omega⟩

theorem initial_valid : Valid 0 initial :=
  ⟨.nil, 0, ⟨rfl, trivial, List.nodup_nil, by simp [initial]⟩, .nil, List.Pairwise.nil, le_rfl⟩

theorem run_valid {ops : List Op} (hf : ops.length < fuel) :
    Runs (run fuel ops) initial fun _ s => Valid ops.length s := by
  refine runs_all (fun pre _ s => Valid pre.length s) ops ?_ initial_valid
  intro pre op post _ s he hi
  rw [List.length_append]
  refine step_valid hi ?_ op
  rw [he, List.length_append] at hf
  omega

/-- The heap holds a red-black tree with exact parent pointers, and nothing else. -/
def IsRedBlack (s : State) : Prop :=
  ∃ T, Represents s T none ∧ T.rootRed isRed = false ∧ NoRedRed isRed T ∧ EqualBlack isRed T ∧
    (T.height : ℝ) ≤ 2 * Real.logb 2 (T.numNodes + 1)

/-- Every sequence of calls ends without a fault in a red-black tree. A loop that makes fewer
passes than there were calls, plus one, is enough for each of them. -/
theorem run_redBlack (ops : List Op) (fuel : Nat) (hf : ops.length < fuel) :
    Runs (run fuel ops) initial fun _ s => IsRedBlack s := by
  refine (run_valid hf).mono ?_
  intro _ s hpost
  obtain ⟨T, m, hr, hT, -, -⟩ := hpost
  exact ⟨T, hr, hT.rootRed, hT.noRedRed, hT.equalBlack, hT.height_le_log⟩

theorem run_redBlack_removal :
    Runs (run 6 [.insert 2, .insert 1, .insert 2, .insert 3, .remove 2]) initial
      fun _ s => IsRedBlack s :=
  run_redBlack _ 6 (by decide)

/-- What the calls on a tree do to the multiset of its keys. -/
structure ActsOnKeys (fuel : Nat) (s : State) (T : Shape) (key : Int) : Prop where
  inOrder : Runs (inOrder fuel s.object.mRoot) s fun ks u => u = s ∧ ks = keys T
  insert : Runs (insert fuel key) s fun _ u =>
    ∃ T', Represents u T' none ∧ (keys T').Perm (key :: keys T)
  remove : Runs (remove fuel key) s fun _ u =>
    if key ∈ keys T then ∃ T', Represents u T' none ∧ (keys T).Perm (key :: keys T') else u = s
  search : Runs (search key fuel s.object.mRoot) s fun p u => u = s ∧ Finds T key p
  iterativeSearch : Runs (iterativeSearch key fuel s.object.mRoot) s fun p u =>
    u = s ∧ Finds T key p

theorem Valid.actsOnKeys {n : Nat} (h : Valid n s) :
    ∃ T, Represents s T none ∧ (keys T).Pairwise (· ≤ ·) ∧
      ∀ key fuel, n < fuel → ActsOnKeys fuel s T key := by
  obtain ⟨T, m, hr, hT, hs, hn⟩ := h
  refine ⟨T, hr, sorted_iff.mp hs, fun key fuel hf => ⟨?_, ?_, ?_, ?_, ?_⟩⟩
  · rw [hr.root]
    exact inOrder_keys (c := []) hr (by omega)
  · refine (insert_spec hr hs hT (by omega)).mono ?_
    intro _ u hpost
    obtain ⟨T', m', z, hu, -, -, -, hE⟩ := hpost
    refine ⟨T', hu, ?_⟩
    rw [keys_eq_entries, keys_eq_entries]
    exact hE.map Prod.snd
  · refine (remove_spec hr hs hT (by omega)).mono ?_
    intro _ u hpost
    rcases hpost with ⟨hk, rfl⟩ | ⟨T', m', a, hu, -, -, hE⟩
    · rw [if_neg hk]
    · have hp : (keys T).Perm (key :: keys T') := by
        rw [keys_eq_entries, keys_eq_entries]
        exact hE.map Prod.snd
      rw [if_pos (hp.mem_iff.mpr (List.mem_cons_self ..))]
      exact ⟨T', hu, hp⟩
  · rw [hr.root]
    exact search_finds (c := []) hr hs avoids_nil (by omega)
  · rw [hr.root]
    exact iterativeSearch_finds hr hs (by omega)

/-- Every tree that calls can build is ordered and acts as a multiset of its keys. -/
theorem run_multiset (ops : List Op) (fuel : Nat) (hf : ops.length < fuel) :
    Runs (run fuel ops) initial fun _ s =>
      ∃ T, Represents s T none ∧ (keys T).Pairwise (· ≤ ·) ∧
        ∀ key fuel', ops.length < fuel' → ActsOnKeys fuel' s T key :=
  (run_valid hf).mono fun _ _ hv => hv.actsOnKeys

theorem run_multiset_removal :
    Runs (run 5 [.insert 2, .insert 2, .insert 1, .remove 2]) initial fun _ s =>
      ∃ T, Represents s T none ∧ (keys T).Pairwise (· ≤ ·) ∧
        ∀ key fuel', 4 < fuel' → ActsOnKeys fuel' s T key :=
  run_multiset [.insert 2, .insert 2, .insert 1, .remove 2] 5 (by decide)

end LanguageTest.RBTree
