import LanguageTest.Library.Forest
import LanguageTest.Race.UnionFind

namespace LanguageTest.UnionFind
open Forest

/-- The parent links of an array. What lies outside of it is its own parent. -/
def parent (s : State) (x : Nat) : Nat := s.getD x x

/-- The array has `n` elements and links that stay inside, and its trees have the roots `rep`. -/
structure Tracks (n : Nat) (rep : Nat → Nat) (s : State) : Prop where
  length : s.length = n
  inside : ∀ x < n, parent s x < n
  roots : Roots (parent s) rep

variable {n fuel x y : Nat} {rep : Nat → Nat} {s : State}

theorem parent_set {v : Nat} (hx : x < s.length) :
    parent (s.set x v) = Function.update (parent s) x v := by
  funext y
  by_cases he : y = x
  · subst he
    simp [parent, hx]
  · rw [Function.update_of_ne he, parent, parent, List.getD_eq_getElem?_getD,
      List.getElem?_set_ne (Ne.symm he), List.getD_eq_getElem?_getD]

theorem runs_father {Q : Nat → State → Prop} (hx : x < s.length) :
    Runs (father x) s Q ↔ Q (parent s x) s := by
  refine runs_of_ok ?_
  simp [father, parent, hx]

theorem runs_setFather {v : Nat} {Q : Unit → State → Prop} (hx : x < s.length) :
    Runs (setFather x v) s Q ↔ Q () (s.set x v) := by
  refine runs_of_ok ?_
  simp [setFather, hx]

theorem Tracks.iterate_lt (h : Tracks n rep s) (hx : x < n) (k : Nat) : (parent s)^[k] x < n := by
  induction k with
  | zero => exact hx
  | succ k ih =>
    rw [Function.iterate_succ_apply']
    exact h.inside _ ih

theorem Tracks.rep_lt (h : Tracks n rep s) (hx : x < n) : rep x < n := by
  obtain ⟨k, hk⟩ := h.roots x
  rw [← hk.1]
  exact h.iterate_lt hx k

theorem Tracks.exists_rootAt (h : Tracks n rep s) (hx : x < n) :
    ∃ k < n, RootAt (parent s) k x (rep x) := by
  have hS : ∀ y ∈ Finset.range n, parent s y ∈ Finset.range n := by
    simpa using h.inside
  obtain ⟨k, hk, hr⟩ := (h.roots x).exists_lt_card hS (Finset.mem_range.mpr hx)
  rw [Finset.card_range] at hk
  exact ⟨k, hk, hr⟩

/-- Writing inside the array. -/
theorem Tracks.set {rep' : Nat → Nat} {v : Nat} (h : Tracks n rep s) (hx : x < n) (hv : v < n)
    (hr : Roots (Function.update (parent s) x v) rep') : Tracks n rep' (s.set x v) := by
  have hx' : x < s.length := h.length.symm ▸ hx
  refine ⟨by rw [List.length_set, h.length], fun y hy => ?_, by rwa [parent_set hx']⟩
  rw [parent_set hx']
  by_cases he : y = x
  · rwa [he, Function.update_self]
  · rw [Function.update_of_ne he]
    exact h.inside y hy

theorem findRoot_spec (h : Tracks n rep s) (hx : x < n) (hf : n ≤ fuel) :
    Runs (findRoot fuel x) s fun r u => r = rep x ∧ Tracks n rep u := by
  obtain ⟨k, hk, hr⟩ := h.exists_rootAt hx
  simp only [findRoot, runs_bind]
  refine (runs_loop (k := k) (Q := fun r u => u = s ∧ r = rep x)
    (fun k i u => u = s ∧ i < n ∧ rep i = rep x ∧ RootAt (parent s) k i (rep x)) ?_
    ⟨rfl, hx, rfl, hr⟩ (by omega)).mono ?_
  · intro k i _ hpost
    obtain ⟨rfl, hi, he, hr⟩ := hpost
    have hil : i < _ := h.length.symm ▸ hi
    simp only [runs_bind, runs_father hil]
    split_ifs with hne
    · cases k with
      | zero => exact absurd (rootAt_zero.mp hr).2.symm hne
      | succ k =>
        simp only [runs_bind, runs_father hil, runs_pure]
        exact ⟨k, by omega, trivial, h.inside i hi, by rw [h.roots.parent, he], rootAt_succ.mp hr⟩
    · rw [runs_pure]
      rw [not_not] at hne
      exact ⟨rfl, by rw [← he, h.roots.eq_of_fixed hne.symm]⟩
  · intro _ _ hpost
    obtain ⟨rfl, rfl⟩ := hpost
    simp only [runs_pure]
    refine (runs_loop (k := k) (Q := fun _ u => Tracks n rep u)
      (fun k i u => Tracks n rep u ∧ i < n ∧ rep i = rep x ∧ RootAt (parent u) k i (rep x)) ?_
      ⟨h, hx, rfl, hr⟩ (by omega)).mono fun _ u hu => ⟨trivial, hu⟩
    intro k i u hpost
    obtain ⟨hu, hi, he, hr⟩ := hpost
    have hil : i < u.length := hu.length.symm ▸ hi
    split_ifs with hne
    · cases k with
      | zero => exact absurd (rootAt_zero.mp hr).1 hne
      | succ k =>
        have hc := hu.roots.compress i
        rw [he] at hc
        obtain ⟨j, hj, hr'⟩ := (rootAt_succ.mp hr).compress (he ▸ hu.roots i)
        simp only [runs_bind, runs_father hil, runs_setFather hil, runs_pure]
        refine ⟨j, by omega, hu.set hi (hu.rep_lt hx) hc, hu.inside i hi, ?_, ?_⟩
        · rw [hu.roots.parent, he]
        · rwa [parent_set hil]
    · rw [runs_pure]
      exact hu

theorem union_spec (h : Tracks n rep s) (hx : x < n) (hy : y < n) (hf : n ≤ fuel) :
    Runs (union fuel x y) s fun _ u => Tracks n (unite rep x y) u := by
  simp only [union, runs_bind]
  refine (findRoot_spec h hx hf).mono ?_
  intro _ u hpost
  obtain ⟨rfl, hu⟩ := hpost
  refine (findRoot_spec hu hy hf).mono ?_
  intro _ w hpost
  obtain ⟨rfl, hw⟩ := hpost
  have ha : rep x < w.length := hw.length.symm ▸ hw.rep_lt hx
  rw [runs_setFather ha]
  exact hw.set (hw.rep_lt hx) (hw.rep_lt hy) (hw.roots.link x y)

/-- `find` needs one level of recursion more than the depth of its argument. -/
theorem find_of_rootAt {k : Nat} (h : Tracks n rep s) (hx : x < n)
    (hr : RootAt (parent s) k x (rep x)) (hf : k < fuel) :
    Runs (find fuel x) s fun r u => r = rep x ∧ u = s := by
  induction k generalizing x fuel with
  | zero =>
    obtain ⟨fuel, rfl⟩ := Nat.exists_eq_add_of_lt hf
    obtain ⟨he, hfix⟩ := rootAt_zero.mp hr
    have hxl : x < s.length := h.length.symm ▸ hx
    rw [find, runs_bind, runs_father hxl, if_pos hfix.symm, runs_pure]
    exact ⟨he, rfl⟩
  | succ k ih =>
    cases fuel with
    | zero => omega
    | succ fuel =>
      have hxl : x < s.length := h.length.symm ▸ hx
      rw [find, runs_bind, runs_father hxl]
      split_ifs with he
      · rw [runs_pure, h.roots.eq_of_fixed he.symm]
        exact ⟨rfl, rfl⟩
      · rw [runs_bind, runs_father hxl, ← h.roots.parent x]
        refine ih (h.inside x hx) ?_ (by omega)
        rw [h.roots.parent x]
        exact rootAt_succ.mp hr

theorem find_spec (h : Tracks n rep s) (hx : x < n) (hf : n ≤ fuel) :
    Runs (find fuel x) s fun r u => r = rep x ∧ u = s := by
  obtain ⟨k, hk, hr⟩ := h.exists_rootAt hx
  exact find_of_rootAt h hx hr (by omega)

theorem join_spec (h : Tracks n rep s) (hx : x < n) (hy : y < n) (hf : n ≤ fuel) :
    Runs (join fuel x y) s fun _ u => Tracks n (unite rep x y) u := by
  simp only [join, runs_bind]
  refine (find_spec h hx hf).mono ?_
  intro _ _ hpost
  obtain ⟨rfl, rfl⟩ := hpost
  refine (find_spec h hy hf).mono ?_
  intro _ _ hpost
  obtain ⟨rfl, rfl⟩ := hpost
  rw [runs_setFather (h.length.symm ▸ h.rep_lt hx)]
  exact h.set (h.rep_lt hx) (h.rep_lt hy) (h.roots.link x y)

/-- After some passes of the loop of `makeSet` the elements that are left still point to 0. -/
theorem selfFathers_upTo {m : Nat} (hm : m ≤ n) :
    Runs (selfFathers m) (initial n) fun _ s =>
      Tracks n (fun x => if m ≤ x ∧ x < n then 0 else x) s := by
  have hloop : Runs ((List.range m).forM fun i => setFather i i) (initial n)
      fun _ s => s.length = n ∧ ∀ i < n, s[i]? = some (if m ≤ i then 0 else i) := by
    apply runs_range fun (m : Nat) (s : State) =>
      s.length = n ∧ ∀ i < n, s[i]? = some (if m ≤ i then 0 else i)
    · intro m hmn s hpost
      obtain ⟨hl, hs⟩ := hpost
      rw [runs_setFather (by omega)]
      refine ⟨by rw [List.length_set, hl], fun i hi => ?_⟩
      rcases eq_or_ne m i with rfl | hne
      · rw [List.getElem?_set_self (by omega), if_neg (by omega)]
      · rw [List.getElem?_set_ne hne, hs i hi]
        congr 1
        split_ifs <;> omega
    · refine ⟨List.length_replicate, fun i hi => ?_⟩
      rw [initial, List.getElem?_replicate, if_pos hi, if_pos (Nat.zero_le i)]
  refine Runs.mono hloop ?_
  intro _ s hpost
  obtain ⟨hl, hs⟩ := hpost
  have hparent (x : Nat) : parent s x = if m ≤ x ∧ x < n then 0 else x := by
    rw [parent, List.getD_eq_getElem?_getD]
    by_cases hx : x < n
    · rw [hs x hx, Option.getD_some]
      split_ifs <;> omega
    · rw [List.getElem?_eq_none (by omega), Option.getD_none, if_neg (by omega)]
  refine ⟨hl, fun x hx => ?_, fun x => ?_⟩
  · rw [hparent]
    split_ifs <;> omega
  · by_cases hx : m ≤ x ∧ x < n
    · refine ⟨1, hparent x, ?_⟩
      rw [if_pos hx, hparent]
      split_ifs <;> rfl
    · rw [if_neg hx]
      exact ⟨0, rfl, by rw [hparent, if_neg hx]⟩

/-- The loop of `makeSet` makes every element its own root. -/
theorem selfFathers_spec (n : Nat) :
    Runs (selfFathers n) (initial n) fun _ s => Tracks n id s := by
  refine (selfFathers_upTo le_rfl).mono fun _ s hs => ?_
  have hid : (fun x => if n ≤ x ∧ x < n then 0 else x) = id := by
    funext x
    exact if_neg (by omega)
  exact hid ▸ hs

/-- The pairs that have been united. -/
def pairs (ops : List Op) : List (Nat × Nat) :=
  ops.filterMap fun
    | .union x y => some (x, y)
    | .findRoot _ => none

/-- The trees of the array are the classes of the equivalence closure of the united pairs. -/
def Partitions (n : Nat) (ops : List Op) (s : State) : Prop :=
  ∃ rep, Tracks n rep s ∧ ∀ x y, rep x = rep y ↔ Joined (pairs ops) x y

theorem step_partitions {ops : List Op} {op : Op} (h : Partitions n ops s) (hop : op.Within n)
    (hf : n ≤ fuel) : Runs (step fuel op) s fun _ u => Partitions n (ops ++ [op]) u := by
  obtain ⟨rep, ht, hp⟩ := h
  cases op with
  | union x y =>
    simp only [step, runs_bind, runs_pure]
    refine (union_spec ht hop.1 hop.2 hf).mono fun _ u hu => ⟨_, hu, fun a b => ?_⟩
    rw [pairs, List.filterMap_append]
    exact joined_unite hp x y a b
  | findRoot z =>
    simp only [step, runs_bind, runs_pure]
    refine (findRoot_spec ht hop hf).mono ?_
    intro _ u hpost
    obtain ⟨-, hu⟩ := hpost
    exact ⟨rep, hu, by simpa [pairs] using hp⟩

theorem joinStep_partitions {ops : List Op} {op : Op} (h : Partitions n ops s)
    (hop : op.Within n) (hf : n ≤ fuel) :
    Runs (joinStep fuel op) s fun _ u => Partitions n (ops ++ [op]) u := by
  obtain ⟨rep, ht, hp⟩ := h
  cases op with
  | union x y =>
    simp only [joinStep, runs_bind, runs_pure]
    refine (join_spec ht hop.1 hop.2 hf).mono fun _ u hu => ⟨_, hu, fun a b => ?_⟩
    rw [pairs, List.filterMap_append]
    exact joined_unite hp x y a b
  | findRoot z =>
    simp only [joinStep, runs_bind, runs_pure]
    refine (find_spec ht hop hf).mono ?_
    intro _ _ hpost
    obtain ⟨-, rfl⟩ := hpost
    exact ⟨rep, ht, by simpa [pairs] using hp⟩

theorem Tracks.partitions_nil (h : Tracks n id s) : Partitions n [] s :=
  ⟨id, h, fun _ _ => joined_nil.symm⟩

theorem run_partitions {ops : List Op} (hin : ∀ op ∈ ops, op.Within maxn) (hf : maxn ≤ fuel) :
    Runs (run fuel ops) (initial maxn) fun _ s => Partitions maxn ops s := by
  rw [run, runs_bind]
  refine (selfFathers_spec maxn).mono fun _ s hs => ?_
  refine runs_all (fun pre _ s => Partitions maxn pre s) ops ?_ hs.partitions_nil
  intro pre op post _ s he h
  exact step_partitions h (hin op (by simp [he])) hf

theorem joinRun_partitions {ops : List Op} (hin : ∀ op ∈ ops, op.Within n) (hf : n ≤ fuel) :
    Runs (joinRun n fuel ops) (initial n) fun _ s => Partitions n ops s := by
  rw [joinRun, runs_bind]
  refine (selfFathers_spec n).mono fun _ s hs => ?_
  refine runs_all (fun pre _ s => Partitions n pre s) ops ?_ hs.partitions_nil
  intro pre op post _ s he h
  exact joinStep_partitions h (hin op (by simp [he])) hf

/-- What holds of the array after any calls: a forest without cycles but the self-loops of its
roots, in which `findRoot` returns the root and changes no element's root. -/
structure IsForest (fuel : Nat) (s : State) : Prop where
  inside : ∀ x < maxn, parent s x < maxn
  rooted : ∀ x, ∃ r, RootOf (parent s) x r
  cycle : ∀ x k, 0 < k → (parent s)^[k] x = x → parent s x = x
  findRoot : ∀ z < maxn, Runs (findRoot fuel z) s fun r u =>
    RootOf (parent s) z r ∧ ∀ y q, RootOf (parent u) y q ↔ RootOf (parent s) y q

theorem Partitions.isForest {ops : List Op} (h : Partitions maxn ops s) (hf : maxn ≤ fuel) :
    IsForest fuel s := by
  obtain ⟨rep, ht, -⟩ := h
  refine ⟨ht.inside, fun x => ⟨rep x, ht.roots x⟩, fun x k => ht.roots.cycle, fun z hz => ?_⟩
  refine (findRoot_spec ht hz hf).mono ?_
  intro _ u hpost
  obtain ⟨rfl, hu⟩ := hpost
  refine ⟨ht.roots z, fun y q => ?_⟩
  rw [hu.roots.rootOf_iff, ht.roots.rootOf_iff]

/-- Two calls of `findRoot` agree exactly on joined elements. -/
theorem Partitions.findRoot_eq {ops : List Op} (h : Partitions n ops s) (hf : n ≤ fuel)
    (hx : x < n) (hy : y < n) :
    Runs (do
        let a ← findRoot fuel x
        let b ← findRoot fuel y
        pure (a == b)) s fun e _ => e = true ↔ Joined (pairs ops) x y := by
  obtain ⟨rep, ht, hp⟩ := h
  simp only [runs_bind, runs_pure]
  refine (findRoot_spec ht hx hf).mono ?_
  intro _ u hpost
  obtain ⟨rfl, hu⟩ := hpost
  refine (findRoot_spec hu hy hf).mono ?_
  intro _ w hpost
  obtain ⟨rfl, -⟩ := hpost
  rw [beq_iff_eq]
  exact hp x y

theorem Partitions.find_eq {ops : List Op} (h : Partitions n ops s) (hf : n ≤ fuel)
    (hx : x < n) (hy : y < n) :
    Runs (do
        let a ← find fuel x
        let b ← find fuel y
        pure (a == b)) s fun e _ => e = true ↔ Joined (pairs ops) x y := by
  obtain ⟨rep, ht, hp⟩ := h
  simp only [runs_bind, runs_pure]
  refine (find_spec ht hx hf).mono ?_
  intro _ _ hpost
  obtain ⟨rfl, rfl⟩ := hpost
  refine (find_spec ht hy hf).mono ?_
  intro _ _ hpost
  obtain ⟨rfl, rfl⟩ := hpost
  rw [beq_iff_eq]
  exact hp x y

/-- Both implementations keep a forest whose trees are the classes of the united pairs. -/
theorem run_partition (ops : List Op) (n fuel : Nat) (hin : ∀ op ∈ ops, op.Within maxn)
    (hn : ∀ op ∈ ops, op.Within n) (hf : maxn ≤ fuel) (hf' : n ≤ fuel) :
    Runs (run fuel ops) (initial maxn) (fun _ s => IsForest fuel s ∧
      ∀ x < maxn, ∀ y < maxn, Runs (do
          let a ← findRoot fuel x
          let b ← findRoot fuel y
          pure (a == b)) s fun e _ => e = true ↔ Joined (pairs ops) x y) ∧
    Runs (joinRun n fuel ops) (initial n) (fun _ s =>
      ∀ x < n, ∀ y < n, Runs (do
          let a ← find fuel x
          let b ← find fuel y
          pure (a == b)) s fun e _ => e = true ↔ Joined (pairs ops) x y) :=
  ⟨(run_partitions hin hf).mono fun _ _ h =>
      ⟨h.isForest hf, fun _ hx _ hy => h.findRoot_eq hf hx hy⟩,
    (joinRun_partitions hn hf').mono fun _ _ h _ hx _ hy => h.find_eq hf' hx hy⟩

theorem run_partition_three :
    Runs (run 110 [.union 0 1, .findRoot 0, .union 2 0]) (initial maxn) (fun _ s =>
      IsForest 110 s ∧ ∀ x < maxn, ∀ y < maxn, Runs (do
          let a ← findRoot 110 x
          let b ← findRoot 110 y
          pure (a == b)) s
        fun e _ => e = true ↔ Joined (pairs [.union 0 1, .findRoot 0, .union 2 0]) x y) ∧
    Runs (joinRun 3 110 [.union 0 1, .findRoot 0, .union 2 0]) (initial 3) (fun _ s =>
      ∀ x < 3, ∀ y < 3, Runs (do
          let a ← find 110 x
          let b ← find 110 y
          pure (a == b)) s
        fun e _ => e = true ↔ Joined (pairs [.union 0 1, .findRoot 0, .union 2 0]) x y) :=
  run_partition _ 3 110 (by decide) (by decide) (by decide) (by decide)

end LanguageTest.UnionFind
