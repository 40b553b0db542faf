import LanguageTest.Library.Neighbours
import LanguageTest.Tree.RBTreeRuns

namespace LanguageTest.RBTree
open BinaryTree

/-- The tree without the leaf to which the way down leads that prefers the left side. -/
def prune : Shape → Shape
  | nil => nil
  | node v (node w a b) r => node v (prune (node w a b)) r
  | node v nil (node w a b) => node v nil (prune (node w a b))
  | node _ nil nil => nil

/-- The variable that points to the tree in the hole. -/
def linkTo : AddrContext Item → Link
  | [] => .root
  | f :: _ => .child f.side (some f.value.1)

section
variable {s : State} {c : AddrContext Item} {T t : Shape} {v : Addr × Item} {fuel : Nat}

theorem numNodes_prune (t : Shape) : (prune t).numNodes = t.numNodes - 1 := by
  induction t using prune.induct with
  | case1 => rfl
  | case2 v w a b r ih =>
    simp only [prune, numNodes] at ih ⊢
    omega
  | case3 v w a b ih =>
    simp only [prune, numNodes] at ih ⊢
    omega
  | case4 => rfl

theorem prune_eq_nil_iff : prune t = nil ↔ t.numNodes ≤ 1 := by
  have hcount := numNodes_prune t
  cases hp : prune t with
  | nil =>
    rw [hp, numNodes] at hcount
    simp only [true_iff]
    omega
  | node v l r =>
    rw [hp, numNodes] at hcount
    simp only [reduceCtorEq, false_iff]
    omega

theorem Represents.runs_readLink {Q : Ptr → State → Prop} (h : Represents s (plug c t) none) :
    Runs (readLink (linkTo c)) s Q ↔ Q (rootPtr t) s := by
  cases c with
  | nil => simp [linkTo, readLink, h.root]
  | cons f c =>
    have hf := Represents.load (d := f.side) (v := f.value) (a := t) (b := f.other) h
    simp [linkTo, readLink, hf]

/-- A leaf is released, and the pointer to it becomes NULL. -/
theorem releaseLeaf_spec (h : Represents s (plug c (node v nil nil)) none) :
    Runs (do delete (some v.1); writeLink none (linkTo c)) s fun _ u =>
      Represents u (plug c nil) none := by
  have hv := h.load (d := .left)
  have hn := h.nodup
  rw [nodup_plug] at hn
  obtain ⟨-, hcn, hdisjoint⟩ := hn
  have hvc : v.1 ∉ contextAddrs c := fun hm => hdisjoint (by simp) hm
  have hhung := (linked_plug.mp h.linked).1.release hvc
  have hdomain (a : Addr) : ((s.heap.release v.1).cells a).isSome = true ↔
      a ∈ addrs (plug c nil) := by
    have hd := h.domain a
    rw [mem_addrs_plug] at hd ⊢
    rw [Heap.release_cells]
    split_ifs with ha
    · simpa [ha] using hvc
    · simpa [ha] using hd
  have hnodup : (addrs (plug c nil)).Nodup := by
    rw [nodup_plug]
    simpa using hcn
  rw [runs_bind, runs_delete, hv, Option.isSome_some]
  refine ⟨rfl, ?_⟩
  cases c with
  | nil =>
    simp only [linkTo, writeLink, setRoot, runs_setObject]
    exact ⟨rfl, trivial, hnodup, by simpa using hdomain⟩
  | cons f c =>
    have hf := hhung.1
    rw [contextAddrs_cons, List.nodup_cons, List.mem_append] at hcn
    simp only [linkTo, writeLink, runs_modify, hf, Option.isSome_some, true_and]
    refine ⟨?_, ?_, hnodup, fun a => ?_⟩
    · rw [h.root]
      exact rootPtr_plug_cons f c _ _
    · refine linked_plug.mpr ⟨hhung.hole_congr ?_ ?_, trivial⟩
      · simp only [Heap.modify_cells, ↓reduceIte, hf, Option.map_some, cellAt_setChild, rootPtr_nil]
      · intro x hx
        rw [Heap.modify_cells, if_neg]
        intro heq
        subst heq
        exact hcn.1 hx
    · rw [Heap.modify_isSome, hdomain]
      simp

/-- Each call returns what the call for one child returns, so that one leaf is released. -/
theorem destroyLink_spec (h : Represents s (plug c t) none) (hf : t.numNodes < fuel) :
    Runs (destroyLink fuel (linkTo c)) s fun _ u => Represents u (plug c (prune t)) none := by
  induction fuel generalizing c t with
  | zero => omega
  | succ fuel ih =>
    rw [destroyLink, runs_bind, h.runs_readLink]
    cases t with
    | nil =>
      simp only [rootPtr_nil, Option.isNone_none, ↓reduceIte, runs_pure]
      exact h
    | node v l r =>
      have hv := h.load (d := .left)
      have hleft (near far up : Ptr) : (cellAt cell .left v.2 near far up).left = near := rfl
      have hright (near far up : Ptr) : (cellAt cell .left v.2 near far up).right = far := rfl
      simp only [numNodes] at hf
      simp only [rootPtr_node, Option.isNone_some, Bool.false_eq_true, ↓reduceIte, runs_bind,
        runs_load, hv, Option.some.injEq, exists_eq_left', hleft]
      cases l with
      | node w a b =>
        rw [rootPtr_node, Option.isSome_some, if_pos rfl]
        exact ih (c := ⟨.left, v, r⟩ :: c) h (by omega)
      | nil =>
        simp only [rootPtr_nil, Option.isSome_none, Bool.false_eq_true, ↓reduceIte, runs_bind,
          runs_load, hv, Option.some.injEq, exists_eq_left', hright]
        cases r with
        | node w a b =>
          rw [rootPtr_node, Option.isSome_some, if_pos rfl]
          exact ih (c := ⟨.right, v, nil⟩ :: c) h (by omega)
        | nil =>
          rw [rootPtr_nil, Option.isSome_none, if_neg Bool.false_ne_true]
          exact releaseLeaf_spec h

theorem destroy_spec (h : Represents s T none) (hf : T.numNodes < fuel) :
    Runs (destroy fuel) s fun _ u => Represents u (prune T) none :=
  destroyLink_spec (c := []) h hf

/-- No node is left, and none would be reached. -/
def Released (u : State) : Prop := (∀ a, u.heap.cells a = none) ∧ u.object.mRoot = none

theorem released_iff {u : State} (h : Represents u T none) : Released u ↔ T = nil := by
  constructor
  · intro hu
    rw [← rootPtr_eq_none, ← h.root]
    exact hu.2
  · intro hT
    subst hT
    refine ⟨?_, h.root⟩
    intro a
    have ha := h.domain a
    simpa using ha

/-- All nodes have been released once, and an insertion begins with an empty tree. -/
def Destroyed (fuel : Nat) (u : State) : Prop :=
  Released u ∧ ∀ key, Runs (insert fuel key) u fun _ w =>
    ∃ T', Represents w T' none ∧ keys T' = [key]

theorem destroyed_iff {u : State} (h : Represents u T none) (hf : 0 < fuel) :
    Destroyed fuel u ↔ T = nil := by
  constructor
  · intro hu
    exact (released_iff h).mp hu.1
  · intro hT
    refine ⟨(released_iff h).mpr hT, fun key => ?_⟩
    subst hT
    refine (insert_spec (m := 0) h List.Pairwise.nil .nil hf).mono ?_
    intro _ w hw
    obtain ⟨T', m', z, hr, -, -, -, hE⟩ := hw
    refine ⟨T', hr, ?_⟩
    have hkeys := hE.map Prod.snd
    rw [← keys_eq_entries] at hkeys
    simpa [entries] using hkeys

/-- In every tree that calls can build, `destroy` does its work exactly when there is at most one
node. -/
theorem run_destroy (ops : List Op) (fuel : Nat) (hf : ops.length < fuel) :
    Runs (run fuel ops) initial fun _ s =>
      ∃ T, Represents s T none ∧ ∀ fuel', ops.length < fuel' →
        ((Runs (destroy fuel') s fun _ u => Destroyed fuel' u) ↔ T.numNodes ≤ 1) := by
  refine (run_valid hf).mono ?_
  intro _ s hvalid
  obtain ⟨T, m, hr, -, -, hn⟩ := hvalid
  refine ⟨T, hr, ?_⟩
  intro fuel' hf'
  obtain ⟨_, u, hu, hrest⟩ := destroy_spec hr (show T.numNodes < fuel' by omega)
  rw [runs_of_ok hu, destroyed_iff hrest (by omega), prune_eq_nil_iff]

theorem run_destroy_removal :
    Runs (run 4 [.insert 1, .insert 2, .remove 1]) initial fun _ s =>
      ∃ T, Represents s T none ∧ ∀ fuel', 3 < fuel' →
        ((Runs (destroy fuel') s fun _ u => Destroyed fuel' u) ↔ T.numNodes ≤ 1) :=
  run_destroy [.insert 1, .insert 2, .remove 1] 4 (by decide)

/-- Of two nodes, `destroy` releases the one with the key 2. -/
theorem destroy_two : ¬ Runs (do
    let _ ← run 3 [.insert 1, .insert 2]
    destroy 3) initial fun _ u => Destroyed 3 u := by
  have hroot : Runs (do
      let _ ← run 3 [.insert 1, .insert 2]
      destroy 3) initial fun _ u => u.object.mRoot = some 0 := ⟨_, _, rfl, rfl⟩
  intro h
  obtain ⟨_, u, -, hdestroyed, hzero⟩ := h.and hroot
  rw [hdestroyed.1.2] at hzero
  contradiction

end

end LanguageTest.RBTree
