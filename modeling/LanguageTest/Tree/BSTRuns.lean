import Mathlib.Data.Finset.Card
import LanguageTest.Tree.BSTDelete

namespace LanguageTest.BST
open BinaryTree

/-- The same operation on a mathematical set. -/
def Op.onSet : Op → Finset Int → Finset Int
  | .insertNode data, S => insert data S
  | .deleteNode data, S => S.erase data

def setAfter (ops : List Op) : Finset Int := ops.foldl (fun S op => op.onSet S) ∅

/-- For every operation, whether it changes the set. -/
def changes : List Op → Finset Int → List Bool
  | [], _ => []
  | op :: ops, S => decide (op.onSet S ≠ S) :: changes ops (op.onSet S)

/-- The tree after these calls is a strict search tree of the keys that the same operations leave
in a set, its size is their number, and every call returned whether it changed the set. -/
structure ActsAsSet (ops : List Op) (rs : List Bool) (s : State) (t : Shape) : Prop where
  represents : Represents s t
  keys : (keys t).toFinset = setAfter ops
  size : s.object.size = (setAfter ops).card
  results : rs = changes ops ∅

/-- A key that is inserted is stored already, or `size` can count one more. A key that is deleted is
not that of the root. -/
def Harmless : Op → State → Prop
  | .insertNode data, s =>
    s.object.size < 2147483647 ∨ ∃ a n, s.heap.cells a = some n ∧ n.data = data
  | .deleteNode data, s =>
    ∀ a n, s.object.root = some a → s.heap.cells a = some n → n.data ≠ data

variable {s : State} {t : Shape} {data : Int} {fuel : Nat} {ops : List Op}

theorem setAfter_append (ops : List Op) (op : Op) :
    setAfter (ops ++ [op]) = op.onSet (setAfter ops) := by
  simp [setAfter]

theorem changes_append (ops : List Op) (op : Op) (S : Finset Int) :
    changes (ops ++ [op]) S =
      changes ops S ++
        [decide (op.onSet (ops.foldl (fun S op => op.onSet S) S) ≠
          ops.foldl (fun S op => op.onSet S) S)] := by
  induction ops generalizing S with
  | nil => rfl
  | cons o ops ih =>
    rw [List.cons_append, changes, ih, changes, List.foldl_cons, List.cons_append]

theorem numNodes_eq_card (h : Represents s t) : t.numNodes = (keys t).toFinset.card := by
  have hn : (keys t).Nodup := h.increasing.nodup
  rw [List.toFinset_card_of_nodup hn]
  simp [keys]

/-- A call keeps the invariant when the set of keys and the result are those of the set. -/
theorem ActsAsSet.next {rs : List Bool} {op : Op} {b : Bool} {u : State} {t' : Shape}
    (h : ActsAsSet ops rs s t) (hu : Represents u t')
    (hk : (BST.keys t').toFinset = op.onSet (BST.keys t).toFinset)
    (hb : b = decide (op.onSet (BST.keys t).toFinset ≠ (BST.keys t).toFinset)) :
    ActsAsSet (ops ++ [op]) (rs ++ [b]) u t' := by
  rw [h.keys] at hk hb
  refine ⟨hu, ?_, ?_, ?_⟩
  · rw [setAfter_append, hk]
  · rw [hu.size, numNodes_eq_card hu, setAfter_append, hk]
  · rw [changes_append, h.results, hb, setAfter]

theorem keys_of_perm {t' : Shape} {a : Addr} (hp : t'.inorder.Perm ((a, data) :: t.inorder)) :
    (keys t').Perm (data :: keys t) := hp.map keyOf

theorem insertNode_acts {rs : List Bool} (h : ActsAsSet ops rs s t)
    (hroom : t.numNodes < 2147483647 ∨ data ∈ BST.keys t) (hf : t.numNodes < fuel) :
    Runs (insertNode fuel data) s fun b u =>
      ∃ t', ActsAsSet (ops ++ [.insertNode data]) (rs ++ [b]) u t' := by
  refine (insertNode_spec h.represents hroom hf).mono ?_
  intro b u hb
  cases b with
  | true =>
    obtain ⟨hm, t', hu, a, hp⟩ := hb
    have hk : (keys t').toFinset = insert data (keys t).toFinset := by
      rw [List.toFinset_eq_of_perm _ _ (keys_of_perm hp), List.toFinset_cons]
    refine ⟨t', h.next hu hk (decide_eq_true ?_).symm⟩
    simpa [Op.onSet] using hm
  | false =>
    obtain ⟨hm, rfl⟩ := hb
    have hk : (keys t).toFinset = insert data (keys t).toFinset :=
      (Finset.insert_eq_of_mem (List.mem_toFinset.mpr hm)).symm
    exact ⟨t, h.next h.represents hk (decide_eq_false (not_not.mpr hk.symm)).symm⟩

theorem deleteNode_acts {rs : List Bool} (h : ActsAsSet ops rs s t)
    (hr : t.value?.map keyOf ≠ some data) (hf : 2 * t.numNodes < fuel) :
    Runs (deleteNode fuel data) s fun b u =>
      ∃ t', ActsAsSet (ops ++ [.deleteNode data]) (rs ++ [b]) u t' := by
  refine (deleteNode_spec h.represents hr hf).mono ?_
  intro b u hb
  cases b with
  | true =>
    obtain ⟨t', hu, a, hp⟩ := hb
    have hp := keys_of_perm hp
    have hn := h.represents.increasing.nodup
    rw [show t.inorder.map keyOf = keys t from rfl, hp.nodup_iff, List.nodup_cons] at hn
    have hk : (keys t').toFinset = (keys t).toFinset.erase data := by
      rw [List.toFinset_eq_of_perm _ _ hp, List.toFinset_cons, Finset.erase_insert]
      simpa using hn.1
    refine ⟨t', h.next hu hk (decide_eq_true ?_).symm⟩
    have hm : data ∈ keys t := hp.mem_iff.mpr (List.mem_cons_self ..)
    simpa [Op.onSet] using hm
  | false =>
    obtain ⟨hm, rfl⟩ := hb
    have hk : (keys t).toFinset = (keys t).toFinset.erase data := by
      rw [Finset.erase_eq_of_notMem]
      simpa using hm
    exact ⟨t, h.next h.represents hk (decide_eq_false (not_not.mpr hk.symm)).symm⟩

theorem Stores.load_of_mem (h : Stores s t) {v : Addr × Int} (hv : v ∈ t.inorder) :
    ∃ n, s.heap.cells v.1 = some n ∧ n.data = v.2 := by
  suffices hl : ∀ (t : Shape) (up : Ptr), Linked cell s.heap up t → v ∈ t.inorder →
      ∃ n, s.heap.cells v.1 = some n ∧ n.data = v.2 from hl t none h.linked hv
  intro t
  induction t with
  | nil => simp
  | node w l r ihl ihr =>
    intro up hlinked hmem
    obtain ⟨hw, hl, hr⟩ := linked_node.mp hlinked
    rw [inorder_node, List.mem_append, List.mem_cons] at hmem
    rcases hmem with hmem | rfl | hmem
    · exact ihl _ hl hmem
    · exact ⟨_, hw, rfl⟩
    · exact ihr _ hr hmem

/-- The keys are what the nodes in the heap hold. -/
theorem Stores.mem_keys_iff (h : Stores s t) :
    data ∈ keys t ↔ ∃ a n, s.heap.cells a = some n ∧ n.data = data := by
  constructor
  · intro hm
    obtain ⟨v, hv, rfl⟩ := List.mem_map.mp hm
    obtain ⟨n, hn, hdata⟩ := h.load_of_mem hv
    exact ⟨v.1, n, hn, hdata⟩
  · rintro ⟨a, n, hn, rfl⟩
    obtain ⟨v, hv, rfl⟩ := List.mem_map.mp ((h.domain a).mp (by rw [hn]; rfl))
    obtain ⟨m, hm, hdata⟩ := h.load_of_mem hv
    obtain rfl := Option.some.inj (hm.symm.trans hn)
    exact List.mem_map.mpr ⟨v, hv, hdata.symm⟩

theorem harmless_insertNode (h : Represents s t) :
    Harmless (.insertNode data) s ↔ t.numNodes < 2147483647 ∨ data ∈ keys t := by
  have hsize := h.size
  rw [Harmless, h.mem_keys_iff]
  refine or_congr_left ?_
  omega

theorem harmless_deleteNode (h : Represents s t) :
    Harmless (.deleteNode data) s ↔ t.value?.map keyOf ≠ some data := by
  cases t with
  | nil => simp [Harmless, h.root]
  | node v l r =>
    have h0 : Stores s (plug [] (node v l r)) := h.toStores
    simp only [Harmless, h.root, rootPtr_node, Option.some.injEq, value?_node, Option.map_some,
      ne_eq, keyOf]
    constructor
    · exact fun hs => hs v.1 _ rfl h0.load
    · intro hne _ n heq hn
      subst heq
      obtain rfl := Option.some.inj (h0.load.symm.trans hn)
      exact hne

theorem initial_acts : ActsAsSet [] [] initial nil :=
  ⟨⟨⟨rfl, trivial, List.nodup_nil, by simp [initial]⟩, rfl, Nat.zero_le _, List.Pairwise.nil⟩, rfl,
    rfl, rfl⟩

/-- The bound on the loops suffices at every point of a run. -/
theorem ActsAsSet.numNodes_le {rs : List Bool} (h : ActsAsSet ops rs s t) :
    t.numNodes ≤ ops.length := by
  have hcard : ∀ (ops : List Op) (S : Finset Int),
      (ops.foldl (fun S op => op.onSet S) S).card ≤ S.card + ops.length := by
    intro ops
    induction ops with
    | nil => simp
    | cons op ops ih =>
      intro S
      have hop : (op.onSet S).card ≤ S.card + 1 := by
        cases op with
        | insertNode data => exact Finset.card_insert_le _ _
        | deleteNode data => exact (Finset.card_le_card (Finset.erase_subset _ _)).trans (by omega)
      have hi := ih (op.onSet S)
      simp only [List.foldl_cons, List.length_cons]
      omega
  rw [numNodes_eq_card h.represents, h.keys, setAfter]
  simpa using hcard ops ∅

theorem step_acts (pre : List Op) (op : Op) (post : List Op) (rs : List Bool) (s : State)
    (hf : 2 * ops.length < fuel) (he : ops = pre ++ op :: post)
    (h : ∃ t, ActsAsSet pre rs s t) (hc : Harmless op s) :
    Runs (step fuel op) s fun b u => ∃ t, ActsAsSet (pre ++ [op]) (rs ++ [b]) u t := by
  obtain ⟨t, h⟩ := h
  have hle := h.numNodes_le
  rw [he, List.length_append, List.length_cons] at hf
  cases op with
  | insertNode data => exact insertNode_acts h ((harmless_insertNode h.represents).mp hc) (by omega)
  | deleteNode data => exact deleteNode_acts h ((harmless_deleteNode h.represents).mp hc) (by omega)

/-- A call that gets through was harmless. -/
theorem step_harmless (pre : List Op) (op : Op) (post : List Op) (rs : List Bool) (s : State)
    (hf : 2 * ops.length < fuel) (he : ops = pre ++ op :: post)
    (h : ∃ t, ActsAsSet pre rs s t) (hr : Runs (step fuel op) s fun _ _ => True) :
    Harmless op s := by
  obtain ⟨t, h⟩ := h
  have hle := h.numNodes_le
  rw [he, List.length_append, List.length_cons] at hf
  cases op with
  | insertNode data =>
    rw [harmless_insertNode h.represents]
    by_contra hnot
    obtain ⟨hfull, hm⟩ := not_or.mp hnot
    have hbounded := h.represents.bounded
    exact hr.not_fails (insertNode_full h.represents (by omega) hm (by omega))
  | deleteNode data =>
    rw [harmless_deleteNode h.represents]
    intro hroot
    exact hr.not_fails (deleteNode_root h.represents hroot (by omega))

/-- A run acts on a set exactly as long as it never deletes the key of the root, and never counts
beyond what `size` holds. -/
theorem run_set_iff (ops : List Op) (fuel : Nat) (hf : 2 * ops.length < fuel) :
    Runs (run fuel ops) initial (fun rs s => ∃ t, ActsAsSet ops rs s t) ↔
      StepsMeet (step fuel) Harmless ops initial :=
  ⟨StepsMeet.of_runs (fun pre rs s => ∃ t, ActsAsSet pre rs s t) ops
      (fun pre op post rs s => step_acts pre op post rs s hf)
      (fun pre op post rs s => step_harmless pre op post rs s hf) ⟨nil, initial_acts⟩,
    StepsMeet.runs_all (fun pre rs s => ∃ t, ActsAsSet pre rs s t) ops
      (fun pre op post rs s => step_acts pre op post rs s hf) ⟨nil, initial_acts⟩⟩

theorem run_set_iff_delete :
    Runs (run 9 [.insertNode 2, .insertNode 1, .insertNode 3, .deleteNode 1]) initial
        (fun rs s => ∃ t, ActsAsSet [.insertNode 2, .insertNode 1, .insertNode 3, .deleteNode 1]
          rs s t) ↔
      StepsMeet (step 9) Harmless
        [.insertNode 2, .insertNode 1, .insertNode 3, .deleteNode 1] initial :=
  run_set_iff _ 9 (by decide)

/-- Deleting the only key follows the null parent of the root. -/
theorem run_set_root :
    ¬ ∀ (ops : List Op) (fuel : Nat), 2 * ops.length < fuel →
      Runs (run fuel ops) initial (fun rs s => ∃ t, ActsAsSet ops rs s t) := by
  intro h
  have hr := h [.insertNode 1, .deleteNode 1] 5 (by decide)
  have hfail : Fails (run 5 [.insertNode 1, .deleteNode 1]) initial .nullPointer := rfl
  exact hr.not_fails hfail

end LanguageTest.BST
