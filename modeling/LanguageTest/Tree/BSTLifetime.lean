import LanguageTest.Library.LevelOrder
import LanguageTest.Tree.BSTRuns
import LanguageTest.Tree.Traversal
import Mathlib.Data.Finset.Sort

namespace LanguageTest.BST
open BinaryTree

/-- The constructor, on an object whose fields have no values yet. -/
def construct (fuel : Nat) (arr : List Int) : Program State Unit := do
  setObject fun _ => ⟨none, 0⟩
  arr.forM fun data => do
    let _ ← insertNode fuel data
    pure ()

/-- `setw(4)` before a number. -/
def setw4 (data : Int) : List Char := List.leftpad 4 ' ' (toString data).toList

/-- The visit of a node by the loop that prints the tree. -/
def BTNode.print (n : BTNode) (out : List Char) : List Char := out ++ setw4 n.data

/-- The result is what has been printed. -/
def inOrderWithoutRecursion (fuel : Nat) : Program State (List Char) := do
  if !(← empty) then
    let w ← inorderWalk BTNode.lchild BTNode.rchild (fun n out => pure (n.print out)) fuel
      (← getObject).root []
    pure (w.acc ++ ['\n'])
  else pure []

def traverse (fuel : Nat) : Program State (List Char) := inOrderWithoutRecursion fuel

def destroy (fuel : Nat) : Program State Unit := do
  if !(← empty) then
    loop (releasePass BTNode.lchild BTNode.rchild) fuel [(← getObject).root]

/-- A tree is made of an array, used, printed and destroyed. The results are those of the calls and
what has been printed. -/
def lifetime (fuel : Nat) (arr : List Int) (ops : List Op) :
    Program State (List Bool × List Char) := do
  construct fuel arr
  let rs ← run fuel ops
  let out ← traverse fuel
  destroy fuel
  pure (rs, out)

/-- The elements in ascending order, as `traverse` prints them. -/
def listed (S : Finset Int) : List Char :=
  if S = ∅ then [] else S.sort.flatMap setw4 ++ ['\n']

/-- The insertions of the constructor. -/
def insertions (arr : List Int) : List Op := arr.map .insertNode

section
variable {s : State} {t : Shape} {fuel : Nat} {arr : List Int} {ops ops' : List Op}
  {out : List Char}

theorem runs_construct {Q : Unit → State → Prop} :
    Runs (construct fuel arr) s Q ↔
      Runs (run fuel (insertions arr)) ⟨⟨none, 0⟩, s.heap⟩ fun _ u => Q () u := by
  have hloop (u : State) : Runs (arr.forM fun data => do
        let _ ← insertNode fuel data
        pure ()) u Q ↔ Runs (run fuel (insertions arr)) u fun _ w => Q () w := by
    induction arr generalizing u with
    | nil => exact Iff.trans runs_pure (runs_pure (a := []) (Q := fun _ => Q ())).symm
    | cons x arr ih =>
      simp only [List.forM_eq_forM, List.forM_cons, insertions, List.map_cons, run, runAll, step,
        runs_bind, runs_pure] at ih ⊢
      simp only [ih]
  rw [construct, runs_bind, runs_setObject]
  exact hloop _

theorem changes_append_changes (ops ops' : List Op) (S : Finset Int) :
    changes (ops ++ ops') S =
      changes ops S ++ changes ops' (ops.foldl (fun S op => op.onSet S) S) := by
  induction ops generalizing S with
  | nil => rfl
  | cons op ops ih => rw [List.cons_append, changes, changes, ih, List.foldl_cons, List.cons_append]

theorem length_changes (ops : List Op) (S : Finset Int) : (changes ops S).length = ops.length := by
  induction ops generalizing S with
  | nil => rfl
  | cons op ops ih => simp [changes, ih]

theorem foldl_print (t : Shape) (out : List Char) :
    (visits BTNode.mk t).foldl (fun b n => BTNode.print n.2 b) out =
      out ++ (keys t).flatMap setw4 := by
  induction t generalizing out with
  | nil => simp [visits, keys]
  | node v l r hl hr =>
    rw [visits, List.foldl_append, List.foldl_cons, hl, hr]
    simp [BTNode.print, keys, keyOf]

/-- The keys from left to right are those of their set in ascending order. -/
theorem Represents.listed_eq (h : Represents s t) : listed (keys t).toFinset =
    if t = nil then [] else (keys t).flatMap setw4 ++ ['\n'] := by
  have hempty : (keys t).toFinset = ∅ ↔ t = nil := by
    rw [List.toFinset_eq_empty_iff, keys, List.map_eq_nil_iff]
    cases t <;> simp
  have hincreasing : (keys t).Pairwise (· < ·) := h.increasing
  have hsort : (keys t).toFinset.sort = keys t :=
    (List.toFinset_sort _ hincreasing.nodup).mpr (hincreasing.imp le_of_lt)
  rw [listed, hsort]
  simp only [hempty]

theorem Represents.runs_traverse (h : Represents s t) (hf : 2 * t.numNodes < fuel) :
    Runs (traverse fuel) s fun out u => u = s ∧ out = listed (keys t).toFinset := by
  rw [traverse, inOrderWithoutRecursion, runs_bind, BST.runs_empty h.toStores, h.listed_eq]
  cases t with
  | nil => exact runs_pure.mpr ⟨rfl, rfl⟩
  | node v l r =>
    simp only [rootPtr_node, Option.isNone_some, Bool.not_false, ↓reduceIte, runs_bind,
      runs_getObject, h.root]
    refine (runs_inorderWalk (by intros; rfl) (by intros; rfl) visits_pure h.linked hf).mono ?_
    rintro w _ ⟨rfl, -, hacc⟩
    rw [runs_pure, hacc, foldl_print]
    exact ⟨rfl, rfl⟩

/-- The destructor releases every node once, and leaves none. -/
theorem Represents.runs_destroy (h : Represents s t) (hf : t.numNodes < fuel) :
    Runs (destroy fuel) s fun _ u => ∀ a, u.heap.cells a = none := by
  rw [destroy, runs_bind, BST.runs_empty h.toStores]
  cases t with
  | nil =>
    refine runs_pure.mpr fun a => ?_
    have hd := h.domain a
    simpa using hd
  | node v l r =>
    simp only [rootPtr_node, Option.isNone_some, Bool.not_false, ↓reduceIte, runs_bind,
      runs_getObject, h.root]
    exact (runs_release (by intros; rfl) (by intros; rfl) h.linked h.nodup h.domain hf).mono
      fun _ _ hu => hu.2

/-- In the end nothing is left of the tree. What was printed is the set that the calls have made. -/
def Lived (arr : List Int) (ops : List Op) (r : List Bool × List Char) (u : State) : Prop :=
  r.1 = changes ops (setAfter (insertions arr)) ∧
    r.2 = listed (setAfter (insertions arr ++ ops)) ∧ ∀ a, u.heap.cells a = none

theorem ActsAsSet.runs_end {rs rs' : List Bool}
    (h : ActsAsSet (insertions arr ++ ops) (rs ++ rs') s t) (hlength : rs.length = arr.length)
    (hf : 2 * t.numNodes < fuel) :
    Runs (do
      let out ← traverse fuel
      destroy fuel
      pure (rs', out)) s (Lived arr ops) := by
  have hresults := h.results
  rw [changes_append_changes] at hresults
  have hrs' := (List.append_inj hresults (by rw [length_changes, hlength, insertions,
    List.length_map])).2
  simp only [runs_bind, runs_pure]
  refine (h.represents.runs_traverse hf).mono ?_
  rintro out _ ⟨rfl, rfl⟩
  refine (h.represents.runs_destroy (by omega)).mono fun _ u hu => ?_
  exact ⟨hrs', by rw [h.keys], hu⟩

/-- A tree made of an array, used, printed and destroyed gives back all memory, and its results are
those of a set, exactly if every call is harmless, the insertions of the constructor included. -/
theorem lifetime_iff (arr : List Int) (ops : List Op) (fuel : Nat)
    (hf : 2 * (arr.length + ops.length) < fuel) (o : Fields) :
    Runs (lifetime fuel arr ops) ⟨o, Heap.empty⟩ (Lived arr ops) ↔
      StepsMeet (step fuel) Harmless (insertions arr ++ ops) initial := by
  have hall : 2 * (insertions arr ++ ops).length < fuel := by
    simpa [insertions] using hf
  simp only [lifetime, runs_bind, runs_construct]
  constructor
  · intro hr
    have hrun : Runs (run fuel (insertions arr ++ ops)) initial fun _ _ => True :=
      runs_runAll_append.mpr (hr.mono fun _ _ h => h.mono fun _ _ _ => trivial)
    exact StepsMeet.of_runs (fun pre rs s => ∃ t, ActsAsSet pre rs s t) _
      (fun pre op post rs s => step_acts pre op post rs s hall)
      (fun pre op post rs s => step_harmless pre op post rs s hall) ⟨nil, initial_acts⟩ hrun
  · intro hm
    have hrun := runs_runAll_append.mp ((run_set_iff _ fuel hall).mpr hm)
    have hmade := (run_set_iff (insertions arr) fuel (by simp [insertions]; omega)).mpr hm.left
    refine (hrun.and hmade).mono ?_
    rintro rs u ⟨hrest, _, hacts⟩
    have hlength : rs.length = arr.length := by
      rw [hacts.results, length_changes, insertions, List.length_map]
    refine hrest.mono ?_
    rintro rs' w ⟨t, h⟩
    have hle := h.numNodes_le
    have hsmall : 2 * t.numNodes < fuel := by omega
    simpa only [runs_bind] using h.runs_end hlength hsmall

theorem lifetime_iff_sample :
    Runs (lifetime 11 [2, 1] [.insertNode 3, .insertNode 3, .deleteNode 1]) ⟨⟨none, 7⟩, Heap.empty⟩
        (Lived [2, 1] [.insertNode 3, .insertNode 3, .deleteNode 1]) ↔
      StepsMeet (step 11) Harmless
        (insertions [2, 1] ++ [.insertNode 3, .insertNode 3, .deleteNode 1]) initial :=
  lifetime_iff [2, 1] _ 11 (by decide) ⟨none, 7⟩

end

end LanguageTest.BST
