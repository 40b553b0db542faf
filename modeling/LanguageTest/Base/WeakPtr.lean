import LanguageTest.Library.Arithmetic
import LanguageTest.Library.Heap
import LanguageTest.Library.Handles
import Mathlib.Logic.Function.Basic

namespace LanguageTest.WeakPtr
open Handles

variable {H W : Type}

structure Counter where
  s : Int
  w : Int

/-- The fields of a SharePtr or a WeakPtr. -/
structure Fields where
  ptr : Ptr
  cnt : Ptr
  deriving DecidableEq

/-- A pool of SharePtrs and one of WeakPtrs, each with its fields while it exists, and the objects
they point to. `target` is history: the pointer that a counter was made for. -/
structure Pools (H W : Type) where
  share : H → Option Fields
  weak : W → Option Fields
  objects : Heap Unit
  target : Addr → Ptr

/-- The heap holds the counters. -/
abbrev State (H W : Type) := Machine (Pools H W) Counter

def getShare (h : H) : Program (State H W) Fields := fun s =>
  match s.object.share h with
  | some x => .ok (x, s)
  | none => .error .dangling

def getWeak (k : W) : Program (State H W) Fields := fun s =>
  match s.object.weak k with
  | some x => .ok (x, s)
  | none => .error .dangling

def setShare [DecidableEq H] (h : H) (x : Option Fields) : Program (State H W) Unit :=
  setObject fun o => { o with share := Function.update o.share h x }

def setWeak [DecidableEq W] (k : W) (x : Option Fields) : Program (State H W) Unit :=
  setObject fun o => { o with weak := Function.update o.weak k x }

def newObject : Program (State H W) Ptr := fun s =>
  .ok (some s.object.objects.next,
    { s with object := { s.object with objects := s.object.objects.alloc () } })

/-- `delete _ptr` -/
def deleteObject : Ptr → Program (State H W) Unit
  | none => pure ()
  | some o => fun s =>
    if (s.object.objects.cells o).isSome then
      .ok ((), { s with object := { s.object with objects := s.object.objects.release o } })
    else .error .dangling

/-- `cnt->s++` and `cnt->s--` -/
def countShare (cnt : Ptr) (k : Int) : Program (State H W) Unit := do
  let s ← int ((← load cnt).s + k)
  modify cnt fun c => { c with s := s }

/-- `cnt->w++` and `cnt->w--` -/
def countWeak (cnt : Ptr) (k : Int) : Program (State H W) Unit := do
  let w ← int ((← load cnt).w + k)
  modify cnt fun c => { c with w := w }

/-- `new Counter()`, for a SharePtr on `p`. -/
def newCounter (p : Ptr) : Program (State H W) Ptr := do
  let cnt ← new ⟨0, 0⟩
  match cnt with
  | none => pure none
  | some a =>
    setObject fun o => { o with target := Function.update o.target a p }
    pure (some a)

/-- `release()` of a SharePtr, with the fields it leaves. -/
def shareRelease (x : Fields) : Program (State H W) Fields := do
  countShare x.cnt (-1)
  if (← load x.cnt).s < 1 then
    deleteObject x.ptr
    if (← load x.cnt).w < 1 then
      delete x.cnt
      pure { x with cnt := none }
    else pure x
  else pure x

/-- `release()` of a WeakPtr. -/
def weakRelease (x : Fields) : Program (State H W) Fields := do
  if x.cnt.isSome then
    countWeak x.cnt (-1)
    let c ← load x.cnt
    if c.w < 1 ∧ c.s < 1 then pure { x with cnt := none } else pure x
  else pure x

section
variable [DecidableEq H]

def construct (h : H) (p : Ptr) : Program (State H W) Unit := do
  let cnt ← newCounter p
  if p.isSome then modify cnt fun c => { c with s := 1 }
  setShare h (some ⟨p, cnt⟩)

def copy (h other : H) : Program (State H W) Unit := do
  let x ← getShare other
  countShare x.cnt 1
  setShare h (some x)

/-- The SharePtr that `lock()` constructs from a WeakPtr. -/
def lock (h : H) (k : W) : Program (State H W) Unit := do
  let x ← getWeak k
  countShare x.cnt 1
  setShare h (some x)

def assign (h other : H) : Program (State H W) Unit := do
  if h ≠ other then
    setShare h (some (← shareRelease (← getShare h)))
    let x ← getShare other
    countShare x.cnt 1
    setShare h (some x)

def destroy (h : H) : Program (State H W) Unit := do
  let _ ← shareRelease (← getShare h)
  setShare h none

end

section
variable [DecidableEq W]

def weakConstruct (k : W) : Program (State H W) Unit := setWeak k (some ⟨none, none⟩)

def weakFrom (k : W) (h : H) : Program (State H W) Unit := do
  let x ← getShare h
  setWeak k (some x)
  countWeak x.cnt 1

def weakCopy (k j : W) : Program (State H W) Unit := do
  let x ← getWeak j
  setWeak k (some x)
  countWeak x.cnt 1

def weakAssign (k j : W) : Program (State H W) Unit := do
  if k ≠ j then
    setWeak k (some (← weakRelease (← getWeak k)))
    let x ← getWeak j
    countWeak x.cnt 1
    setWeak k (some x)

def weakAssignShare (k : W) (h : H) : Program (State H W) Unit := do
  setWeak k (some (← weakRelease (← getWeak k)))
  let x ← getShare h
  countWeak x.cnt 1
  setWeak k (some x)

def weakDestroy (k : W) : Program (State H W) Unit := do
  let _ ← weakRelease (← getWeak k)
  setWeak k none

end

def expired (k : W) : Program (State H W) Bool := do
  let x ← getWeak k
  if x.cnt.isSome then
    pure (!decide ((← load x.cnt).s > 0))
  else pure true

inductive Op (H W : Type) where
  | constructNew (h : H)
  | constructNull (h : H)
  | copy (h other : H)
  | lock (h : H) (k : W)
  | assign (h other : H)
  | destroy (h : H)
  | weakConstruct (k : W)
  | weakFrom (k : W) (h : H)
  | weakCopy (k j : W)
  | weakAssign (k j : W)
  | weakAssignShare (k : W) (h : H)
  | weakDestroy (k : W)

def step [DecidableEq H] [DecidableEq W] : Op H W → Program (State H W) Unit
  | .constructNew h => do construct h (← newObject)
  | .constructNull h => construct h none
  | .copy h other => copy h other
  | .lock h k => lock h k
  | .assign h other => assign h other
  | .destroy h => destroy h
  | .weakConstruct k => weakConstruct k
  | .weakFrom k h => weakFrom k h
  | .weakCopy k j => weakCopy k j
  | .weakAssign k j => weakAssign k j
  | .weakAssignShare k h => weakAssignShare k h
  | .weakDestroy k => weakDestroy k

def initial : State H W := ⟨⟨fun _ => none, fun _ => none, Heap.empty, fun _ => none⟩, Heap.empty⟩

def run [DecidableEq H] [DecidableEq W] (ops : List (Op H W)) : Program (State H W) (List Unit) :=
  runAll step ops

/-- A program constructs where there is no handle and uses the ones that exist. -/
def Legal : Op H W → State H W → Prop
  | .constructNew h, s | .constructNull h, s => s.object.share h = none
  | .copy h other, s => s.object.share h = none ∧ (s.object.share other).isSome
  | .lock h k, s => s.object.share h = none ∧ (s.object.weak k).isSome
  | .assign h other, s => (s.object.share h).isSome ∧ (s.object.share other).isSome
  | .destroy h, s => (s.object.share h).isSome
  | .weakConstruct k, s => s.object.weak k = none
  | .weakFrom k h, s => s.object.weak k = none ∧ (s.object.share h).isSome
  | .weakCopy k j, s => s.object.weak k = none ∧ (s.object.weak j).isSome
  | .weakAssign k j, s => (s.object.weak k).isSome ∧ (s.object.weak j).isSome
  | .weakAssignShare k h, s => (s.object.weak k).isSome ∧ (s.object.share h).isSome
  | .weakDestroy k, s => (s.object.weak k).isSome

instance (op : Op H W) (s : State H W) : Decidable (Legal op s) := by
  cases op <;> unfold Legal <;> infer_instance

/-- The counters that the handles of a pool have. -/
def counters {K : Type} (pool : K → Option Fields) (k : K) : Option Ptr :=
  (pool k).map Fields.cnt

/-- The SharePtr is not a null one. -/
def Full (h : H) (s : State H W) : Prop := ∀ x ∈ s.object.share h, x.ptr ≠ none

/-- The WeakPtr has a counter. -/
def Attached (k : W) (s : State H W) : Prop := ∀ x ∈ s.object.weak k, x.cnt ≠ none

/-- Another handle has the counter of the WeakPtr. -/
def Shared (k : W) (s : State H W) : Prop :=
  ∀ x ∈ s.object.weak k, ∀ a ∈ x.cnt,
    (∃ h, counters s.object.share h = some (some a)) ∨
      ∃ j, j ≠ k ∧ counters s.object.weak j = some (some a)

/-- `expired()` is false. -/
def Unexpired (k : W) (s : State H W) : Prop :=
  ∃ x ∈ s.object.weak k, ∃ a ∈ x.cnt, ∃ c ∈ s.heap.cells a, 0 < c.s

/-- The counter can count one SharePtr more. -/
def ShareRoom (cnt : Option Ptr) (s : State H W) : Prop :=
  ∀ a ∈ cnt.join, ∀ c ∈ s.heap.cells a, c.s < 2147483647

/-- The counter can count one WeakPtr more. -/
def WeakRoom (cnt : Option Ptr) (s : State H W) : Prop :=
  ∀ a ∈ cnt.join, ∀ c ∈ s.heap.cells a, c.w < 2147483647

/-- No SharePtr of a null pointer and no empty WeakPtr is copied, no expired WeakPtr is locked, the
last handle of a counter to go is not a WeakPtr, and a counter has room for a handle that it does
not lose by the same assignment. -/
def Guarded : Op H W → State H W → Prop
  | .copy _ other, s => Full other s ∧ ShareRoom (counters s.object.share other) s
  | .lock _ k, s => Unexpired k s ∧ ShareRoom (counters s.object.weak k) s
  | .assign h other, s => h = other ∨ Full other s ∧
    (counters s.object.share h = counters s.object.share other ∨
      ShareRoom (counters s.object.share other) s)
  | .weakFrom _ h, s => WeakRoom (counters s.object.share h) s
  | .weakCopy _ j, s => Attached j s ∧ WeakRoom (counters s.object.weak j) s
  | .weakAssign k j, s => k = j ∨ Attached j s ∧ Shared k s ∧
    (counters s.object.weak k = counters s.object.weak j ∨
      WeakRoom (counters s.object.weak j) s)
  | .weakAssignShare k h, s => Shared k s ∧
    (counters s.object.weak k = counters s.object.share h ∨
      WeakRoom (counters s.object.share h) s)
  | .weakDestroy k, s => Shared k s
  | .constructNew _, _ | .constructNull _, _ | .destroy _, _ | .weakConstruct _, _ => True

instance [Fintype H] [Fintype W] [DecidableEq H] [DecidableEq W] (op : Op H W) (s : State H W) :
    Decidable (Guarded op s) := by
  cases op <;> unfold Guarded <;> (try unfold Full) <;> (try unfold Attached) <;>
    (try unfold Shared) <;> (try unfold Unexpired) <;> (try unfold ShareRoom) <;>
    (try unfold WeakRoom) <;> infer_instance

end LanguageTest.WeakPtr
