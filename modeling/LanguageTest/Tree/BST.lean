import LanguageTest.Library.Arithmetic
import LanguageTest.Library.Linked

namespace LanguageTest.BST

structure BTNode where
  data : Int
  lchild : Ptr
  rchild : Ptr
  deriving DecidableEq, Repr

/-- The fields of a `BinarySearchTree` object. -/
structure Fields where
  root : Ptr
  size : Int

abbrev State := Machine Fields BTNode

def BTNode.setLchild (p : Ptr) (n : BTNode) : BTNode := { n with lchild := p }

def BTNode.setRchild (p : Ptr) (n : BTNode) : BTNode := { n with rchild := p }

def setRoot (p : Ptr) : Program State Unit := setObject fun o => { o with root := p }

/-- `size++` and `size--` -/
def addSize (k : Int) : Program State Unit := do
  let size ← int ((← getObject).size + k)
  setObject fun o => { o with size := size }

def empty : Program State Bool := do
  pure (← getObject).root.isNone

def getSize : Program State Int := do
  pure (← getObject).size

def search (fuel : Nat) (data : Int) : Program State Bool := do
  if ← empty then
    pure false
  else
    loop (fun p => do
      if p.isSome then
        if data = (← load p).data then
          pure (.done true)
        else if data < (← load p).data then
          pure (.again (← load p).lchild)
        else
          pure (.again (← load p).rchild)
      else
        pure (.done false)) fuel (← getObject).root

/-- The test `p && p->data == data`. -/
def holds (p : Ptr) (data : Int) : Program State Bool := do
  if p.isSome then pure ((← load p).data == data) else pure false

/-- One pass of the loop of `parent`, with the stack `s` and the pointer `p`. -/
def parentStep (data : Int) : List Ptr × Ptr → Program State (Step (List Ptr × Ptr) Ptr)
  | (s, some a) => do
    if ← holds (← load (some a)).lchild data then
      pure (.done (some a))
    else if ← holds (← load (some a)).rchild data then
      pure (.done (some a))
    else
      pure (.again (some a :: s, (← load (some a)).lchild))
  | (p :: s, none) => do
    pure (.again (s, (← load p).rchild))
  | ([], none) => pure (.done none)

def parent (fuel : Nat) (data : Int) : Program State Ptr := do
  if ← empty then
    pure none
  else if (← load (← getObject).root).data = data then
    pure none
  else
    loop (parentStep data) fuel ([], (← getObject).root)

/-- One pass of the loop of `insertNode`, with whether a node was inserted. -/
def insertPass (data : Int) (p : Ptr) : Program State (Step Ptr Bool) := do
  if data < (← load p).data then
    if (← load p).lchild.isSome then
      pure (.again (← load p).lchild)
    else
      modify p (BTNode.setLchild (← new ⟨data, none, none⟩))
      pure (.done true)
  else if data > (← load p).data then
    if (← load p).rchild.isSome then
      pure (.again (← load p).rchild)
    else
      modify p (BTNode.setRchild (← new ⟨data, none, none⟩))
      pure (.done true)
  else
    pure (.done false)

def insertNode (fuel : Nat) (data : Int) : Program State Bool := do
  if (← getObject).root.isNone then
    setRoot (← new ⟨data, none, none⟩)
    addSize 1
    pure true
  else
    let inserted ← loop (insertPass data) fuel (← getObject).root
    if inserted then
      addSize 1
    pure inserted

/-- The replacement `temp` leaves its place to its left child. -/
def unlinkReplacement (p tempp temp : Ptr) : Program State Unit := do
  if tempp.isNone then
    modify p (BTNode.setLchild (← load temp).lchild)
  else
    modify tempp (BTNode.setRchild (← load temp).lchild)

/-- The part of `deleteNode` that finds the node `temp` to take the place of `p`: the last node
of the left subtree, which takes over both children of `p`, or else the right child. -/
def takeReplacement (fuel : Nat) (p : Ptr) : Program State Ptr := do
  if (← load p).lchild.isSome then
    let (tempp, temp) ← loop (fun (tempp, temp) => do
      if (← load temp).rchild.isSome then
        pure (.again (temp, (← load temp).rchild))
      else
        pure (.done (tempp, temp))) fuel ((none : Ptr), (← load p).lchild)
    unlinkReplacement p tempp temp
    modify temp (BTNode.setLchild (← load p).lchild)
    modify temp (BTNode.setRchild (← load p).rchild)
    pure temp
  else
    pure (← load p).rchild

/-- The part of `deleteNode` that hangs `temp` where `p` was. -/
def replaceNode (parent p temp : Ptr) : Program State Unit := do
  if parent.isNone then
    setRoot temp
  else if (← load parent).lchild = p then
    modify parent (BTNode.setLchild temp)
  else
    modify parent (BTNode.setRchild temp)

def deleteNode (fuel : Nat) (data : Int) : Program State Bool := do
  if ← empty then
    pure false
  else if !(← search fuel data) then
    pure false
  else
    let parent ← parent fuel data
    -- The parent of the root is NULL, and its child is read all the same.
    let p ← if ← holds (← load parent).lchild data then
        pure (← load parent).lchild
      else
        pure (← load parent).rchild
    let temp ← takeReplacement fuel p
    replaceNode parent p temp
    delete p
    addSize (-1)
    pure true

/-- The tree that the constructor makes of an empty array. -/
def initial : State := ⟨⟨none, 0⟩, Heap.empty⟩

inductive Op where
  | insertNode (data : Int)
  | deleteNode (data : Int)
  deriving DecidableEq, Repr

def step (fuel : Nat) : Op → Program State Bool
  | .insertNode data => insertNode fuel data
  | .deleteNode data => deleteNode fuel data

/-- A sequence of calls on one tree, with their results. Every loop may make fewer than `fuel`
passes. -/
def run (fuel : Nat) (ops : List Op) : Program State (List Bool) := runAll (step fuel) ops

end LanguageTest.BST
