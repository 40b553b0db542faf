import LanguageTest.Library.Program
import LanguageTest.Library.Tree

namespace LanguageTest.AVL
open BinaryTree

/-- A `Node` without its child pointers. -/
structure Node where
  key : Int
  height : Int
  deriving DecidableEq, Repr

/-- A pointer to a `Node`: NULL, or a node with what its own pointers lead to. No two pointers
of a tree lead to one node. -/
abbrev NodePtr := BinaryTree Node

inductive Rotation where
  | ll
  | rr
  | lr
  | rl
  deriving DecidableEq, Repr

/-- What one level of `insert_real` or `erase_real` did after its recursive call: the node as its
balance was tested, the branch taken, and the pointer returned. -/
structure Visit where
  met : NodePtr
  branch : Option Rotation
  returned : NodePtr

/-- The tree below `header`, and a record of the levels passed so far, which nothing reads. -/
structure State where
  root : NodePtr
  visits : List Visit

def getHeight : NodePtr → Int
  | nil => 0
  | node v _ _ => v.height

def getBalance : NodePtr → Int
  | nil => 0
  | node _ l r => getHeight l - getHeight r

/-- The node after `node->height = max(...) + 1`. -/
def updateHeight (v : Node) (l r : NodePtr) : NodePtr :=
  node { v with height := max (getHeight l) (getHeight r) + 1 } l r

/-- `ll_rotate` and `rr_rotate`: the child on side `d` comes up. -/
def rotate (d : Side) (y : NodePtr) : Program State NodePtr :=
  match d, y with
  | .left, node y (node x a b) c => pure (updateHeight x a (updateHeight y b c))
  | .right, node y c (node x b a) => pure (updateHeight x (updateHeight y c b) a)
  | _, _ => fail .nullPointer

def llRotate (y : NodePtr) : Program State NodePtr := rotate .left y

def rrRotate (y : NodePtr) : Program State NodePtr := rotate .right y

def lrRotate : NodePtr → Program State NodePtr
  | nil => fail .nullPointer
  | node y x c => do
    let x ← rrRotate x
    llRotate (node y x c)

def rlRotate : NodePtr → Program State NodePtr
  | nil => fail .nullPointer
  | node y c x => do
    let x ← llRotate x
    rrRotate (node y c x)

def applyRotation : Option Rotation → NodePtr → Program State NodePtr
  | some .ll, n => llRotate n
  | some .rr, n => rrRotate n
  | some .lr, n => lrRotate n
  | some .rl, n => rlRotate n
  | none, n => pure n

/-- The tests of `insert_real`, with `l` and `r` the children of the node. -/
def insertBranch (l r : NodePtr) : Option Rotation :=
  let balance := getHeight l - getHeight r
  if balance > 1 ∧ getBalance l > 0 then some .ll
  else if balance < -1 ∧ getBalance r < 0 then some .rr
  else if balance > 1 ∧ getBalance l < 0 then some .lr
  else if balance < -1 ∧ getBalance r > 0 then some .rl
  else none

/-- The tests of `erase_real`. -/
def eraseBranch (l r : NodePtr) : Option Rotation :=
  let balance := getHeight l - getHeight r
  if balance > 1 ∧ getBalance l ≥ 0 then some .ll
  else if balance < -1 ∧ getBalance r ≤ 0 then some .rr
  else if balance > 1 ∧ getBalance l < 0 then some .lr
  else if balance < -1 ∧ getBalance r > 0 then some .rl
  else none

def record (v : Visit) : Program State Unit := do
  let s ← get
  set { s with visits := s.visits ++ [v] }

/-- What follows the recursive call: the new height, the tests, and the rotation. -/
def rebalance (choose : NodePtr → NodePtr → Option Rotation) (v : Node) (l r : NodePtr) :
    Program State NodePtr := do
  let met := updateHeight v l r
  let returned ← applyRotation (choose l r) met
  record ⟨met, choose l r, returned⟩
  pure returned

def insertReal (key : Int) : NodePtr → Program State NodePtr
  | nil => pure (node ⟨key, 1⟩ nil nil)
  | node v l r => do
    if key < v.key then
      rebalance insertBranch v (← insertReal key l) r
    else if key > v.key then
      rebalance insertBranch v l (← insertReal key r)
    else
      pure (node v l r)

/-- The key of the leftmost node, from a node with the key `k` and the left child `l`. -/
def successorKey (k : Int) : NodePtr → Int
  | nil => k
  | node v l _ => successorKey v.key l

def eraseReal (key : Int) : NodePtr → Program State NodePtr
  | nil => pure nil
  | node v l r => do
    if key < v.key then
      rebalance eraseBranch v (← eraseReal key l) r
    else if key > v.key then
      rebalance eraseBranch v l (← eraseReal key r)
    else
      match l, r with
      | node _ _ _, node w rl _ =>
        let k := successorKey w.key rl
        rebalance eraseBranch { v with key := k } l (← eraseReal k r)
      | node w a b, nil => rebalance eraseBranch w a b
      | nil, node w a b => rebalance eraseBranch w a b
      | nil, nil => pure nil

def setRoot (root : NodePtr) : Program State Unit := do
  set { (← get) with root := root }

def insert (key : Int) : Program State Unit := do
  setRoot (← insertReal key (← get).root)

def erase (key : Int) : Program State Unit := do
  setRoot (← eraseReal key (← get).root)

/-- The two recursive calls are statements: control then leaves the function without a `return`, and
the caller uses a result that was never set. -/
def findReal (key : Int) : NodePtr → Program State NodePtr
  | nil => pure nil
  | node v l r => do
    if key < v.key then
      let _ ← findReal key l
      fail .uninitialized
    else if key > v.key then
      let _ ← findReal key r
      fail .uninitialized
    else
      pure (node v l r)

def find (key : Int) : Program State NodePtr := do
  findReal key (← get).root

/-- The loop of `loop_find` from the pointer `p`. -/
def findFrom (key : Int) : NodePtr → NodePtr
  | nil => nil
  | node v l r =>
    if v.key ≠ key then
      if key < v.key then findFrom key l else findFrom key r
    else
      node v l r

def loopFind (key : Int) : Program State NodePtr := do
  pure (findFrom key (← get).root)

def initial : State := ⟨nil, []⟩

inductive Op where
  | insert (key : Int)
  | erase (key : Int)
  deriving DecidableEq, Repr

def step : Op → Program State Unit
  | .insert key => insert key
  | .erase key => erase key

def run (ops : List Op) : Program State (List Unit) := runAll step ops

end LanguageTest.AVL
