import LanguageTest.Library.Linked

namespace LanguageTest.RBTree

inductive RBTColor where
  | red
  | black
  deriving DecidableEq, Repr

structure RBTNode where
  color : RBTColor
  key : Int
  left : Ptr
  right : Ptr
  parent : Ptr
  deriving DecidableEq, Repr

/-- The fields of an `RBTree` object. -/
structure Fields where
  mRoot : Ptr

abbrev State := Machine Fields RBTNode

def RBTNode.child (n : RBTNode) : Side → Ptr
  | .left => n.left
  | .right => n.right

def RBTNode.setChild (d : Side) (p : Ptr) (n : RBTNode) : RBTNode :=
  match d with
  | .left => { n with left := p }
  | .right => { n with right := p }

def RBTNode.setColor (c : RBTColor) (n : RBTNode) : RBTNode := { n with color := c }

def RBTNode.setParent (p : Ptr) (n : RBTNode) : RBTNode := { n with parent := p }

def setRoot (p : Ptr) : Program State Unit := setObject fun _ => ⟨p⟩

def rbIsRed (r : Ptr) : Program State Bool := do
  pure ((← load r).color == .red)

def rbIsBlack (r : Ptr) : Program State Bool := do
  pure ((← load r).color == .black)

def rbSetColor (r : Ptr) (c : RBTColor) : Program State Unit :=
  modify r (RBTNode.setColor c)

def rbSetBlack (r : Ptr) : Program State Unit := rbSetColor r .black

def rbSetRed (r : Ptr) : Program State Unit := rbSetColor r .red

def rbSetParent (r p : Ptr) : Program State Unit :=
  modify r (RBTNode.setParent p)

/-- The test `p && rb_is_red(p)`. -/
def presentAndRed : Ptr → Program State Bool
  | none => pure false
  | some a => rbIsRed (some a)

/-- The test `!p || rb_is_black(p)`. -/
def absentOrBlack : Ptr → Program State Bool
  | none => pure true
  | some a => rbIsBlack (some a)

/-- The assignment `child->parent = p`, made only when there is a child. -/
def adopt (child p : Ptr) : Program State Unit :=
  if child.isSome then rbSetParent child p else pure ()

/-- The pointer to `x`, in its parent or in the root, becomes `y`. The child of the parent
on side `d` is the one that is compared with `x`. -/
def replaceChild (d : Side) (parent x y : Ptr) : Program State Unit := do
  if parent.isNone then
    setRoot y
  else if (← load parent).child d = x then
    modify parent (RBTNode.setChild d y)
  else
    modify parent (RBTNode.setChild d.other y)

/-- Both rotations: `x` goes down to side `d` and its child on the other side comes up. -/
def rotate (d : Side) (x : Ptr) : Program State Unit := do
  let y := (← load x).child d.other
  modify x (RBTNode.setChild d.other ((← load y).child d))
  adopt ((← load y).child d) x
  rbSetParent y (← load x).parent
  replaceChild d (← load x).parent x y
  modify y (RBTNode.setChild d x)
  rbSetParent x y

def leftRotate (x : Ptr) : Program State Unit := rotate .left x

def rightRotate (y : Ptr) : Program State Unit := rotate .right y

/-- Case 3 of `insertFixUp`: the uncle is black and the node is the outer child. -/
def insertFixUpOuter (d : Side) (node parent gparent : Ptr) :
    Program State (Step Ptr Unit) := do
  rbSetBlack parent
  rbSetRed gparent
  rotate d.other gparent
  pure (.again node)

/-- One pass of the loop of `insertFixUp` when the parent is child `d` of the grandparent.
The two branches of the source mirror each other. -/
def insertFixUpSide (d : Side) (node parent gparent : Ptr) :
    Program State (Step Ptr Unit) := do
  let uncle := (← load gparent).child d.other
  if ← presentAndRed uncle then
    -- Case 1: the uncle is red.
    rbSetBlack uncle
    rbSetBlack parent
    rbSetRed gparent
    pure (.again gparent)
  else
    if (← load parent).child d.other = node then
      -- Case 2: the uncle is black and the node is the inner child. The two swap their names.
      rotate d parent
      insertFixUpOuter d parent node gparent
    else
      insertFixUpOuter d node parent gparent

def insertFixUp (fuel : Nat) (node : Ptr) : Program State Unit := do
  loop (fun node => do
    let parent := (← load node).parent
    if ← presentAndRed parent then
      let gparent := (← load parent).parent
      if parent = (← load gparent).left then
        insertFixUpSide .left node parent gparent
      else
        insertFixUpSide .right node parent gparent
    else
      pure (.done ())) fuel node
  rbSetBlack (← getObject).mRoot

/-- Step 1 of `insert`: the node is hung below `y`, or becomes the root. -/
def linkNode (node y : Ptr) : Program State Unit := do
  rbSetParent node y
  if y.isSome then
    if (← load node).key < (← load y).key then
      modify y (RBTNode.setChild .left node)
    else
      modify y (RBTNode.setChild .right node)
  else
    setRoot node

/-- The private `insert(root, node)`. -/
def insertNode (fuel : Nat) (node : Ptr) : Program State Unit := do
  let y ← loop (fun (y, x) => do
    if x.isSome then
      if (← load node).key < (← load x).key then
        pure (.again (x, (← load x).left))
      else
        pure (.again (x, (← load x).right))
    else
      pure (.done y)) fuel (none, (← getObject).mRoot)
  linkNode node y
  rbSetRed node
  insertFixUp fuel node

/-- The public `insert(key)`, with an allocation that succeeds. -/
def insert (fuel : Nat) (key : Int) : Program State Unit := do
  let z ← new { color := .black, key := key, left := none, right := none, parent := none }
  insertNode fuel z

/-- Case 4 of `removeFixUp`: the sibling is black and its outer child red. -/
def removeFixUpLast (d : Side) (parent other : Ptr) :
    Program State (Step (Ptr × Ptr) Ptr) := do
  rbSetColor other (← load parent).color
  rbSetBlack parent
  rbSetBlack ((← load other).child d.other)
  rotate d parent
  pure (.done (← getObject).mRoot)

/-- Cases 2 to 4 of `removeFixUp`: the sibling is black. -/
def removeFixUpBlack (d : Side) (parent other : Ptr) :
    Program State (Step (Ptr × Ptr) Ptr) := do
  if ← (do absentOrBlack (← load other).left) <&&> (do absentOrBlack (← load other).right) then
    -- Case 2: both children of the sibling are black.
    rbSetRed other
    pure (.again (parent, (← load parent).parent))
  else if ← absentOrBlack ((← load other).child d.other) then
    -- Case 3: the inner child is red and the outer child black.
    rbSetBlack ((← load other).child d)
    rbSetRed other
    rotate d.other other
    removeFixUpLast d parent ((← load parent).child d.other)
  else
    removeFixUpLast d parent other

/-- One pass of the loop of `removeFixUp` when the node is child `d` of the parent. -/
def removeFixUpSide (d : Side) (parent : Ptr) : Program State (Step (Ptr × Ptr) Ptr) := do
  let other := (← load parent).child d.other
  if ← rbIsRed other then
    -- Case 1: the sibling is red.
    rbSetBlack other
    rbSetRed parent
    rotate d parent
    removeFixUpBlack d parent ((← load parent).child d.other)
  else
    removeFixUpBlack d parent other

def removeFixUp (fuel : Nat) (node parent : Ptr) : Program State Unit := do
  let node ← loop (fun (node, parent) => do
    if ← absentOrBlack node <&&> (do pure (node != (← getObject).mRoot)) then
      if (← load parent).left = node then
        removeFixUpSide .left parent
      else
        removeFixUpSide .right parent
    else
      pure (.done node)) fuel (node, parent)
  if node.isSome then
    rbSetBlack node

/-- The successor `replace` of a node with two children leaves its place to its right child
and takes over the right subtree of `node`. The result is the parent of that child. -/
def detachReplace (node replace child parent : Ptr) : Program State Ptr := do
  if parent = node then
    pure replace
  else
    adopt child parent
    modify parent (RBTNode.setChild .left child)
    modify replace (RBTNode.setChild .right (← load node).right)
    rbSetParent (← load node).right replace
    pure parent

/-- The last lines of both cases of `remove`. -/
def removeEnd (fuel : Nat) (color : RBTColor) (node child parent : Ptr) : Program State Unit := do
  if color = .black then
    removeFixUp fuel child parent
  delete node

/-- `remove` for a node with two children. -/
def removeInner (fuel : Nat) (node : Ptr) : Program State Unit := do
  let replace ← loop (fun replace => do
    if (← load replace).left.isSome then
      pure (.again (← load replace).left)
    else
      pure (.done replace)) fuel (← load node).right
  replaceChild .left (← load node).parent node replace
  let child := (← load replace).right
  let color := (← load replace).color
  let parent ← detachReplace node replace child (← load replace).parent
  rbSetParent replace (← load node).parent
  rbSetColor replace (← load node).color
  modify replace (RBTNode.setChild .left (← load node).left)
  rbSetParent (← load node).left replace
  removeEnd fuel color node child parent

/-- `remove` for a node with at most one child, which takes its place. -/
def removeOuter (fuel : Nat) (node child : Ptr) : Program State Unit := do
  let parent := (← load node).parent
  let color := (← load node).color
  adopt child parent
  replaceChild .left parent node child
  removeEnd fuel color node child parent

/-- The private `remove(root, node)`. -/
def removeNode (fuel : Nat) (node : Ptr) : Program State Unit := do
  if (← load node).left.isSome && (← load node).right.isSome then
    removeInner fuel node
  else if (← load node).left.isSome then
    removeOuter fuel node (← load node).left
  else
    removeOuter fuel node (← load node).right

/-- The private, recursive `search(x, key)`. -/
def search (key : Int) : Nat → Ptr → Program State Ptr
  | 0, _ => fail .outOfFuel
  | _ + 1, none => pure none
  | fuel + 1, some a => do
    if (← load (some a)).key = key then
      pure (some a)
    else if key < (← load (some a)).key then
      search key fuel (← load (some a)).left
    else
      search key fuel (← load (some a)).right

/-- The private `iterativeSearch(x, key)`. -/
def iterativeSearch (key : Int) (fuel : Nat) (x : Ptr) : Program State Ptr :=
  loop (fun x => do
    if ← (pure x.isSome) <&&> (do pure ((← load x).key != key)) then
      if key < (← load x).key then
        pure (.again (← load x).left)
      else
        pure (.again (← load x).right)
    else
      pure (.done x)) fuel x

/-- The private `minimum(tree)` and `maximum(tree)`: the last node on side `d`. -/
def extreme (d : Side) (fuel : Nat) (tree : Ptr) : Program State Ptr :=
  if tree.isNone then pure none
  else
    loop (fun tree => do
      if ((← load tree).child d).isSome then pure (.again ((← load tree).child d))
      else pure (.done tree)) fuel tree

def minimum (fuel : Nat) (tree : Ptr) : Program State Ptr := extreme .left fuel tree

def maximum (fuel : Nat) (tree : Ptr) : Program State Ptr := extreme .right fuel tree

/-- `successor(x)` and `predecessor(x)`: the next node on side `d`. -/
def neighbour (d : Side) (fuel : Nat) (x : Ptr) : Program State Ptr := do
  if ((← load x).child d).isSome then
    extreme d.other fuel ((← load x).child d)
  else
    loop (fun (x, y) => do
      if ← (pure y.isSome) <&&> (do pure (x == (← load y).child d)) then
        pure (.again (y, (← load y).parent))
      else
        pure (.done y)) fuel (x, (← load x).parent)

def successor (fuel : Nat) (x : Ptr) : Program State Ptr := neighbour .right fuel x

def predecessor (fuel : Nat) (x : Ptr) : Program State Ptr := neighbour .left fuel x

/-- The public `remove(key)`. -/
def remove (fuel : Nat) (key : Int) : Program State Unit := do
  let node ← search key fuel (← getObject).mRoot
  if node.isSome then
    removeNode fuel node

/-- The pointer that a reference `RBTNode *&` stands for. -/
inductive Link where
  | root
  | child (d : Side) (p : Ptr)

def readLink : Link → Program State Ptr
  | .root => do pure (← getObject).mRoot
  | .child d p => do pure ((← load p).child d)

def writeLink (q : Ptr) : Link → Program State Unit
  | .root => setRoot q
  | .child d p => modify p (RBTNode.setChild d q)

/-- The private `destroy(tree)`. -/
def destroyLink : Nat → Link → Program State Unit
  | 0, _ => fail .outOfFuel
  | fuel + 1, link => do
    let tree ← readLink link
    if tree.isNone then
      pure ()
    else if (← load tree).left.isSome then
      destroyLink fuel (.child .left tree)
    else if (← load tree).right.isSome then
      destroyLink fuel (.child .right tree)
    else
      delete tree
      writeLink none link

/-- The public `destroy()`. -/
def destroy (fuel : Nat) : Program State Unit := destroyLink fuel .root

/-- The keys that `inOrder` prints, in the order in which it prints them. -/
def inOrder : Nat → Ptr → Program State (List Int)
  | 0, _ => fail .outOfFuel
  | _ + 1, none => pure []
  | fuel + 1, some a => do
    let before ← inOrder fuel (← load (some a)).left
    let key := (← load (some a)).key
    let after ← inOrder fuel (← load (some a)).right
    pure (before ++ key :: after)

/-- The tree that the constructor makes. -/
def initial : State := ⟨⟨none⟩, Heap.empty⟩

inductive Op where
  | insert (key : Int)
  | remove (key : Int)
  deriving DecidableEq, Repr

def step (fuel : Nat) : Op → Program State Unit
  | .insert key => insert fuel key
  | .remove key => remove fuel key

/-- A sequence of calls on one tree. Every loop may make fewer than `fuel` passes. -/
def run (fuel : Nat) (ops : List Op) : Program State (List Unit) := runAll (step fuel) ops

end LanguageTest.RBTree
