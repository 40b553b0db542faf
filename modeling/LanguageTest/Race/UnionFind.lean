import LanguageTest.Library.Program

namespace LanguageTest.UnionFind

def maxn : Nat := 110

/-- The array `father`. -/
abbrev State := List Nat

def father (x : Nat) : Program State Nat := fun s =>
  match s[x]? with
  | some v => .ok (v, s)
  | none => .error .outOfRange

def setFather (x v : Nat) : Program State Unit := fun s =>
  if x < s.length then .ok ((), s.set x v) else .error .outOfRange

/-- The loop of `makeSet` and of `init`. -/
def selfFathers (n : Nat) : Program State Unit :=
  forM (List.range n) fun i => setFather i i

def makeSet : Program State Unit := selfFathers maxn

def findRoot (fuel : Nat) (x : Nat) : Program State Nat := do
  let root ← loop (fun root => do
    if root ≠ (← father root) then
      pure (.again (← father root))
    else
      pure (.done root)) fuel x
  loop (fun x => do
    if x ≠ root then
      let tmp ← father x
      setFather x root
      pure (.again tmp)
    else
      pure (.done ())) fuel x
  pure root

def union (fuel : Nat) (x y : Nat) : Program State Unit := do
  let a ← findRoot fuel x
  let b ← findRoot fuel y
  setFather a b

/-- `find` of `race_template`, which is recursive and does not compress. -/
def find : Nat → Nat → Program State Nat
  | 0, _ => fail .outOfFuel
  | fuel + 1, i => do
    if i = (← father i) then
      pure i
    else
      find fuel (← father i)

/-- `join` of `race_template`. -/
def join (fuel : Nat) (i j : Nat) : Program State Unit := do
  let i ← find fuel i
  let j ← find fuel j
  setFather i j

inductive Op where
  | union (x y : Nat)
  | findRoot (z : Nat)
  deriving DecidableEq, Repr

def Op.Within (n : Nat) : Op → Prop
  | .union x y => x < n ∧ y < n
  | .findRoot z => z < n

instance (n : Nat) (op : Op) : Decidable (op.Within n) := by
  cases op <;> unfold Op.Within <;> infer_instance

def step (fuel : Nat) : Op → Program State (Option Nat)
  | .union x y => do
    union fuel x y
    pure none
  | .findRoot z => do
    let r ← findRoot fuel z
    pure (some r)

def joinStep (fuel : Nat) : Op → Program State (Option Nat)
  | .union x y => do
    join fuel x y
    pure none
  | .findRoot z => do
    let r ← find fuel z
    pure (some r)

/-- The static array, which starts with zeros. -/
def initial (n : Nat) : State := List.replicate n 0

def run (fuel : Nat) (ops : List Op) : Program State (List (Option Nat)) := do
  makeSet
  runAll (step fuel) ops

/-- The same calls on the array of `race_template`, of the size `n`. -/
def joinRun (n fuel : Nat) (ops : List Op) : Program State (List (Option Nat)) := do
  selfFathers n
  runAll (joinStep fuel) ops

end LanguageTest.UnionFind
