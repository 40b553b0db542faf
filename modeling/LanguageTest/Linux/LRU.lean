import LanguageTest.Library.Program
import LanguageTest.Library.Recency

namespace LanguageTest.LRU
open Recency (Op)

/-- A node of the `std::list`. Its number stands for its address: it is what an iterator to the
node holds, and erasing other nodes does not change it. -/
structure Node (K V : Type) where
  id : Nat
  key : K
  value : V
  deriving DecidableEq, Repr

/-- The fields of an `LRUCache`. The map goes from `int` to iterators of the list; `next` numbers
the nodes that are allocated. -/
structure State (K V : Type) where
  cap : Int
  count : Int
  m : Int → Option Nat
  list : List (Node K V)
  next : Nat

variable {K V : Type}

def readState : Program (State K V) (State K V) := fun s => .ok (s, s)

/-- The node that an iterator refers to; an iterator to an erased node is dangling. -/
def deref (p : Nat) : Program (State K V) (Node K V) := fun s =>
  match s.list.find? (·.id == p) with
  | some n => .ok (n, s)
  | none => .error .dangling

def listErase (p : Nat) : Program (State K V) Unit := fun s =>
  match s.list.find? (·.id == p) with
  | some _ => .ok ((), { s with list := s.list.eraseP (·.id == p) })
  | none => .error .dangling

def pushFront (key : K) (value : V) : Program (State K V) Unit := fun s =>
  .ok ((), { s with list := ⟨s.next, key, value⟩ :: s.list, next := s.next + 1 })

/-- `list.begin()` of a list that is not empty. -/
def listBegin : Program (State K V) Nat := fun s =>
  match s.list with
  | n :: _ => .ok (n.id, s)
  | [] => .error .dangling

def listBack : Program (State K V) (Node K V) := fun s =>
  match s.list.getLast? with
  | some n => .ok (n, s)
  | none => .error .dangling

def popBack : Program (State K V) Unit := fun s =>
  match s.list.getLast? with
  | some _ => .ok ((), { s with list := s.list.dropLast })
  | none => .error .dangling

/-- `m[i] = p`. -/
def mapSet (i : Int) (p : Nat) : Program (State K V) Unit := fun s =>
  .ok ((), { s with m := fun j => if j = i then some p else s.m j })

def mapErase (i : Int) : Program (State K V) Unit := fun s =>
  .ok ((), { s with m := fun j => if j = i then none else s.m j })

def incrementCount : Program (State K V) Unit := fun s =>
  .ok ((), { s with count := s.count + 1 })

/-- `LRUCache(int capacity)`. -/
def initial (capacity : Int) : State K V := ⟨capacity, 0, fun _ => none, [], 0⟩

namespace Template

-- The key type of the template, its implicit conversion to the `int` that indexes the map, and
-- `VALUE("null")`.
variable (conv : K → Int) (null : V)

def get (key : K) : Program (State K V) V := do
  match (← readState).m (conv key) with
  | some p =>
    let res := (← deref p).value
    listErase p
    pushFront key res
    mapSet (conv key) (← listBegin)
    pure res
  | none => pure null

def put (key : K) (value : V) : Program (State K V) Unit := do
  match (← readState).m (conv key) with
  | some p => listErase p
  | none =>
    if (← readState).count = (← readState).cap then
      let delkey := conv (← listBack).key
      popBack
      mapErase delkey
    else
      incrementCount
  pushFront key value
  mapSet (conv key) (← listBegin)

def step : Op K V → Program (State K V) (Option V)
  | .get key => do
    let v ← get conv null key
    pure (some v)
  | .put key value => do
    put conv key value
    pure none

def run (ops : List (Op K V)) : Program (State K V) (List (Option V)) :=
  runAll (step conv null) ops

end Template

namespace LRUCache

/-- The class of `LRU.cpp`: keys and values are `int`, and a missing key gives -1. -/
def get (key : Int) : Program (State Int Int) Int := Template.get id (-1) key

def put (key value : Int) : Program (State Int Int) Unit := Template.put id key value

def step : Op Int Int → Program (State Int Int) (Option Int)
  | .get key => do
    let v ← get key
    pure (some v)
  | .put key value => do
    put key value
    pure none

def run (ops : List (Op Int Int)) : Program (State Int Int) (List (Option Int)) := runAll step ops

end LRUCache

namespace LeetCode

def get (key : Int) : Program (State Int Int) Int := Template.get id (-1) key

/-- The last entry leaves the map before it leaves the list. -/
def put (key value : Int) : Program (State Int Int) Unit := do
  match (← readState).m key with
  | some p => listErase p
  | none =>
    if (← readState).cap = (← readState).count then
      mapErase (← listBack).key
      popBack
    else
      incrementCount
  pushFront key value
  mapSet key (← listBegin)

def step : Op Int Int → Program (State Int Int) (Option Int)
  | .get key => do
    let v ← get key
    pure (some v)
  | .put key value => do
    put key value
    pure none

def run (ops : List (Op Int Int)) : Program (State Int Int) (List (Option Int)) := runAll step ops

end LeetCode

end LanguageTest.LRU
