import LanguageTest.Library.Program

namespace LanguageTest

/-- A node of the trie, with `maxn` children of which some are NULL. -/
inductive Trie (maxn : Nat) where
  | node (cnt : Int) (next : Fin maxn → Option (Trie maxn))

namespace Trie

variable {maxn : Nat}

def cnt : Trie maxn → Int
  | node cnt _ => cnt

def next : Trie maxn → Fin maxn → Option (Trie maxn)
  | node _ next => next

/-- `new Trie`. -/
def fresh : Trie maxn := .node 0 fun _ => none

def add (t : Trie maxn) (k : Int) : Trie maxn := .node (t.cnt + k) t.next

def setNext (t : Trie maxn) (x : Fin maxn) (child : Trie maxn) : Trie maxn :=
  .node t.cnt fun y => if y = x then some child else t.next y

/-- `*word - 'a'`, as an index of the array `next`. -/
def letter (c : Char) : Except Fault (Fin maxn) :=
  if h : 97 ≤ c.toNat ∧ c.toNat - 97 < maxn then .ok ⟨c.toNat - 97, h.2⟩ else .error .outOfRange

/-- The loop of `Insert` from the node `tem`, which returns with the nodes below it. -/
def insert : Trie maxn → List Char → Except Fault (Trie maxn)
  | tem, [] => .ok tem
  | tem, c :: word => do
    let x ← letter c
    let child := (tem.next x).getD fresh
    let child ← insert (child.add 1) word
    pure (tem.setNext x child)

def search : Trie maxn → List Char → Except Fault Int
  | tem, [] => .ok tem.cnt
  | tem, c :: word => do
    let x ← letter c
    match tem.next x with
    | none => pure 0
    | some child => search child word

/-- `Delete` does not look whether a child is NULL. -/
def delete (k : Int) : Trie maxn → List Char → Except Fault (Trie maxn)
  | tem, [] => .ok (.node tem.cnt fun _ => none)
  | tem, c :: word => do
    let x ← letter c
    match tem.next x with
    | none => .error .nullPointer
    | some child =>
      let child ← delete k (child.add (-k)) word
      pure (tem.setNext x child)

inductive Op where
  | insert (word : List Char)
  | search (word : List Char)
  | delete (word : List Char)
  deriving DecidableEq, Repr

def Op.word : Op → List Char
  | .insert word | .search word | .delete word => word

/-- A command of `main`. A search prints whether the word was found. -/
def step : Op → Trie maxn → Except Fault (Option Bool × Trie maxn)
  | .insert word, root => do
    let root ← insert root word
    pure (none, root)
  | .search word, root => do
    let k ← search root word
    pure (some (k ≠ 0), root)
  | .delete word, root => do
    let k ← search root word
    if k ≠ 0 then
      let root ← delete k root word
      pure (none, root)
    else
      pure (none, root)

def run (ops : List Op) : Program (Trie maxn) (List (Option Bool)) := runAll step ops

end Trie

end LanguageTest
