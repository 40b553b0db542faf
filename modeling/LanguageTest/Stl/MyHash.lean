import LanguageTest.Library.Program

namespace LanguageTest.MyHash

inductive Status where
  | success
  | unsuccess
  deriving DecidableEq, Repr

/-- Open addressing with linear probing. A tag is 0 for a slot that was never used, 1 for a slot
with a key and -1 for a slot whose key was deleted. The keys come from `malloc`: a slot holds
none before the first write. -/
structure HashTable where
  rcd : List (Option Int)
  size : Nat
  count : Int
  tag : List Int
  deriving Repr

def hashsize : List Nat := [11, 31, 61, 127, 251, 503]

/-- The table and the global `index`, the place in `hashsize` of the next table's size. -/
structure State where
  H : HashTable
  index : Nat
  deriving Repr

/-- An `int` holds this number. -/
def FitsInt (n : Int) : Prop := -2147483648 ≤ n ∧ n ≤ 2147483647

instance (n : Int) : Decidable (FitsInt n) := inferInstanceAs (Decidable (_ ∧ _))

def table : Program State HashTable := fun s => .ok (s.H, s)

def setTable (H : HashTable) : Program State Unit := fun s => .ok ((), { s with H := H })

/-- `xs[p]`, with an index of type `int`. -/
def element {α : Type} (xs : List α) (p : Int) : Program State α := fun s =>
  match p, xs[p.toNat]? with
  | .ofNat _, some x => .ok (x, s)
  | _, _ => .error .outOfRange

def initialized : Option Int → Program State Int
  | some key => pure key
  | none => fail .uninitialized

/-- The arrays from `malloc`, after the loop that gives every slot the tag 0. -/
def fresh (size : Nat) : HashTable := ⟨List.replicate size none, size, 0, List.replicate size 0⟩

def initHashTable (size : Nat) : Program State Unit := setTable (fresh size)

/-- `hashsize[index++]`. -/
def nextSize : Program State Nat := fun s =>
  match hashsize[s.index]? with
  | some size => .ok (size, { s with index := s.index + 1 })
  | none => .error .outOfRange

/-- The remainder has the sign of the key. -/
def hash (key : Int) (m : Nat) : Program State Int :=
  if FitsInt (3 * key) then pure ((3 * key).tmod m) else fail .overflow

def collision (p : Int) (m : Nat) : Int := (p + 1).tmod m

/-- The condition of the `while` of `SearchHash`. -/
def occupied (H : HashTable) (key p : Int) : Program State Bool :=
  ((do pure ((← element H.tag p) == 1)) <&&>
    (do pure ((← initialized (← element H.rcd p)) != key))) <||>
  (do pure ((← element H.tag p) == -1))

/-- One pass through the `while`, with the slot `p` and the number `c` of collisions. -/
def advance (H : HashTable) (key : Int) :
    Int × Nat → Program State (Step (Int × Nat) (Int × Nat))
  | (p, c) => do
    if ← occupied H key p then
      pure (.again (collision p H.size, c + 1))
    else
      pure (.done (p, c))

def found (H : HashTable) (key p : Int) : Program State Bool :=
  (do pure ((← element H.tag p) == 1)) <&&>
    (do pure (key == (← initialized (← element H.rcd p))))

/-- The status with the last slot and the number of collisions. A probe of `size` slots has seen
every slot, so one that does not stop by then never stops. -/
def searchHash (key : Int) : Program State (Status × Int × Nat) := do
  let H ← table
  let h ← hash key H.size
  let (p, c) ← loop (advance H key) H.size (h, 0)
  if ← found H key p then
    pure (.success, p, c)
  else
    pure (.unsuccess, p, c)

/-- `H.rcd[p].key = key` with the tag of the slot and the count. -/
def HashTable.store (H : HashTable) (p : Nat) (key : Int) : HashTable :=
  { H with rcd := H.rcd.set p (some key), tag := H.tag.set p 1, count := H.count + 1 }

def HashTable.drop (H : HashTable) (p : Nat) : HashTable :=
  { H with tag := H.tag.set p (-1), count := H.count - 1 }

/-- The body of the `for` loop of `recreateHash`. -/
def reinsert (insertHash : Int → Program State Status) (old : HashTable) (i : Nat) :
    Program State Unit := do
  if (← element old.tag i) = 1 then
    let _ ← insertHash (← initialized (← element old.rcd i))

/-- A new table with the next size takes the live keys of the old one, in the order of their
slots. The function that inserts them is `InsertHash`, which calls this one. -/
def recreateHash (insertHash : Int → Program State Status) : Program State Unit := do
  let old ← table
  initHashTable (← nextSize)
  (List.range old.size).forM (reinsert insertHash old)

/-- `InsertHash` with a bound on the depth of the calls through `recreateHash`. -/
def insertWithin : Nat → Int → Program State Status
  | 0, _ => fail .outOfFuel
  | depth + 1, key => do
    let (status, p, c) ← searchHash key
    if status = .unsuccess then
      let H ← table
      -- `c * 1.0 / H.size < 0.5`; the quotients of such small numbers round to 0.5 only if equal.
      if 2 * c < H.size then
        let _ ← element H.rcd p
        let _ ← element H.tag p
        setTable (H.store p.toNat key)
        return .success
      else
        recreateHash (insertWithin depth)
    return .unsuccess

/-- Every call of `recreateHash` takes a size, so the depth is at most their number. -/
def insertHash (key : Int) : Program State Status := insertWithin (hashsize.length + 1) key

def deleteHash (key : Int) : Program State Status := do
  let (status, p, _) ← searchHash key
  if status = .success then
    let H ← table
    let _ ← element H.tag p
    setTable (H.drop p.toNat)
    return .success
  else
    return .unsuccess

inductive Op where
  | insertHash (key : Int)
  | deleteHash (key : Int)
  | searchHash (key : Int)
  deriving DecidableEq, Repr

def Op.key : Op → Int
  | .insertHash key | .deleteHash key | .searchHash key => key

def step : Op → Program State Status
  | .insertHash key => insertHash key
  | .deleteHash key => deleteHash key
  | .searchHash key => do
    let (status, _, _) ← searchHash key
    pure status

def run (ops : List Op) : Program State (List Status) := runAll step ops

/-- After `InitHashTable(H, hashsize[index++])`. -/
def initial : State := ⟨fresh 11, 1⟩

end LanguageTest.MyHash
