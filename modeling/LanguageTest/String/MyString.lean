import LanguageTest.Library.Cells
import Mathlib.Tactic.SplitIfs

namespace LanguageTest.MyString

def stringInitSize : Nat := 8

/-- The default of a length. It is not one itself. -/
def npos : Option Nat := none

/-- The members. `endAt` is `_end`, which points into the array at `_begin`. -/
structure Fields where
  begin : Ptr
  endAt : Ptr × Nat
  capacity : Nat
  deriving DecidableEq

/-- The string objects in the order of their construction, and the arrays of characters. -/
abbrev State := Machine (List Fields) (Cells UInt8)

def getFields (this : Nat) : Program State Fields := do
  match (← getObject)[this]? with
  | none => fail .outOfRange
  | some o => pure o

def setFields (this : Nat) (f : Fields → Fields) : Program State Unit :=
  setObject fun objects => objects.modify this f

/-- The number of characters before the first null character. -/
def strlenCells : Cells UInt8 → Program State Nat
  | [] => fail .outOfRange
  | none :: _ => fail .uninitialized
  | some x :: rest => do
    if x = 0 then pure 0 else pure ((← strlenCells rest) + 1)

def strlen (input : Ptr × Nat) : Program State Nat := do
  strlenCells ((← load input.1).drop input.2)

/-- `while (res <= len) res *= 2`. Every pass adds at least one, so that `len` passes do. -/
def doubleWhile (len : Nat) : Nat → Nat → Nat
  | 0, res => res
  | passes + 1, res => if res ≤ len then doubleWhile len passes (res * 2) else res

def getReallocSize (len : Nat) : Nat := doubleWhile len len stringInitSize

def deallocate (this : Nat) : Program State Unit := do
  delete (← getFields this).begin
  setFields this fun _ => ⟨none, (none, 0), 0⟩
  let p ← newCells stringInitSize
  setFields this fun _ => ⟨p, (p, 0), stringInitSize⟩

def realloc (this len : Nat) : Program State Unit := do
  deallocate this
  let allocLen := getReallocSize len
  let p ← newCells allocLen
  setFields this fun _ => ⟨p, (p, 0), allocLen⟩

/-- `if (len == npos) len = strlen(input_data)`. -/
def dataLength (inputData : Ptr × Nat) : Option Nat → Program State Nat
  | none => strlen inputData
  | some len => pure len

/-- `_alloc.construct(_end, '\0'); _end++`. -/
def terminate (this : Nat) : Program State Unit := do
  let last := (← getFields this).endAt
  writeCell last.1 last.2 0
  setFields this fun o => { o with endAt := (last.1, last.2 + 1) }

def appendData (this : Nat) (inputData copyStart : Ptr × Nat) (len : Option Nat) :
    Program State Unit := do
  let o ← getFields this
  if copyStart.1 = none then fail .nullPointer
  else if copyStart.1 ≠ o.begin ∨ copyStart.1 ≠ o.endAt.1 ∨ o.endAt.2 < copyStart.2 then
    fail .outOfRange
  else
    let len ← dataLength inputData len
    let needSize := copyStart.2 + len + 1
    if needSize > o.capacity then
      let allocLen := getReallocSize needSize
      let newBegin ← newCells allocLen
      deallocate this
      copyCells inputData.1 inputData.2 newBegin 0 len
      setFields this fun _ => ⟨newBegin, (newBegin, len), allocLen⟩
    else
      copyCells inputData.1 inputData.2 copyStart.1 copyStart.2 len
      setFields this fun o => { o with endAt := (copyStart.1, copyStart.2 + len) }
    terminate this

/-- An object before its constructor runs. -/
def declare : Program State Nat := do
  let this := (← getObject).length
  setObject fun objects => objects ++ [⟨none, (none, 0), 0⟩]
  pure this

/-- `basic_string()`. -/
def construct : Program State Nat := do
  let this ← declare
  realloc this stringInitSize
  pure this

/-- `basic_string(T *input)`. -/
def constructFrom (input : Ptr) : Program State Nat := do
  let this ← declare
  realloc this stringInitSize
  appendData this (input, 0) ((← getFields this).begin, 0) npos
  pure this

/-- `basic_string(T t, size_t n)`, which does not use its first argument. -/
def constructChars (_t : UInt8) (n : Nat) : Program State Nat := do
  let this ← declare
  realloc this n
  pure this

/-- `basic_string(T t)`. -/
def constructChar (t : UInt8) : Program State Nat := constructChars t 1

/-- `operator=`, which is taken to return `*this`. -/
def assign (this str : Nat) : Program State Nat := do
  realloc this stringInitSize
  appendData this ((← getFields str).begin, 0) ((← getFields this).begin, 0) npos
  pure this

/-- `operator+`, which is taken to return `*this`. -/
def append (this str : Nat) : Program State Nat := do
  appendData this ((← getFields str).begin, 0) (← getFields this).endAt npos
  pure this

/-- The value of `size()`. -/
def Fields.size (o : Fields) : Nat := if o.endAt = (o.begin, 0) then 0 else o.endAt.2 - 1

def size (this : Nat) : Program State Nat := do pure (← getFields this).size

def capacity (this : Nat) : Program State Nat := do pure (← getFields this).capacity

/-- `operator[]`. -/
def element (this index : Nat) : Program State UInt8 := do
  let o ← getFields this
  if index < o.size then readCell o.begin index else fail .outOfRange

/-- `substr`, with the object that it returns. -/
def substr (this pos : Nat) (len : Option Nat) : Program State Nat := do
  let res ← construct
  let len ← match len with
    | none => size this
    | some len => pure len
  realloc res (len + 1)
  appendData res ((← getFields this).begin, pos) ((← getFields res).begin, 0) (some len)
  pure res

/-- The characters of a C string. -/
structure CString where
  chars : List UInt8
  nonzero : 0 ∉ chars

inductive Op where
  | fromCString (input : CString)
  | fromChar (t : UInt8)
  | fromChars (t : UInt8) (n : Nat)
  | assign (this str : Nat)
  | append (this str : Nat)
  | substr (this pos len : Nat)

/-- A call, with the object that it returns. The caller keeps a C string in an array of its own. -/
def step : Op → Program State Nat
  | .fromCString input => do constructFrom (← new ((input.chars ++ [0]).map some))
  | .fromChar t => constructChar t
  | .fromChars t n => constructChars t n
  | .assign this str => assign this str
  | .append this str => append this str
  | .substr this pos len => substr this pos (some len)

/-- The strings that the objects are to hold after a call. -/
def stepped (op : Op) (strs : List (List UInt8)) : Nat × List (List UInt8) :=
  match op with
  | .fromCString input => (strs.length, strs ++ [input.chars])
  | .fromChar t => (strs.length, strs ++ [[t]])
  | .fromChars t n => (strs.length, strs ++ [List.replicate n t])
  | .assign this str => (this, strs.set this (strs.getD str []))
  | .append this str => (this, strs.set this (strs.getD this [] ++ strs.getD str []))
  | .substr this pos len => (strs.length, strs ++ [((strs.getD this []).drop pos).take len])

section
variable {this len res passes n : Nat} {s t u : State} {a b : Addr} {k i : Nat} {p : Ptr}
  {text xs : List UInt8} {o : Fields} {d rest : Cells UInt8}

theorem le_doubleWhile : res ≤ doubleWhile len passes res := by
  induction passes generalizing res with
  | zero => exact Nat.le_refl _
  | succ passes ih =>
    rw [doubleWhile]
    split_ifs
    · exact Nat.le_trans (Nat.le_mul_of_pos_right res Nat.two_pos) ih
    · exact Nat.le_refl _

theorem lt_doubleWhile (hres : 0 < res) (h : len < res + passes) :
    len < doubleWhile len passes res := by
  induction passes generalizing res with
  | zero => exact h
  | succ passes ih =>
    rw [doubleWhile]
    split_ifs
    · exact ih (by omega) (by omega)
    · omega

theorem lt_getReallocSize (len : Nat) : len < getReallocSize len :=
  lt_doubleWhile (by decide) (by rw [stringInitSize]; omega)

theorem stringInitSize_le (len : Nat) : stringInitSize ≤ getReallocSize len := le_doubleWhile

@[simp] theorem runs_getFields {Q : Fields → State → Prop} :
    Runs (getFields this) s Q ↔ ∃ o, s.object[this]? = some o ∧ Q o s := by
  rw [getFields, runs_bind, runs_getObject]
  cases s.object[this]? with
  | none => simp [Runs, fail]
  | some o => simp

@[simp] theorem runs_setFields {f : Fields → Fields} {Q : Unit → State → Prop} :
    Runs (setFields this f) s Q ↔ Q () { s with object := s.object.modify this f } :=
  runs_setObject

theorem strlenCells_eq (h : 0 ∉ xs) :
    strlenCells (written xs (some 0 :: rest)) s = .ok (xs.length, s) := by
  induction xs with
  | nil => rfl
  | cons x xs ih =>
    obtain ⟨hx, hxs⟩ := not_or.mp (fun hm => h (List.mem_cons.mpr hm))
    have hne : x ≠ 0 := fun he => hx he.symm
    simp only [written, List.map_cons, List.cons_append, strlenCells, if_neg hne] at ih ⊢
    rw [bind_eq (ih hxs), List.length_cons]
    rfl

theorem dataLength_npos (ha : s.heap.cells a = some (written (xs ++ [0]) rest)) (h : 0 ∉ xs) :
    dataLength (some a, 0) npos s = .ok (xs.length, s) := by
  have hcells : written (xs ++ [0]) rest = written xs (some 0 :: rest) := by simp [written]
  have hload : load (some a) s = .ok (written (xs ++ [0]) rest, s) := by simp [load, ha]
  rw [npos, dataLength, strlen, bind_eq hload, List.drop_zero, hcells, strlenCells_eq h]

theorem fails_dataLength (ha : s.heap.cells a = some (none :: rest)) :
    Fails (dataLength (some a, 0) npos) s .uninitialized := by
  apply Runs.fails
  simp only [runs_load, ha, Option.some.injEq, exists_eq_left', List.drop_zero, strlenCells]
  exact fails_fail

/-- The object has an array that starts with this text and has `k` more cells, which have not been
written. -/
structure Holds (s : State) (this : Nat) (a : Addr) (text : List UInt8) (k : Nat) : Prop where
  object : s.object[this]? = some ⟨some a, (some a, text.length), text.length + k⟩
  cells : s.heap.cells a = some (written text (List.replicate k none))
  room : stringInitSize ≤ text.length + k

/-- No object but this one has changed, and no array but the one at `p`. -/
structure Kept (this : Nat) (p : Ptr) (s t : State) : Prop where
  count : t.object.length = s.object.length
  others : ∀ i, i ≠ this → t.object[i]? = s.object[i]?
  cells : ∀ b d, p ≠ some b → s.heap.cells b = some d → t.heap.cells b = some d

/-- The object, whose array was at `p`, has been given this text. -/
def Filled (this : Nat) (p : Ptr) (text : List UInt8) (s t : State) : Prop :=
  Kept this p s t ∧ ∃ a k, Holds t this a text k ∧ (p = some a ∨ s.heap.cells a = none)

theorem Kept.trans (hl : Kept this p s t) (hr : Kept this (some a) t u)
    (ha : p = some a ∨ s.heap.cells a = none) : Kept this p s u := by
  constructor
  case count => exact hr.count.trans hl.count
  case others => exact fun i hi => (hr.others i hi).trans (hl.others i hi)
  case cells =>
    intro b d hb hd
    refine hr.cells b d ?_ (hl.cells b d hb hd)
    rintro ⟨⟩
    rcases ha with hp | hnone
    · exact hb hp
    · rw [hd] at hnone
      cases hnone

theorem Kept.fresh (h : Kept this p s t) (hb : t.heap.cells b = none) :
    p = some b ∨ s.heap.cells b = none := by
  by_cases hp : p = some b
  · exact Or.inl hp
  · right
    cases hd : s.heap.cells b with
    | none => rfl
    | some d => cases hb.symm.trans (h.cells b d hp hd)

theorem Kept.filled (h : Kept this p s t) (ha : p = some a ∨ s.heap.cells a = none)
    (hr : Filled this (some a) text t u) : Filled this p text s u := by
  obtain ⟨hkept, b, k, hholds, hb⟩ := hr
  refine ⟨h.trans hkept ha, b, k, hholds, ?_⟩
  rcases hb with hab | hnone
  · cases hab
    exact ha
  · exact h.fresh hnone

theorem Filled.trans (hl : Filled this p xs s t)
    (hr : ∀ a k, Holds t this a xs k → Filled this (some a) text t u) : Filled this p text s u := by
  obtain ⟨hkept, a, k, hholds, ha⟩ := hl
  exact hkept.filled ha (hr a k hholds)

/-- A new array takes the place of the one that the object had. -/
theorem filled_new (ho : s.object[this]? = some o) (hn : stringInitSize ≤ n)
    (ht : t = ⟨s.object.set this ⟨some s.heap.next, (some s.heap.next, 0), n⟩,
      s.heap.alloc (List.replicate n none)⟩) : Filled this p [] s t := by
  obtain ⟨hthis, -⟩ := List.getElem?_eq_some_iff.mp ho
  subst ht
  refine ⟨⟨?_, ?_, ?_⟩, s.heap.next, n, ⟨?_, ?_, ?_⟩, Or.inr s.heap.next_fresh⟩
  · simp
  · intro i hi
    exact List.getElem?_set_ne (Ne.symm hi)
  · intro b d _ hd
    have hb : b ≠ s.heap.next := by
      rintro rfl
      rw [s.heap.next_fresh] at hd
      cases hd
    simpa [hb] using hd
  · simp [hthis]
  · simp [written]
  · simpa using hn

theorem Filled.of_release
    (h : Filled this (some a) text { s with heap := s.heap.release a } t) :
    Filled this (some a) text s t := by
  obtain ⟨hkept, b, k, hholds, hb⟩ := h
  refine ⟨⟨hkept.count, hkept.others, ?_⟩, b, k, hholds, ?_⟩
  · intro x d hx hd
    have hne : x ≠ a := fun he => hx (congrArg some he.symm)
    exact hkept.cells x d hx (by simpa [hne] using hd)
  · rcases hb with hab | hnone
    · exact Or.inl hab
    · by_cases hab : b = a
      · exact Or.inl (congrArg some hab.symm)
      · exact Or.inr (by simpa [hab] using hnone)

theorem modify_const {objects : List Fields} {o' : Fields} :
    objects.modify this (fun _ => o') = objects.set this o' := by
  apply List.ext_getElem?
  intro i
  rw [List.getElem?_modify, List.getElem?_set]
  by_cases hi : this = i
  · subst hi
    by_cases hlt : this < objects.length <;> simp [hlt]
  · simp [hi]

theorem runs_deallocate (ho : s.object[this]? = some o)
    (hp : ∀ a, o.begin = some a → (s.heap.cells a).isSome) :
    Runs (deallocate this) s fun _ t => Filled this o.begin [] s t := by
  simp only [deallocate, newCells, runs_bind, runs_getFields, ho, Option.some.injEq,
    exists_eq_left', runs_setFields, runs_new, modify_const, List.set_set]
  cases hbegin : o.begin with
  | none => exact runs_pure.mpr (filled_new ho (Nat.le_refl _) rfl)
  | some a =>
    refine runs_delete.mpr ⟨hp a hbegin, Filled.of_release ?_⟩
    exact filled_new ho (Nat.le_refl _) rfl

theorem runs_realloc (ho : s.object[this]? = some o)
    (hp : ∀ a, o.begin = some a → (s.heap.cells a).isSome) :
    Runs (realloc this len) s fun _ t => Filled this o.begin [] s t := by
  rw [realloc, runs_bind]
  refine (runs_deallocate ho hp).mono ?_
  intro _ t ht
  simp only [newCells, runs_bind, runs_new, runs_setFields, modify_const]
  exact ht.trans fun a k hholds => filled_new hholds.object (stringInitSize_le len) rfl

theorem modify_eq {objects : List Fields} {f : Fields → Fields} (ho : objects[this]? = some o) :
    objects.modify this f = objects.set this (f o) := by
  rw [← modify_const]
  apply List.ext_getElem?
  intro i
  rw [List.getElem?_modify, List.getElem?_modify]
  by_cases hi : this = i
  · subst hi
    simp [ho]
  · simp [hi]

/-- Writing to the array of an object, and to the members of that object. -/
theorem kept_write {o' : Fields} {f : Cells UInt8 → Cells UInt8} :
    Kept this (some a) s ⟨s.object.set this o', s.heap.modify a f⟩ := by
  constructor
  case count => exact List.length_set
  case others => exact fun i hi => List.getElem?_set_ne (Ne.symm hi)
  case cells =>
    intro b d hb hd
    have hne : b ≠ a := fun he => hb (congrArg some he.symm)
    simpa [hne] using hd

theorem runs_terminate (h : Holds s this a text (k + 1)) :
    Runs (terminate this) s fun _ t => Filled this (some a) (text ++ [0]) s t := by
  have hroom := h.room
  obtain ⟨hthis, -⟩ := List.getElem?_eq_some_iff.mp h.object
  simp only [terminate, runs_bind, runs_getFields, h.object, Option.some.injEq, exists_eq_left']
  refine (runs_writeCell h.cells (by simp)).mpr ?_
  rw [runs_setFields, modify_eq h.object]
  refine ⟨kept_write, a, k, ?_, Or.inl rfl⟩
  constructor
  case object =>
    rw [List.getElem?_set_self hthis, List.length_append, List.length_singleton]
    simp
    omega
  case cells => simp [h.cells, List.replicate_succ, set_written_next]
  case room =>
    rw [List.length_append, List.length_singleton]
    omega

theorem kept_alloc : Kept this p s { s with heap := s.heap.alloc d } := by
  refine ⟨rfl, fun _ _ => rfl, fun b e _ he => ?_⟩
  simpa [Heap.ne_next he] using he

/-- The last lines of `append_data`. -/
theorem Kept.runs_terminate (h : Kept this p s t) (hholds : Holds t this a xs (k + 1))
    (ha : p = some a ∨ s.heap.cells a = none) :
    Runs (terminate this) t fun _ u => Filled this p (xs ++ [0]) s u :=
  (MyString.runs_terminate hholds).mono fun _ _ hu => h.filled ha hu

section
variable {l : Option Nat} (h : Holds s this a text k) (hb : s.heap.cells b = some d)
  (hd : ∀ j x, xs[j]? = some x → d[i + j]? = some (some x))
  (hlen : dataLength (some b, i) l s = .ok (xs.length, s))
include h hb hd hlen

theorem runs_appendData_place (hfits : xs.length + 1 ≤ k)
    (hapart : b ≠ a ∨ i + xs.length ≤ text.length) :
    Runs (appendData this (some b, i) (some a, text.length) l) s fun _ t =>
      Filled this (some a) (text ++ xs ++ [0]) s t := by
  have hroom := h.room
  have hasserts : ¬ (some a ≠ some a ∨ some a ≠ some a ∨ text.length < text.length) := by simp
  have hplace : ¬ text.length + xs.length + 1 > text.length + k := by omega
  obtain ⟨m, rfl⟩ := Nat.exists_eq_add_of_le hfits
  obtain ⟨hthis, -⟩ := List.getElem?_eq_some_iff.mp h.object
  simp only [appendData, runs_bind, runs_getFields, h.object, Option.some.injEq, exists_eq_left',
    reduceCtorEq, if_false, if_neg hasserts, runs_of_ok hlen, if_neg hplace]
  have hspace : text.length + xs.length ≤
      (written text (List.replicate (xs.length + 1 + m) none)).length := by
    rw [length_written, List.length_replicate]
    omega
  refine (runs_copyCells hb hd h.cells hspace hapart).mpr ?_
  have hrest : xs.length + 1 + m - xs.length = m + 1 := by omega
  simp only [runs_setFields, overwriteAt, modify_eq h.object, overwrite_written, hrest]
  refine kept_write.runs_terminate (a := a) (k := m) ?_ (Or.inl rfl)
  constructor
  case object =>
    rw [List.getElem?_set_self hthis, List.length_append]
    simp only [Option.some.injEq, Fields.mk.injEq, true_and]
    omega
  case cells => simp [h.cells]
  case room =>
    rw [List.length_append]
    omega

theorem runs_appendData_realloc (hfits : k < xs.length + 1) (hapart : b ≠ a) :
    Runs (appendData this (some b, i) (some a, text.length) l) s fun _ t =>
      Filled this (some a) (xs ++ [0]) s t := by
  have hasserts : ¬ (some a ≠ some a ∨ some a ≠ some a ∨ text.length < text.length) := by simp
  have hplace : text.length + xs.length + 1 > text.length + k := by omega
  have hsize := lt_getReallocSize (text.length + xs.length + 1)
  have hinit := stringInitSize_le (text.length + xs.length + 1)
  simp only [appendData, runs_bind, runs_getFields, h.object, Option.some.injEq, exists_eq_left',
    reduceCtorEq, if_false, if_neg hasserts, runs_of_ok hlen, if_pos hplace, newCells, runs_new]
  generalize getReallocSize (text.length + xs.length + 1) = n at hsize hinit ⊢
  let fresh : State := { s with heap := s.heap.alloc (List.replicate n none) }
  have halloc : Kept this none s fresh := kept_alloc
  have hstays : ∀ x d, s.heap.cells x = some d → fresh.heap.cells x = some d :=
    fun x d hx => halloc.cells x d (Option.some_ne_none x).symm hx
  refine (runs_deallocate (s := fresh) h.object ?_).mono ?_
  · rintro x ⟨⟩
    rw [hstays a _ h.cells]
    rfl
  rintro _ t ⟨hkept, a', k', hholds, -⟩
  have hsource := hkept.cells b d (fun he => hapart (Option.some.inj he).symm) (hstays b d hb)
  have htarget : t.heap.cells s.heap.next = some (written [] (List.replicate n none)) := by
    refine hkept.cells _ _ (fun he => Heap.ne_next h.cells (Option.some.inj he)) ?_
    simp [fresh, written]
  have hspace : 0 + xs.length ≤ (written [] (List.replicate n (none : Option UInt8))).length := by
    rw [length_written, List.length_replicate]
    omega
  refine (runs_copyCells hsource hd htarget hspace (Or.inl (Heap.ne_next hb))).mpr ?_
  obtain ⟨m, rfl⟩ := Nat.exists_eq_add_of_le (show xs.length + 1 ≤ n by omega)
  obtain ⟨hthis, -⟩ := List.getElem?_eq_some_iff.mp hholds.object
  have hrest : xs.length + 1 + m - xs.length = m + 1 := by omega
  have hwritten : overwrite (written [] (List.replicate (xs.length + 1 + m) none)) 0 xs =
      written xs (List.replicate (m + 1) none) := by
    rw [← List.length_nil (α := UInt8), overwrite_written, hrest, List.nil_append]
  simp only [runs_setFields, overwriteAt, modify_const, hwritten]
  have hreleased : Kept this (some a) s t := kept_alloc.trans hkept (Or.inl rfl)
  refine (hreleased.trans kept_write (Or.inr s.heap.next_fresh)).runs_terminate (a := s.heap.next)
    (k := m) ?_ (Or.inr s.heap.next_fresh)
  constructor
  case object =>
    rw [List.getElem?_set_self hthis]
    simp only [Option.some.injEq, Fields.mk.injEq, true_and]
    omega
  case cells => simp [htarget]
  case room =>
    omega

end

theorem Kept.refl : Kept this p s s := ⟨rfl, fun _ _ => rfl, fun _ _ _ hd => hd⟩

/-- `append_data` to an object with a new array, from an array that was there before. -/
theorem Kept.runs_appendData {l : Option Nat} (h : Kept this p s t) (hholds : Holds t this a [] k)
    (ha : p = some a ∨ s.heap.cells a = none) (hb : s.heap.cells b = some d) (hp : p ≠ some b)
    (hd : ∀ j x, xs[j]? = some x → d[i + j]? = some (some x))
    (hlen : dataLength (some b, i) l t = .ok (xs.length, t)) :
    Runs (appendData this (some b, i) (some a, 0) l) t fun _ u =>
      Filled this p (xs ++ [0]) s u := by
  have hsource := h.cells b d hp hb
  have hapart : b ≠ a := by
    rintro rfl
    rcases ha with hpb | hnone
    · exact hp hpb
    · cases hnone.symm.trans hb
  have hfill : Runs (appendData this (some b, i) (some a, 0) l) t fun _ u =>
      Filled this (some a) (xs ++ [0]) t u := by
    by_cases hfits : xs.length + 1 ≤ k
    · exact runs_appendData_place hholds hsource hd hlen hfits (Or.inl hapart)
    · exact runs_appendData_realloc hholds hsource hd hlen (Nat.not_le.mp hfits) hapart
  exact hfill.mono fun _ _ hu => h.filled ha hu

/-- The text of an array that has none is not read. -/
theorem not_runs_appendData {start : Ptr × Nat} (hb : s.heap.cells b = some (none :: rest))
    {Q : Unit → State → Prop} : ¬ Runs (appendData this (some b, 0) start npos) s Q := by
  intro h
  simp only [appendData, runs_bind, runs_getFields] at h
  obtain ⟨o, -, h⟩ := h
  split_ifs at h
  · exact h.not_fails fails_fail
  · exact h.not_fails fails_fail
  · rw [runs_bind] at h
    exact h.not_fails (fails_dataLength hb)

theorem runs_deallocate_released (ho : s.object[this]? = some o) (hp : o.begin = some a)
    (ha : (s.heap.cells a).isSome) :
    Runs (deallocate this) s fun _ t => t.heap.cells a = none := by
  have hne : a ≠ s.heap.next := by
    rintro rfl
    rw [s.heap.next_fresh] at ha
    cases ha
  simp only [deallocate, newCells, runs_bind, runs_getFields, ho, Option.some.injEq,
    exists_eq_left', runs_setFields, runs_new, hp, runs_delete]
  refine ⟨ha, ?_⟩
  have hnext : (s.heap.release a).next = s.heap.next := rfl
  simp [hnext, hne]

/-- The text of the object itself is not copied when there is no room, since its array is released
before. -/
theorem not_runs_appendData_self (h : Holds s this a text k)
    (hlen : dataLength (some a, 0) npos s = .ok (n, s)) (hn : 0 < n) (hfits : k < n + 1)
    {Q : Unit → State → Prop} :
    ¬ Runs (appendData this (some a, 0) (some a, text.length) npos) s Q := by
  have hasserts : ¬ (some a ≠ some a ∨ some a ≠ some a ∨ text.length < text.length) := by simp
  have hplace : text.length + n + 1 > text.length + k := by omega
  intro hruns
  simp only [appendData, runs_bind, runs_getFields, h.object, Option.some.injEq, exists_eq_left',
    reduceCtorEq, if_false, if_neg hasserts, runs_of_ok hlen, if_pos hplace, newCells,
    runs_new] at hruns
  obtain ⟨_, t, ht, hcopy⟩ := hruns
  have hnext := Heap.ne_next h.cells
  have hreleased := (runs_of_ok ht).mp (runs_deallocate_released (a := a) h.object rfl
    (by simp [hnext, h.cells]))
  exact hcopy.not_fails (fails_copyCells hreleased hn)

end

end LanguageTest.MyString
