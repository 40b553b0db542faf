import LanguageTest.Library.Program

namespace LanguageTest

/-- Addresses name allocations, not byte positions. A released address is never
handed out again; no program here can tell, since none compares a dangling pointer. -/
abbrev Addr := Nat

/-- A pointer: NULL or the address of a node. -/
abbrev Ptr := Option Addr

/-- A finite store of nodes. Everything from `next` on is still unallocated. -/
structure Heap (ν : Type) where
  cells : Addr → Option ν
  next : Addr
  unused : ∀ a, next ≤ a → cells a = none

namespace Heap
variable {ν : Type}

def empty : Heap ν := ⟨fun _ => none, 0, fun _ _ => rfl⟩

/-- Writing through an address that holds no node does nothing. -/
def modify (h : Heap ν) (a : Addr) (f : ν → ν) : Heap ν where
  cells b := if b = a then (h.cells a).map f else h.cells b
  next := h.next
  unused b hb := by
    have := h.unused b hb
    split
    · simp_all
    · exact this

def alloc (h : Heap ν) (n : ν) : Heap ν where
  cells b := if b = h.next then some n else h.cells b
  next := h.next + 1
  unused b (hb : h.next + 1 ≤ b) := by
    rw [if_neg (Nat.ne_of_gt hb)]
    exact h.unused b (Nat.le_of_succ_le hb)

def release (h : Heap ν) (a : Addr) : Heap ν where
  cells b := if b = a then none else h.cells b
  next := h.next
  unused b hb := by
    split
    · rfl
    · exact h.unused b hb

@[simp] theorem empty_cells (a : Addr) : (empty : Heap ν).cells a = none := rfl

@[simp] theorem modify_cells (h : Heap ν) (a b : Addr) (f : ν → ν) :
    (h.modify a f).cells b = if b = a then (h.cells a).map f else h.cells b := rfl

@[simp] theorem alloc_cells (h : Heap ν) (n : ν) (b : Addr) :
    (h.alloc n).cells b = if b = h.next then some n else h.cells b := rfl

@[simp] theorem release_cells (h : Heap ν) (a b : Addr) :
    (h.release a).cells b = if b = a then none else h.cells b := rfl

theorem modify_modify (h : Heap ν) (a : Addr) (f g : ν → ν) :
    (h.modify a f).modify a g = h.modify a fun n => g (f n) := by
  unfold modify
  congr 1
  funext b
  by_cases hb : b = a
  · simp [hb, Function.comp_def]
  · simp [hb]

/-- It only matters what becomes of the node that is there. -/
theorem modify_congr {h : Heap ν} {a : Addr} {n : ν} {f g : ν → ν} (ha : h.cells a = some n)
    (hn : f n = g n) : h.modify a f = h.modify a g := by
  unfold modify
  congr 1
  funext b
  simp only [ha, Option.map_some, hn]

theorem modify_self {h : Heap ν} {a : Addr} {n : ν} (ha : h.cells a = some n) :
    (h.modify a fun _ => n) = h := by
  unfold modify
  congr 1
  funext b
  by_cases hb : b = a
  · rw [if_pos hb, hb, ha]
    rfl
  · rw [if_neg hb]

theorem next_fresh (h : Heap ν) : h.cells h.next = none :=
  h.unused h.next (Nat.le_refl _)

/-- What is allocated is not at the next address. -/
theorem ne_next {h : Heap ν} {a : Addr} {n : ν} (ha : h.cells a = some n) : a ≠ h.next := by
  rintro rfl
  rw [h.next_fresh] at ha
  cases ha

/-- A write changes which node an address holds, not whether it holds one. -/
theorem modify_isSome (h : Heap ν) (a b : Addr) (f : ν → ν) :
    ((h.modify a f).cells b).isSome = (h.cells b).isSome := by
  by_cases hb : b = a <;> simp [hb]

/-- Only nodes at the addresses of `A` were written, and none was allocated or released. -/
structure Within (A : List Addr) (h h' : Heap ν) : Prop where
  same : ∀ a, a ∉ A → h'.cells a = h.cells a
  isSome : ∀ a, (h'.cells a).isSome = (h.cells a).isSome

theorem Within.refl (A : List Addr) (h : Heap ν) : Within A h h := ⟨fun _ _ => rfl, fun _ => rfl⟩

theorem Within.trans {A : List Addr} {h h' h'' : Heap ν} (hl : Within A h h')
    (hr : Within A h' h'') : Within A h h'' :=
  ⟨fun a ha => (hr.same a ha).trans (hl.same a ha), fun a => (hr.isSome a).trans (hl.isSome a)⟩

theorem Within.mono {A B : List Addr} {h h' : Heap ν} (hw : Within A h h')
    (hs : ∀ a ∈ A, a ∈ B) : Within B h h' :=
  ⟨fun a ha => hw.same a fun hm => ha (hs a hm), hw.isSome⟩

theorem within_modify (h : Heap ν) (a : Addr) (f : ν → ν) : Within [a] h (h.modify a f) := by
  refine ⟨fun b hb => ?_, fun b => h.modify_isSome a b f⟩
  rw [modify_cells, if_neg (by simpa using hb)]

end Heap

/-- What a member function works on: the fields of its object and the heap. -/
structure Machine (γ ν : Type) where
  object : γ
  heap : Heap ν

variable {γ ν : Type}

/-- The node a pointer names, for reading one of its fields. -/
def load : Ptr → Program (Machine γ ν) ν
  | none => fail .nullPointer
  | some a => fun s =>
    match s.heap.cells a with
    | none => .error .dangling
    | some n => .ok (n, s)

/-- An assignment to a field of the node a pointer names. -/
def modify (p : Ptr) (f : ν → ν) : Program (Machine γ ν) Unit := do
  let _ ← load p
  match p with
  | none => pure ()
  | some a => fun s => .ok ((), { s with heap := s.heap.modify a f })

/-- `new`, with an allocation that succeeds. -/
def new (n : ν) : Program (Machine γ ν) Ptr :=
  fun s => .ok (some s.heap.next, { s with heap := s.heap.alloc n })

/-- `delete`, which does nothing on NULL. -/
def delete : Ptr → Program (Machine γ ν) Unit
  | none => pure ()
  | some a => do
    let _ ← load (some a)
    fun s => .ok ((), { s with heap := s.heap.release a })

def getObject : Program (Machine γ ν) γ := fun s => .ok (s.object, s)

def setObject (f : γ → γ) : Program (Machine γ ν) Unit :=
  fun s => .ok ((), { s with object := f s.object })

section
variable {s : Machine γ ν} {a : Addr} {n : ν}

@[simp] theorem runs_load {Q : ν → Machine γ ν → Prop} :
    Runs (load (some a)) s Q ↔ ∃ n, s.heap.cells a = some n ∧ Q n s := by
  cases h : s.heap.cells a with
  | none => simp [Runs, load, h]
  | some n => rw [runs_of_ok (t := s) (a := n) (by simp [load, h])]; simp

@[simp] theorem runs_modify {f : ν → ν} {Q : Unit → Machine γ ν → Prop} :
    Runs (modify (some a) f) s Q ↔
      (s.heap.cells a).isSome ∧ Q () { s with heap := s.heap.modify a f } := by
  cases h : s.heap.cells a with
  | none => simp [modify, h]
  | some n =>
    simp only [modify, runs_bind, runs_load, h, Option.some.injEq, exists_eq_left',
      Option.isSome_some, true_and]
    exact runs_of_ok rfl

theorem ensures_modify {f : ν → ν} : Ensures (modify (some a) f) s fun _ t =>
    (s.heap.cells a).isSome ∧ t = { s with heap := s.heap.modify a f } := by
  intro _ t hm
  obtain ⟨hcell, ht⟩ := runs_modify.mp ((runs_of_ok (Q := fun _ u => u = t) hm).mpr rfl)
  exact ⟨hcell, ht.symm⟩

@[simp] theorem runs_delete {Q : Unit → Machine γ ν → Prop} :
    Runs (delete (some a)) s Q ↔
      (s.heap.cells a).isSome ∧ Q () { s with heap := s.heap.release a } := by
  cases h : s.heap.cells a with
  | none => simp [delete, h]
  | some n =>
    simp only [delete, runs_bind, runs_load, h, Option.some.injEq, exists_eq_left',
      Option.isSome_some, true_and]
    exact runs_of_ok rfl

@[simp] theorem runs_new {Q : Ptr → Machine γ ν → Prop} :
    Runs (new n) s Q ↔ Q (some s.heap.next) { s with heap := s.heap.alloc n } :=
  runs_of_ok rfl

@[simp] theorem runs_getObject {Q : γ → Machine γ ν → Prop} :
    Runs getObject s Q ↔ Q s.object s :=
  runs_of_ok rfl

@[simp] theorem runs_setObject {f : γ → γ} {Q : Unit → Machine γ ν → Prop} :
    Runs (setObject f) s Q ↔ Q () { s with object := f s.object } :=
  runs_of_ok rfl

end

end LanguageTest
