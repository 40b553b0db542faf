import LanguageTest.Library.Arithmetic
import LanguageTest.Library.RingBuffer
import Mathlib.Tactic.ByContra

namespace LanguageTest.CycleQueue
open RingBuffer

variable {α : Type}

structure Fields where
  mSize : UInt32
  mFront : Int
  mRear : Int
  mData : Ptr

abbrev State (α : Type) := Machine Fields (Cells α)

def construct (size : UInt32) : Program (State α) Unit := do
  let data ← newCells size.toNat
  setObject fun _ => ⟨size, 0, 0, data⟩

/-- `(i + 1) % m_size`. The sum is an `int`, which is converted to `unsigned` for the remainder. -/
def next (i : Int) : Program (State α) Nat := do
  let sum ← int (i + 1)
  pure (toUnsigned sum % (← getObject).mSize.toNat)

def isEmpty : Program (State α) Bool := do
  let o ← getObject
  pure (o.mFront == o.mRear)

def isFull : Program (State α) Bool := do
  let o ← getObject
  pure (toUnsigned o.mFront == (← next o.mRear))

inductive Result (α : Type) where
  | threw
  | pushed
  | popped (tmp : α)
  deriving DecidableEq

def push (ele : α) : Program (State α) (Result α) := do
  if ← isFull then pure .threw
  else
    writeCell (← getObject).mData (← getObject).mRear ele
    let rear ← next (← getObject).mRear
    setObject fun o => { o with mRear := toInt rear }
    pure .pushed

def pop : Program (State α) (Result α) := do
  if ← isEmpty then pure .threw
  else
    let tmp ← readCell (← getObject).mData (← getObject).mFront
    let front ← next (← getObject).mFront
    setObject fun o => { o with mFront := toInt front }
    pure (.popped tmp)

inductive Op (α : Type) where
  | push (ele : α)
  | pop

def step : Op α → Program (State α) (Result α)
  | .push ele => push ele
  | .pop => pop

def start : State α := ⟨⟨0, 0, 0, none⟩, Heap.empty⟩

/-- A queue of bounded length. -/
def queue (capacity : Nat) : Op α → List α → Result α × List α
  | .push ele, items =>
    if items.length < capacity then (.pushed, items ++ [ele]) else (.threw, items)
  | .pop, [] => (.threw, [])
  | .pop, tmp :: items => (.popped tmp, items)

/-- What is promised of a queue that holds these elements. A call that throws changes nothing. -/
structure Sound (size : Nat) (s : State α) (items : List α) : Prop where
  front : 0 ≤ s.object.mFront ∧ s.object.mFront < size
  rear : 0 ≤ s.object.mRear ∧ s.object.mRear < size
  isEmpty : Runs isEmpty s fun b t => t = s ∧ (b = true ↔ items = [])
  isFull : Runs isFull s fun b t => t = s ∧ (b = true ↔ items.length = size - 1)
  refused : ∀ op, (queue (size - 1) op items).1 = .threw →
    Runs (step op) s fun r t => r = .threw ∧ t = s

/-- No element is stored at the index from which `m_rear` moves on to the greatest `int`. -/
def Harmless (op : Op α) (s : State α) : Prop :=
  match op with
  | .push _ => s.object.mSize.toNat < 2147483648 ∨ s.object.mRear + 1 < 2147483647
  | .pop => True

instance (op : Op α) (s : State α) : Decidable (Harmless op s) := by
  cases op <;> unfold Harmless <;> infer_instance

/-- The elements are in the ring from `m_front` to `m_rear`. A ring in which an index could be the
greatest `int` has not been used up to there. -/
structure Stored (size : UInt32) (front : Nat) (a : Addr) (c : Cells α) (s : State α)
    (items : List α) : Prop where
  object : s.object = ⟨size, front, place size.toNat front items.length, some a⟩
  cells : s.heap.cells a = some c
  length : c.length = size.toNat
  inside : front < size.toNat
  room : items.length < size.toNat
  holds : Holds c front items
  fits : size.toNat < 2147483648 ∨ front + items.length < 2147483647

def Valid (size : UInt32) (s : State α) (items : List α) : Prop :=
  ∃ front a c, Stored size front a c s items

section
variable {size : UInt32} {s : State α} {items : List α} {i : Nat}

theorem runs_next {Q : Nat → State α → Prop} (hi : i + 1 < 2147483648) :
    Runs (next i) s Q ↔ Q ((i + 1) % s.object.mSize.toNat) s := by
  have hint : IsInt ((i : Int) + 1) := by
    constructor <;> omega
  simp only [next, runs_bind, runs_int hint, runs_getObject, runs_pure]
  rw [toUnsigned_of_nonneg (by omega) (by omega)]
  rfl

theorem fails_next (hi : i = 2147483647) : Fails (next i) s .overflow := by
  apply Fails.bind
  apply fails_int
  intro h
  have hlt := h.2
  omega

variable {front : Nat} {a : Addr} {c : Cells α}

namespace Stored

theorem rear_lt (h : Stored size front a c s items) :
    place size.toNat front items.length < size.toNat :=
  place_lt front _ (Nat.zero_lt_of_lt h.inside)

/-- The successors of both indices are ints. -/
theorem front_succ (h : Stored size front a c s items) : front + 1 < 2147483648 := by
  have hfront := h.inside
  have hfits := h.fits
  omega

theorem rear_succ (h : Stored size front a c s items) :
    place size.toNat front items.length + 1 < 2147483648 := by
  have hlt := h.rear_lt
  have hle : place size.toNat front items.length ≤ front + items.length := Nat.mod_le ..
  have hfits := h.fits
  omega

theorem runs_isEmpty (h : Stored size front a c s items) {Q : Bool → State α → Prop} :
    Runs isEmpty s Q ↔ Q (decide (items = [])) s := by
  have heq : ((front : Int) == (place size.toNat front items.length : Nat)) =
      decide (items = []) := by
    have hplace := place_eq_front h.inside h.room
    rw [Bool.eq_iff_iff, beq_iff_eq, decide_eq_true_iff, ← List.length_eq_zero_iff]
    omega
  simp only [isEmpty, runs_bind, runs_getObject, runs_pure, h.object, heq]

theorem runs_isFull (h : Stored size front a c s items) {Q : Bool → State α → Prop} :
    Runs isFull s Q ↔ Q (decide (items.length + 1 = size.toNat)) s := by
  have hnext : place size.toNat (place size.toNat front items.length) 1 =
      place size.toNat front (items.length + 1) := place_place
  have hfront := h.front_succ
  have heq : (toUnsigned (front : Int) ==
      (place size.toNat front items.length + 1) % size.toNat) =
      decide (items.length + 1 = size.toNat) := by
    have hplace := place_succ_eq_front h.inside h.room
    rw [Bool.eq_iff_iff, beq_iff_eq, decide_eq_true_iff, ← hplace,
      toUnsigned_of_nonneg (by omega) (by omega), ← hnext, Int.toNat_natCast]
    exact eq_comm
  simp only [isFull, runs_bind, runs_getObject, h.object, runs_next h.rear_succ, runs_pure, heq]

theorem place_int (h : Stored size front a c s items) (hi : i ≤ items.length + 1) :
    toInt (place size.toNat front i) = place size.toNat front i := by
  have hlt := place_lt front i (Nat.zero_lt_of_lt h.inside)
  have hle : place size.toNat front i ≤ front + i := Nat.mod_le ..
  have hfits := h.fits
  exact toInt_of_lt (by omega)

/-- Where the element goes, and where `m_rear` goes. -/
theorem runs_push (h : Stored size front a c s items) {ele : α}
    {Q : Result α → State α → Prop} (hroom : items.length + 1 < size.toNat) :
    Runs (push ele) s Q ↔ Q .pushed
      { object := { s.object with mRear := place size.toNat front (items.length + 1) }
        heap := s.heap.modify a fun c =>
          c.set (place size.toNat front items.length) (some ele) } := by
  have hwrite : place size.toNat front items.length < c.length := by
    rw [h.length]
    exact h.rear_lt
  have hnext : (place size.toNat front items.length + 1) % size.toNat =
      place size.toNat front (items.length + 1) := place_place
  simp only [CycleQueue.push, runs_bind, h.runs_isFull, decide_eq_true_iff, if_neg hroom.ne,
    runs_getObject, h.object, runs_writeCell h.cells hwrite, runs_next h.rear_succ, hnext,
    runs_setObject, runs_pure, h.place_int le_rfl]

theorem runs_push_full (h : Stored size front a c s items) {ele : α}
    {Q : Result α → State α → Prop} (hfull : items.length + 1 = size.toNat) :
    Runs (push ele) s Q ↔ Q .threw s := by
  simp only [CycleQueue.push, runs_bind, h.runs_isFull, decide_eq_true_iff, if_pos hfull, runs_pure]

theorem runs_pop_empty (h : Stored size front a c s []) {Q : Result α → State α → Prop} :
    Runs pop s Q ↔ Q .threw s := by
  simp only [CycleQueue.pop, runs_bind, h.runs_isEmpty, decide_true, if_true, runs_pure]

theorem runs_pop {tmp : α} (h : Stored size front a c s (tmp :: items))
    {Q : Result α → State α → Prop} : Runs pop s Q ↔ Q (.popped tmp)
      { s with object := { s.object with mFront := place size.toNat front 1 } } := by
  have hinside := h.inside
  rw [← h.length] at hinside
  have hnext : (front + 1) % size.toNat = place size.toNat front 1 := rfl
  simp only [CycleQueue.pop, runs_bind, h.runs_isEmpty, reduceCtorEq, decide_false,
    Bool.false_eq_true, if_false, runs_getObject, h.object,
    runs_readCell h.cells (h.holds.head hinside), runs_next h.front_succ, hnext, runs_setObject,
    runs_pure, h.place_int (Nat.le_add_left 1 _)]

/-- An element that does not move `m_rear` up to the greatest `int`. -/
theorem push (h : Stored size front a c s items) (ele : α) (hroom : items.length + 1 < size.toNat)
    (hfits : size.toNat < 2147483648 ∨ front + (items.length + 1) < 2147483647) :
    Stored size front a (c.set (place size.toNat front items.length) (some ele))
      { object := { s.object with mRear := place size.toNat front (items.length + 1) }
        heap := s.heap.modify a fun c =>
          c.set (place size.toNat front items.length) (some ele) } (items ++ [ele]) := by
  have hobject := h.object
  constructor
  case object => simp [hobject]
  case cells => simp [h.cells]
  case length => rw [List.length_set, h.length]
  case inside => exact h.inside
  case room => simpa using hroom
  case holds =>
    have hholds := h.holds.push (by rw [h.length]; exact h.room) ele
    rwa [h.length] at hholds
  case fits => simpa using hfits

theorem pop {tmp : α} (h : Stored size front a c s (tmp :: items)) :
    Stored size (place size.toNat front 1) a c
      { s with object := { s.object with mFront := place size.toNat front 1 } } items := by
  have hobject := h.object
  have hinside := h.inside
  constructor
  case object => simp [hobject, place_place, Nat.add_comm]
  case cells => exact h.cells
  case length => exact h.length
  case inside => exact place_lt front 1 (Nat.zero_lt_of_lt hinside)
  case room => exact Nat.lt_of_succ_lt h.room
  case holds =>
    have hholds := h.holds.pop
    rwa [h.length] at hholds
  case fits =>
    have hfits := h.fits
    rw [List.length_cons] at hfits
    have hle : place size.toNat front 1 ≤ front + 1 := Nat.mod_le ..
    omega

end Stored

theorem Stored.sound (h : Stored size front a c s items) : Sound size.toNat s items := by
  have hobject := h.object
  have hinside := h.inside
  have hroom := h.room
  have hrear := h.rear_lt
  constructor
  case front => constructor <;> simp only [hobject] <;> omega
  case rear => constructor <;> simp only [hobject] <;> omega
  case isEmpty => exact h.runs_isEmpty.mpr ⟨rfl, decide_eq_true_iff⟩
  case isFull =>
    refine h.runs_isFull.mpr ⟨rfl, ?_⟩
    rw [decide_eq_true_iff]
    omega
  case refused =>
    intro op hop
    cases op with
    | push ele =>
      by_cases hlt : items.length < size.toNat - 1
      · simp [queue, hlt] at hop
      · exact (h.runs_push_full (by omega)).mpr ⟨rfl, rfl⟩
    | pop =>
      cases items with
      | nil => exact h.runs_pop_empty.mpr ⟨rfl, rfl⟩
      | cons tmp items => simp [queue] at hop

theorem step_valid {op : Op α} (h : Valid size s items) (hok : Harmless op s) :
    Runs (step op) s fun r t => r = (queue (size.toNat - 1) op items).1 ∧
      Valid size t (queue (size.toNat - 1) op items).2 := by
  obtain ⟨front, a, c, h⟩ := h
  cases op with
  | push ele =>
    have hroom := h.room
    by_cases hlt : items.length < size.toNat - 1
    · simp only [step, queue, if_pos hlt, h.runs_push (by omega)]
      refine ⟨trivial, front, a, _, h.push ele (by omega) ?_⟩
      -- before the greatest `int` the ring does not come round
      have hok : size.toNat < 2147483648 ∨
          ((place size.toNat front items.length : Nat) : Int) + 1 < 2147483647 := by
        simpa only [Harmless, h.object] using hok
      have hfits := h.fits
      have hinside := h.inside
      by_cases hsmall : size.toNat < 2147483648
      · exact Or.inl hsmall
      · have hplace : place size.toNat front items.length = front + items.length :=
          Nat.mod_eq_of_lt (by omega)
        omega
    · simp only [step, queue, if_neg hlt]
      exact (h.runs_push_full (by omega)).mpr ⟨rfl, front, a, c, h⟩
  | pop =>
    cases items with
    | nil => exact h.runs_pop_empty.mpr ⟨rfl, front, a, c, h⟩
    | cons tmp items => exact h.runs_pop.mpr ⟨rfl, _, a, c, h.pop⟩

/-- When `m_rear` has become the greatest `int`, `isFull` overflows. -/
theorem fails_isFull (h : s.object.mRear = 2147483647) : Fails isFull s .overflow := by
  have hnext : Fails (next s.object.mRear) s .overflow := by
    rw [h]
    exact fails_next rfl
  apply Runs.fails
  rw [runs_getObject]
  exact hnext.bind

theorem harmless_of_sound {op : Op α} (h : Valid size s items)
    (hruns : Runs (step op) s fun _ t =>
      Sound size.toNat t (queue (size.toNat - 1) op items).2) : Harmless op s := by
  obtain ⟨front, a, c, h⟩ := h
  cases op with
  | pop => trivial
  | push ele =>
    by_contra hno
    have hrear := h.rear_succ
    have hfits := h.fits
    have hroom := h.room
    simp only [Harmless, h.object, not_or, not_lt] at hno
    have hplace : place size.toNat front items.length = front + items.length :=
      Nat.mod_eq_of_lt (by omega)
    have hsucc : place size.toNat front (items.length + 1) = front + (items.length + 1) :=
      Nat.mod_eq_of_lt (by omega)
    have hsound := (h.runs_push (by omega)).mp hruns
    apply hsound.isFull.not_fails
    apply fails_isFull
    simp only [hsucc]
    omega

theorem runs_construct (hsize : 0 < size) :
    Runs (construct size) (start : State α) fun _ t =>
      Stored size 0 0 (List.replicate size.toNat none) t [] := by
  have hpos : 0 < size.toNat := hsize
  simp only [construct, newCells, runs_bind, runs_new, runs_setObject]
  constructor
  case object => simp [start, Heap.empty, place]
  case cells => simp [start, Heap.empty]
  case length => exact List.length_replicate
  case inside => exact hpos
  case room => exact hpos
  case holds => exact holds_nil
  case fits =>
    right
    simp

/-- A queue behaves as one of length `size - 1` throughout a run exactly when every call is
harmless. -/
theorem run_queue_iff (size : UInt32) (hsize : 0 < size) (ops : List (Op α)) :
    Runs (construct size) start fun _ s =>
      ((∀ pre, pre <+: ops → Runs (runAll step pre) s fun rs t =>
        Follows (queue (size.toNat - 1)) (Sound size.toNat) [] pre rs t) ↔
      StepsMeet step Harmless ops s) := by
  refine (runs_construct hsize).mono ?_
  intro _ s hs
  symm
  refine StepsMeet.iff_prefixes (Follows (queue (size.toNat - 1)) (Valid size) []) ops
    ?_ ?_ ?_ ⟨rfl, _, _, _, hs⟩
  · intro pre op post rs t _ ht hok
    refine (step_valid ht.2 hok).mono ?_
    exact fun r u hu => ht.next hu.1 hu.2
  · intro pre op post rs t _ ht hruns
    apply harmless_of_sound ht.2
    refine hruns.mono ?_
    intro r u hu
    have hsound := hu.2
    rwa [traceAll_append] at hsound
  · intro pre rs t ht
    obtain ⟨hrs, _, _, _, hstored⟩ := ht
    exact ⟨hrs, hstored.sound⟩

/-- The sample run of the program. -/
theorem run_queue_iff_sample : Runs (construct 5) (start : State Nat) fun _ s =>
    ((∀ pre, pre <+: [.push 1, .push 2, .push 3, .push 4, .pop, .pop, .pop, .pop, .push 5, .pop] →
      Runs (runAll step pre) s fun rs t =>
        Follows (queue ((5 : UInt32).toNat - 1)) (Sound (5 : UInt32).toNat) [] pre rs t) ↔
    StepsMeet step Harmless
      [.push 1, .push 2, .push 3, .push 4, .pop, .pop, .pop, .pop, .push 5, .pop] s) :=
  run_queue_iff 5 (by decide) _

/-- Only pushes were made. -/
def Filled (size : UInt32) (a : Addr) (ele : α) (pre : List (Op α)) (t : State α) : Prop :=
  (pre.length < 2147483647 → ∃ c, Stored size 0 a c t (List.replicate pre.length ele)) ∧
    t.object.mRear = pre.length

/-- In a large enough queue, `m_rear` becomes the greatest `int` with so many pushes. -/
theorem runs_pushes (ele : α) {n : Nat} (hn : n = 2147483647) (hsize : n < size.toNat)
    (h : Stored size 0 a c s []) : Runs (runAll step (List.replicate n (.push ele))) s fun _ t =>
      Filled size a ele (List.replicate n (.push ele)) t := by
  apply runs_all fun pre _ t => Filled size a ele pre t
  · intro pre op post rs t hops ht
    have hop : op = .push ele := by
      apply List.eq_of_mem_replicate (n := n)
      rw [hops]
      exact List.mem_append_right _ List.mem_cons_self
    have hlength : pre.length < n := by
      have hlen := congrArg List.length hops
      rw [List.length_replicate, List.length_append, List.length_cons] at hlen
      omega
    obtain ⟨c', hstored⟩ := ht.1 (by omega)
    have hroom : (List.replicate pre.length ele).length + 1 < size.toNat := by
      rw [List.length_replicate]
      omega
    rw [hop, step, hstored.runs_push hroom, Filled, List.length_append, List.length_singleton]
    constructor
    · intro hlt
      rw [List.replicate_succ']
      refine ⟨_, hstored.push ele hroom (Or.inr ?_)⟩
      rw [List.length_replicate]
      omega
    · have hplace : place size.toNat 0 (pre.length + 1) = pre.length + 1 := by
        rw [place, Nat.zero_add]
        exact Nat.mod_eq_of_lt (by omega)
      simp only [List.length_replicate, hplace]
  · refine ⟨fun _ => ⟨c, h⟩, ?_⟩
    rw [h.object]
    simp [place]

/-- A queue of size 2^31 cannot be filled. -/
theorem run_overflows : ¬ Runs (construct 2147483648) (start : State Nat) fun _ s =>
    ∀ pre, pre <+: List.replicate 2147483647 (Op.push 0) → Runs (runAll step pre) s fun rs t =>
      Follows (queue ((2147483648 : UInt32).toNat - 1)) (Sound (2147483648 : UInt32).toNat) []
        pre rs t := by
  intro h
  obtain ⟨_, s, hs, hall⟩ := h
  have hstored := (runs_of_ok hs).mp (runs_construct (by decide))
  have hrear := runs_pushes 0 rfl (by decide) hstored
  obtain ⟨rs, t, ht, hfollows⟩ := hall _ List.prefix_rfl
  apply hfollows.2.isFull.not_fails
  have hfilled := ((runs_of_ok ht).mp hrear).2
  rw [List.length_replicate] at hfilled
  exact fails_isFull hfilled

end

end LanguageTest.CycleQueue
