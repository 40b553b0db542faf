import LanguageTest.Library.Arithmetic
import LanguageTest.Library.Cells
import Mathlib.Tactic.ByContra

namespace LanguageTest.MyCircularQueue

structure Fields where
  head : Int
  tail : Int
  count : Int
  data : Ptr

abbrev State := Machine Fields (Cells Int)

def construct (k : Int) : Program State Unit := do
  let count ← int (k + 1)
  let data ← newCells count.toNat
  setObject fun _ => ⟨-1, -1, count, data⟩

def isEmpty : Program State Bool := do
  let o ← getObject
  if o.tail = o.head then pure true else pure false

def isFull : Program State Bool := do
  let o ← getObject
  let next ← int (o.tail + 1)
  let last ← int (o.head + o.count)
  if next.tmod o.count = last.tmod o.count then pure true else pure false

/-- The index of the new element is the old `tail` modulo `count`. -/
def enQueue (value : Int) : Program State Bool := do
  if ← isFull then pure false
  else
    setObject fun o => { o with tail := o.tail.tmod o.count }
    writeCell (← getObject).data (← getObject).tail value
    pure true

def deQueue : Program State Bool := do
  if ← isEmpty then pure false
  else
    let next ← int ((← getObject).head + 1)
    setObject fun o => { o with head := next.tmod o.count }
    pure true

def front : Program State Int := do
  if ← isEmpty then pure (-1)
  else
    let o ← getObject
    readCell o.data (← int (o.head + 1))

def rear : Program State Int := do
  if ← isEmpty then pure (-1)
  else
    let o ← getObject
    readCell o.data o.tail

inductive Op where
  | enQueue (value : Int)
  | deQueue
  | front
  | rear
  | isEmpty
  | isFull
  deriving DecidableEq

inductive Result where
  | bool (b : Bool)
  | value (v : Int)
  deriving DecidableEq

def step : Op → Program State Result
  | .enQueue value => do pure (.bool (← enQueue value))
  | .deQueue => do pure (.bool (← deQueue))
  | .front => do pure (.value (← front))
  | .rear => do pure (.value (← rear))
  | .isEmpty => do pure (.bool (← isEmpty))
  | .isFull => do pure (.bool (← isFull))

/-- A queue from its constructor on. -/
def run (k : Int) (ops : List Op) : Program State (List Result) := do
  construct k
  runAll step ops

def start : State := ⟨⟨0, 0, 0, none⟩, Heap.empty⟩

/-- A queue of bounded length. -/
def queue (k : Nat) : Op → List Int → Result × List Int
  | .enQueue value, items =>
    if items.length < k then (.bool true, items ++ [value]) else (.bool false, items)
  | .deQueue, items => (.bool !items.isEmpty, items.tail)
  | .front, items => (.value (items.head?.getD (-1)), items)
  | .rear, items => (.value (items.getLast?.getD (-1)), items)
  | .isEmpty, items => (.bool items.isEmpty, items)
  | .isFull, items => (.bool (decide (items.length = k)), items)

/-- A new queue, to which nothing was added. -/
structure Empty (k : Nat) (s : State) : Prop where
  head : s.object.head = -1
  tail : s.object.tail = -1
  count : s.object.count = k + 1
  int : IsInt (k + 1)

section
variable {k : Nat} {s : State} {op : Op}

theorem Empty.runs_isEmpty (h : Empty k s) {Q : Bool → State → Prop} :
    Runs isEmpty s Q ↔ Q true s := by
  simp only [MyCircularQueue.isEmpty, runs_bind, runs_getObject, h.head, h.tail, if_true, runs_pure]

theorem Empty.runs_isFull (h : Empty k s) (hk : 1 ≤ k) {Q : Bool → State → Prop} :
    Runs isFull s Q ↔ Q false s := by
  have hmax := h.int.2
  have hlast : IsInt (-1 + (k + 1)) := by
    constructor <;> omega
  have hne : ¬ ((-1 + 1 : Int).tmod (k + 1) = (-1 + (k + 1) : Int).tmod (k + 1)) := by
    have hk : (-1 + (k + 1) : Int).tmod (k + 1) = k := by
      rw [show (-1 + (k + 1) : Int) = k by omega]
      exact Int.tmod_eq_of_lt (by omega) (by omega)
    rw [hk]
    simp
    omega
  simp only [MyCircularQueue.isFull, runs_bind, runs_getObject, h.head, h.tail, h.count,
    runs_int (show IsInt (-1 + 1) by decide), runs_int hlast, if_neg hne, runs_pure]

/-- The first element is written in front of the array. -/
theorem Empty.not_runs_enQueue (h : Empty k s) (hk : 1 ≤ k) {value : Int}
    {Q : Result → State → Prop} : ¬ Runs (step (.enQueue value)) s Q := by
  have htail : (-1 : Int).tmod (k + 1) = -1 := by
    rw [Int.neg_tmod, Int.tmod_eq_of_lt (by omega) (by omega)]
  intro hruns
  simp only [step, enQueue, runs_bind, h.runs_isFull hk, Bool.false_eq_true, if_false,
    runs_setObject, runs_getObject, h.tail, h.count, htail] at hruns
  exact not_runs_writeCell (by decide) hruns

theorem Empty.step (h : Empty k s) (hk : 1 ≤ k) (hop : ∀ value, op ≠ .enQueue value) :
    Runs (step op) s fun r t => t = s ∧ (r, []) = queue k op [] := by
  cases op with
  | enQueue value => exact absurd rfl (hop value)
  | deQueue => simp [MyCircularQueue.step, deQueue, h.runs_isEmpty, queue]
  | front => simp [MyCircularQueue.step, front, h.runs_isEmpty, queue]
  | rear => simp [MyCircularQueue.step, rear, h.runs_isEmpty, queue]
  | isEmpty => simp [MyCircularQueue.step, h.runs_isEmpty, queue]
  | isFull =>
    simp [MyCircularQueue.step, h.runs_isFull hk, queue]
    omega

theorem harmless_of_runs (h : Empty k s) (hk : 1 ≤ k) {ops : List Op}
    {Q : List Result → State → Prop} (hruns : Runs (runAll MyCircularQueue.step ops) s Q) :
    ∀ op ∈ ops, ∀ value, op ≠ .enQueue value := by
  induction ops generalizing s Q with
  | nil => exact fun op hop => absurd hop List.not_mem_nil
  | cons op ops ih =>
    rw [runAll, runs_bind] at hruns
    have hop : ∀ value, op ≠ .enQueue value := by
      intro value hvalue
      rw [hvalue] at hruns
      exact h.not_runs_enQueue hk hruns
    obtain ⟨r, t, ht, hrest⟩ := hruns
    obtain ⟨rfl, -⟩ := (runs_of_ok ht).mp (h.step hk hop)
    rw [runs_bind] at hrest
    intro op' hop'
    rcases List.mem_cons.mp hop' with rfl | hmem
    · exact hop
    · exact ih h hrest op' hmem

theorem runs_construct (h : IsInt (k + 1)) : Runs (construct k) start fun _ t => Empty k t := by
  simp only [construct, newCells, runs_bind, runs_int h, runs_new, runs_setObject]
  exact ⟨rfl, rfl, rfl, h⟩

/-- The queue works exactly as long as nothing is added to it. -/
theorem run_circular_iff (k : Nat) (hk : 1 ≤ k) (ops : List Op) :
    (∀ pre, pre <+: ops → Runs (run k pre) start fun rs _ => rs = (traceAll (queue k) pre []).1) ↔
      IsInt (k + 1) ∧ ∀ op ∈ ops, ∀ value, op ≠ .enQueue value := by
  constructor
  · intro h
    have hall := h ops List.prefix_rfl
    rw [run, runs_bind] at hall
    obtain ⟨_, s, hs, hruns⟩ := hall
    have hint : IsInt (k + 1) := by
      by_contra hno
      have hok : Runs (construct k) start fun _ _ => True := ⟨_, s, hs, trivial⟩
      exact hok.not_fails (fails_int hno).bind
    exact ⟨hint, harmless_of_runs ((runs_of_ok hs).mp (runs_construct hint)) hk hruns⟩
  · intro h pre hpre
    obtain ⟨hint, hop⟩ := h
    rw [run, runs_bind]
    refine (runs_construct hint).mono ?_
    intro _ s hs
    have hruns : Runs (runAll MyCircularQueue.step pre) s fun rs t =>
        Follows (queue k) (fun t items => Empty k t ∧ items = []) [] pre rs t := by
      apply runs_all (Follows (queue k) (fun t items => Empty k t ∧ items = []) [])
      · intro pre' op post rs t hsplit ht
        have hmem : op ∈ ops := hpre.subset (by simp [hsplit])
        obtain ⟨hempty, hitems⟩ := ht.2
        refine (hempty.step hk (hop op hmem)).mono ?_
        intro r u hu
        obtain ⟨rfl, hqueue⟩ := hu
        apply ht.next
        · rw [hitems, ← hqueue]
        · rw [hitems, ← hqueue]
          exact ⟨hempty, rfl⟩
      · exact ⟨rfl, hs, rfl⟩
    exact hruns.mono fun _ _ h => h.1

/-- All the calls but `enQueue`, on a queue of length 3. -/
theorem run_circular_iff_unused :
    (∀ pre, pre <+: [.isEmpty, .isFull, .front, .rear, .deQueue] →
      Runs (run (3 : Nat) pre) start fun rs _ => rs = (traceAll (queue 3) pre []).1) ↔
    IsInt ((3 : Nat) + 1) ∧ ∀ op ∈ [Op.isEmpty, .isFull, .front, .rear, .deQueue],
      ∀ value, op ≠ .enQueue value :=
  run_circular_iff 3 (by decide) _

/-- The first call of the example in the comment. -/
theorem run_outside : ¬ ∀ pre, pre <+: [.enQueue 1] →
    Runs (run (3 : Nat) pre) start fun rs _ => rs = (traceAll (queue 3) pre []).1 := by
  intro h
  obtain ⟨rs, t, ht, -⟩ := h _ List.prefix_rfl
  cases ht

end

end LanguageTest.MyCircularQueue
