import LanguageTest.Library.Monitor
import Mathlib.Data.Finset.Basic

namespace LanguageTest.ThreadPool2
open Transition Monitor

variable {T α : Type*}

inductive Cond where
  | cond
  deriving DecidableEq

/-- The members of the pool. The last two fields are history: no step reads them. -/
structure State (α : Type*) where
  initnum : Nat
  task : List α
  done : Bool
  isEmpty : Bool
  isFull : Bool
  added : List α
  executed : List α

/-- `runTask` and `addTask` are the tests of `done`, `take` and `add` the code under the mutex.
A worker that has returned is at `left`. -/
inductive Loc (α : Type*) where
  | runTask
  | take
  | left
  | idle
  | addTask (f : α)
  | add (f : α)
  | undefined

def Loc.isWorker : Loc α → Bool
  | .runTask | .take | .left | .undefined => true
  | .idle | .addTask _ | .add _ => false

/-- The thread is in a call of `addTask`. -/
def Loc.isCaller : Loc α → Bool
  | .addTask _ | .add _ => true
  | .runTask | .take | .left | .undefined | .idle => false

def mode : Loc α → Mode
  | .take | .add _ => .entry
  | .runTask | .left | .idle | .addTask _ | .undefined => .outside

/-- The constructor. `initnum` has no value before `setSize`. -/
def new (initnum : Nat) : State α := ⟨initnum, [], false, true, false, [], []⟩

def setSize (num : Nat) (s : State α) : State α := { s with initnum := num }

/-- The body of `addTask` under the mutex. -/
def add (f : α) (s : State α) : Effect Cond (Loc α) (State α) :=
  if s.isFull then .sleep s .cond (.add f)
  else
    let task := s.task ++ [f]
    let isFull := if task.length = s.initnum then true else s.isFull
    .notifyOne { s with task := task, isFull := isFull, isEmpty := false, added := s.added ++ [f] }
      .cond .idle

/-- The body of the loop of `runTask` under the mutex. -/
def take (s : State α) : Effect Cond (Loc α) (State α) :=
  if s.isEmpty then .sleep s .cond .take
  else
    match s.task with
    | [] => .go s .undefined
    | ta :: task =>
      let isEmpty := if task.isEmpty then true else s.isEmpty
      .notifyOne { s with task := task, isEmpty := isEmpty, isFull := false,
                          executed := s.executed ++ [ta] } .cond .runTask

def step (_ : T) (l : Loc α) (f : α) (s : State α) : Option (Effect Cond (Loc α) (State α)) :=
  match l with
  | .runTask => some (.go s (if !s.done then .take else .left))
  | .take => some (take s)
  | .idle => some (.go s (.addTask f))
  | .addTask f => some (.go s (if !s.done then .add f else .idle))
  | .add f => some (add f s)
  | .left | .undefined => none

def program : Threads T Cond (Loc α) α (State α) := ⟨mode, step⟩

/-- The pool after `setSize` and `start`: the workers are at their loops, every other thread may
call `addTask`. -/
def start [DecidableEq T] (workers : Finset T) (num : Nat) : Config T Cond (Loc α) (State α) :=
  ⟨setSize num (new 0), none, fun t => .ready (if t ∈ workers then .runTask else .idle)⟩

/-- The flags agree with the queue, which keeps within its size, and the tasks were executed in
the order they were added. -/
structure Agrees (num : Nat) (s : State α) : Prop where
  size : s.initnum = num
  running : s.done = false
  empty : s.isEmpty = true ↔ s.task = []
  full : s.isFull = true ↔ s.task.length = num
  bound : s.task.length ≤ num
  order : s.added = s.executed ++ s.task

/-- The task of an `addTask` that returns. -/
def Loc.adds : Loc α → Loc α → List α
  | .addTask f, .idle | .add f, .idle => [f]
  | _, _ => []

/-- The task that a worker takes to execute, which is the front one. -/
def Loc.executes : Loc α → List α → List α
  | .take, task => task.take 1
  | _, _ => []

section
variable {num : Nat} {s : State α} {t : T} {f : α} {l : Loc α}
variable {e : Effect Cond (Loc α) (State α)}

theorem new_agrees (hnum : 1 ≤ num) : Agrees num (setSize num (new 0) : State α) := by
  constructor
  case size => rfl
  case running => rfl
  case empty => simp [setSize, new]
  case full =>
    simp only [setSize, new, List.length_nil, Bool.false_eq_true, false_iff]
    omega
  case bound => exact Nat.zero_le num
  case order => rfl

theorem add_agrees (h : Agrees num s) (f : α) : Agrees num (add f s).shared := by
  unfold add
  by_cases hfull : s.isFull = true
  · rw [if_pos hfull]
    exact h
  · rw [if_neg hfull]
    have hlt : s.task.length < num := by
      have hne := mt h.full.mpr hfull
      have hle := h.bound
      omega
    constructor
    case size => exact h.size
    case running => exact h.running
    case empty => simp [Effect.notifyOne]
    case full =>
      simp only [Effect.notifyOne, h.size, List.length_append, List.length_singleton]
      by_cases heq : s.task.length + 1 = num <;> simp [heq, hfull]
    case bound =>
      simp only [Effect.notifyOne, List.length_append, List.length_singleton]
      omega
    case order => simp [Effect.notifyOne, h.order]

theorem take_cases (h : Agrees num s) :
    (s.task = [] ∧ take s = .sleep s .cond .take) ∨
    ∃ ta task, s.task = ta :: task ∧ take s = .notifyOne { s with
      task := task, isEmpty := task.isEmpty, isFull := false, executed := s.executed ++ [ta] }
      .cond .runTask := by
  unfold take
  cases htask : s.task with
  | nil =>
    left
    rw [if_pos (h.empty.mpr htask)]
    exact ⟨rfl, rfl⟩
  | cons ta task =>
    right
    have hempty : s.isEmpty = false := by
      apply Bool.eq_false_iff.mpr
      intro hempty
      rw [h.empty.mp hempty] at htask
      cases htask
    refine ⟨ta, task, rfl, ?_⟩
    cases task <;> simp [hempty]

theorem take_agrees (h : Agrees num s) : Agrees num (take s).shared := by
  rcases take_cases h with ⟨-, heq⟩ | ⟨ta, task, htask, heq⟩
  · rw [heq]
    exact h
  · rw [heq]
    have hbound := h.bound
    rw [htask, List.length_cons] at hbound
    constructor
    case size => exact h.size
    case running => exact h.running
    case empty => simp [Effect.notifyOne]
    case full =>
      simp only [Effect.notifyOne, Bool.false_eq_true, false_iff]
      omega
    case bound => exact Nat.le_of_succ_le hbound
    case order => simp [Effect.notifyOne, h.order, htask]

theorem step_agrees (h : Agrees num s) (hstep : step t l f s = some e) : Agrees num e.shared := by
  cases l with
  | left | undefined => cases hstep
  | runTask | idle | addTask _ =>
    obtain rfl := Option.some.inj hstep
    exact h
  | take =>
    obtain rfl := Option.some.inj hstep
    exact take_agrees h
  | add f =>
    obtain rfl := Option.some.inj hstep
    exact add_agrees h f

/-- What a step adds to the tasks added and to those executed. -/
theorem step_tasks (h : Agrees num s) (hstep : step t l f s = some e) :
    e.shared.added = s.added ++ l.adds e.next.loc ∧
      e.shared.executed = s.executed ++ l.executes s.task := by
  cases l with
  | left | undefined => cases hstep
  | runTask | idle =>
    obtain rfl := Option.some.inj hstep
    exact ⟨(List.append_nil _).symm, (List.append_nil _).symm⟩
  | addTask _ =>
    obtain rfl := Option.some.inj hstep
    rw [h.running]
    exact ⟨(List.append_nil _).symm, (List.append_nil _).symm⟩
  | take =>
    obtain rfl := Option.some.inj hstep
    rcases take_cases h with ⟨htask, heq⟩ | ⟨ta, task, htask, heq⟩ <;> rw [heq, htask]
    · exact ⟨(List.append_nil _).symm, (List.append_nil _).symm⟩
    · exact ⟨(List.append_nil _).symm, rfl⟩
  | add f =>
    obtain rfl := Option.some.inj hstep
    unfold add
    by_cases hfull : s.isFull = true
    · rw [if_pos hfull]
      exact ⟨(List.append_nil _).symm, (List.append_nil _).symm⟩
    · rw [if_neg hfull]
      exact ⟨rfl, (List.append_nil _).symm⟩

/-- A thread keeps to its side, and it never reaches `front()` with an empty queue. -/
theorem step_loc (h : Agrees num s) (hstep : step t l f s = some e) :
    e.next.loc ≠ .undefined ∧ e.next.loc.isWorker = l.isWorker := by
  cases l with
  | left | undefined => cases hstep
  | runTask | addTask _ =>
    obtain rfl := Option.some.inj hstep
    rw [h.running]
    exact ⟨nofun, rfl⟩
  | idle =>
    obtain rfl := Option.some.inj hstep
    exact ⟨nofun, rfl⟩
  | take =>
    obtain rfl := Option.some.inj hstep
    rcases take_cases h with ⟨-, heq⟩ | ⟨ta, task, -, heq⟩ <;> rw [heq] <;> exact ⟨nofun, rfl⟩
  | add f =>
    obtain rfl := Option.some.inj hstep
    show (add f s).next.loc ≠ .undefined ∧ (add f s).next.loc.isWorker = false
    unfold add
    by_cases hfull : s.isFull = true
    · rw [if_pos hfull]
      exact ⟨nofun, rfl⟩
    · rw [if_neg hfull]
      exact ⟨nofun, rfl⟩

/-- What a thread may rely on: its role, and that it is nowhere undefined. -/
def Placed (workers : Finset T) (t : T) (l : Loc α) (_ : State α) : Prop :=
  l ≠ .undefined ∧ (l.isWorker = true ↔ t ∈ workers)

theorem outline (workers : Finset T) (num : Nat) :
    Outline (program (T := T) (α := α)) (fun _ _ _ => True) (Agrees num) (Placed workers) where
  shared t _ _ _ _ _ h _ hstep := step_agrees (t := t) h hstep
  thread t _ _ _ _ _ h hl hstep := by
    obtain ⟨hdefined, hrole⟩ := step_loc (t := t) h hstep
    exact ⟨hdefined, hrole ▸ hl.2⟩
  others _ _ _ _ _ _ _ _ _ _ _ _ hl := hl

end

section Runs
variable [DecidableEq T] {workers : Finset T} {num : Nat}
variable {c u : Config T Cond (Loc α) (State α)} {acts : List (Move T α)}

theorem holds_start (hnum : 1 ≤ num) :
    Holds (Agrees num) (Placed workers) (start workers num : Config T Cond (Loc α) (State α)) := by
  refine ⟨new_agrees hnum, ?_⟩
  intro t
  by_cases ht : t ∈ workers
  · simp [Config.loc, start, Status.loc, Placed, ht, Loc.isWorker]
  · simp [Config.loc, start, Status.loc, Placed, ht, Loc.isWorker]

variable [Fintype T]

theorem run_holds (hnum : 1 ≤ num)
    (hrun : exec program.act acts (start workers num) = some c) :
    Holds (Agrees num) (Placed workers) c :=
  (outline workers num).runs (holds_start hnum) hrun

/-- From this state on every `addTask` that completes adds its task, every worker that finds a task
executes the front one, and no other step adds or executes one. -/
structure Works (c : Config T Cond (Loc α) (State α)) : Prop where
  added : ∀ t f pick u, program.act c (.run t f pick) = some u →
    u.shared.added = c.shared.added ++ (c.loc t).adds (u.loc t)
  executed : ∀ t f pick u, program.act c (.run t f pick) = some u →
    u.shared.executed = c.shared.executed ++ (c.loc t).executes c.shared.task
  woken : ∀ t u, program.act c (.wake t) = some u → u.shared = c.shared

theorem Agrees.works (h : Agrees num c.shared) : Works c := by
  constructor
  case added =>
    intro t f pick u hact
    obtain ⟨l, e, he, hran⟩ := Threads.act_ran hact
    rw [hran.shared, hran.loc_here, hran.loc_self]
    exact (step_tasks (t := t) h he).1
  case executed =>
    intro t f pick u hact
    obtain ⟨l, e, he, hran⟩ := Threads.act_ran hact
    rw [hran.shared, hran.loc_here]
    exact (step_tasks (t := t) h he).2
  case woken => exact fun t u hact => (Threads.act_woke hact).shared

theorem run_agrees (workers : Finset T) (num : Nat) (hnum : 1 ≤ num) (acts : List (Move T α))
    (hrun : exec program.act acts (start workers num) = some c) :
    Agrees num c.shared ∧ (∀ t, c.loc t ≠ .undefined) ∧ Works c := by
  obtain ⟨hagrees, hplaced⟩ := run_holds hnum hrun
  exact ⟨hagrees, fun t => (hplaced t).1, hagrees.works⟩

/-- A worker sleeps on the empty queue, the first task fills it, a second caller sleeps until
the worker has taken it. -/
theorem run_agrees_two : ∃ c, exec program.act
    [.run 0 0 none, .run 0 0 none, .run 1 7 none, .run 1 7 none, .run 1 7 (some 0),
      .run 1 8 none, .run 1 8 none, .run 1 8 none, .run 0 0 (some 1), .run 1 8 none]
    (start {0} 1 : Config (Fin 2) Cond (Loc Nat) (State Nat)) = some c ∧
    Agrees 1 c.shared ∧ (∀ t, c.loc t ≠ .undefined) ∧ Works c :=
  exists_exec (by decide) fun _ hrun => run_agrees {0} 1 le_rfl _ hrun

end Runs

end LanguageTest.ThreadPool2
