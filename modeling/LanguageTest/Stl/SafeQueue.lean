import LanguageTest.Library.Monitor

namespace LanguageTest.SafeQueue
open Transition Monitor

variable {T α : Type*}

inductive Cond where
  | fullQue
  | empty
  deriving DecidableEq

/-- The members of the queue. The last four fields are history, which no step reads: the values
accepted and handed out, and whether a call of `quit` and one of `finished` have returned. -/
structure State (α : Type*) where
  queue : List α
  sizeMax : Nat
  quit : Bool
  finished : Bool
  pushed : List α
  popped : List α
  quitReturned : Bool
  finishedReturned : Bool

/-- Where a thread is. `push` and `pop` test `_quit`, at the start and after every wait, having
acquired the mutex; `pushFinished` and `popFinished` test `_finished`. A return of `push` carries
the caller's variable as it was given and as it is left, nothing once it has been moved from. -/
inductive Loc (α : Type*) where
  | idle
  | push (data : α)
  | pushFinished (data : α)
  | pushBody (data : α)
  | pushed (ok : Bool) (given : α) (data : Option α)
  | pop (data : α)
  | popCheck (data : α)
  | popFinished (data : α)
  | popWait (data : α)
  | popped (ok : Bool) (data : α)
  | quit
  | quitEmpty
  | quitFull
  | finished
  | finishedEmpty

inductive Call (α : Type*) where
  | push (data : α)
  | pop (data : α)
  | quit
  | finished

def Call.loc : Call α → Loc α
  | .push data => .push data
  | .pop data => .pop data
  | .quit => .quit
  | .finished => .finished

def mode : Loc α → Mode
  | .push _ | .pop _ => .entry
  | .pushFinished _ | .pushBody _ | .popCheck _ | .popFinished _ | .popWait _ => .inside
  | _ => .outside

def push (data : α) (s : State α) : Effect Cond (Loc α) (State α) :=
  if s.quit then .go s (.pushed false data (some data)) else .go s (.pushFinished data)

def pushFinished (data : α) (s : State α) : Effect Cond (Loc α) (State α) :=
  if s.finished then .go s (.pushed false data (some data)) else .go s (.pushBody data)

/-- The value is moved into the queue, so that the caller's variable loses it. -/
def pushBody (data : α) (s : State α) : Effect Cond (Loc α) (State α) :=
  if s.queue.length < s.sizeMax then
    .notifyAll { s with queue := s.queue ++ [data], pushed := s.pushed ++ [data] } .empty
      (.pushed true data none)
  else .sleep s .fullQue (.push data)

def pop (data : α) (s : State α) : Effect Cond (Loc α) (State α) :=
  if s.quit then .go s (.popped false data) else .go s (.popCheck data)

def popCheck (data : α) (s : State α) : Effect Cond (Loc α) (State α) :=
  match s.queue with
  | x :: rest =>
    .notifyAll { s with queue := rest, popped := s.popped ++ [x] } .fullQue (.popped true x)
  | [] => .go s (.popFinished data)

def popFinished (data : α) (s : State α) : Effect Cond (Loc α) (State α) :=
  if s.queue.isEmpty && s.finished then .go s (.popped false data) else .go s (.popWait data)

def step (_ : T) (l : Loc α) (call : Call α) (s : State α) :
    Option (Effect Cond (Loc α) (State α)) :=
  match l with
  | .idle | .pushed .. | .popped .. => some (.go s call.loc)
  | .push data => some (push data s)
  | .pushFinished data => some (pushFinished data s)
  | .pushBody data => some (pushBody data s)
  | .pop data => some (pop data s)
  | .popCheck data => some (popCheck data s)
  | .popFinished data => some (popFinished data s)
  | .popWait data => some (.sleep s .empty (.pop data))
  | .quit => some (.go { s with quit := true } .quitEmpty)
  | .quitEmpty => some (.notifyAll s .empty .quitFull)
  | .quitFull => some (.notifyAll { s with quitReturned := true } .fullQue .idle)
  | .finished => some (.go { s with finished := true } .finishedEmpty)
  | .finishedEmpty => some (.notifyAll { s with finishedReturned := true } .empty .idle)

def program : Threads T Cond (Loc α) (Call α) (State α) := ⟨mode, step⟩

/-- The constructor. -/
def new (sizeMax : Nat) : Config T Cond (Loc α) (State α) :=
  ⟨⟨[], sizeMax, false, false, [], [], false, false⟩, none, fun _ => .ready .idle⟩

/-- The queue keeps within its size and the values come out in the order they went in; a flag is
set before the call that sets it returns. -/
structure Ordered (sizeMax : Nat) (s : State α) : Prop where
  size : s.sizeMax = sizeMax
  capacity : s.queue.length ≤ sizeMax
  fifo : s.pushed = s.popped ++ s.queue
  quit : s.quitReturned = true → s.quit = true
  finished : s.finishedReturned = true → s.finished = true

/-- What a thread may rely on at its location. -/
def Placed (l : Loc α) (s : State α) : Prop :=
  match l with
  | .pushed true given data => given ∈ s.pushed ∧ data = none
  | .pushed false given data => data = some given
  | .popped true data => data ∈ s.popped
  | .quitEmpty | .quitFull => s.quit = true
  | .finishedEmpty => s.finished = true
  | _ => True

/-- The location is the return of a `push` or a `pop` that succeeded. -/
def Loc.succeeded : Loc α → Bool
  | .pushed ok _ _ => ok
  | .popped ok _ => ok
  | _ => false

/-- The value that a thread at the location has just handed in. -/
def Loc.accepted : Loc α → List α
  | .pushed true given _ => [given]
  | _ => []

/-- The value that a thread at the location has just been handed. -/
def Loc.returned : Loc α → List α
  | .popped true data => [data]
  | _ => []

theorem Loc.nothing_of_not_succeeded {l : Loc α} (h : l.succeeded = false) :
    l.accepted = [] ∧ l.returned = [] := by
  cases l with
  | pushed ok given data =>
    cases ok with
    | false => exact ⟨rfl, rfl⟩
    | true => cases h
  | popped ok data =>
    cases ok with
    | false => exact ⟨rfl, rfl⟩
    | true => cases h
  | _ => exact ⟨rfl, rfl⟩

/-- What a step leaves of the members: the histories grow by what the thread has handed in and been
handed, the flags stay set, and the queue changes only at the successful end of a call. -/
structure Keeps (sizeMax : Nat) (s : State α) (e : Effect Cond (Loc α) (State α)) : Prop where
  ordered : Ordered sizeMax e.shared
  placed : Placed e.next.loc e.shared
  pushed : e.shared.pushed = s.pushed ++ e.next.loc.accepted
  popped : e.shared.popped = s.popped ++ e.next.loc.returned
  quit : s.quit = true → e.shared.quit = true
  finished : s.finished = true → e.shared.finished = true
  unchanged : e.next.loc.succeeded = false → e.shared.queue = s.queue

section
variable {sizeMax : Nat} {s : State α} (h : Ordered sizeMax s)
include h

theorem same_keeps {e : Effect Cond (Loc α) (State α)} (hshared : e.shared = s)
    (hl : Placed e.next.loc s) (hreturn : e.next.loc.succeeded = false) : Keeps sizeMax s e := by
  obtain ⟨haccepted, hreturned⟩ := Loc.nothing_of_not_succeeded hreturn
  constructor
  case ordered => exact hshared ▸ h
  case placed => exact hshared ▸ hl
  case pushed => rw [hshared, haccepted, List.append_nil]
  case popped => rw [hshared, hreturned, List.append_nil]
  case quit => exact hshared ▸ id
  case finished => exact hshared ▸ id
  case unchanged => exact fun _ => by rw [hshared]

theorem pushBody_keeps (data : α) : Keeps sizeMax s (pushBody data s) := by
  have hsize := h.size
  unfold pushBody
  by_cases hroom : s.queue.length < s.sizeMax
  · rw [if_pos hroom]
    constructor
    case ordered =>
      refine ⟨hsize, ?_, ?_, h.quit, h.finished⟩
      · simp only [Effect.notifyAll, List.length_append, List.length_singleton]
        omega
      · simp [Effect.notifyAll, h.fifo]
    case placed => exact ⟨List.mem_append_right _ (List.mem_singleton_self data), rfl⟩
    case pushed => rfl
    case popped => exact (List.append_nil _).symm
    case quit => exact id
    case finished => exact id
    case unchanged => exact nofun
  · rw [if_neg hroom]
    exact same_keeps h rfl trivial rfl

theorem popCheck_keeps (data : α) : Keeps sizeMax s (popCheck data s) := by
  have hcapacity := h.capacity
  have hfifo := h.fifo
  unfold popCheck
  cases hqueue : s.queue with
  | nil => exact same_keeps h rfl trivial rfl
  | cons x rest =>
    rw [hqueue] at hcapacity hfifo
    constructor
    case ordered => exact ⟨h.size, Nat.le_of_succ_le hcapacity, by simp [Effect.notifyAll, hfifo],
      h.quit, h.finished⟩
    case placed => exact List.mem_append_right _ (List.mem_singleton_self x)
    case pushed => exact (List.append_nil _).symm
    case popped => rfl
    case quit => exact id
    case finished => exact id
    case unchanged => exact nofun

theorem step_keeps {t : T} {l : Loc α} {call : Call α} {e : Effect Cond (Loc α) (State α)}
    (hl : Placed l s) (hstep : step t l call s = some e) : Keeps sizeMax s e := by
  have hcall : Placed call.loc s ∧ call.loc.succeeded = false := by
    cases call <;> exact ⟨trivial, rfl⟩
  cases l with
  | idle | pushed _ _ _ | popped _ _ =>
    obtain rfl := Option.some.inj hstep
    exact same_keeps h rfl hcall.1 hcall.2
  | push data =>
    obtain rfl := Option.some.inj hstep
    show Keeps sizeMax s (push data s)
    unfold push
    split
    · exact same_keeps h rfl rfl rfl
    · exact same_keeps h rfl trivial rfl
  | pushFinished data =>
    obtain rfl := Option.some.inj hstep
    show Keeps sizeMax s (pushFinished data s)
    unfold pushFinished
    split
    · exact same_keeps h rfl rfl rfl
    · exact same_keeps h rfl trivial rfl
  | pushBody data =>
    obtain rfl := Option.some.inj hstep
    exact pushBody_keeps h data
  | pop data =>
    obtain rfl := Option.some.inj hstep
    show Keeps sizeMax s (pop data s)
    unfold pop
    split <;> exact same_keeps h rfl trivial rfl
  | popCheck data =>
    obtain rfl := Option.some.inj hstep
    exact popCheck_keeps h data
  | popFinished data =>
    obtain rfl := Option.some.inj hstep
    show Keeps sizeMax s (popFinished data s)
    unfold popFinished
    split <;> exact same_keeps h rfl trivial rfl
  | popWait data =>
    obtain rfl := Option.some.inj hstep
    exact same_keeps h rfl trivial rfl
  | quit =>
    obtain rfl := Option.some.inj hstep
    exact ⟨⟨h.size, h.capacity, h.fifo, fun _ => rfl, h.finished⟩, rfl, (List.append_nil _).symm,
      (List.append_nil _).symm, fun _ => rfl, id, fun _ => rfl⟩
  | quitEmpty =>
    obtain rfl := Option.some.inj hstep
    exact same_keeps h rfl hl rfl
  | quitFull =>
    obtain rfl := Option.some.inj hstep
    exact ⟨⟨h.size, h.capacity, h.fifo, fun _ => hl, h.finished⟩, trivial, (List.append_nil _).symm,
      (List.append_nil _).symm, id, id, fun _ => rfl⟩
  | finished =>
    obtain rfl := Option.some.inj hstep
    exact ⟨⟨h.size, h.capacity, h.fifo, h.quit, fun _ => rfl⟩, rfl, (List.append_nil _).symm,
      (List.append_nil _).symm, id, fun _ => rfl, fun _ => rfl⟩
  | finishedEmpty =>
    obtain rfl := Option.some.inj hstep
    exact ⟨⟨h.size, h.capacity, h.fifo, h.quit, fun _ => hl⟩, trivial, (List.append_nil _).symm,
      (List.append_nil _).symm, id, id, fun _ => rfl⟩

end

theorem Keeps.placed_other {sizeMax : Nat} {s : State α} {e : Effect Cond (Loc α) (State α)}
    (hkeeps : Keeps sizeMax s e) {l : Loc α} (hl : Placed l s) : Placed l e.shared := by
  cases l with
  | pushed ok given data =>
    cases ok with
    | false => exact hl
    | true => exact ⟨hkeeps.pushed ▸ List.mem_append_left _ hl.1, hl.2⟩
  | popped ok data =>
    cases ok with
    | false => trivial
    | true =>
      show data ∈ e.shared.popped
      exact hkeeps.popped ▸ List.mem_append_left _ hl
  | quitEmpty | quitFull => exact hkeeps.quit hl
  | finishedEmpty => exact hkeeps.finished hl
  | _ => trivial

theorem outline (sizeMax : Nat) : Outline (program (T := T) (α := α)) (fun _ _ _ => True)
    (Ordered sizeMax) (fun _ => Placed) where
  shared t _ _ _ _ _ h hl hstep := (step_keeps (t := t) h hl hstep).ordered
  thread t _ _ _ _ _ h hl hstep := (step_keeps (t := t) h hl hstep).placed
  others t _ _ _ _ _ h hl hstep _ _ _ hv := (step_keeps (t := t) h hl hstep).placed_other hv

theorem holds_new (sizeMax : Nat) : Holds (Ordered sizeMax) (fun _ => Placed)
    (new sizeMax : Config T Cond (Loc α) (State α)) :=
  ⟨⟨rfl, Nat.zero_le sizeMax, rfl, nofun, nofun⟩, fun _ => trivial⟩

section Runs
variable [Fintype T] [DecidableEq T] {sizeMax : Nat}
variable {c u : Config T Cond (Loc α) (State α)}

/-- What is promised in every state. The step by which a thread returns from a successful `push` or
`pop` adds just its value to those accepted or returned so far. No other step adds to them or
changes the queue, so that a call that returns false has not touched it. -/
structure Sound (sizeMax : Nat) (c : Config T Cond (Loc α) (State α)) : Prop where
  capacity : c.shared.queue.length ≤ sizeMax
  fifo : c.shared.pushed = c.shared.popped ++ c.shared.queue
  accepted : ∀ t call pick u, program.act c (.run t call pick) = some u →
    u.shared.pushed = c.shared.pushed ++ (u.loc t).accepted
  returned : ∀ t call pick u, program.act c (.run t call pick) = some u →
    u.shared.popped = c.shared.popped ++ (u.loc t).returned
  woken : ∀ t u, program.act c (.wake t) = some u → u.shared = c.shared
  kept : ∀ t given data, c.loc t = .pushed false given data → data = some given
  unchanged : ∀ t call pick u, program.act c (.run t call pick) = some u →
    (u.loc t).succeeded = false → u.shared.queue = c.shared.queue

theorem run_holds {acts : List (Move T (Call α))}
    (hrun : exec program.act acts (new sizeMax) = some c) :
    Holds (Ordered sizeMax) (fun _ => Placed) c :=
  (outline sizeMax).runs (holds_new sizeMax) hrun

theorem run_fifo (sizeMax : Nat) (acts : List (Move T (Call α)))
    (hrun : exec program.act acts (new sizeMax) = some c) : Sound sizeMax c := by
  obtain ⟨hordered, hplaced⟩ := run_holds hrun
  have hkeeps : ∀ t call pick u, program.act c (.run t call pick) = some u →
      ∃ e, Keeps sizeMax c.shared e ∧ u.shared = e.shared ∧ u.loc t = e.next.loc := by
    intro t call pick u hact
    obtain ⟨l, e, he, hran⟩ := Threads.act_ran hact
    have hl := hplaced t
    rw [hran.loc_here] at hl
    exact ⟨e, step_keeps (t := t) hordered hl he, hran.shared, hran.loc_self⟩
  constructor
  case capacity => exact hordered.capacity
  case fifo => exact hordered.fifo
  case accepted =>
    intro t call pick u hact
    obtain ⟨e, he, hshared, hloc⟩ := hkeeps t call pick u hact
    rw [hshared, hloc, he.pushed]
  case returned =>
    intro t call pick u hact
    obtain ⟨e, he, hshared, hloc⟩ := hkeeps t call pick u hact
    rw [hshared, hloc, he.popped]
  case woken => exact fun t u hact => (Threads.act_woke hact).shared
  case kept =>
    intro t given data hl
    have h := hplaced t
    rw [hl] at h
    exact h
  case unchanged =>
    intro t call pick u hact hfailed
    obtain ⟨e, he, hshared, hloc⟩ := hkeeps t call pick u hact
    rw [hshared]
    exact he.unchanged (hloc ▸ hfailed)

/-- A queue of one: the second `push` sleeps until a `pop`, and after `quit` both return false. -/
theorem run_fifo_quit : ∃ c, exec program.act
    [.run 0 (.push 7) none, .run 0 .quit none, .run 0 .quit none, .run 0 .quit none,
      .run 0 (.push 8) none, .run 0 .quit none, .run 0 .quit none, .run 0 .quit none,
      .run 1 (.pop 0) none, .run 1 .quit none, .run 1 .quit none, .run 1 .quit none,
      .run 1 .quit none, .run 1 .quit none, .run 1 .quit none, .run 0 .quit none,
      .run 1 (.pop 0) none, .run 1 .quit none]
    (new 1 : Config (Fin 2) Cond (Loc Nat) (State Nat)) = some c ∧ Sound 1 c :=
  exists_exec (by decide) fun _ hrun => run_fifo 1 _ hrun

end Runs

end LanguageTest.SafeQueue
