import LanguageTest.Library.Monitor

namespace LanguageTest.ThreadsafeQueue
open Transition Monitor

variable {T α : Type*}

inductive Cond where
  | dataCond
  deriving DecidableEq

/-- The queue, with the elements pushed and the elements handed out so far. The two lists are
history: no step reads them. -/
structure State (α : Type*) where
  dataQueue : List α
  pushed : List α
  handed : List α

/-- Where a thread is: between two calls, inside a call, or at the return of one. -/
inductive Loc (α : Type*) where
  | idle
  | push (newValue : α)
  | waitAndPopRef (value : α)
  | waitAndPop
  | tryPop (value : α)
  | empty
  | popped (value : α)
  | triedPop (ok : Bool) (value : α)
  | wasEmpty (r : Bool)
  | undefined

/-- The public calls, with their arguments. `waitAndPopRef` is `wait_and_pop(T&)`. -/
inductive Call (α : Type*) where
  | push (newValue : α)
  | waitAndPopRef (value : α)
  | waitAndPop
  | tryPop (value : α)
  | empty

def Call.loc : Call α → Loc α
  | .push newValue => .push newValue
  | .waitAndPopRef value => .waitAndPopRef value
  | .waitAndPop => .waitAndPop
  | .tryPop value => .tryPop value
  | .empty => .empty

def mode : Loc α → Mode
  | .push _ | .waitAndPopRef _ | .waitAndPop | .tryPop _ | .empty => .entry
  | .idle | .popped _ | .triedPop .. | .wasEmpty _ | .undefined => .outside

def push (newValue : α) (s : State α) : Effect Cond (Loc α) (State α) :=
  .notifyOne { s with dataQueue := s.dataQueue ++ [newValue], pushed := s.pushed ++ [newValue] }
    .dataCond .idle

/-- `front()` and then `pop()`: undefined on an empty queue. -/
def takeFront (s : State α) (ret : α → Loc α) : Effect Cond (Loc α) (State α) :=
  match s.dataQueue with
  | [] => .go s .undefined
  | x :: rest => .go { s with dataQueue := rest, handed := s.handed ++ [x] } (ret x)

/-- The predicate of this overload is `data_queue.empty()`. -/
def waitAndPopRef (value : α) (s : State α) : Effect Cond (Loc α) (State α) :=
  if s.dataQueue.isEmpty then takeFront s .popped
  else .sleep s .dataCond (.waitAndPopRef value)

def waitAndPop (s : State α) : Effect Cond (Loc α) (State α) :=
  if !s.dataQueue.isEmpty then takeFront s .popped
  else .sleep s .dataCond .waitAndPop

def tryPop (value : α) (s : State α) : Effect Cond (Loc α) (State α) :=
  if s.dataQueue.isEmpty then .go s (.triedPop false value)
  else takeFront s (.triedPop true)

def empty (s : State α) : Effect Cond (Loc α) (State α) :=
  .go s (.wasEmpty s.dataQueue.isEmpty)

def step (_ : T) (l : Loc α) (call : Call α) (s : State α) :
    Option (Effect Cond (Loc α) (State α)) :=
  match l with
  | .idle | .popped _ | .triedPop .. | .wasEmpty _ => some (.go s call.loc)
  | .push newValue => some (push newValue s)
  | .waitAndPopRef value => some (waitAndPopRef value s)
  | .waitAndPop => some (waitAndPop s)
  | .tryPop value => some (tryPop value s)
  | .empty => some (empty s)
  | .undefined => none

def program : Threads T Cond (Loc α) (Call α) (State α) := ⟨mode, step⟩

def init : Config T Cond (Loc α) (State α) := ⟨⟨[], [], []⟩, none, fun _ => .ready .idle⟩

/-- The element that a `push` inserts. -/
def Loc.inserted : Loc α → List α
  | .push newValue => [newValue]
  | _ => []

/-- The element that a thread at the location has just been handed. -/
def Loc.returned : Loc α → List α
  | .popped value | .triedPop true value => [value]
  | _ => []

/-- The thread is in one of the two `wait_and_pop`. -/
def Loc.waits : Loc α → Bool
  | .waitAndPopRef _ | .waitAndPop => true
  | _ => false

/-- What is promised in every state: `front()` and `pop()` had an element, and the elements go out
in the order they came in. A step adds to the elements pushed just what its thread pushes, and to
those handed out just what its thread returns with. A `wait_and_pop` returns with an element only,
if its code has a meaning. -/
structure Sound [Fintype T] [DecidableEq T] (c : Config T Cond (Loc α) (State α)) : Prop where
  defined : ∀ t, c.loc t ≠ .undefined
  fifo : c.shared.pushed = c.shared.handed ++ c.shared.dataQueue
  pushed : ∀ t call pick u, program.act c (.run t call pick) = some u →
    u.shared.pushed = c.shared.pushed ++ (c.loc t).inserted
  returned : ∀ t call pick u, program.act c (.run t call pick) = some u →
    u.shared.handed = c.shared.handed ++ (u.loc t).returned
  taken : ∀ t call pick u, program.act c (.run t call pick) = some u → (c.loc t).waits →
    u.loc t = c.loc t ∨ u.loc t = .undefined ∨ ∃ value, u.loc t = .popped value
  woken : ∀ t u, program.act c (.wake t) = some u → u.shared = c.shared

/-- No `wait_and_pop(T&)` runs, first or after a wake-up, while the queue is empty. -/
def RefNonempty (_ : T) (l : Loc α) (s : State α) : Prop :=
  match l with
  | .waitAndPopRef _ => s.dataQueue ≠ []
  | _ => True

instance (t : T) (l : Loc α) (s : State α) : Decidable (RefNonempty t l s) :=
  match l with
  | .waitAndPopRef _ => inferInstanceAs (Decidable (s.dataQueue ≠ []))
  | .idle | .push _ | .waitAndPop | .tryPop _ | .empty | .popped _ | .triedPop .. | .wasEmpty _
  | .undefined => .isTrue trivial

/-- The order of the elements. -/
def Fifo (s : State α) : Prop := s.pushed = s.handed ++ s.dataQueue

/-- An effect keeps the order and does not lead its own thread astray. -/
structure Keeps (s : State α) (e : Effect Cond (Loc α) (State α)) : Prop where
  fifo : Fifo e.shared
  defined : e.next.loc ≠ .undefined

section
variable {s : State α} (h : Fifo s)
include h

theorem push_keeps (newValue : α) : Keeps s (push newValue s) := by
  constructor
  case fifo =>
    unfold Fifo at h
    simp [push, Effect.notifyOne, Fifo, h]
  case defined => exact nofun

theorem takeFront_keeps (hne : s.dataQueue ≠ []) {ret : α → Loc α}
    (hret : ∀ x, ret x ≠ .undefined) : Keeps s (takeFront s ret) := by
  unfold takeFront
  unfold Fifo at h
  cases hq : s.dataQueue with
  | nil => exact absurd hq hne
  | cons x rest =>
    rw [hq] at h
    constructor
    case fifo => simp [Effect.go, Fifo, h]
    case defined => exact hret x

theorem waitAndPopRef_keeps (hne : s.dataQueue ≠ []) (value : α) :
    Keeps s (waitAndPopRef value s) := by
  unfold waitAndPopRef
  rw [if_neg (by simpa using hne)]
  exact ⟨h, nofun⟩

theorem waitAndPop_keeps : Keeps s (waitAndPop s) := by
  unfold waitAndPop
  by_cases hempty : s.dataQueue = []
  · rw [if_neg (by simpa using hempty)]
    exact ⟨h, nofun⟩
  · rw [if_pos (by simpa using hempty)]
    exact takeFront_keeps h hempty fun x => nofun

theorem tryPop_keeps (value : α) : Keeps s (tryPop value s) := by
  unfold tryPop
  by_cases hempty : s.dataQueue = []
  · rw [if_pos (by simpa using hempty)]
    exact ⟨h, nofun⟩
  · rw [if_neg (by simpa using hempty)]
    exact takeFront_keeps h hempty fun x => nofun

theorem step_keeps {t : T} {l : Loc α} {call : Call α} {e : Effect Cond (Loc α) (State α)}
    (hok : RefNonempty t l s) (hstep : step t l call s = some e) : Keeps s e := by
  cases l with
  | undefined => cases hstep
  | idle | popped _ | triedPop _ _ | wasEmpty _ =>
    obtain rfl := Option.some.inj hstep
    exact ⟨h, by cases call <;> nofun⟩
  | push newValue =>
    obtain rfl := Option.some.inj hstep
    exact push_keeps h newValue
  | waitAndPopRef value =>
    obtain rfl := Option.some.inj hstep
    exact waitAndPopRef_keeps h hok value
  | waitAndPop =>
    obtain rfl := Option.some.inj hstep
    exact waitAndPop_keeps h
  | tryPop value =>
    obtain rfl := Option.some.inj hstep
    exact tryPop_keeps h value
  | empty =>
    obtain rfl := Option.some.inj hstep
    exact ⟨h, nofun⟩

end

/-- What an effect records is what its thread pushes and returns with. -/
def Records (l : Loc α) (s : State α) (e : Effect Cond (Loc α) (State α)) : Prop :=
  e.shared.pushed = s.pushed ++ l.inserted ∧ e.shared.handed = s.handed ++ e.next.loc.returned

theorem records_same {l : Loc α} {s : State α} {e : Effect Cond (Loc α) (State α)}
    (hshared : e.shared = s) (hinserted : l.inserted = []) (hreturned : e.next.loc.returned = []) :
    Records l s e := by
  rw [Records, hshared, hinserted, hreturned, List.append_nil, List.append_nil]
  exact ⟨rfl, rfl⟩

theorem records_takeFront {l : Loc α} {s : State α} {ret : α → Loc α} (hinserted : l.inserted = [])
    (hret : ∀ x, (ret x).returned = [x]) : Records l s (takeFront s ret) := by
  unfold takeFront
  cases s.dataQueue with
  | nil => exact records_same rfl hinserted rfl
  | cons x rest =>
    rw [Records, hinserted, List.append_nil]
    simp only [Effect.go, Next.loc, hret, and_self]

theorem step_records {t : T} {l : Loc α} {call : Call α} {s : State α}
    {e : Effect Cond (Loc α) (State α)} (hstep : step t l call s = some e) : Records l s e := by
  cases l with
  | undefined => cases hstep
  | idle | popped _ | triedPop _ _ | wasEmpty _ =>
    obtain rfl := Option.some.inj hstep
    exact records_same rfl rfl (by cases call <;> rfl)
  | push newValue =>
    obtain rfl := Option.some.inj hstep
    exact ⟨rfl, (List.append_nil _).symm⟩
  | waitAndPopRef value =>
    obtain rfl := Option.some.inj hstep
    show Records _ s (waitAndPopRef value s)
    unfold waitAndPopRef
    split
    · exact records_takeFront rfl fun _ => rfl
    · exact records_same rfl rfl rfl
  | waitAndPop =>
    obtain rfl := Option.some.inj hstep
    show Records _ s (waitAndPop s)
    unfold waitAndPop
    split
    · exact records_takeFront rfl fun _ => rfl
    · exact records_same rfl rfl rfl
  | tryPop value =>
    obtain rfl := Option.some.inj hstep
    show Records _ s (tryPop value s)
    unfold tryPop
    split
    · exact records_same rfl rfl rfl
    · exact records_takeFront rfl fun _ => rfl
  | empty =>
    obtain rfl := Option.some.inj hstep
    exact records_same rfl rfl rfl

theorem takeFront_popped (s : State α) : (takeFront s .popped).next.loc = .undefined ∨
    ∃ value, (takeFront s .popped).next.loc = .popped value := by
  unfold takeFront
  cases s.dataQueue with
  | nil => exact Or.inl rfl
  | cons x rest => exact Or.inr ⟨x, rfl⟩

theorem step_waits {t : T} {l : Loc α} {call : Call α} {s : State α}
    {e : Effect Cond (Loc α) (State α)} (hl : l.waits) (hstep : step t l call s = some e) :
    e.next.loc = l ∨ e.next.loc = .undefined ∨ ∃ value, e.next.loc = .popped value := by
  cases l with
  | waitAndPopRef value =>
    obtain rfl := Option.some.inj hstep
    unfold waitAndPopRef
    split
    · exact Or.inr (takeFront_popped s)
    · exact Or.inl rfl
  | waitAndPop =>
    obtain rfl := Option.some.inj hstep
    unfold waitAndPop
    split
    · exact Or.inr (takeFront_popped s)
    · exact Or.inl rfl
  | _ => cases hl

/-- No thread is where the code has no meaning. -/
def Defined (l : Loc α) (_ : State α) : Prop := l ≠ .undefined

theorem outline : Outline (program (T := T) (α := α)) RefNonempty Fifo fun _ => Defined where
  shared _ _ _ _ _ hok h _ hstep := (step_keeps h hok hstep).fifo
  thread _ _ _ _ _ hok h _ hstep := (step_keeps h hok hstep).defined
  others _ _ _ _ _ _ _ _ _ _ _ _ hl := hl

theorem holds_init : Holds Fifo (fun _ => Defined) (init : Config T Cond (Loc α) (State α)) :=
  ⟨rfl, fun _ => nofun⟩

section Runs
variable [Fintype T] [DecidableEq T]
variable {c u : Config T Cond (Loc α) (State α)} {b : Move T (Call α)}

theorem holds_sound (h : Holds Fifo (fun _ => Defined) c) : Sound c := by
  constructor
  case defined => exact h.2
  case fifo => exact h.1
  case pushed =>
    intro t call pick u hact
    obtain ⟨l, e, he, hran⟩ := Threads.act_ran hact
    rw [hran.shared, hran.loc_here]
    exact (step_records (t := t) he).1
  case returned =>
    intro t call pick u hact
    obtain ⟨l, e, he, hran⟩ := Threads.act_ran hact
    rw [hran.shared, hran.loc_self]
    exact (step_records (t := t) he).2
  case taken =>
    intro t call pick u hact hwaits
    obtain ⟨l, e, he, hran⟩ := Threads.act_ran hact
    rw [hran.loc_here] at hwaits
    rw [hran.loc_here, hran.loc_self]
    exact step_waits (t := t) hwaits he
  case woken => exact fun t u hact => (Threads.act_woke hact).shared

/-- The inverted predicate lets the call through exactly when there is nothing to take. -/
theorem ref_undefined (hok : ¬ Allows RefNonempty c b) (hact : program.act c b = some u) :
    ¬ Sound u := by
  cases b with
  | wake t => exact absurd trivial hok
  | run t call pick =>
    obtain ⟨l, e, he, hran⟩ := Threads.act_ran hact
    have hno : ¬ RefNonempty t (c.loc t) c.shared := hok
    rw [hran.loc_here] at hno
    intro hsound
    apply hsound.defined t
    rw [hran.loc_self]
    cases l with
    | waitAndPopRef value =>
      have hempty : c.shared.dataQueue = [] := not_not.mp hno
      obtain rfl := Option.some.inj he
      simp [waitAndPopRef, takeFront, hempty, Effect.go, Next.loc]
    | _ => exact absurd trivial hno

theorem run_sound_iff (acts : List (Move T (Call α)))
    (hrun : exec program.act acts init = some c) :
    Always program.act Sound acts init ↔ Meets program.act (Allows RefNonempty) acts init :=
  always_iff_meets (fun _ _ _ hs hok hact => outline.act hs hok hact) (fun _ => holds_sound)
    (fun _ _ _ _ hno hact => ref_undefined hno hact) holds_init hrun

/-- A consumer blocks in `wait_and_pop()` and is woken by the push of a producer. -/
theorem run_sound_iff_handOver : ∃ c, exec program.act
    [.run 0 .waitAndPop none, .run 0 .waitAndPop none, .run 1 (.push 7) none,
      .run 1 (.push 7) (some 0), .run 0 .waitAndPop none]
    (init : Config (Fin 2) Cond (Loc Nat) (State Nat)) = some c ∧
    Always program.act Sound
      [.run 0 .waitAndPop none, .run 0 .waitAndPop none, .run 1 (.push 7) none,
        .run 1 (.push 7) (some 0), .run 0 .waitAndPop none]
      (init : Config (Fin 2) Cond (Loc Nat) (State Nat)) :=
  exists_exec (by decide) fun _ hrun => (run_sound_iff _ hrun).mpr (by decide)

/-- The first `wait_and_pop(T&)` on a new queue takes from the empty queue. -/
theorem run_sound_ref : ∃ c,
    exec program.act [.run 0 (.waitAndPopRef 5) none, .run 0 (.waitAndPopRef 5) none]
      (init : Config (Fin 1) Cond (Loc Nat) (State Nat)) = some c ∧ ¬ Sound c :=
  ⟨_, rfl, fun h => h.defined 0 rfl⟩

end Runs

end LanguageTest.ThreadsafeQueue
