import LanguageTest.Library.Monitor
import Mathlib.Data.Finset.Card

namespace LanguageTest.ThreadPool1
open Transition Monitor

variable {T α : Type*} [DecidableEq T]

def maxThreads : Nat := 1000

inductive Cond where
  | condition
  deriving DecidableEq

/-- The members of the pool, `live` being the workers that `join` still waits for. `calling` and
`destroying` say which calls are under way, for the order of the calls that an object's lifetime
allows. The last three fields are history: no step reads them. A request is a pointer and may be
null. -/
structure State (T α : Type*) where
  tasksQueue : List (Option α)
  stop : Bool
  live : Finset T
  calling : Finset T
  destroying : Bool
  appended : List (Option α)
  taken : List (Option α)
  processed : List α

/-- `run` is the test of `stop`, `await` the code of the loop under the mutex. A worker that has
returned is at `left`. -/
inductive Loc (α : Type*) where
  | run
  | await
  | left
  | idle
  | append (request : Option α)
  | notifyOne
  | setStop
  | notifyAll
  | join
  | destroyed

namespace Loc

def isWorker : Loc α → Bool
  | .run | .await | .left => true
  | _ => false

def isAwait : Loc α → Bool
  | .await => true
  | _ => false

/-- The thread is in a call of `append`. -/
def isCaller : Loc α → Bool
  | .append _ | .notifyOne => true
  | _ => false

/-- The thread is in the destructor. -/
def isDestructor : Loc α → Bool
  | .setStop | .notifyAll | .join | .destroyed => true
  | _ => false

def isSetStop : Loc α → Bool
  | .setStop => true
  | _ => false

/-- The destructor has set `stop`. -/
def hasStopped : Loc α → Bool
  | .notifyAll | .join | .destroyed => true
  | _ => false

/-- The destructor has notified all. -/
def hasNotified : Loc α → Bool
  | .join | .destroyed => true
  | _ => false

end Loc

theorem isAwait_eq {l : Loc α} (h : l.isAwait) : l = .await := by
  cases l <;> first | rfl | cases h

theorem hasNotified_stopped {l : Loc α} (h : l.hasNotified = true) : l.hasStopped = true := by
  cases l <;> first | rfl | cases h

inductive Call (α : Type*) where
  | append (request : Option α)
  | destroy

def mode : Loc α → Mode
  | .await | .append _ | .setStop => .entry
  | _ => .outside

/-- A call of `append` starts while the pool lives, the destructor after every call returned. -/
def call (t : T) (s : State T α) : Call α → Option (Effect Cond (Loc α) (State T α))
  | .append request =>
    if s.destroying then none
    else some (.go { s with calling := insert t s.calling } (.append request))
  | .destroy =>
    if s.destroying ∨ s.calling ≠ ∅ then none
    else some (.go { s with destroying := true } .setStop)

def append (request : Option α) (s : State T α) : Effect Cond (Loc α) (State T α) :=
  .go { s with tasksQueue := s.tasksQueue ++ [request], appended := s.appended ++ [request] }
    .notifyOne

/-- The code of the loop under the mutex; a request is processed before the mutex is released. -/
def await (s : State T α) : Effect Cond (Loc α) (State T α) :=
  if !(!s.tasksQueue.isEmpty) then .sleep s .condition .await
  else
    match s.tasksQueue with
    | [] => .go s .run
    | request :: requests => .go { s with
        tasksQueue := requests, taken := s.taken ++ [request],
        processed := s.processed ++ request.toList } .run

/-- A worker returns from `run` when it finds `stop` set. -/
def run (t : T) (s : State T α) : Effect Cond (Loc α) (State T α) :=
  if !s.stop then .go s .await
  else .go { s with live := s.live.erase t } .left

/-- The destructor waits for every worker. -/
def join (s : State T α) : Option (Effect Cond (Loc α) (State T α)) :=
  if s.live = ∅ then some (.go s .destroyed) else none

def step (t : T) (l : Loc α) (c : Call α) (s : State T α) :
    Option (Effect Cond (Loc α) (State T α)) :=
  match l with
  | .run => some (run t s)
  | .await => some (await s)
  | .idle => call t s c
  | .append request => some (append request s)
  | .notifyOne => some (.notifyOne { s with calling := s.calling.erase t } .condition .idle)
  | .setStop => some (.go { s with stop := true } .notifyAll)
  | .notifyAll => some (.notifyAll s .condition .join)
  | .join => join s
  | .left | .destroyed => none

def program : Threads T Cond (Loc α) (Call α) (State T α) := ⟨mode, step⟩

/-- The workers are started at their loops. -/
def launch (workers : Finset T) : Config T Cond (Loc α) (State T α) :=
  ⟨⟨[], false, workers, ∅, false, [], [], []⟩, none,
    fun t => .ready (if t ∈ workers then .run else .idle)⟩

/-- The constructor: it throws unless the number of workers is within its bounds. -/
def new (workers : Finset T) : Option (Config T Cond (Loc α) (State T α)) :=
  if workers.card ≤ 0 ∨ workers.card > maxThreads then none else some (launch workers)

/-- Every request taken was processed, and the requests are taken in order. -/
structure Ordered (s : State T α) : Prop where
  order : s.appended = s.taken ++ s.tasksQueue
  processed : s.processed = s.taken.filterMap id
  lifetime : s.destroying = true → s.calling = ∅
  stopped : s.stop = true → s.destroying = true

/-- What a thread may rely on at its location. -/
structure Placed (workers : Finset T) (t : T) (l : Loc α) (s : State T α) : Prop where
  role : l.isWorker = true ↔ t ∈ workers
  live : t ∈ workers → l ≠ .left → t ∈ s.live
  caller : l.isCaller = true → t ∈ s.calling
  destructor : l.isDestructor = true → s.destroying = true
  stopped : l.hasStopped = true → s.stop = true
  joined : l = .destroyed → s.live = ∅

/-- What any step leaves of the members for the threads that do not take it. -/
structure Frame (t : T) (s u : State T α) : Prop where
  live : ∀ v, v ≠ t → v ∈ s.live → v ∈ u.live
  calling : ∀ v, v ≠ t → v ∈ s.calling → v ∈ u.calling
  destroying : s.destroying = true → u.destroying = true
  stop : s.stop = true → u.stop = true
  joined : s.live = ∅ → u.live = ∅

section
variable {workers : Finset T} {s : State T α} {t v : T} {l l' : Loc α} {k : Call α}
variable {e : Effect Cond (Loc α) (State T α)}

omit [DecidableEq T] in
theorem await_cases (s : State T α) :
    (s.tasksQueue = [] ∧ await s = .sleep s .condition .await) ∨
    ∃ request requests, s.tasksQueue = request :: requests ∧ await s = .go { s with
      tasksQueue := requests, taken := s.taken ++ [request],
      processed := s.processed ++ request.toList } .run := by
  unfold await
  cases hqueue : s.tasksQueue with
  | nil => simp
  | cons request requests => simp

theorem run_cases (t : T) (s : State T α) :
    (s.stop = false ∧ run t s = .go s .await) ∨
    s.stop = true ∧ run t s = .go { s with live := s.live.erase t } .left := by
  unfold run
  cases hstop : s.stop <;> simp

theorem call_cases (h : call t s k = some e) :
    (∃ request, s.destroying = false ∧
      e = .go { s with calling := insert t s.calling } (.append request)) ∨
    s.calling = ∅ ∧ e = .go { s with destroying := true } .setStop := by
  cases k with
  | append request =>
    left
    simp only [call] at h
    by_cases hdestroying : s.destroying = true
    · rw [if_pos hdestroying] at h
      cases h
    · rw [if_neg hdestroying] at h
      exact ⟨request, Bool.eq_false_iff.mpr hdestroying, (Option.some.inj h).symm⟩
  | destroy =>
    right
    simp only [call] at h
    by_cases hearly : s.destroying = true ∨ s.calling ≠ ∅
    · rw [if_pos hearly] at h
      cases h
    · rw [if_neg hearly] at h
      exact ⟨not_not.mp fun hcalling => hearly (Or.inr hcalling), (Option.some.inj h).symm⟩

theorem join_cases (h : join s = some e) : s.live = ∅ ∧ e = .go s .destroyed := by
  unfold join at h
  by_cases hlive : s.live = ∅
  · rw [if_pos hlive] at h
    exact ⟨hlive, (Option.some.inj h).symm⟩
  · rw [if_neg hlive] at h
    cases h

omit [DecidableEq T] in
theorem Frame.refl (t : T) (s : State T α) : Frame t s s :=
  ⟨fun _ _ => id, fun _ _ => id, id, id, id⟩

theorem step_frame (hstep : step t l k s = some e) : Frame t s e.shared := by
  cases l with
  | left | destroyed => cases hstep
  | run =>
    obtain rfl := Option.some.inj hstep
    rcases run_cases t s with ⟨-, heq⟩ | ⟨-, heq⟩
    all_goals rw [heq]
    · exact Frame.refl t s
    · refine ⟨fun v hv hlive => Finset.mem_erase.mpr ⟨hv, hlive⟩, fun _ _ => id, id, id, ?_⟩
      intro hlive
      simp [Effect.go, hlive]
  | await =>
    obtain rfl := Option.some.inj hstep
    rcases await_cases s with ⟨-, heq⟩ | ⟨request, requests, -, heq⟩
    all_goals rw [heq]
    · exact Frame.refl t s
    · exact ⟨fun _ _ => id, fun _ _ => id, id, id, id⟩
  | idle =>
    rcases call_cases hstep with ⟨request, -, rfl⟩ | ⟨-, rfl⟩
    · exact ⟨fun _ _ => id, fun _ _ => Finset.mem_insert_of_mem, id, id, id⟩
    · exact ⟨fun _ _ => id, fun _ _ => id, fun _ => rfl, id, id⟩
  | append request =>
    obtain rfl := Option.some.inj hstep
    exact ⟨fun _ _ => id, fun _ _ => id, id, id, id⟩
  | notifyOne =>
    obtain rfl := Option.some.inj hstep
    exact ⟨fun _ _ => id, fun v hv hcalling => Finset.mem_erase.mpr ⟨hv, hcalling⟩, id, id, id⟩
  | setStop =>
    obtain rfl := Option.some.inj hstep
    exact ⟨fun _ _ => id, fun _ _ => id, id, fun _ => rfl, id⟩
  | notifyAll =>
    obtain rfl := Option.some.inj hstep
    exact Frame.refl t s
  | join =>
    obtain ⟨-, rfl⟩ := join_cases hstep
    exact Frame.refl t s

omit [DecidableEq T] in
theorem Placed.frame {u : State T α} (h : Placed workers v l s) (hv : v ≠ t)
    (hframe : Frame t s u) : Placed workers v l u where
  role := h.role
  live hworker hl := hframe.live v hv (h.live hworker hl)
  caller hl := hframe.calling v hv (h.caller hl)
  destructor hl := hframe.destroying (h.destructor hl)
  stopped hl := hframe.stop (h.stopped hl)
  joined hl := hframe.joined (h.joined hl)

theorem step_ordered (h : Ordered s) (hplaced : Placed workers t l s)
    (hstep : step t l k s = some e) : Ordered e.shared := by
  have horder := h.order
  have hprocessed := h.processed
  cases l with
  | left | destroyed => cases hstep
  | run =>
    obtain rfl := Option.some.inj hstep
    rcases run_cases t s with ⟨-, heq⟩ | ⟨-, heq⟩
    all_goals rw [heq]
    all_goals exact ⟨horder, hprocessed, h.lifetime, h.stopped⟩
  | await =>
    obtain rfl := Option.some.inj hstep
    rcases await_cases s with ⟨-, heq⟩ | ⟨request, requests, hqueue, heq⟩
    all_goals rw [heq]
    · exact h
    · constructor
      case order => simp [Effect.go, horder, hqueue]
      case processed => cases request <;> simp [Effect.go, hprocessed]
      case lifetime => exact h.lifetime
      case stopped => exact h.stopped
  | idle =>
    rcases call_cases hstep with ⟨request, hdestroying, rfl⟩ | ⟨hcalling, rfl⟩
    · refine ⟨horder, hprocessed, ?_, h.stopped⟩
      intro hcontra
      simp [Effect.go, hdestroying] at hcontra
    · exact ⟨horder, hprocessed, fun _ => hcalling, fun _ => rfl⟩
  | append request =>
    obtain rfl := Option.some.inj hstep
    constructor
    case order => simp [append, Effect.go, horder]
    case processed => exact hprocessed
    case lifetime => exact h.lifetime
    case stopped => exact h.stopped
  | notifyOne =>
    obtain rfl := Option.some.inj hstep
    refine ⟨horder, hprocessed, ?_, h.stopped⟩
    intro hdestroying
    simp [Effect.notifyOne, h.lifetime hdestroying]
  | setStop =>
    obtain rfl := Option.some.inj hstep
    exact ⟨horder, hprocessed, h.lifetime, fun _ => hplaced.destructor rfl⟩
  | notifyAll =>
    obtain rfl := Option.some.inj hstep
    exact h
  | join =>
    obtain ⟨-, rfl⟩ := join_cases hstep
    exact h

theorem step_placed (h : Placed workers t l s) (hstep : step t l k s = some e) :
    Placed workers t e.next.loc e.shared := by
  have hrole := h.role
  have hlive := h.live
  cases l with
  | left | destroyed => cases hstep
  | run =>
    obtain rfl := Option.some.inj hstep
    rcases run_cases t s with ⟨-, heq⟩ | ⟨-, heq⟩
    all_goals rw [heq]
    · exact ⟨hrole, fun hw _ => hlive hw nofun, nofun, nofun, nofun, nofun⟩
    · exact ⟨hrole, fun _ hne => absurd rfl hne, nofun, nofun, nofun, nofun⟩
  | await =>
    obtain rfl := Option.some.inj hstep
    rcases await_cases s with ⟨-, heq⟩ | ⟨request, requests, -, heq⟩
    all_goals rw [heq]
    all_goals exact ⟨hrole, fun hw _ => hlive hw nofun, nofun, nofun, nofun, nofun⟩
  | idle =>
    rcases call_cases hstep with ⟨request, -, rfl⟩ | ⟨-, rfl⟩
    · exact ⟨hrole, fun hw _ => hlive hw nofun, fun _ => Finset.mem_insert_self .., nofun, nofun,
        nofun⟩
    · exact ⟨hrole, fun hw _ => hlive hw nofun, nofun, fun _ => rfl, nofun, nofun⟩
  | append request =>
    obtain rfl := Option.some.inj hstep
    exact ⟨hrole, fun hw _ => hlive hw nofun, fun _ => h.caller rfl, nofun, nofun, nofun⟩
  | notifyOne =>
    obtain rfl := Option.some.inj hstep
    exact ⟨hrole, fun hw _ => hlive hw nofun, nofun, nofun, nofun, nofun⟩
  | setStop =>
    obtain rfl := Option.some.inj hstep
    exact ⟨hrole, fun hw _ => hlive hw nofun, nofun, fun _ => h.destructor rfl, fun _ => rfl, nofun⟩
  | notifyAll =>
    obtain rfl := Option.some.inj hstep
    exact ⟨hrole, fun hw _ => hlive hw nofun, nofun, fun _ => h.destructor rfl,
      fun _ => h.stopped rfl, nofun⟩
  | join =>
    obtain ⟨hall, rfl⟩ := join_cases hstep
    exact ⟨hrole, fun hw _ => hlive hw nofun, nofun, fun _ => h.destructor rfl,
      fun _ => h.stopped rfl, fun _ => hall⟩

theorem hasNotified_step (hstep : step t l k s = some e)
    (h : e.next.loc.hasNotified = true) :
    e.signal = some (.all .condition) ∨ l.hasNotified = true := by
  cases l with
  | left | destroyed => cases hstep
  | notifyAll =>
    obtain rfl := Option.some.inj hstep
    exact Or.inl rfl
  | join => exact Or.inr rfl
  | run =>
    obtain rfl := Option.some.inj hstep
    rcases run_cases t s with ⟨-, heq⟩ | ⟨-, heq⟩ <;> rw [heq] at h <;> cases h
  | await =>
    obtain rfl := Option.some.inj hstep
    rcases await_cases s with ⟨-, heq⟩ | ⟨_, _, -, heq⟩ <;> rw [heq] at h <;> cases h
  | idle => rcases call_cases hstep with ⟨_, -, rfl⟩ | ⟨-, rfl⟩ <;> cases h
  | append _ | notifyOne | setStop =>
    obtain rfl := Option.some.inj hstep
    cases h

/-- Only a worker that finds the queue empty goes to sleep. -/
theorem sleep_step {cv : Cond} (hstep : step t l k s = some e)
    (h : e.next = .sleep cv l') : l = .await ∧ l' = .await ∧ s.tasksQueue = [] ∧ e.shared = s := by
  cases l with
  | left | destroyed => cases hstep
  | run =>
    obtain rfl := Option.some.inj hstep
    rcases run_cases t s with ⟨-, heq⟩ | ⟨-, heq⟩ <;> rw [heq] at h <;> cases h
  | await =>
    obtain rfl := Option.some.inj hstep
    rcases await_cases s with ⟨hqueue, heq⟩ | ⟨_, _, -, heq⟩
    · rw [heq] at h ⊢
      cases h
      exact ⟨rfl, rfl, hqueue, rfl⟩
    · rw [heq] at h
      cases h
  | idle => rcases call_cases hstep with ⟨_, -, rfl⟩ | ⟨-, rfl⟩ <;> cases h
  | append _ | notifyOne | setStop | notifyAll =>
    obtain rfl := Option.some.inj hstep
    cases h
  | join =>
    obtain ⟨-, rfl⟩ := join_cases hstep
    cases h

theorem outline (workers : Finset T) :
    Outline (program (T := T) (α := α)) (fun _ _ _ => True) Ordered (Placed workers) where
  shared _ _ _ _ _ _ h hl hstep := step_ordered h hl hstep
  thread _ _ _ _ _ _ _ hl hstep := step_placed hl hstep
  others _ _ _ _ _ _ _ _ hstep _ _ hv hl := hl.frame hv (step_frame hstep)

end

end LanguageTest.ThreadPool1
