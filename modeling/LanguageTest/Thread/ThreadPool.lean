import LanguageTest.Library.Monitor
import Mathlib.Data.Finset.Basic

namespace LanguageTest.ThreadPool
open Transition Monitor

variable {T α : Type*} [DecidableEq T]

inductive Cond where
  | condition
  deriving DecidableEq

/-- The members of the pool, `live` being the workers that `join` still waits for. The last three
fields are history: the tasks `enqueue` accepted, and who took and who executed which. -/
structure State (T α : Type*) where
  tasks : List α
  stop : Bool
  live : Finset T
  accepted : List α
  taken : List (T × α)
  executed : List (T × α)

/-- A worker is at the top of its loop, runs the task it took, or has returned. A caller of
`enqueue` returned or saw it throw; the destructor sets `stop`, notifies and joins. -/
inductive Loc (α : Type*) where
  | wait
  | task (task : α)
  | left
  | undefined
  | idle
  | enqueue (f : α)
  | notifyOne (f : α)
  | enqueued (f : α)
  | threw (f : α)
  | setStop
  | notifyAll
  | join
  | destroyed

def Loc.isWorker : Loc α → Bool
  | .wait | .task _ | .left | .undefined => true
  | _ => false

inductive Call (α : Type*) where
  | enqueue (f : α)
  | destroy

def Call.loc : Call α → Loc α
  | .enqueue f => .enqueue f
  | .destroy => .setStop

def mode : Loc α → Mode
  | .wait | .enqueue _ | .setStop => .entry
  | _ => .outside

/-- The worker's code under the mutex. -/
def worker (t : T) (s : State T α) : Effect Cond (Loc α) (State T α) :=
  if !(s.stop || !s.tasks.isEmpty) then .sleep s .condition .wait
  else if s.stop && s.tasks.isEmpty then .go { s with live := s.live.erase t } .left
  else
    match s.tasks with
    | [] => .go s .undefined
    | task :: tasks => .go { s with tasks := tasks, taken := s.taken ++ [(t, task)] } (.task task)

/-- `enqueue` under the mutex. -/
def enqueue (f : α) (s : State T α) : Effect Cond (Loc α) (State T α) :=
  if s.stop then .go s (.threw f)
  else .go { s with tasks := s.tasks ++ [f], accepted := s.accepted ++ [f] } (.notifyOne f)

/-- The destructor waits for every worker. -/
def join (s : State T α) : Option (Effect Cond (Loc α) (State T α)) :=
  if s.live = ∅ then some (.go s .destroyed) else none

def step (t : T) (l : Loc α) (call : Call α) (s : State T α) :
    Option (Effect Cond (Loc α) (State T α)) :=
  match l with
  | .wait => some (worker t s)
  | .task task => some (.go { s with executed := s.executed ++ [(t, task)] } .wait)
  | .idle | .enqueued _ | .threw _ => some (.go s call.loc)
  | .enqueue f => some (enqueue f s)
  | .notifyOne f => some (.notifyOne s .condition (.enqueued f))
  | .setStop => some (.go { s with stop := true } .notifyAll)
  | .notifyAll => some (.notifyAll s .condition .join)
  | .join => join s
  | .left | .undefined | .destroyed => none

def program : Threads T Cond (Loc α) (Call α) (State T α) := ⟨mode, step⟩

/-- The constructor: the workers are at their loops. -/
def new (workers : Finset T) : Config T Cond (Loc α) (State T α) :=
  ⟨⟨[], false, workers, [], [], []⟩, none, fun t => .ready (if t ∈ workers then .wait else .idle)⟩

/-- The task that a thread has taken and not yet executed. -/
def Loc.hand : Loc α → List α
  | .task f => [f]
  | _ => []

/-- The tasks are taken in the order in which they were accepted, by the workers. -/
structure Ordered (workers : Finset T) (s : State T α) : Prop where
  order : s.accepted = s.taken.map Prod.snd ++ s.tasks
  takers : ∀ p ∈ s.taken, p.1 ∈ workers

/-- What a thread may rely on at its location. -/
structure Placed (workers : Finset T) (t : T) (l : Loc α) (s : State T α) : Prop where
  defined : l ≠ .undefined
  role : l.isWorker = true ↔ t ∈ workers
  hand : s.taken.filter (fun p => p.1 = t) =
    s.executed.filter (fun p => p.1 = t) ++ l.hand.map (Prod.mk t)
  left : l = .left → s.stop = true ∧ s.tasks = []
  returned : ∀ f, l = .notifyOne f ∨ l = .enqueued f → f ∈ s.accepted
  live : t ∈ s.live ↔ t ∈ workers ∧ l ≠ .left
  joined : l = .destroyed → s.live = ∅

section
variable {workers : Finset T} {s : State T α} {t v : T} {l l' : Loc α}

theorem worker_cases (t : T) (s : State T α) :
    (s.stop = false ∧ s.tasks = [] ∧ worker t s = .sleep s .condition .wait) ∨
    (s.stop = true ∧ s.tasks = [] ∧
      worker t s = .go { s with live := s.live.erase t } .left) ∨
    ∃ task tasks, s.tasks = task :: tasks ∧
      worker t s = .go { s with tasks := tasks, taken := s.taken ++ [(t, task)] } (.task task) := by
  unfold worker
  cases htasks : s.tasks with
  | nil => cases hstop : s.stop <;> simp
  | cons task tasks => simp

omit [DecidableEq T] in
theorem enqueue_cases (f : α) (s : State T α) :
    (s.stop = true ∧ enqueue f s = .go s (.threw f)) ∨
    s.stop = false ∧ enqueue f s =
      .go { s with tasks := s.tasks ++ [f], accepted := s.accepted ++ [f] } (.notifyOne f) := by
  unfold enqueue
  cases hstop : s.stop <;> simp

theorem join_cases {e : Effect Cond (Loc α) (State T α)} (h : join s = some e) :
    s.live = ∅ ∧ e = .go s .destroyed := by
  unfold join at h
  by_cases hlive : s.live = ∅
  · rw [if_pos hlive] at h
    exact ⟨hlive, (Option.some.inj h).symm⟩
  · rw [if_neg hlive] at h
    cases h

/-- What any step leaves of the members for the threads that do not take it. -/
structure Frame (t : T) (s u : State T α) : Prop where
  taken : ∀ v, v ≠ t → u.taken.filter (fun p => p.1 = v) = s.taken.filter fun p => p.1 = v
  executed : ∀ v, v ≠ t → u.executed.filter (fun p => p.1 = v) = s.executed.filter fun p => p.1 = v
  stopped : s.stop = true ∧ s.tasks = [] → u.stop = true ∧ u.tasks = []
  accepted : ∀ f ∈ s.accepted, f ∈ u.accepted
  live : ∀ v, v ≠ t → (v ∈ u.live ↔ v ∈ s.live)
  joined : s.live = ∅ → u.live = ∅

theorem Frame.refl (t : T) (s : State T α) : Frame t s s :=
  ⟨fun _ _ => rfl, fun _ _ => rfl, id, fun _ hf => hf, fun _ _ => Iff.rfl, id⟩

theorem filter_other (h : v ≠ t) (ps : List (T × α)) (task : α) :
    (ps ++ [(t, task)]).filter (fun p => p.1 = v) = ps.filter fun p => p.1 = v := by
  simp [List.filter_append, Ne.symm h]

theorem filter_self (t : T) (ps : List (T × α)) (task : α) :
    (ps ++ [(t, task)]).filter (fun p => p.1 = t) =
      ps.filter (fun p => p.1 = t) ++ [(t, task)] := by
  simp [List.filter_append]

theorem worker_frame (t : T) (s : State T α) : Frame t s (worker t s).shared := by
  rcases worker_cases t s with ⟨-, -, heq⟩ | ⟨-, -, heq⟩ | ⟨task, tasks, htasks, heq⟩
  all_goals rw [heq]
  · exact Frame.refl t s
  · constructor
    case taken => exact fun _ _ => rfl
    case executed => exact fun _ _ => rfl
    case stopped => exact id
    case accepted => exact fun _ hf => hf
    case live =>
      intro v hv
      simp [Effect.go, hv]
    case joined =>
      intro hlive
      simp [Effect.go, hlive]
  · constructor
    case taken => exact fun v hv => filter_other hv s.taken task
    case executed => exact fun _ _ => rfl
    case stopped =>
      intro h
      rw [htasks] at h
      cases h.2
    case accepted => exact fun _ hf => hf
    case live => exact fun _ _ => Iff.rfl
    case joined => exact id

theorem enqueue_frame (t : T) (f : α) (s : State T α) : Frame t s (enqueue f s).shared := by
  rcases enqueue_cases f s with ⟨-, heq⟩ | ⟨hstop, heq⟩
  all_goals rw [heq]
  · exact Frame.refl t s
  · constructor
    case taken => exact fun _ _ => rfl
    case executed => exact fun _ _ => rfl
    case stopped =>
      intro h
      rw [hstop] at h
      cases h.1
    case accepted => exact fun _ hf => List.mem_append_left _ hf
    case live => exact fun _ _ => Iff.rfl
    case joined => exact id

theorem step_frame {call : Call α} {e : Effect Cond (Loc α) (State T α)}
    (hstep : step t l call s = some e) : Frame t s e.shared := by
  cases l with
  | left | undefined | destroyed => cases hstep
  | idle | enqueued _ | threw _ | notifyOne _ | notifyAll =>
    obtain rfl := Option.some.inj hstep
    exact Frame.refl t s
  | wait =>
    obtain rfl := Option.some.inj hstep
    exact worker_frame t s
  | task task =>
    obtain rfl := Option.some.inj hstep
    exact ⟨fun _ _ => rfl, fun v hv => filter_other hv s.executed task, id, fun _ hf => hf,
      fun _ _ => Iff.rfl, id⟩
  | enqueue f =>
    obtain rfl := Option.some.inj hstep
    exact enqueue_frame t f s
  | setStop =>
    obtain rfl := Option.some.inj hstep
    exact ⟨fun _ _ => rfl, fun _ _ => rfl, fun h => ⟨rfl, h.2⟩, fun _ hf => hf,
      fun _ _ => Iff.rfl, id⟩
  | join =>
    obtain ⟨-, rfl⟩ := join_cases hstep
    exact Frame.refl t s

theorem Placed.frame {u : State T α} (h : Placed workers v l s) (hv : v ≠ t)
    (hframe : Frame t s u) : Placed workers v l u where
  defined := h.defined
  role := h.role
  hand := by rw [hframe.taken v hv, hframe.executed v hv, h.hand]
  left hl := hframe.stopped (h.left hl)
  returned f hl := hframe.accepted f (h.returned f hl)
  live := (hframe.live v hv).trans h.live
  joined hl := hframe.joined (h.joined hl)

omit [DecidableEq T] in
theorem caller_hand (h : l.isWorker = false) : l.hand = [] := by
  cases l <;> first | rfl | cases h

/-- A thread that is no worker moves on. -/
theorem Placed.caller {u : State T α} (h : Placed workers t l s) (hl : l.isWorker = false)
    (hl' : l'.isWorker = false)
    (hu : u.taken = s.taken ∧ u.executed = s.executed ∧ u.live = s.live)
    (hreturned : ∀ f, l' = .notifyOne f ∨ l' = .enqueued f → f ∈ u.accepted)
    (hjoined : l' = .destroyed → u.live = ∅) : Placed workers t l' u := by
  obtain ⟨htaken, hexecuted, hlive⟩ := hu
  have hno : t ∉ workers := by
    intro ht
    rw [h.role.mpr ht] at hl
    cases hl
  constructor
  case defined =>
    intro heq
    subst heq
    cases hl'
  case role => simp [hl', hno]
  case hand =>
    rw [htaken, hexecuted, h.hand, caller_hand hl, caller_hand hl']
  case left =>
    intro heq
    subst heq
    cases hl'
  case returned => exact hreturned
  case live =>
    rw [hlive, h.live]
    simp [hno]
  case joined => exact hjoined

theorem worker_placed (h : Placed workers t .wait s) :
    Placed workers t (worker t s).next.loc (worker t s).shared := by
  have hworker : t ∈ workers := h.role.mp rfl
  rcases worker_cases t s with ⟨-, -, heq⟩ | ⟨hstop, htasks, heq⟩ | ⟨task, tasks, htasks, heq⟩
  all_goals rw [heq]
  · exact h
  · constructor
    case defined => exact nofun
    case role => exact h.role
    case hand => exact h.hand
    case left => exact fun _ => ⟨hstop, htasks⟩
    case returned => exact fun f hl => by cases hl <;> contradiction
    case live => simp [Effect.go, Next.loc]
    case joined => exact nofun
  · constructor
    case defined => exact nofun
    case role => exact h.role
    case hand =>
      simp only [Effect.go, filter_self, h.hand]
      simp [Loc.hand, Next.loc]
    case left => exact nofun
    case returned => exact fun f hl => by cases hl <;> contradiction
    case live =>
      apply h.live.trans
      simp [hworker, Effect.go, Next.loc]
    case joined => exact nofun

theorem task_placed {task : α} (h : Placed workers t (.task task) s) :
    Placed workers t .wait { s with executed := s.executed ++ [(t, task)] } := by
  constructor
  case defined => exact nofun
  case role => exact h.role
  case hand =>
    simp only [filter_self, h.hand]
    simp [Loc.hand]
  case left => exact nofun
  case returned => exact fun f hl => by cases hl <;> contradiction
  case live =>
    apply h.live.trans
    simp
  case joined => exact nofun

theorem enqueue_placed {f : α} (h : Placed workers t (.enqueue f) s) :
    Placed workers t (enqueue f s).next.loc (enqueue f s).shared := by
  rcases enqueue_cases f s with ⟨-, heq⟩ | ⟨-, heq⟩
  all_goals rw [heq]
  · exact h.caller rfl rfl ⟨rfl, rfl, rfl⟩ (by simp [Effect.go, Next.loc]) nofun
  · refine h.caller rfl rfl ⟨rfl, rfl, rfl⟩ ?_ nofun
    intro g hl
    rcases hl with hl | hl
    · obtain rfl := Loc.notifyOne.inj hl
      exact List.mem_append_right _ (List.mem_singleton_self f)
    · cases hl

/-- The thread of a step is where its next location says. -/
theorem step_placed {call : Call α} {e : Effect Cond (Loc α) (State T α)}
    (h : Placed workers t l s) (hstep : step t l call s = some e) :
    Placed workers t e.next.loc e.shared := by
  cases l with
  | left | undefined | destroyed => cases hstep
  | idle | enqueued _ | threw _ =>
    obtain rfl := Option.some.inj hstep
    cases call
    all_goals exact h.caller rfl rfl ⟨rfl, rfl, rfl⟩ (by simp [Effect.go, Next.loc, Call.loc]) nofun
  | wait =>
    obtain rfl := Option.some.inj hstep
    exact worker_placed h
  | task task =>
    obtain rfl := Option.some.inj hstep
    exact task_placed h
  | enqueue f =>
    obtain rfl := Option.some.inj hstep
    exact enqueue_placed h
  | notifyOne f =>
    obtain rfl := Option.some.inj hstep
    refine h.caller rfl rfl ⟨rfl, rfl, rfl⟩ ?_ nofun
    intro g hl
    rcases hl with hl | hl
    · cases hl
    · obtain rfl := Loc.enqueued.inj hl
      exact h.returned f (Or.inl rfl)
  | setStop | notifyAll =>
    obtain rfl := Option.some.inj hstep
    exact h.caller rfl rfl ⟨rfl, rfl, rfl⟩ (by simp [Effect.go, Effect.notifyAll, Next.loc]) nofun
  | join =>
    obtain ⟨hall, rfl⟩ := join_cases hstep
    exact h.caller rfl rfl ⟨rfl, rfl, rfl⟩ (by simp [Effect.go, Next.loc]) fun _ => hall

theorem step_ordered {call : Call α} {e : Effect Cond (Loc α) (State T α)}
    (h : Ordered workers s) (hplaced : Placed workers t l s) (hstep : step t l call s = some e) :
    Ordered workers e.shared := by
  have horder := h.order
  cases l with
  | left | undefined | destroyed => cases hstep
  | idle | enqueued _ | threw _ | notifyOne _ | notifyAll | task _ | setStop =>
    obtain rfl := Option.some.inj hstep
    exact ⟨horder, h.takers⟩
  | join =>
    obtain ⟨-, rfl⟩ := join_cases hstep
    exact h
  | wait =>
    obtain rfl := Option.some.inj hstep
    rcases worker_cases t s with ⟨-, -, heq⟩ | ⟨-, -, heq⟩ | ⟨task, tasks, htasks, heq⟩
    all_goals rw [heq]
    · exact h
    · exact ⟨horder, h.takers⟩
    · constructor
      case order => simp [Effect.go, horder, htasks]
      case takers =>
        intro p hp
        rcases List.mem_append.mp hp with hp | hp
        · exact h.takers p hp
        · rw [List.mem_singleton.mp hp]
          exact hplaced.role.mp rfl
  | enqueue f =>
    obtain rfl := Option.some.inj hstep
    rcases enqueue_cases f s with ⟨-, heq⟩ | ⟨-, heq⟩
    all_goals show Ordered workers (enqueue f s).shared
    all_goals rw [heq]
    · exact h
    · constructor
      case order => simp [Effect.go, horder]
      case takers => exact h.takers

theorem outline (workers : Finset T) : Outline (program (T := T) (α := α)) (fun _ _ _ => True)
    (Ordered workers) (Placed workers) where
  shared _ _ _ _ _ _ h hl hstep := step_ordered h hl hstep
  thread _ _ _ _ _ _ _ hl hstep := step_placed hl hstep
  others _ _ _ _ _ _ _ _ hstep _ _ hv hl := hl.frame hv (step_frame hstep)

end

theorem perm_of_filter {ps qs : List (T × α)}
    (h : ∀ t, ps.filter (fun p => p.1 = t) = qs.filter fun p => p.1 = t) : ps.Perm qs := by
  classical
  apply List.perm_iff_count.mpr
  intro p
  have hps : (ps.filter fun q => q.1 = p.1).count p = ps.count p := List.count_filter (by simp)
  have hqs : (qs.filter fun q => q.1 = p.1).count p = qs.count p := List.count_filter (by simp)
  rw [← hps, ← hqs, h]

section Runs
variable {workers : Finset T} {c u : Config T Cond (Loc α) (State T α)}

theorem holds_new (workers : Finset T) :
    Holds (Ordered workers) (Placed workers) (new workers : Config T Cond (Loc α) (State T α)) := by
  refine ⟨⟨rfl, by simp [new]⟩, ?_⟩
  intro t
  by_cases ht : t ∈ workers
  · simp only [Config.loc, new, Status.loc, ht, ↓reduceIte]
    constructor <;> simp [Loc.isWorker, Loc.hand, ht]
  · simp only [Config.loc, new, Status.loc, ht, ↓reduceIte]
    constructor <;> simp [Loc.isWorker, Loc.hand, ht]

/-- Nobody has a task in hand any more once the workers have returned. -/
theorem finished_perm (hworkers : workers.Nonempty)
    (h : Holds (Ordered workers) (Placed workers) c) (hall : ∀ w ∈ workers, c.loc w = .left) :
    (c.shared.executed.map Prod.snd).Perm c.shared.accepted := by
  obtain ⟨w, hw⟩ := hworkers
  have htasks := ((h.2 w).left (hall w hw)).2
  have hhand : ∀ t, (c.loc t).hand = [] := by
    intro t
    by_cases ht : t ∈ workers
    · rw [hall t ht]
      rfl
    · apply caller_hand
      exact Bool.eq_false_iff.mpr fun hrole => ht ((h.2 t).role.mp hrole)
  rw [h.1.order, htasks, List.append_nil]
  apply List.Perm.map
  apply perm_of_filter
  intro t
  rw [(h.2 t).hand, hhand t, List.map_nil, List.append_nil]

variable [Fintype T]

/-- What is promised in every state: the accepted tasks are taken in order, each by one worker;
what a worker took it has executed, up to the task in its hand; a worker leaves only when the pool
is stopped and nothing is queued; a stopped pool rejects; and once the workers have returned,
the tasks executed are the tasks accepted. -/
structure Accounted (workers : Finset T) (c : Config T Cond (Loc α) (State T α)) : Prop where
  order : c.shared.accepted = c.shared.taken.map Prod.snd ++ c.shared.tasks
  takers : ∀ p ∈ c.shared.taken, p.1 ∈ workers
  executed : ∀ t, c.shared.taken.filter (fun p => p.1 = t) =
    c.shared.executed.filter (fun p => p.1 = t) ++ (c.loc t).hand.map (Prod.mk t)
  leaves : ∀ t, c.loc t = .left → c.shared.stop = true ∧ c.shared.tasks = []
  returned : ∀ t f, c.loc t = .enqueued f → f ∈ c.shared.accepted
  rejects : ∀ t f call pick u, c.loc t = .enqueue f → c.shared.stop = true →
    program.act c (.run t call pick) = some u → u.loc t = .threw f ∧ u.shared = c.shared
  joined : ∀ t, c.loc t = .destroyed → ∀ w ∈ workers, c.loc w = .left
  finished : (∀ w ∈ workers, c.loc w = .left) →
    (c.shared.executed.map Prod.snd).Perm c.shared.accepted

theorem enqueue_rejects {t : T} {f : α} {call : Call α} {pick : Option T}
    (hl : c.loc t = .enqueue f) (hstop : c.shared.stop = true)
    (hact : program.act c (.run t call pick) = some u) :
    u.loc t = .threw f ∧ u.shared = c.shared := by
  obtain ⟨l, e, he, hran⟩ := Threads.act_ran hact
  obtain rfl : l = .enqueue f := hran.loc_here.symm.trans hl
  obtain rfl := Option.some.inj he
  rw [hran.loc_self, hran.shared]
  simp [enqueue, hstop, Effect.go, Next.loc]

theorem run_accounted (workers : Finset T) (hworkers : workers.Nonempty)
    (acts : List (Move T (Call α))) (hrun : exec program.act acts (new workers) = some c) :
    Accounted workers c := by
  have h := (outline workers).runs (holds_new workers) hrun
  constructor
  case order => exact h.1.order
  case takers => exact h.1.takers
  case executed => exact fun t => (h.2 t).hand
  case leaves => exact fun t => (h.2 t).left
  case returned => exact fun t f hl => (h.2 t).returned f (Or.inr hl)
  case rejects => exact fun t f call pick u => enqueue_rejects
  case joined =>
    intro t hl w hw
    by_contra hne
    have hlive := (h.2 w).live.mpr ⟨hw, hne⟩
    rw [(h.2 t).joined hl] at hlive
    cases hlive
  case finished => exact finished_perm hworkers h

/-- A worker sleeps, is woken for a task, and runs it; the second task is queued when the pool
stops, and the worker still runs it before it leaves. -/
theorem run_accounted_stop : ∃ c, exec program.act
    [.run 0 .destroy none, .run 1 (.enqueue 7) none, .run 1 (.enqueue 7) none,
      .run 1 (.enqueue 7) (some 0), .run 0 .destroy none, .run 0 .destroy none,
      .run 1 (.enqueue 8) none, .run 1 (.enqueue 8) none, .run 1 (.enqueue 8) none,
      .run 1 .destroy none, .run 1 .destroy none, .run 1 .destroy none, .run 0 .destroy none,
      .run 0 .destroy none, .run 0 .destroy none, .run 1 .destroy none]
    (new {0} : Config (Fin 2) Cond (Loc Nat) (State (Fin 2) Nat)) = some c ∧ Accounted {0} c :=
  exists_exec (by decide) fun _ hrun => run_accounted {0} ⟨0, by decide⟩ _ hrun

end Runs

end LanguageTest.ThreadPool
