import LanguageTest.Library.Program
import Mathlib.Tactic.ByContra

namespace LanguageTest.ReactorLifecycle

/-- A descriptor, or -1. -/
abbrev Fd := Int

/-- A `thread_ptr` that is still null, and one whose thread runs or was joined. -/
inductive Thread where
  | null
  | running
  | joined
  deriving DecidableEq

/-- The members of the server that `init` and `stop` use, and the descriptors it has open. As
history, `served` has the descriptors that successful calls of `init` opened. -/
structure State where
  listenFd : Fd
  epollFd : Fd
  init : Bool
  stop : Bool
  mainLoop : Bool
  acceptThread : Thread
  workerThreads : Fin 8 → Thread
  descriptors : List Fd
  served : List Fd

/-- What the system calls of `createServerListener` answer: a descriptor or a failure, and for
the others whether they succeed. -/
structure Answers where
  socket : Option Fd
  bind : Bool
  listen : Bool
  epollCreate : Option Fd
  epollCtl : Bool

def assign (f : State → State) : Program State Unit := fun s => .ok ((), f s)

/-- A system call that opens a descriptor. -/
def openFd : Option Fd → Program State Fd
  | none => pure (-1)
  | some fd => do
    assign fun s => { s with descriptors := fd :: s.descriptors }
    pure fd

def close (fd : Fd) : Program State Unit :=
  assign fun s => { s with descriptors := s.descriptors.erase fd }

def createServerListener (k : Answers) : Program State Bool := do
  let fd ← openFd k.socket
  assign fun s => { s with listenFd := fd }
  if k.socket = none then pure false
  else if !k.bind then pure false
  else if !k.listen then pure false
  else
    let efd ← openFd k.epollCreate
    assign fun s => { s with epollFd := efd }
    if k.epollCreate = none then pure false
    else if !k.epollCtl then pure false
    else pure true

/-- The two `reset` calls start the threads. -/
def startThreads (s : State) : State :=
  { s with
    acceptThread := .running
    workerThreads := fun _ => .running
    init := true
    served := s.listenFd :: s.epollFd :: s.served }

def init (k : Answers) : Program State Bool := do
  if (← get).init then pure true
  else if !(← createServerListener k) then pure false
  else
    assign startThreads
    pure (← get).init

/-- The threads leave their loops once `main_loop_` is false, so that a join returns. There is
nothing left to join after that. -/
def join : Thread → Program State Thread
  | .null => fail .nullPointer
  | .running => pure .joined
  | .joined => fail .dangling

def joinWorker (i : Fin 8) : Program State Unit := do
  let thread ← join ((← get).workerThreads i)
  assign fun s => { s with workerThreads := fun j => if j = i then thread else s.workerThreads j }

def stop : Program State Bool := do
  if (← get).stop then pure true
  else
    assign fun s => { s with mainLoop := false }
    let thread ← join (← get).acceptThread
    assign fun s => { s with acceptThread := thread }
    (List.finRange 8).forM joinWorker
    close (← get).listenFd
    close (← get).epollFd
    assign fun s => { s with stop := true }
    pure (← get).stop

inductive Op where
  | init (k : Answers)
  | stop

def step : Op → Program State Bool
  | .init k => init k
  | .stop => stop

/-- The server as it is constructed. -/
def initial : State := ⟨0, 0, false, true, true, .null, fun _ => .null, [], []⟩

/-- No thread runs. -/
def Quiet (s : State) : Prop :=
  s.acceptThread ≠ .running ∧ ∀ i, s.workerThreads i ≠ .running

/-- Nothing is open and nothing runs: the first state, up to the two members that `init` sets
before it reads them. -/
def Fresh (s : State) : Prop :=
  s = { initial with listenFd := s.listenFd, epollFd := s.epollFd }

/-- What is promised about the result of a call. -/
def Promised (op : Op) (result : Bool) (s : State) : Prop :=
  match op, result with
  | .stop, true => Quiet s ∧ ∀ fd ∈ s.served, fd ∉ s.descriptors
  | .init _, false => Fresh s
  | _, _ => True

/-- The promise for the last call of a run. -/
def LastPromised (ops : List Op) (results : List Bool) (s : State) : Prop :=
  ∀ op ∈ ops.getLast?, ∀ result ∈ results.getLast?, Promised op result s

/-- No `stop` after an `init` that succeeded, and an `init` that does not fail later than in
`socket`. -/
def Harmless (op : Op) (s : State) : Prop :=
  match op with
  | .stop => s.init = false
  | .init k => s.init = true ∨ k.socket = none ∨
      k.bind = true ∧ k.listen = true ∧ k.epollCreate ≠ none ∧ k.epollCtl = true

instance (op : Op) (s : State) : Decidable (Harmless op s) := by
  cases op <;> unfold Harmless <;> infer_instance

/-- Nothing sets `stop_` to false, and until an `init` succeeds there is nothing to release. -/
structure Valid (s : State) : Prop where
  stop : s.stop = true
  down : s.init = false → Fresh s
  up : s.init = true → s.acceptThread = .running

section
variable {s : State} {k : Answers}

@[simp] theorem runs_assign {f : State → State} {Q : Unit → State → Prop} :
    Runs (assign f) s Q ↔ Q () (f s) :=
  runs_of_ok rfl

/-- The flag that `stop` tests first has been true from the start. -/
theorem runs_stop {Q : Bool → State → Prop} (h : Valid s) : Runs stop s Q ↔ Q true s := by
  simp only [ReactorLifecycle.stop, runs_bind, runs_get, h.stop, if_true, runs_pure]

theorem runs_init_again {Q : Bool → State → Prop} (h : s.init = true) :
    Runs (init k) s Q ↔ Q true s := by
  simp only [ReactorLifecycle.init, runs_bind, runs_get, h, if_true, runs_pure]

theorem runs_init_socket (h : s.init = false) (hk : k.socket = none)
    {Q : Bool → State → Prop} : Runs (init k) s Q ↔ Q false { s with listenFd := -1 } := by
  simp [ReactorLifecycle.init, createServerListener, openFd, h, hk]

/-- A call that fails after `socket` keeps what `socket` opened. -/
theorem runs_init_late (h : s.init = false) {fd : Fd} (hk : k.socket = some fd)
    (hlate : ¬ (k.bind = true ∧ k.listen = true ∧ k.epollCreate ≠ none ∧ k.epollCtl = true)) :
    Runs (init k) s fun r t => r = false ∧ fd ∈ t.descriptors := by
  simp only [ReactorLifecycle.init, createServerListener, openFd, h, hk, runs_bind, runs_get,
    runs_assign, runs_pure, Bool.false_eq_true, reduceCtorEq, if_false]
  cases hbind : k.bind with
  | false => simp
  | true =>
    cases hlisten : k.listen with
    | false => simp
    | true =>
      cases hcreate : k.epollCreate with
      | none => simp
      | some efd =>
        cases hctl : k.epollCtl with
        | false => simp
        | true => exact absurd ⟨hbind, hlisten, by simp [hcreate], hctl⟩ hlate

theorem runs_init_success (h : s.init = false) {fd efd : Fd} (hsocket : k.socket = some fd)
    (hbind : k.bind = true) (hlisten : k.listen = true) (hcreate : k.epollCreate = some efd)
    (hctl : k.epollCtl = true) : Runs (init k) s fun r t =>
      r = true ∧ t.stop = s.stop ∧ t.init = true ∧ t.acceptThread = .running := by
  simp [ReactorLifecycle.init, createServerListener, openFd, h, hsocket, hbind, hlisten, hcreate,
    hctl, startThreads]

theorem lastPromised_append {ops : List Op} {op : Op} {results : List Bool} {r : Bool} :
    LastPromised (ops ++ [op]) (results ++ [r]) s ↔ Promised op r s := by
  simp [LastPromised]

theorem step_valid {op : Op} (h : Valid s) (hok : Harmless op s) :
    Runs (step op) s fun r t => Valid t ∧ Promised op r t := by
  cases op with
  | stop =>
    have hfresh := h.down hok
    refine (runs_stop h).mpr ⟨h, ?_⟩
    rw [hfresh]
    exact ⟨⟨nofun, fun _ => nofun⟩, nofun⟩
  | init k =>
    cases hinit : s.init with
    | true => exact (runs_init_again hinit).mpr ⟨h, trivial⟩
    | false =>
      have hok : k.socket = none ∨
          k.bind = true ∧ k.listen = true ∧ k.epollCreate ≠ none ∧ k.epollCtl = true :=
        Or.resolve_left hok (by simp [hinit])
      have hfresh := h.down hinit
      cases hsocket : k.socket with
      | none =>
        have hagain : Fresh { s with listenFd := -1 } := by
          rw [hfresh]
          rfl
        refine (runs_init_socket hinit hsocket).mpr ⟨⟨h.stop, fun _ => hagain, ?_⟩, hagain⟩
        exact fun hup => absurd (hup.symm.trans hinit) (by decide)
      | some fd =>
        obtain ⟨hbind, hlisten, hcreate, hctl⟩ := hok.resolve_left (by simp [hsocket])
        obtain ⟨efd, hcreate⟩ := Option.ne_none_iff_exists'.mp hcreate
        refine (runs_init_success hinit hsocket hbind hlisten hcreate hctl).mono ?_
        intro r t ht
        obtain ⟨rfl, hstop, hup, hrunning⟩ := ht
        refine ⟨⟨hstop.trans h.stop, ?_, fun _ => hrunning⟩, trivial⟩
        exact fun hdown => absurd (hdown.symm.trans hup) (by decide)

/-- A call that is not harmless breaks the promise. -/
theorem harmless_of_promised {op : Op} (h : Valid s)
    (hruns : Runs (step op) s fun r t => Promised op r t) : Harmless op s := by
  cases op with
  | stop =>
    obtain ⟨⟨hquiet, -⟩, -⟩ := (runs_stop h).mp hruns
    apply Bool.eq_false_iff.mpr
    intro hup
    exact hquiet (h.up hup)
  | init k =>
    by_cases hinit : s.init = true
    · exact Or.inl hinit
    · have hinit : s.init = false := Bool.eq_false_iff.mpr hinit
      right
      by_contra hno
      rw [not_or] at hno
      obtain ⟨fd, hfd⟩ := Option.ne_none_iff_exists'.mp hno.1
      obtain ⟨r, t, ht, hfalse, hopen⟩ := runs_init_late hinit hfd hno.2
      have hpromised : Promised (.init k) r t := (runs_of_ok ht).mp hruns
      rw [hfalse] at hpromised
      have hfresh : Fresh t := hpromised
      rw [hfresh] at hopen
      cases hopen

theorem valid_initial : Valid initial := ⟨rfl, fun _ => rfl, nofun⟩

end

/-- The promises hold after every call of a run exactly when every call is harmless. -/
theorem run_promised_iff (ops : List Op) :
    (∀ pre, pre <+: ops → Runs (runAll step pre) initial fun results s =>
      LastPromised pre results s) ↔ StepsMeet step Harmless ops initial := by
  symm
  refine StepsMeet.iff_prefixes (fun pre results s => Valid s ∧ LastPromised pre results s) ops
    ?_ ?_ (fun _ _ _ h => h.2) ⟨valid_initial, nofun⟩
  · intro pre op post results s _ hs hok
    refine (step_valid hs.1 hok).mono ?_
    exact fun r t ht => ⟨ht.1, lastPromised_append.mpr ht.2⟩
  · intro pre op post results s _ hs hruns
    exact harmless_of_promised hs.1 (hruns.mono fun r t ht => lastPromised_append.mp ht)

/-- `stop` returns at once while the server runs. -/
theorem run_running :
    ¬ ∀ pre, pre <+: [.init ⟨some 3, true, true, some 4, true⟩, .stop] →
      Runs (runAll step pre) initial fun results s => LastPromised pre results s := by
  intro h
  obtain ⟨_, s, hs, hlast⟩ := h _ List.prefix_rfl
  cases hs
  have hpromised : Promised .stop true _ := hlast _ rfl _ rfl
  exact hpromised.1.1 rfl

end LanguageTest.ReactorLifecycle
