import LanguageTest.Library.Monitor
import Mathlib.Data.Fintype.Sum
import Mathlib.Tactic.DeriveFintype

namespace LanguageTest.ReactorServer
open Transition Monitor

/-- A descriptor. -/
abbrev Fd := Int

abbrev workerThreadNum : Nat := 8
abbrev recvBufSize : Nat := 256
abbrev epollEventNum : Nat := 1024

inductive Who where
  | mainLoop
  | acceptThread
  | workerThread (i : Fin workerThreadNum)
  | stop
  deriving DecidableEq, Fintype

inductive Cond where
  | accept
  | worker
  deriving DecidableEq

/-- The number of an accepted connection. It is not known to the server, which has descriptors. -/
abbrev Conn := Nat

/-- The members of the server, and the kernel: the connection that a descriptor names while it is
open, and the client sockets that epoll watches. With a descriptor on its way to a worker comes,
as history, the connection that its event was for. The last two fields are history, too: the
connections given to `close`, and the replies given to `send`. -/
structure State where
  listenFd : Fd
  epollFd : Fd
  stop : Bool
  mainLoop : Bool
  clientsList : List (Fd × Option Conn)
  conns : Fd → Option Conn
  watched : List Fd
  accepted : Nat
  closed : List (Option Conn)
  sent : List (Option Conn × List UInt8)

inductive MainLoc where
  | loop
  | wait
  | dispatch (events : List (Fd × Option Conn))
  | push (fd : Fd) (conn : Option Conn) (events : List (Fd × Option Conn))
  | notify (events : List (Fd × Option Conn))
  | left

inductive AcceptLoc where
  | wait
  | test
  | accept
  | fcntl (fd : Fd)
  | add (fd : Fd)
  | left

/-- After a failed `send` the worker leaves its loop once it has closed the client. -/
inductive WorkerLoc where
  | take
  | recv (fd : Fd) (conn : Option Conn) (clientMsg : List UInt8)
  | send (fd : Fd) (conn : Option Conn) (clientMsg : List UInt8)
  | del (fd : Fd) (conn : Option Conn) (leaving : Bool)
  | close (fd : Fd) (conn : Option Conn) (leaving : Bool)
  | left

inductive StopLoc where
  | call
  | clear
  | notifyAccept
  | notifyWorkers
  | join

inductive Loc where
  | main (l : MainLoc)
  | accept (l : AcceptLoc)
  | worker (l : WorkerLoc)
  | stop (l : StopLoc)

/-- The bytes that `recv` gave, and what the memory behind the buffer holds. -/
inductive RecvResult where
  | data (bytes beyond : List UInt8)
  | closed
  | wouldBlock
  | error

inductive SendResult where
  | sent
  | wouldBlock
  | error

/-- What a step takes from outside: mostly what a system call answers. -/
inductive Act where
  | next
  | events (fds : List Fd)
  | accepted (fd : Option Fd)
  | succeeds (ok : Bool)
  | received (r : RecvResult)
  | sent (r : SendResult)

def mainLoop (l : MainLoc) (a : Act) (s : State) : Option (Effect Cond Loc State) :=
  match l, a with
  | .loop, .next => some (.go s (.main (if s.mainLoop then .wait else .left)))
  -- a timeout or an error
  | .wait, .next => some (.go s (.main .loop))
  | .wait, .events fds =>
    if ∀ fd ∈ fds, fd = s.listenFd ∨ fd ∈ s.watched then
      some (.go s (.main (.dispatch ((fds.take epollEventNum).map fun fd => (fd, s.conns fd)))))
    else none
  | .dispatch [], .next => some (.go s (.main .loop))
  | .dispatch ((fd, conn) :: events), .next =>
    if fd = s.listenFd then some (.notifyOne s .accept (.main (.dispatch events)))
    else some (.go s (.main (.push fd conn events)))
  | .push fd conn events, .next =>
    some (.go { s with clientsList := s.clientsList ++ [(fd, conn)] } (.main (.notify events)))
  | .notify events, .next => some (.notifyOne s .worker (.main (.dispatch events)))
  | _, _ => none

/-- The kernel gives a new connection a descriptor that is not in use. -/
def Unused (fd : Fd) (s : State) : Prop :=
  s.conns fd = none ∧ fd ≠ s.listenFd ∧ fd ≠ s.epollFd

instance (fd : Fd) (s : State) : Decidable (Unused fd s) := inferInstanceAs (Decidable (_ ∧ _))

def acceptThread (l : AcceptLoc) (a : Act) (s : State) : Option (Effect Cond Loc State) :=
  match l, a with
  | .wait, .next => some (.sleep s .accept (.accept .test))
  | .test, .next => some (.go s (.accept (if !s.mainLoop then .left else .accept)))
  | .accept, .accepted none => some (.go s (.accept .wait))
  | .accept, .accepted (some fd) =>
    if Unused fd s then
      some (.go { s with
        conns := Function.update s.conns fd (some s.accepted), accepted := s.accepted + 1 }
        (.accept (.fcntl fd)))
    else none
  -- a socket that cannot be made non-blocking stays open and unwatched
  | .fcntl fd, .succeeds ok => some (.go s (.accept (if ok then .add fd else .wait)))
  | .add fd, .succeeds true =>
    if s.conns fd = none then none
    else some (.go { s with watched := fd :: s.watched } (.accept .wait))
  | .add _, .succeeds false => some (.go s (.accept .wait))
  | _, _ => none

/-- What `client_msg += buf` appends: the bytes up to the first zero. A full buffer without one is
read beyond its end. -/
def bufString (bytes beyond : List UInt8) : List UInt8 :=
  if bytes.length < recvBufSize then bytes.takeWhile (· ≠ 0)
  else (bytes ++ beyond).takeWhile (· ≠ 0)

def testSend : List UInt8 := " test send".toUTF8.toList

/-- `recv` can only fail on a descriptor that is closed. -/
def RecvAllowed (fd : Fd) (s : State) : RecvResult → Prop
  | .data bytes _ => s.conns fd ≠ none ∧ bytes ≠ [] ∧ bytes.length ≤ recvBufSize
  | .closed | .wouldBlock => s.conns fd ≠ none
  | .error => True

instance (fd : Fd) (s : State) (r : RecvResult) : Decidable (RecvAllowed fd s r) := by
  cases r <;> unfold RecvAllowed <;> infer_instance

def SendAllowed (fd : Fd) (s : State) : SendResult → Prop
  | .sent | .wouldBlock => s.conns fd ≠ none
  | .error => True

instance (fd : Fd) (s : State) (r : SendResult) : Decidable (SendAllowed fd s r) := by
  cases r <;> unfold SendAllowed <;> infer_instance

/-- One turn of the loop around `recv`. -/
def received (fd : Fd) (conn : Option Conn) (clientMsg : List UInt8) : RecvResult → WorkerLoc
  | .data bytes beyond => .recv fd conn (clientMsg ++ bufString bytes beyond)
  | .wouldBlock => .send fd conn (clientMsg ++ testSend)
  | .closed | .error => .del fd conn false

def workerThread (l : WorkerLoc) (a : Act) (s : State) : Option (Effect Cond Loc State) :=
  match l, a with
  | .take, .next =>
    match s.clientsList with
    | [] =>
      if !s.mainLoop then some (.go s (.worker .left))
      else some (.sleep s .worker (.worker .take))
    | (fd, conn) :: rest => some (.go { s with clientsList := rest } (.worker (.recv fd conn [])))
  | .recv fd conn clientMsg, .received r =>
    if RecvAllowed fd s r then some (.go s (.worker (received fd conn clientMsg r))) else none
  | .send fd conn clientMsg, .sent r =>
    if SendAllowed fd s r then
      match r with
      | .sent => some (.go { s with sent := (conn, clientMsg) :: s.sent } (.worker .take))
      | .wouldBlock => some (.go s (.worker .take))
      | .error => some (.go s (.worker (.del fd conn true)))
    else none
  -- the two calls of `closeClient`
  | .del fd conn leaving, .next =>
    some (.go { s with watched := s.watched.filter (· ≠ fd) } (.worker (.close fd conn leaving)))
  | .close fd conn leaving, .next =>
    some (.go { s with
      conns := Function.update s.conns fd none
      watched := s.watched.filter (· ≠ fd)
      closed := conn :: s.closed }
      (.worker (if leaving then .left else .take)))
  | _, _ => none

/-- What `stop` does after it has joined the threads is of no concern to them. -/
def stop (l : StopLoc) (a : Act) (s : State) : Option (Effect Cond Loc State) :=
  match l, a with
  | .call, .next => some (.go s (.stop (if s.stop then .call else .clear)))
  | .clear, .next => some (.go { s with mainLoop := false } (.stop .notifyAccept))
  | .notifyAccept, .next => some (.notifyAll s .accept (.stop .notifyWorkers))
  | .notifyWorkers, .next => some (.notifyAll s .worker (.stop .join))
  | _, _ => none

def step (_ : Who) (l : Loc) (a : Act) (s : State) : Option (Effect Cond Loc State) :=
  match l with
  | .main l => mainLoop l a s
  | .accept l => acceptThread l a s
  | .worker l => workerThread l a s
  | .stop l => stop l a s

/-- Each of the two mutexes protects single steps. -/
def mode : Loc → Mode
  | .main (.push ..) | .accept .wait | .worker .take => .entry
  | _ => .outside

def program : Threads Who Cond Loc Act State := ⟨mode, step⟩

/-- After a successful `init`, with `main` in `mainLoop`. -/
def init (listenFd epollFd : Fd) (stop : Bool) : Config Who Cond Loc State :=
  ⟨⟨listenFd, epollFd, stop, true, [], fun _ => none, [], 0, [], []⟩, none, fun
    | .mainLoop => .ready (.main .loop)
    | .acceptThread => .ready (.accept .wait)
    | .workerThread _ => .ready (.worker .take)
    | .stop => .ready (.stop .call)⟩

/-- While `main_loop_` is true, no worker has left. -/
def Staffed (c : Config Who Cond Loc State) : Prop :=
  c.shared.mainLoop = true → ∀ i, c.loc (.workerThread i) ≠ .worker .left

/-- The worker does not come back from the `closeClient` of a failed `send`. -/
def SendServed (_ : Who) (l : Loc) (s : State) : Prop :=
  match l with
  | .worker (.close _ _ true) => s.mainLoop = false
  | _ => True

instance (t : Who) (l : Loc) (s : State) : Decidable (SendServed t l s) := by
  unfold SendServed
  split <;> infer_instance

/-- Every thread stays in its function. -/
def Home : Who → Loc → Prop
  | .mainLoop, .main _ | .acceptThread, .accept _ | .workerThread _, .worker _ | .stop, .stop _ =>
    True
  | _, _ => False

/-- A worker that has left did so while `main_loop_` was false. -/
def LeftLate (l : Loc) (s : State) : Prop := l = .worker .left → s.mainLoop = false

section Steps

variable {s : State} {a : Act} {e : Effect Cond Loc State} {t : Who} {l : Loc}

/-- What a step that concerns no connection leaves as it is. -/
structure Same (s u : State) : Prop where
  conns : u.conns = s.conns
  accepted : u.accepted = s.accepted
  closed : u.closed = s.closed

structure Accepted (fd : Fd) (s u : State) : Prop where
  unused : Unused fd s
  conns : u.conns = Function.update s.conns fd (some s.accepted)
  accepted : u.accepted = s.accepted + 1
  closed : u.closed = s.closed

structure Closed (fd : Fd) (conn : Option Conn) (s u : State) : Prop where
  conns : u.conns = Function.update s.conns fd none
  accepted : u.accepted = s.accepted
  closed : u.closed = conn :: s.closed

/-- The descriptor that a worker has taken and not finished with, with the connection of its
event. -/
def WorkerLoc.handles : WorkerLoc → Option (Fd × Option Conn)
  | .recv fd conn _ | .send fd conn _ | .del fd conn _ | .close fd conn _ => some (fd, conn)
  | .take | .left => none

theorem mainLoop_cases {l : MainLoc} (h : mainLoop l a s = some e) :
    (∃ l', e.next.loc = .main l') ∧ e.shared.mainLoop = s.mainLoop ∧ Same s e.shared := by
  cases l with
  | loop | push fd conn events | notify events =>
    cases a with
    | next =>
      obtain rfl := Option.some.inj h
      exact ⟨⟨_, rfl⟩, rfl, rfl, rfl, rfl⟩
    | _ => cases h
  | wait =>
    cases a with
    | next =>
      obtain rfl := Option.some.inj h
      exact ⟨⟨_, rfl⟩, rfl, rfl, rfl, rfl⟩
    | events fds =>
      obtain ⟨-, heq⟩ := Option.ite_none_right_eq_some.mp h
      obtain rfl := Option.some.inj heq
      exact ⟨⟨_, rfl⟩, rfl, rfl, rfl, rfl⟩
    | _ => cases h
  | dispatch events =>
    cases a with
    | next =>
      cases events with
      | nil =>
        obtain rfl := Option.some.inj h
        exact ⟨⟨_, rfl⟩, rfl, rfl, rfl, rfl⟩
      | cons event events =>
        simp only [mainLoop] at h
        split at h
        · obtain rfl := Option.some.inj h
          exact ⟨⟨_, rfl⟩, rfl, rfl, rfl, rfl⟩
        · obtain rfl := Option.some.inj h
          exact ⟨⟨_, rfl⟩, rfl, rfl, rfl, rfl⟩
    | _ => cases events <;> cases h
  | left => cases a <;> cases h

theorem acceptThread_cases {l : AcceptLoc} (h : acceptThread l a s = some e) :
    (∃ l', e.next.loc = .accept l') ∧ e.shared.mainLoop = s.mainLoop ∧
      (Same s e.shared ∨ ∃ fd, Accepted fd s e.shared) := by
  cases l with
  | wait | test =>
    cases a with
    | next =>
      obtain rfl := Option.some.inj h
      exact ⟨⟨_, rfl⟩, rfl, Or.inl ⟨rfl, rfl, rfl⟩⟩
    | _ => cases h
  | accept =>
    cases a with
    | accepted fd =>
      cases fd with
      | none =>
        obtain rfl := Option.some.inj h
        exact ⟨⟨_, rfl⟩, rfl, Or.inl ⟨rfl, rfl, rfl⟩⟩
      | some fd =>
        obtain ⟨hunused, heq⟩ := Option.ite_none_right_eq_some.mp h
        obtain rfl := Option.some.inj heq
        exact ⟨⟨_, rfl⟩, rfl, Or.inr ⟨fd, hunused, rfl, rfl, rfl⟩⟩
    | _ => cases h
  | fcntl fd =>
    cases a with
    | succeeds ok =>
      obtain rfl := Option.some.inj h
      exact ⟨⟨_, rfl⟩, rfl, Or.inl ⟨rfl, rfl, rfl⟩⟩
    | _ => cases h
  | add fd =>
    cases a with
    | succeeds ok =>
      cases ok with
      | false =>
        obtain rfl := Option.some.inj h
        exact ⟨⟨_, rfl⟩, rfl, Or.inl ⟨rfl, rfl, rfl⟩⟩
      | true =>
        obtain ⟨-, heq⟩ := Option.ite_none_left_eq_some.mp h
        obtain rfl := Option.some.inj heq
        exact ⟨⟨_, rfl⟩, rfl, Or.inl ⟨rfl, rfl, rfl⟩⟩
    | _ => cases h
  | left => cases a <;> cases h

theorem received_handles (fd : Fd) (conn : Option Conn) (msg : List UInt8) (r : RecvResult) :
    (received fd conn msg r).handles = some (fd, conn) ∧ received fd conn msg r ≠ .left := by
  cases r <;> exact ⟨rfl, nofun⟩

/-- What a worker does to the connections. -/
inductive Turn (s : State) (l : WorkerLoc) (u : State) (l' : WorkerLoc) : Prop where
  | keeps (same : Same s u) (handles : l'.handles = none ∨ l'.handles = l.handles)
  | takes (fd : Fd) (conn : Option Conn) (rest : List (Fd × Option Conn)) (here : l = .take)
      (list : s.clientsList = (fd, conn) :: rest) (same : Same s u)
      (handles : l'.handles = some (fd, conn))
  | closes (fd : Fd) (conn : Option Conn) (leaving : Bool) (here : l = .close fd conn leaving)
      (closed : Closed fd conn s u) (handles : l'.handles = none)

structure Worked (s : State) (l : WorkerLoc) (u : State) (l' : WorkerLoc) : Prop where
  mainLoop : u.mainLoop = s.mainLoop
  turn : Turn s l u l'
  leaves : l' = .left → s.mainLoop = false ∨ ∃ fd conn, l = .close fd conn true

theorem workerThread_cases {l : WorkerLoc} (h : workerThread l a s = some e) :
    ∃ l', e.next.loc = .worker l' ∧ Worked s l e.shared l' := by
  cases l with
  | take =>
    cases a with
    | next =>
      simp only [workerThread] at h
      split at h
      · split at h
        · next hloop =>
          obtain rfl := Option.some.inj h
          refine ⟨_, rfl, rfl, .keeps ⟨rfl, rfl, rfl⟩ (Or.inl rfl), ?_⟩
          exact fun _ => Or.inl (by simpa using hloop)
        · obtain rfl := Option.some.inj h
          exact ⟨_, rfl, rfl, .keeps ⟨rfl, rfl, rfl⟩ (Or.inl rfl), nofun⟩
      · next fd conn rest hlist =>
        obtain rfl := Option.some.inj h
        exact ⟨_, rfl, rfl, .takes fd conn rest rfl hlist ⟨rfl, rfl, rfl⟩ rfl, nofun⟩
    | _ => cases h
  | recv fd conn msg =>
    cases a with
    | received r =>
      obtain ⟨-, heq⟩ := Option.ite_none_right_eq_some.mp h
      obtain rfl := Option.some.inj heq
      obtain ⟨hhandles, hstays⟩ := received_handles fd conn msg r
      refine ⟨_, rfl, rfl, .keeps ⟨rfl, rfl, rfl⟩ (Or.inr hhandles), ?_⟩
      exact fun hleft => absurd hleft hstays
    | _ => cases h
  | send fd conn msg =>
    cases a with
    | sent r =>
      obtain ⟨-, heq⟩ := Option.ite_none_right_eq_some.mp h
      cases r with
      | sent | wouldBlock =>
        obtain rfl := Option.some.inj heq
        exact ⟨_, rfl, rfl, .keeps ⟨rfl, rfl, rfl⟩ (Or.inl rfl), nofun⟩
      | error =>
        obtain rfl := Option.some.inj heq
        exact ⟨_, rfl, rfl, .keeps ⟨rfl, rfl, rfl⟩ (Or.inr rfl), nofun⟩
    | _ => cases h
  | del fd conn leaving =>
    cases a with
    | next =>
      obtain rfl := Option.some.inj h
      exact ⟨_, rfl, rfl, .keeps ⟨rfl, rfl, rfl⟩ (Or.inr rfl), nofun⟩
    | _ => cases h
  | close fd conn leaving =>
    cases a with
    | next =>
      obtain rfl := Option.some.inj h
      cases leaving with
      | false => exact ⟨_, rfl, rfl, .closes fd conn false rfl ⟨rfl, rfl, rfl⟩ rfl, nofun⟩
      | true =>
        refine ⟨_, rfl, rfl, .closes fd conn true rfl ⟨rfl, rfl, rfl⟩ rfl, ?_⟩
        exact fun _ => Or.inr ⟨fd, conn, rfl⟩
    | _ => cases h
  | left => cases a <;> cases h

theorem stop_cases {l : StopLoc} (h : stop l a s = some e) :
    (∃ l', e.next.loc = .stop l') ∧ (s.mainLoop = false → e.shared.mainLoop = false) ∧
      Same s e.shared := by
  cases l with
  | call | notifyAccept | notifyWorkers =>
    cases a with
    | next =>
      obtain rfl := Option.some.inj h
      exact ⟨⟨_, rfl⟩, id, rfl, rfl, rfl⟩
    | _ => cases h
  | clear =>
    cases a with
    | next =>
      obtain rfl := Option.some.inj h
      exact ⟨⟨_, rfl⟩, fun _ => rfl, rfl, rfl, rfl⟩
    | _ => cases h
  | join => cases a <;> cases h

/-- A step of a thread in its own function, and what it does to `main_loop_`. -/
theorem step_home (hl : Home t l) (h : step t l a s = some e) :
    Home t e.next.loc ∧ (s.mainLoop = false → e.shared.mainLoop = false) := by
  cases l with
  | main l =>
    obtain ⟨⟨l', hl'⟩, hloop, -⟩ := mainLoop_cases h
    rw [hl', hloop]
    exact ⟨by cases t <;> exact hl, id⟩
  | accept l =>
    obtain ⟨⟨l', hl'⟩, hloop, -⟩ := acceptThread_cases h
    rw [hl', hloop]
    exact ⟨by cases t <;> exact hl, id⟩
  | worker l =>
    obtain ⟨l', hl', hworked⟩ := workerThread_cases h
    rw [hl', hworked.mainLoop]
    exact ⟨by cases t <;> exact hl, id⟩
  | stop l =>
    obtain ⟨⟨l', hl'⟩, hloop, -⟩ := stop_cases h
    rw [hl']
    exact ⟨by cases t <;> exact hl, hloop⟩

theorem step_leftLate (hok : SendServed t l s) (h : step t l a s = some e) :
    LeftLate e.next.loc s := by
  intro hleft
  cases l with
  | main l =>
    obtain ⟨⟨l', hl'⟩, -⟩ := mainLoop_cases h
    rw [hl'] at hleft
    cases hleft
  | accept l =>
    obtain ⟨⟨l', hl'⟩, -⟩ := acceptThread_cases h
    rw [hl'] at hleft
    cases hleft
  | worker l =>
    obtain ⟨l', hl', hworked⟩ := workerThread_cases h
    rw [hl'] at hleft
    rcases hworked.leaves (Loc.worker.inj hleft) with hloop | ⟨fd, conn, rfl⟩
    · exact hloop
    · exact hok
  | stop l =>
    obtain ⟨⟨l', hl'⟩, -⟩ := stop_cases h
    rw [hl'] at hleft
    cases hleft

def Stays (t : Who) (l : Loc) (s : State) : Prop := Home t l ∧ LeftLate l s

theorem outline : Outline program SendServed (fun _ => True) Stays where
  shared _ _ _ _ _ _ _ _ _ := trivial
  thread t l a s e hok _ hl h := by
    obtain ⟨hhome, hloop⟩ := step_home hl.1 h
    exact ⟨hhome, fun hleft => hloop (step_leftLate hok h hleft)⟩
  others t l a s e _ _ hl h v l' _ hl' := by
    obtain ⟨-, hloop⟩ := step_home hl.1 h
    exact ⟨hl'.1, fun hleft => hloop (hl'.2 hleft)⟩

end Steps

section Runs

variable {c u : Config Who Cond Loc State} {b : Move Who Act} {listenFd epollFd : Fd} {stop : Bool}

theorem holds_init : Holds (fun _ => True) Stays (init listenFd epollFd stop) := by
  refine ⟨trivial, ?_⟩
  intro t
  cases t <;> exact ⟨trivial, nofun⟩

theorem holds_staffed (h : Holds (fun _ => True) Stays c) : Staffed c := by
  intro hloop i hleft
  have hlate := (h.2 (.workerThread i)).2 hleft
  rw [hloop] at hlate
  cases hlate

/-- The `break` after `closeClient` is that of the loop of the worker. -/
theorem unserved_leaves (h : Holds (fun _ => True) Stays c) (hno : ¬ Allows SendServed c b)
    (hact : program.act c b = some u) : ¬ Staffed u := by
  cases b with
  | wake t => exact absurd trivial hno
  | run t a pick =>
    obtain ⟨l, e, he, hran⟩ := Threads.act_ran hact
    have hcall : ¬ SendServed t (c.loc t) c.shared := hno
    have hhome := (h.2 t).1
    rw [hran.loc_here] at hcall hhome
    intro hstaffed
    cases l with
    | worker l =>
      cases t with
      | workerThread i =>
        cases l with
        | close fd conn leaving =>
          cases leaving with
          | true =>
            cases a with
            | next =>
              obtain rfl := Option.some.inj he
              apply hstaffed _ i
              · rw [hran.loc_self]
                rfl
              · rw [hran.shared]
                exact Bool.eq_true_of_not_eq_false hcall
            | _ => cases he
          | false => exact hcall trivial
        | _ => exact hcall trivial
      | _ => exact hhome
    | _ => exact hcall trivial

theorem run_staffed_iff (acts : List (Move Who Act))
    (hrun : exec program.act acts (init listenFd epollFd stop) = some c) :
    Always program.act Staffed acts (init listenFd epollFd stop) ↔
      Meets program.act (Allows SendServed) acts (init listenFd epollFd stop) :=
  always_iff_meets (fun _ _ _ hs hok hact => outline.act hs hok hact) (fun _ => holds_staffed)
    (fun _ _ _ hs hno hact => unserved_leaves hs hno hact) holds_init hrun

/-- A client connects, sends two bytes and gets its reply. -/
theorem run_staffed_iff_reply : ∃ c, exec program.act
    [.run .acceptThread .next none, .run .mainLoop .next none, .run .mainLoop (.events [3]) none,
      .run .mainLoop .next (some .acceptThread), .run .acceptThread .next none,
      .run .acceptThread (.accepted (some 5)) none, .run .acceptThread (.succeeds true) none,
      .run .acceptThread (.succeeds true) none, .run .mainLoop .next none,
      .run .mainLoop .next none, .run .mainLoop (.events [5]) none, .run .mainLoop .next none,
      .run .mainLoop .next none, .run .mainLoop .next none, .run (.workerThread 0) .next none,
      .run (.workerThread 0) (.received (.data [104, 105] [])) none,
      .run (.workerThread 0) (.received .wouldBlock) none,
      .run (.workerThread 0) (.sent .sent) none]
    (init 3 4 true) = some c ∧
    Always program.act Staffed
      [.run .acceptThread .next none, .run .mainLoop .next none,
        .run .mainLoop (.events [3]) none, .run .mainLoop .next (some .acceptThread),
        .run .acceptThread .next none, .run .acceptThread (.accepted (some 5)) none,
        .run .acceptThread (.succeeds true) none, .run .acceptThread (.succeeds true) none,
        .run .mainLoop .next none, .run .mainLoop .next none, .run .mainLoop (.events [5]) none,
        .run .mainLoop .next none, .run .mainLoop .next none, .run .mainLoop .next none,
        .run (.workerThread 0) .next none,
        .run (.workerThread 0) (.received (.data [104, 105] [])) none,
        .run (.workerThread 0) (.received .wouldBlock) none,
        .run (.workerThread 0) (.sent .sent) none]
      (init 3 4 true) :=
  exists_exec (by decide +kernel) fun _ hrun => (run_staffed_iff _ hrun).mpr (by decide +kernel)

/-- The client resets the connection before the reply. -/
theorem run_unstaffed : ∃ c, exec program.act
    [.run .acceptThread .next none, .run .mainLoop .next none, .run .mainLoop (.events [3]) none,
      .run .mainLoop .next (some .acceptThread), .run .acceptThread .next none,
      .run .acceptThread (.accepted (some 5)) none, .run .acceptThread (.succeeds true) none,
      .run .acceptThread (.succeeds true) none, .run .mainLoop .next none,
      .run .mainLoop .next none, .run .mainLoop (.events [5]) none, .run .mainLoop .next none,
      .run .mainLoop .next none, .run .mainLoop .next none, .run (.workerThread 0) .next none,
      .run (.workerThread 0) (.received .wouldBlock) none,
      .run (.workerThread 0) (.sent .error) none, .run (.workerThread 0) .next none,
      .run (.workerThread 0) .next none]
    (init 3 4 true) = some c ∧ ¬ Staffed c :=
  ⟨_, rfl, fun h => h rfl 0 rfl⟩

end Runs

end LanguageTest.ReactorServer
