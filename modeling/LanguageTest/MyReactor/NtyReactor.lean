import LanguageTest.Library.Descriptors
import LanguageTest.Library.Transition
import Mathlib.Data.List.Nodup

namespace LanguageTest.NtyReactor
open Transition Descriptors

abbrev maxEpollEvents : Nat := 1024
abbrev maxBufferSize : Nat := 4096

/-- The types of events: an event is for one of the two. -/
inductive Mask where
  | epollIn
  | epollOut
  deriving DecidableEq

inductive Callback where
  | accept
  | recv
  | send
  deriving DecidableEq

structure NtyEvent where
  fd : Fd
  events : Mask
  callback : Callback
  status : Nat
  buffer : List UInt8
  length : Nat
  deriving DecidableEq

/-- What epoll reports of a descriptor, errors apart. -/
structure Ready where
  fd : Fd
  epollIn : Bool
  epollOut : Bool

/-- In `ntyreactor_run`: at `epoll_wait`, and before the two tests for an event. -/
inductive Loc where
  | wait
  | first
  | second
  | left
  deriving DecidableEq

/-- The reactor, the kernel, and the events still to be handled. A write beyond an array is noted in
`outside`. -/
structure State where
  events : Fd → NtyEvent
  kernel : Kernel Mask
  active : List Ready
  loc : Loc
  outside : Bool

/-- The standard streams, the listening socket and the descriptor of epoll. -/
def own : List Fd := [0, 1, 2, 3, 4]

abbrev sockFd : Fd := 3

inductive RecvResult where
  | data (bytes : List UInt8)
  | closed
  | error

inductive SendResult where
  | sent (n : Nat)
  | error

/-- What the kernel answers. After the answer to the first call of a callback comes whether
`EPOLL_CTL_ADD` succeeds, if it is called. -/
inductive Act where
  | next
  | events (ready : List Ready)
  | accepted (cliFd : Option Fd) (add : Bool)
  | received (r : RecvResult) (add : Bool)
  | sent (r : SendResult) (add : Bool)
  | fails

def State.setEvent (s : State) (i : Fd) (ev : NtyEvent) : State :=
  if i < maxEpollEvents then { s with events := Function.update s.events i ev }
  else { s with outside := true }

def ntyEventSet (s : State) (i fd : Fd) (event : Mask) (length status : Nat)
    (callback : Callback) : State :=
  s.setEvent i { s.events i with fd, events := event, callback, status, length }

/-- A descriptor is open for a client or for the process itself. -/
def Open (k : Kernel Mask) (fd : Fd) : Prop := k.conns fd ≠ none ∨ fd ∈ own

instance (k : Kernel Mask) (fd : Fd) : Decidable (Open k fd) := inferInstanceAs (Decidable (_ ∨ _))

/-- `EPOLL_CTL_ADD` fails for what is watched already, `EPOLL_CTL_MOD` for what is not. -/
def ntyEventAdd (s : State) (i : Fd) (add : Bool) : State :=
  let ev := s.events i
  if ev.status = 0 then
    let s := s.setEvent i { ev with status := 1 }
    if add ∧ Open s.kernel ev.fd ∧ s.kernel.watched ev.fd = none then
      { s with kernel := s.kernel.watch ev.fd ev.events }
    else s
  else if s.kernel.watched ev.fd = none then s
  else { s with kernel := s.kernel.watch ev.fd ev.events }

def ntyEventDel (s : State) (i : Fd) : State :=
  let ev := s.events i
  if ev.status ≠ 1 then s
  else { s.setEvent i { ev with status := 0 } with kernel := s.kernel.unwatch ev.fd }

def State.close (s : State) (fd : Fd) : State := { s with kernel := s.kernel.close fd }

/-- The search for a free place. -/
def full (s : State) : Bool :=
  (List.range' 5 (maxEpollEvents - 5)).all fun i => decide ((s.events i).status ≠ 0)

/-- The kernel gives the lowest number that is not in use. -/
def Lowest (k : Kernel Mask) (fd : Fd) : Prop := ¬ Open k fd ∧ ∀ f < fd, Open k f

instance (k : Kernel Mask) (fd : Fd) : Decidable (Lowest k fd) :=
  inferInstanceAs (Decidable (_ ∧ _))

/-- What `accept_callback` does with the new socket, which it does not close when it gives up. The
call of `fcntl` can only fail on a descriptor that is not open. -/
def accepted (cliFd : Fd) (add : Bool) (s : State) : State :=
  if full s then s
  else if ¬ Open s.kernel cliFd then s
  else ntyEventAdd (ntyEventSet s cliFd cliFd .epollIn 0 0 .recv) cliFd add

def acceptCallback (a : Act) (s : State) : Option State :=
  match a with
  | .accepted none _ => some s
  | .accepted (some cliFd) add =>
    if Lowest s.kernel cliFd then
      some (accepted cliFd add { s with kernel := s.kernel.accept cliFd })
    else none
  | _ => none

/-- The bytes that `recv` wrote, and the zero behind them. -/
def State.fill (s : State) (i : Fd) (bytes : List UInt8) : State :=
  let s := s.setEvent i { s.events i with
    buffer := bytes ++ (0 :: (s.events i).buffer.drop (bytes.length + 1)) }
  if bytes.length < maxBufferSize then s else { s with outside := true }

def recvCallback (fd : Fd) (a : Act) (s : State) : Option State :=
  let s := ntyEventDel s fd
  let ev := s.events fd
  match a, s.kernel.conns ev.fd with
  | .received .error _, _ | .received .closed _, some _ => some (s.close ev.fd)
  | .received (.data bytes) add, some c =>
    if bytes ≠ [] ∧ bytes.length ≤ maxBufferSize then
      let s := { s with kernel := s.kernel.receive c bytes }.fill fd bytes
      some (ntyEventAdd (ntyEventSet s fd ev.fd .epollOut bytes.length 0 .send) fd add)
    else none
  | _, _ => none

def sendCallback (fd : Fd) (a : Act) (s : State) : Option State :=
  let ev := s.events fd
  match a, s.kernel.conns ev.fd with
  | .sent (.sent n) add, some c =>
    if n ≤ ev.length then
      if 0 < n then
        let s := { s with kernel := s.kernel.send c ((ev.buffer.take ev.length).take n) }
        let s := ntyEventDel s fd
        some (ntyEventAdd (ntyEventSet s fd ev.fd .epollIn 0 0 .recv) fd add)
      else some (ntyEventDel (s.close ev.fd) fd)
    else none
  | .sent .error _, _ => some (ntyEventDel (s.close ev.fd) fd)
  | _, _ => none

/-- `ev->callback(ev->fd, ev->events, ev->arg)` -/
def callback (i : Fd) (a : Act) (s : State) : Option State :=
  match (s.events i).callback with
  | .accept => acceptCallback a s
  | .recv => recvCallback (s.events i).fd a s
  | .send => sendCallback (s.events i).fd a s

/-- Epoll reports only what it watches for. -/
def Reported (k : Kernel Mask) (r : Ready) : Prop :=
  k.watched r.fd ≠ none ∧ (r.epollIn = true → k.watched r.fd = some .epollIn) ∧
    (r.epollOut = true → k.watched r.fd = some .epollOut)

instance (k : Kernel Mask) (r : Ready) : Decidable (Reported k r) :=
  inferInstanceAs (Decidable (_ ∧ _))

def State.goto (s : State) (l : Loc) : State := { s with loc := l }

/-- One of the two tests for an event, with the callback where it succeeds. -/
def test (now : Bool) (r : Ready) (a : Act) (s : State) : Option State :=
  if now then callback r.fd a s else match a with
    | .next => some s
    | _ => none

/-- The places of the table that the next test looks at: the event for which epoll reported what it
tests for, and the one that its callback takes. -/
def State.reads (s : State) : List Fd :=
  match s.loc, s.active with
  | .first, r :: _ => if r.epollIn then [r.fd, (s.events r.fd).fd] else []
  | .second, r :: _ => if r.epollOut then [r.fd, (s.events r.fd).fd] else []
  | _, _ => []

/-- One step of `ntyreactor_run`. -/
def step (s : State) (a : Act) : Option State :=
  match s.loc, s.active, a with
  | .wait, _, .events ready =>
    if ready.length ≤ maxEpollEvents ∧ (ready.map Ready.fd).Nodup ∧
        ∀ r ∈ ready, Reported s.kernel r then
      some ({ s with active := ready }.goto .first)
    else none
  | .wait, _, .fails => some (s.goto .left)
  | .first, [], .next => some (s.goto .wait)
  | .first, r :: _, a =>
    (test (r.epollIn && decide ((s.events r.fd).events = .epollIn)) r a s).map fun s =>
      s.goto .second
  | .second, r :: rest, a =>
    (test (r.epollOut && decide ((s.events r.fd).events = .epollOut)) r a s).map fun s =>
      { s with active := rest }.goto .first
  | _, _, _ => none

/-- The reactor with its listening socket. Nothing is known of the events in the memory that
`malloc` gave. -/
def init (memory : Fd → NtyEvent) : State :=
  ntyEventAdd (ntyEventSet ⟨memory, Kernel.empty, [], .wait, false⟩ sockFd sockFd .epollIn 0 0
    .accept) sockFd true

end LanguageTest.NtyReactor
