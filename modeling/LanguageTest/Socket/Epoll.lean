import LanguageTest.Library.Descriptors
import LanguageTest.Library.Transition
import Mathlib.Data.List.Nodup

namespace LanguageTest.Epoll
open Transition Descriptors

/-- What a client is watched for: `EPOLLIN`, or `EPOLLIN | EPOLLOUT`. -/
inductive Interest where
  | epollIn
  | epollInOut
  deriving DecidableEq

/-- The events of a ready descriptor. Of `EPOLLHUP` alone the server knows nothing. -/
structure Events where
  epollIn : Bool
  epollOut : Bool
  epollErr : Bool

structure Con where
  readed : List UInt8
  written : Nat
  writeEnabled : Bool
  deriving DecidableEq

/-- The constructor. -/
def Con.new : Con := ⟨[], 0, false⟩

/-- Who called `sendRes`. -/
inductive Caller where
  | handleRead
  | handleWrite

/-- The call of the kernel that comes next, or `next` before an event of `loop_once`. -/
inductive Loc where
  | wait
  | next
  | accept
  | getpeername (cfd : Fd)
  | setNonBlock (cfd : Fd)
  | add (cfd : Fd)
  | read (fd : Fd)
  | write (fd : Fd) (left : Nat) (caller : Caller)
  | modIn (fd : Fd) (caller : Caller)
  | modInOut (fd : Fd) (caller : Caller)
  | exited

/-- The globals with the listening socket, the kernel, and the events still to be handled. The
descriptors of the process that are no clients are in `own`. -/
structure State where
  lfd : Fd
  own : List Fd
  httpRes : List UInt8
  cons : Fd → Option Con
  kernel : Kernel Interest
  active : List (Fd × Events)
  loc : Loc

inductive ReadResult where
  | data (bytes : List UInt8)
  | eof
  | wouldBlock
  | error

inductive WriteResult where
  | wrote (n : Nat)
  | wouldBlock
  | error

/-- What the kernel answers. -/
inductive Act where
  | next
  | events (evs : List (Fd × Events))
  | accepted (cfd : Option Fd)
  | succeeds (ok : Bool)
  | received (r : ReadResult)
  | wrote (r : WriteResult)

abbrev kMaxEvents : Nat := 20
abbrev bufSize : Nat := 4096

/-- `cons[fd]`, which is created when it is missing. -/
def State.con (s : State) (fd : Fd) : Con := (s.cons fd).getD Con.new

def State.setCon (s : State) (fd : Fd) (con : Con) : State :=
  { s with cons := Function.update s.cons fd (some con) }

/-- `cons.erase(fd)` -/
def State.erase (s : State) (fd : Fd) : State :=
  { s with cons := Function.update s.cons fd none }

def State.close (s : State) (fd : Fd) : State := { s with kernel := s.kernel.close fd }

def State.goto (s : State) (l : Loc) : State := { s with loc := l }

/-- Where the caller of `sendRes` goes on. -/
def Caller.back (fd : Fd) : Caller → Loc
  | .handleRead => .read fd
  | .handleWrite => .next

/-- The start of `sendRes`, before its loop. -/
def sendRes (fd : Fd) (caller : Caller) (s : State) : State :=
  (s.setCon fd (s.con fd)).goto (.write fd (s.httpRes.length - (s.con fd).written) caller)

/-- The text read so far ends a request. -/
def requested (readed : List UInt8) : Bool :=
  decide (readed.length > 4) &&
    (decide (readed.drop (readed.length - 2) = [10, 10]) ||
      decide (readed.drop (readed.length - 4) = [13, 10, 13, 10]))

/-- One turn of the loop of `handleRead`. -/
def handleRead (fd : Fd) (r : ReadResult) (s : State) : Option State :=
  match r, s.kernel.conns fd with
  | .data bytes, some c =>
    if bytes ≠ [] ∧ bytes.length ≤ bufSize then
      let con := { s.con fd with readed := (s.con fd).readed ++ bytes }
      let s := { s with kernel := s.kernel.receive c bytes }.setCon fd con
      some (if requested con.readed then sendRes fd .handleRead s else s.goto (.read fd))
    else none
  | .wouldBlock, some _ => some (s.goto .next)
  | .eof, some _ => some (((s.close fd).erase fd).goto .next)
  -- also the answer for a descriptor that `sendRes` has closed
  | .error, _ => some (((s.close fd).erase fd).goto .next)
  | _, _ => none

/-- What `sendRes` does after its loop. -/
def stopped (fd : Fd) (left : Nat) (wouldBlock : Bool) (caller : Caller) (s : State) : State :=
  if left = 0 then
    if (s.con fd).writeEnabled then s.goto (.modIn fd caller)
    else (s.erase fd).goto (caller.back fd)
  else if wouldBlock then
    if !(s.con fd).writeEnabled then s.goto (.modInOut fd caller) else s.goto (caller.back fd)
  else ((s.close fd).erase fd).goto (caller.back fd)

/-- One turn of the loop of `sendRes`. The kernel takes any number of the bytes. -/
def wrote (fd : Fd) (left : Nat) (caller : Caller) (r : WriteResult) (s : State) : Option State :=
  match r, s.kernel.conns fd with
  | .wrote n, some c =>
    if n ≤ left then
      if n = 0 then some (stopped fd left false caller s)
      else
        let con := s.con fd
        some (({ s with
          kernel := s.kernel.send c ((s.httpRes.drop con.written).take n) }.setCon fd
            { con with written := con.written + n }).goto (.write fd (left - n) caller))
    else none
  | .wouldBlock, some _ => some (stopped fd left true caller s)
  | .error, _ => some (stopped fd left false caller s)
  | _, _ => none

/-- `updateEvents` with `EPOLL_CTL_MOD`, which cannot succeed for what is not watched. -/
def modified (fd : Fd) (interest : Interest) (s : State) : Option State :=
  if s.kernel.watched fd = none then none
  else some { s with kernel := s.kernel.watch fd interest }

/-- Epoll reports what a descriptor is watched for, and errors. -/
def Reported (s : State) (e : Fd × Events) : Prop :=
  e.1 = s.lfd ∧ e.2.epollOut = false ∨
    s.kernel.watched e.1 = some .epollInOut ∨
      s.kernel.watched e.1 = some .epollIn ∧ e.2.epollOut = false

instance (s : State) (e : Fd × Events) : Decidable (Reported s e) :=
  inferInstanceAs (Decidable (_ ∨ _))

/-- The body of the loop over the events. -/
def loopOnce (s : State) : State :=
  match s.active with
  | [] => s.goto .wait
  | (fd, events) :: rest =>
    let s := { s with active := rest }
    if events.epollIn || events.epollErr then
      if fd = s.lfd then s.goto .accept else s.goto (.read fd)
    else if events.epollOut then sendRes fd .handleWrite s
    else s.goto .exited

/-- A number that the kernel can give to a new connection. -/
def Unused (s : State) (cfd : Fd) : Prop := s.kernel.conns cfd = none ∧ cfd ∉ s.own

instance (s : State) (cfd : Fd) : Decidable (Unused s cfd) := inferInstanceAs (Decidable (_ ∧ _))

def step (s : State) (a : Act) : Option State :=
  match s.loc, a with
  -- no events after a timeout or an error
  | .wait, .events evs =>
    if evs.length ≤ kMaxEvents ∧ (evs.map Prod.fst).Nodup ∧ ∀ e ∈ evs, Reported s e then
      some ({ s with active := evs }.goto .next)
    else none
  | .next, .next => some (loopOnce s)
  | .accept, .accepted none => some (s.goto .exited)
  | .accept, .accepted (some cfd) =>
    if Unused s cfd then
      some ({ s with kernel := s.kernel.accept cfd }.goto (.getpeername cfd))
    else none
  | .getpeername cfd, .succeeds ok => some (s.goto (if ok then .setNonBlock cfd else .exited))
  | .setNonBlock cfd, .succeeds ok => some (s.goto (if ok then .add cfd else .exited))
  | .add cfd, .succeeds true =>
    some ({ s with kernel := s.kernel.watch cfd .epollIn }.goto .next)
  | .read fd, .received r => handleRead fd r s
  | .write fd left caller, .wrote r => wrote fd left caller r s
  | .modIn fd caller, .succeeds true =>
    (modified fd .epollIn s).map fun s =>
      ((s.setCon fd { s.con fd with writeEnabled := false }).erase fd).goto (caller.back fd)
  | .modInOut fd caller, .succeeds true =>
    (modified fd .epollInOut s).map fun s =>
      (s.setCon fd { s.con fd with writeEnabled := true }).goto (caller.back fd)
  | .add _, .succeeds false | .modIn _ _, .succeeds false | .modInOut _ _, .succeeds false =>
    some (s.goto .exited)
  | _, _ => none

/-- When the listening socket is watched, before the loop in `main`. -/
def init (lfd : Fd) (own : List Fd) (httpRes : List UInt8) : State :=
  ⟨lfd, own, httpRes, fun _ => none, Kernel.empty, [], .wait⟩

end LanguageTest.Epoll
