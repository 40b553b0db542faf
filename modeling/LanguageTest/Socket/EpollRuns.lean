import LanguageTest.Socket.Epoll

namespace LanguageTest.Epoll
open Transition Descriptors

/-- What has been sent for what has been received: `m` whole responses, and `con.written` bytes of
the next. No more were begun than requests have come in. -/
structure Answering (httpRes received sent : List UInt8) (con : Con) (m due : Nat) : Prop where
  stream : Repeats httpRes sent m con.written
  le : con.written ≤ httpRes.length
  suffix : con.readed <:+ received
  asked : m + due ≤ ends requested received

/-- The same for a connection that may be closed. -/
def Answered (httpRes received sent : List UInt8) : Prop :=
  ∃ m j, Repeats httpRes sent m j ∧ j ≤ httpRes.length ∧
    (m + if j = 0 then 0 else 1) ≤ ends requested received

def State.Answering (s : State) (fd : Fd) (c : Conn) (due : Nat) : Prop :=
  ∃ m, Epoll.Answering s.httpRes (s.kernel.received c) (s.kernel.sent c) (s.con fd) m due

def interest (con : Con) : Interest := if con.writeEnabled then .epollInOut else .epollIn

/-- A client between two calls of its handlers: it is watched for writing exactly while a response
is unfinished. -/
def Resting (s : State) (fd : Fd) (c : Conn) : Prop :=
  s.kernel.watched fd = some (interest (s.con fd)) ∧
    s.Answering fd c (if (s.con fd).writeEnabled then 1 else 0) ∧
    if (s.con fd).writeEnabled then (s.con fd).written < s.httpRes.length
    else (s.con fd).written = 0

/-- A client within `sendRes`. -/
def Responding (s : State) (fd : Fd) (c : Conn) : Prop :=
  s.kernel.conns fd = some c ∧ s.kernel.watched fd = some (interest (s.con fd)) ∧
    s.Answering fd c 1

/-- A client that is not watched yet. -/
def Joining (s : State) (fd : Fd) : Prop :=
  (∃ c, s.kernel.conns fd = some c ∧ s.kernel.sent c = []) ∧ s.cons fd = none

/-- The descriptor that the server is busy with. -/
def Loc.busy : Loc → Option Fd
  | .getpeername fd | .setNonBlock fd | .add fd | .read fd | .write fd _ _ | .modIn fd _ |
    .modInOut fd _ => some fd
  | .wait | .next | .accept | .exited => none

def Busy (s : State) : Prop :=
  match s.loc with
  | .getpeername fd | .setNonBlock fd | .add fd => Joining s fd
  | .read fd => ∀ c, s.kernel.conns fd = some c → Resting s fd c
  | .write fd left _ =>
    (∃ c, Responding s fd c) ∧ left + (s.con fd).written = s.httpRes.length
  | .modIn fd _ =>
    (∃ c, Responding s fd c) ∧ (s.con fd).written = s.httpRes.length ∧
      (s.con fd).writeEnabled = true
  | .modInOut fd _ =>
    (∃ c, Responding s fd c) ∧ (s.con fd).written < s.httpRes.length ∧
      (s.con fd).writeEnabled = false
  | .wait | .next | .accept | .exited => True

/-- What holds even when the process has exited. -/
structure Sane (httpRes : List UInt8) (s : State) : Prop where
  httpRes : s.httpRes = httpRes
  sound : s.kernel.Sound
  listens : s.lfd ∈ s.own
  own : ∀ fd ∈ s.own, s.kernel.conns fd = none
  clean : ∀ fd, s.kernel.conns fd = none → s.cons fd = none ∧ s.kernel.watched fd = none
  answered : ∀ c, Answered s.httpRes (s.kernel.received c) (s.kernel.sent c)

structure Running (s : State) : Prop where
  client : ∀ fd, s.loc.busy = some fd → fd ∉ s.own
  resting : ∀ fd c, s.loc.busy ≠ some fd → s.kernel.conns fd = some c → Resting s fd c
  busy : Busy s
  nodup : (s.active.map Prod.fst).Nodup
  reported : ∀ e ∈ s.active, Reported s e ∧ s.loc.busy ≠ some e.1

/-- A step that touches one descriptor and its connection at most. -/
structure Touches (fd : Fd) (s u : State) : Prop where
  lfd : u.lfd = s.lfd
  own : u.own = s.own
  httpRes : u.httpRes = s.httpRes
  cons : ∀ g, g ≠ fd → u.cons g = s.cons g
  kernel : Kernel.Local fd s.kernel u.kernel

section
variable {s u v : State} {fd g : Fd} {c : Conn} {con : Con} {m due : Nat} {l : Loc}
  {caller : Caller} {res received sent : List UInt8}

@[simp] theorem goto_con : (s.goto l).con fd = s.con fd := rfl
@[simp] theorem goto_cons : (s.goto l).cons = s.cons := rfl
@[simp] theorem goto_kernel : (s.goto l).kernel = s.kernel := rfl
@[simp] theorem goto_httpRes : (s.goto l).httpRes = s.httpRes := rfl
@[simp] theorem goto_loc : (s.goto l).loc = l := rfl
@[simp] theorem goto_active : (s.goto l).active = s.active := rfl
@[simp] theorem setCon_kernel : (s.setCon fd con).kernel = s.kernel := rfl
@[simp] theorem setCon_httpRes : (s.setCon fd con).httpRes = s.httpRes := rfl
@[simp] theorem erase_kernel : (s.erase fd).kernel = s.kernel := rfl
@[simp] theorem erase_httpRes : (s.erase fd).httpRes = s.httpRes := rfl

@[simp] theorem setCon_con : (s.setCon fd con).con fd = con := by
  simp [State.setCon, State.con]

@[simp] theorem erase_con : (s.erase fd).con fd = Con.new := by
  simp [State.erase, State.con]

theorem con_of_none (h : s.cons fd = none) : s.con fd = Con.new := by
  rw [State.con, h, Option.getD_none]

/-- A text that ends a request still does with what came before it. -/
theorem requested_of_suffix {readed received : List UInt8} (h : readed <:+ received)
    (hreq : requested readed = true) : requested received = true := by
  obtain ⟨before, rfl⟩ := h
  simp only [requested, Bool.and_eq_true, Bool.or_eq_true, decide_eq_true_eq] at hreq ⊢
  obtain ⟨hlength, hends⟩ := hreq
  have hdrop (n : Nat) (hn : n ≤ readed.length) :
      (before ++ readed).drop ((before ++ readed).length - n) =
        readed.drop (readed.length - n) := by
    have hsub : (before ++ readed).length - n = before.length + (readed.length - n) := by
      rw [List.length_append]
      omega
    rw [hsub, List.drop_length_add_append]
  refine ⟨by rw [List.length_append]; omega, ?_⟩
  rwa [hdrop 2 (by omega), hdrop 4 (by omega)]

theorem Answering.answered (h : Answering res received sent con m 1) :
    Answered res received sent := by
  refine ⟨m, con.written, h.stream, h.le, le_trans ?_ h.asked⟩
  split_ifs <;> omega

/-- A response that has been written counts as a whole one. -/
theorem Answering.finish (h : Answering res received sent con m 1)
    (hall : con.written = res.length) : Answering res received sent Con.new (m + 1) 0 where
  stream := (hall ▸ h.stream).whole
  le := Nat.zero_le _
  suffix := List.nil_suffix
  asked := h.asked

theorem Touches.refl (fd : Fd) : Touches fd s s := ⟨rfl, rfl, rfl, fun _ _ => rfl, .refl fd⟩

theorem Touches.goto (h : Touches fd s u) (l : Loc) : Touches fd s (u.goto l) :=
  ⟨h.lfd, h.own, h.httpRes, h.cons, h.kernel⟩

theorem Touches.setCon (h : Touches fd s u) (con : Con) : Touches fd s (u.setCon fd con) :=
  ⟨h.lfd, h.own, h.httpRes,
    fun g hg => (Function.update_of_ne hg ..).trans (h.cons g hg), h.kernel⟩

theorem Touches.erase (h : Touches fd s u) : Touches fd s (u.erase fd) :=
  ⟨h.lfd, h.own, h.httpRes,
    fun g hg => (Function.update_of_ne hg ..).trans (h.cons g hg), h.kernel⟩

theorem Touches.close (h : Touches fd s u) : Touches fd s (u.close fd) :=
  ⟨h.lfd, h.own, h.httpRes, h.cons, h.kernel.close⟩

/-- An operation of the kernel on the descriptor. -/
theorem Touches.with (h : Touches fd s u) {k : Kernel Interest}
    (hk : Kernel.Local fd s.kernel k) : Touches fd s { u with kernel := k } :=
  ⟨h.lfd, h.own, h.httpRes, h.cons, hk⟩

/-- The other clients notice nothing. -/
theorem Resting.touched (h : Resting s g c) (ht : Touches fd s u) (hs : s.kernel.Sound)
    (hg : g ≠ fd) (hc : s.kernel.conns g = some c) : Resting u g c := by
  have hcon : u.con g = s.con g := by rw [State.con, State.con, ht.cons g hg]
  obtain ⟨hrec, hsent⟩ := ht.kernel.streams_other hs hg hc
  obtain ⟨hwatched, hbytes⟩ := h
  refine ⟨by rw [ht.kernel.watched g hg, hcon]; exact hwatched, ?_⟩
  rw [State.Answering, hcon, ht.httpRes, hrec, hsent]
  exact hbytes

/-- A step keeps the state sane when it does so for what it touches. -/
theorem Sane.touched (h : Sane res s) (ht : Touches fd s u) (hu : u.kernel.Sound) (hfd : fd ∉ s.own)
    (hclean : u.kernel.conns fd = none → u.cons fd = none ∧ u.kernel.watched fd = none)
    (hans : ∀ c, s.kernel.conns fd = some c →
      Answered u.httpRes (u.kernel.received c) (u.kernel.sent c)) : Sane res u where
  httpRes := ht.httpRes.trans h.httpRes
  sound := hu
  listens := by rw [ht.lfd, ht.own]; exact h.listens
  own g hg := by
    rw [ht.own] at hg
    have hne : g ≠ fd := fun heq => hfd (heq ▸ hg)
    rw [ht.kernel.conns g hne]
    exact h.own g hg
  clean g hg := by
    by_cases hne : g = fd
    · subst hne
      exact hclean hg
    · rw [ht.kernel.conns g hne] at hg
      rw [ht.cons g hne, ht.kernel.watched g hne]
      exact h.clean g hg
  answered c := by
    by_cases hc : s.kernel.conns fd = some c
    · exact hans c hc
    · obtain ⟨hrec, hsent⟩ := ht.kernel.streams c hc
      rw [ht.httpRes, hrec, hsent]
      exact h.answered c

theorem Reported.touched {e : Fd × Events} (h : Reported s e) (ht : Touches fd s u)
    (he : e.1 ≠ fd) : Reported u e := by
  unfold Reported at h ⊢
  rwa [ht.lfd, ht.kernel.watched e.1 he]

/-- A step keeps the server running when it does so for what it touches. -/
theorem Running.touched (h : Running s) (hsane : Sane res s) (ht : Touches fd s u)
    (hown : fd ∉ s.own) (hbusy : ∀ g, s.loc.busy = some g → g = fd) (hactive : u.active = s.active)
    (hfree : ∀ e ∈ s.active, e.1 ≠ fd) (hloc : ∀ g, u.loc.busy = some g → g = fd)
    (hrest : u.loc.busy = none → ∀ c, u.kernel.conns fd = some c → Resting u fd c)
    (hu : Busy u) : Running u where
  client g hg := by
    rw [hloc g hg, ht.own]
    exact hown
  resting g c hg hc := by
    by_cases hne : g = fd
    · subst hne
      apply hrest _ c hc
      cases hl : u.loc.busy with
      | none => rfl
      | some f => exact absurd (hloc f hl ▸ hl) hg
    · rw [ht.kernel.conns g hne] at hc
      have hrest := h.resting g c (fun heq => hne (hbusy g heq)) hc
      exact hrest.touched ht hsane.sound hne hc
  busy := hu
  nodup := by rw [hactive]; exact h.nodup
  reported e he := by
    rw [hactive] at he
    exact ⟨(h.reported e he).1.touched ht (hfree e he), fun heq => hfree e he (hloc e.1 heq)⟩

theorem Sane.goto (h : Sane res s) (l : Loc) : Sane res (s.goto l) :=
  ⟨h.httpRes, h.sound, h.listens, h.own, h.clean, h.answered⟩

theorem Sane.open_fd (h : Sane res s) (hc : s.kernel.conns fd = some c) : fd ∉ s.own := by
  intro hfd
  rw [h.own fd hfd] at hc
  cases hc

/-- What a step does to the descriptor that the server is busy with, when it is still open. -/
theorem Sane.touched_open (h : Sane res s) (ht : Touches fd s u) (hu : u.kernel.Sound)
    (hs : s.kernel.conns fd = some c) (hopen : u.kernel.conns fd = some c)
    (hans : Answered u.httpRes (u.kernel.received c) (u.kernel.sent c)) : Sane res u := by
  apply h.touched ht hu (h.open_fd hs)
  · intro hnone
    rw [hopen] at hnone
    cases hnone
  · intro d hd
    rw [hs] at hd
    rwa [← Option.some.inj hd]

theorem Sane.closed (h : Sane res s) (hfd : fd ∉ s.own) : Sane res ((s.close fd).erase fd) := by
  apply h.touched ((Touches.refl fd).close.erase) (h.sound.close fd) hfd
  · exact fun _ => ⟨Function.update_self .., Function.update_self ..⟩
  · exact fun c _ => h.answered c

/-- A handler is done with its descriptor, or goes on to read it. -/
theorem Running.rested (h : Running s) (hsane : Sane res s) (hs : s.loc.busy = some fd)
    (ht : Touches fd s u) (hactive : u.active = s.active)
    (hrest : ∀ c, u.kernel.conns fd = some c → Resting u fd c)
    (hl : l = .next ∨ l = .read fd) : Running (u.goto l) := by
  apply h.touched hsane (ht.goto l)
  case hown => exact h.client fd hs
  case hbusy => exact fun g hg => Option.some.inj (hg.symm.trans hs)
  case hactive => exact hactive
  case hfree => exact fun e he heq => (h.reported e he).2 (heq ▸ hs)
  all_goals rcases hl with rfl | rfl
  case hloc.inl => exact nofun
  case hloc.inr => exact fun g hg => (Option.some.inj hg).symm
  case hrest.inl => exact fun _ => hrest
  case hrest.inr => exact nofun
  case hu.inl => trivial
  case hu.inr => exact hrest

/-- The server stays busy with its descriptor. -/
theorem Running.busied (h : Running s) (hsane : Sane res s) (hs : s.loc.busy = some fd)
    (ht : Touches fd s u) (hactive : u.active = s.active) (hu : u.loc.busy = some fd)
    (hbusy : Busy u) : Running u := by
  apply h.touched hsane ht
  case hown => exact h.client fd hs
  case hbusy => exact fun g hg => Option.some.inj (hg.symm.trans hs)
  case hactive => exact hactive
  case hfree => exact fun e he heq => (h.reported e he).2 (heq ▸ hs)
  case hloc => exact fun g hg => Option.some.inj (hg.symm.trans hu)
  case hrest =>
    intro hnone
    rw [hu] at hnone
    cases hnone
  case hu => exact hbusy

/-- The server takes up a client. -/
theorem Running.begun (h : Running s) (hsane : Sane res s) (hs : s.loc.busy = none)
    (ht : Touches fd s u) (hown : fd ∉ s.own) (hactive : u.active = s.active)
    (hfree : ∀ e ∈ s.active, e.1 ≠ fd) (hu : u.loc.busy = some fd) (hbusy : Busy u) :
    Running u := by
  apply h.touched hsane ht hown
  case hbusy => rw [hs]; exact nofun
  case hactive => exact hactive
  case hfree => exact hfree
  case hloc => exact fun g hg => Option.some.inj (hg.symm.trans hu)
  case hrest =>
    intro hnone
    rw [hu] at hnone
    cases hnone
  case hu => exact hbusy

/-- What epoll watches is open. -/
theorem Sane.watched_open (h : Sane res s) {i : Interest} (hi : s.kernel.watched fd = some i) :
    ∃ c, s.kernel.conns fd = some c := by
  apply Option.ne_none_iff_exists'.mp
  intro hc
  rw [(h.clean fd hc).2] at hi
  cases hi

theorem back_cases (fd : Fd) (caller : Caller) :
    caller.back fd = .next ∨ caller.back fd = .read fd := by
  cases caller
  · exact Or.inr rfl
  · exact Or.inl rfl

/-- The state of the server, which is running unless the process has exited. -/
def Good (httpRes : List UInt8) (s : State) : Prop := Sane httpRes s ∧ (s.loc ≠ .exited → Running s)

theorem stopped_good (hsane : Sane res s) (h : Running s) (hs : s.loc.busy = some fd) {left : Nat}
    (hresp : Responding s fd c) (hleft : left + (s.con fd).written = s.httpRes.length)
    (wouldBlock : Bool) : Good res (stopped fd left wouldBlock caller s) := by
  have hopen : ∀ d, s.kernel.conns fd = some d → d = c := by
    intro d hd
    exact Option.some.inj (hd.symm.trans hresp.1)
  unfold stopped
  split_ifs with hzero henabled hblock henabled
  · -- all is written, and the client is still watched for writing
    refine ⟨hsane.goto _, fun _ => ?_⟩
    refine h.busied hsane hs ((Touches.refl fd).goto _) rfl rfl ?_
    exact ⟨⟨c, hresp⟩, by simp only [goto_con, goto_httpRes]; omega, henabled⟩
  · -- all is written
    obtain ⟨hconn, hwatched, m, hans⟩ := hresp
    refine ⟨Sane.goto ?_ _, fun _ => ?_⟩
    · exact hsane.touched_open (Touches.refl fd).erase hsane.sound hconn hconn (hsane.answered c)
    · refine h.rested hsane hs (Touches.refl fd).erase rfl ?_ (back_cases fd caller)
      intro d hd
      obtain rfl := hopen d hd
      rw [Resting, State.Answering, erase_con]
      refine ⟨?_, ⟨m + 1, hans.finish (by omega)⟩, rfl⟩
      rw [erase_kernel, hwatched, interest, if_neg henabled]
      rfl
  · -- the rest has to wait, and the client is not yet watched for writing
    refine ⟨hsane.goto _, fun _ => ?_⟩
    refine h.busied hsane hs ((Touches.refl fd).goto _) rfl rfl ?_
    refine ⟨⟨c, hresp⟩, by simp only [goto_con, goto_httpRes]; omega, ?_⟩
    simpa using henabled
  · -- the rest has to wait
    refine ⟨hsane.goto _, fun _ => ?_⟩
    refine h.rested hsane hs (Touches.refl fd) rfl ?_ (back_cases fd caller)
    intro d hd
    obtain rfl := hopen d hd
    rw [Resting, if_pos (by simpa using henabled), if_pos (by simpa using henabled)]
    exact ⟨hresp.2.1, hresp.2.2, by omega⟩
  · -- an error
    refine ⟨(hsane.closed (h.client fd hs)).goto _, fun _ => ?_⟩
    refine h.rested hsane hs (Touches.refl fd).close.erase rfl ?_ (back_cases fd caller)
    intro d hd
    exact absurd ((Function.update_self ..).symm.trans hd) nofun

theorem wrote_good (hsane : Sane res s) (h : Running s) {left : Nat} {r : WriteResult}
    (hloc : s.loc = .write fd left caller) (hu : wrote fd left caller r s = some u) :
    Good res u := by
  have hs : s.loc.busy = some fd := by rw [hloc]; rfl
  have hbusy := h.busy
  simp only [Busy, hloc] at hbusy
  obtain ⟨⟨c, hresp⟩, hleft⟩ := hbusy
  have hconn := hresp.1
  unfold wrote at hu
  rw [hconn] at hu
  cases r with
  | wrote n =>
    obtain ⟨hn, hu⟩ := Option.ite_none_right_eq_some.mp hu
    split_ifs at hu with hzero
    · obtain rfl := Option.some.inj hu
      exact stopped_good hsane h hs hresp hleft false
    · obtain rfl := Option.some.inj hu
      obtain ⟨-, hwatched, m, hans⟩ := hresp
      have hlt := hsane.sound.numbered fd c hconn
      have htouch := ((Touches.refl fd).with ((Kernel.Local.refl fd).send hconn
        ((s.httpRes.drop (s.con fd).written).take n))).setCon
          { s.con fd with written := (s.con fd).written + n }
      have hans' : Answering s.httpRes (s.kernel.received c)
          (s.kernel.sent c ++ (s.httpRes.drop (s.con fd).written).take n)
          { s.con fd with written := (s.con fd).written + n } m 1 := by
        constructor
        case stream => exact hans.stream.more n
        case le => simp only; omega
        case suffix => exact hans.suffix
        case asked => exact hans.asked
      have hsent : (s.kernel.send c ((s.httpRes.drop (s.con fd).written).take n)).sent c =
          s.kernel.sent c ++ (s.httpRes.drop (s.con fd).written).take n := Function.update_self ..
      rw [← hsent] at hans'
      refine ⟨Sane.goto ?_ _, fun _ => ?_⟩
      · exact hsane.touched_open htouch (hsane.sound.send hlt) hconn hconn hans'.answered
      · refine h.busied hsane hs (htouch.goto _) rfl rfl ?_
        simp only [Busy, goto_loc, Responding, State.Answering, goto_con, setCon_con]
        exact ⟨⟨c, hconn, hwatched, m, hans'⟩, by simp only [goto_httpRes, setCon_httpRes]; omega⟩
  | wouldBlock =>
    obtain rfl := Option.some.inj hu
    exact stopped_good hsane h hs hresp hleft true
  | error =>
    obtain rfl := Option.some.inj hu
    exact stopped_good hsane h hs hresp hleft false

theorem Answered.receive {bytes : List UInt8} (h : Answered res received sent) :
    Answered res (received ++ bytes) sent := by
  obtain ⟨m, j, hstream, hle, hasked⟩ := h
  exact ⟨m, j, hstream, hle, hasked.trans ends_le_append⟩

/-- Bytes come in, and with them at most one more response is due. -/
theorem Answering.receive (h : Answering res received sent con m due) (bytes : List UInt8)
    {due' : Nat}
    (hdue : due' = due ∨ due' = 1 ∧ bytes ≠ [] ∧ requested (con.readed ++ bytes) = true) :
    ∃ m', Answering res (received ++ bytes) sent { con with readed := con.readed ++ bytes }
      m' due' := by
  have hsuffix : con.readed ++ bytes <:+ received ++ bytes := by
    obtain ⟨before, rfl⟩ := h.suffix
    exact ⟨before, by rw [List.append_assoc]⟩
  refine ⟨m, h.stream, h.le, hsuffix, ?_⟩
  have hasked := h.asked
  rcases hdue with rfl | ⟨rfl, hbytes, hreq⟩
  · exact hasked.trans ends_le_append
  · have hlt := ends_lt_append hbytes (requested_of_suffix hsuffix hreq)
    omega

/-- One turn of the loop of `handleRead` with bytes. -/
theorem data_good (hsane : Sane res s) (h : Running s) (hs : s.loc.busy = some fd)
    (hconn : s.kernel.conns fd = some c) (hrest : Resting s fd c) {bytes : List UInt8}
    (hbytes : bytes ≠ []) :
    Good res
      (if requested ((s.con fd).readed ++ bytes) then
        sendRes fd .handleRead ({ s with kernel := s.kernel.receive c bytes }.setCon fd
          { s.con fd with readed := (s.con fd).readed ++ bytes })
      else ({ s with kernel := s.kernel.receive c bytes }.setCon fd
        { s.con fd with readed := (s.con fd).readed ++ bytes }).goto (.read fd)) := by
  obtain ⟨hwatched, ⟨m, hans⟩, hwritten⟩ := hrest
  have hlt := hsane.sound.numbered fd c hconn
  have htouch := ((Touches.refl fd).with ((Kernel.Local.refl fd).receive hconn bytes)).setCon
    { s.con fd with readed := (s.con fd).readed ++ bytes }
  have hrec : (s.kernel.receive c bytes).received c = s.kernel.received c ++ bytes :=
    Function.update_self ..
  split_ifs with hreq
  · -- a request has come in whole
    obtain ⟨m, hans⟩ := hans.receive bytes (Or.inr ⟨(rfl : 1 = 1), hbytes, hreq⟩)
    rw [← hrec] at hans
    have hle := hans.le
    simp only [sendRes, setCon_con]
    refine ⟨Sane.goto ?_ _, fun _ => ?_⟩
    · exact hsane.touched_open (htouch.setCon _) (hsane.sound.receive hlt) hconn hconn
        hans.answered
    · refine h.busied hsane hs ((htouch.setCon _).goto _) rfl rfl ?_
      simp only [Busy, goto_loc, Responding, State.Answering, goto_con, setCon_con,
        goto_httpRes, setCon_httpRes]
      exact ⟨⟨c, hconn, hwatched, m, hans⟩, by simp only at hle ⊢; omega⟩
  · obtain ⟨m, hans⟩ := hans.receive bytes (Or.inl rfl)
    rw [← hrec] at hans
    refine ⟨Sane.goto ?_ _, fun _ => ?_⟩
    · refine hsane.touched_open htouch (hsane.sound.receive hlt) hconn hconn ?_
      simp only [setCon_kernel, hrec]
      exact (hsane.answered c).receive
    · refine h.busied hsane hs (htouch.goto _) rfl rfl ?_
      intro d hd
      obtain rfl := Option.some.inj (hconn.symm.trans hd)
      simp only [Resting, State.Answering, goto_con, setCon_con]
      exact ⟨hwatched, ⟨m, hans⟩, hwritten⟩

theorem handleRead_good (hsane : Sane res s) (h : Running s) {r : ReadResult}
    (hloc : s.loc = .read fd) (hu : handleRead fd r s = some u) : Good res u := by
  have hs : s.loc.busy = some fd := by rw [hloc]; rfl
  have hrest : ∀ c, s.kernel.conns fd = some c → Resting s fd c := by
    have hbusy := h.busy
    simpa only [Busy, hloc] using hbusy
  have hdropped : Good res (((s.close fd).erase fd).goto .next) := by
    refine ⟨(hsane.closed (h.client fd hs)).goto _, fun _ => ?_⟩
    refine h.rested hsane hs (Touches.refl fd).close.erase rfl ?_ (Or.inl rfl)
    intro d hd
    exact absurd ((Function.update_self ..).symm.trans hd) nofun
  unfold handleRead at hu
  cases hconn : s.kernel.conns fd with
  | none =>
    rw [hconn] at hu
    cases r with
    | error =>
      obtain rfl := Option.some.inj hu
      exact hdropped
    | _ => cases hu
  | some c =>
    rw [hconn] at hu
    cases r with
    | data bytes =>
      obtain ⟨⟨hbytes, -⟩, hu⟩ := Option.ite_none_right_eq_some.mp hu
      obtain rfl := Option.some.inj hu
      exact data_good hsane h hs hconn (hrest c hconn) hbytes
    | wouldBlock =>
      obtain rfl := Option.some.inj hu
      refine ⟨hsane.goto _, fun _ => ?_⟩
      exact h.rested hsane hs (Touches.refl fd) rfl hrest (Or.inl rfl)
    | eof =>
      obtain rfl := Option.some.inj hu
      exact hdropped
    | error =>
      obtain rfl := Option.some.inj hu
      exact hdropped

/-- `EPOLL_CTL_MOD` has succeeded. -/
theorem modified_cases {i : Interest} (h : modified fd i s = some u) :
    u = { s with kernel := s.kernel.watch fd i } :=
  (Option.some.inj (Option.ite_none_left_eq_some.mp h).2).symm

theorem modIn_good (hsane : Sane res s) (h : Running s) (hloc : s.loc = .modIn fd caller) :
    Good res ((({ s with kernel := s.kernel.watch fd .epollIn }.setCon fd
      { s.con fd with writeEnabled := false }).erase fd).goto (caller.back fd)) := by
  have hs : s.loc.busy = some fd := by rw [hloc]; rfl
  have hbusy := h.busy
  simp only [Busy, hloc] at hbusy
  obtain ⟨⟨c, hconn, hwatched, m, hans⟩, hall, -⟩ := hbusy
  have htouch := (((Touches.refl (s := s) fd).with ((Kernel.Local.refl fd).watch .epollIn)).setCon
    { s.con fd with writeEnabled := false }).erase
  refine ⟨Sane.goto ?_ _, fun _ => ?_⟩
  · exact hsane.touched_open htouch hsane.sound.watch hconn hconn (hsane.answered c)
  · refine h.rested hsane hs htouch rfl ?_ (back_cases fd caller)
    intro d hd
    obtain rfl := Option.some.inj (hconn.symm.trans hd)
    rw [Resting, State.Answering, erase_con]
    exact ⟨Function.update_self .., ⟨m + 1, hans.finish hall⟩, rfl⟩

theorem modInOut_good (hsane : Sane res s) (h : Running s) (hloc : s.loc = .modInOut fd caller) :
    Good res (({ s with kernel := s.kernel.watch fd .epollInOut }.setCon fd
      { s.con fd with writeEnabled := true }).goto (caller.back fd)) := by
  have hs : s.loc.busy = some fd := by rw [hloc]; rfl
  have hbusy := h.busy
  simp only [Busy, hloc] at hbusy
  obtain ⟨⟨c, hconn, hwatched, m, hans⟩, hlt, -⟩ := hbusy
  have htouch := ((Touches.refl (s := s) fd).with ((Kernel.Local.refl fd).watch .epollInOut)).setCon
    { s.con fd with writeEnabled := true }
  refine ⟨Sane.goto ?_ _, fun _ => ?_⟩
  · exact hsane.touched_open htouch hsane.sound.watch hconn hconn (hsane.answered c)
  · refine h.rested hsane hs htouch rfl ?_ (back_cases fd caller)
    intro d hd
    obtain rfl := Option.some.inj (hconn.symm.trans hd)
    rw [Resting, State.Answering, setCon_con]
    exact ⟨Function.update_self .., ⟨m, hans.stream, hans.le, hans.suffix, hans.asked⟩, hlt⟩

theorem add_good (hsane : Sane res s) (h : Running s) (hloc : s.loc = .add fd) :
    Good res ({ s with kernel := s.kernel.watch fd .epollIn }.goto .next) := by
  have hs : s.loc.busy = some fd := by rw [hloc]; rfl
  have hbusy := h.busy
  simp only [Busy, hloc] at hbusy
  obtain ⟨⟨c, hconn, hsent⟩, hcon⟩ := hbusy
  have htouch := (Touches.refl (s := s) fd).with ((Kernel.Local.refl fd).watch .epollIn)
  refine ⟨Sane.goto ?_ _, fun _ => ?_⟩
  · exact hsane.touched_open htouch hsane.sound.watch hconn hconn (hsane.answered c)
  · refine h.rested hsane hs htouch rfl ?_ (Or.inl rfl)
    intro d hd
    obtain rfl := Option.some.inj (hconn.symm.trans hd)
    have hnew : (State.con { s with kernel := s.kernel.watch fd .epollIn } fd) = Con.new :=
      con_of_none hcon
    rw [Resting, State.Answering, hnew]
    refine ⟨Function.update_self .., ⟨0, ?_⟩, rfl⟩
    exact ⟨hsent, Nat.zero_le _, List.nil_suffix, Nat.zero_le _⟩

theorem accept_good (hsane : Sane res s) (h : Running s) (hloc : s.loc = .accept)
    (hfd : Unused s fd) :
    Good res ({ s with kernel := s.kernel.accept fd }.goto (.getpeername fd)) := by
  obtain ⟨hnone, hown⟩ := hfd
  have htouch := (Touches.refl (s := s) fd).with (Kernel.Local.refl fd).accept
  have hopen : (s.kernel.accept fd).conns fd = some s.kernel.accepted := Function.update_self ..
  refine ⟨Sane.goto ?_ _, fun _ => ?_⟩
  · apply hsane.touched htouch (hsane.sound.accept fd) hown
    · intro h
      rw [hopen] at h
      cases h
    · exact fun c _ => hsane.answered c
  · apply h.begun hsane (by rw [hloc]; rfl) (htouch.goto _) hown rfl
    case hfree =>
      -- an event is for a client that is open, or for the listening socket
      intro e he heq
      rcases (h.reported e he).1 with ⟨hlfd, -⟩ | hwatched | ⟨hwatched, -⟩
      · exact hown (heq ▸ hlfd ▸ hsane.listens)
      all_goals
        rw [heq, (hsane.clean fd hnone).2] at hwatched
        cases hwatched
    case hu => rfl
    case hbusy =>
      refine ⟨⟨s.kernel.accepted, hopen, ?_⟩, (hsane.clean fd hnone).1⟩
      exact (hsane.sound.fresh _ le_rfl).2

/-- The server goes on without a descriptor. -/
theorem Running.idle (h : Running s) (hs : s.loc.busy = none) (hl : l.busy = none)
    (hbusy : Busy (s.goto l)) : Running (s.goto l) where
  client fd hfd := by
    rw [goto_loc, hl] at hfd
    cases hfd
  resting fd c _ hc := h.resting fd c (by rw [hs]; exact nofun) hc
  busy := hbusy
  nodup := h.nodup
  reported e he := by
    refine ⟨(h.reported e he).1, ?_⟩
    rw [goto_loc, hl]
    exact nofun

theorem readable_good (hsane : Sane res s) (h : Running s) (hs : s.loc.busy = none)
    (hfree : ∀ e ∈ s.active, e.1 ≠ fd) {i : Interest} (hi : s.kernel.watched fd = some i) :
    Good res (s.goto (.read fd)) := by
  obtain ⟨c, hconn⟩ := hsane.watched_open hi
  refine ⟨hsane.goto _, fun _ => ?_⟩
  refine h.begun hsane hs ((Touches.refl fd).goto _) (hsane.open_fd hconn) rfl hfree rfl ?_
  exact fun d hd => h.resting fd d (by rw [hs]; exact nofun) hd

/-- A client that is watched for writing has an unfinished response. -/
theorem writable_good (hsane : Sane res s) (h : Running s) (hs : s.loc.busy = none)
    (hfree : ∀ e ∈ s.active, e.1 ≠ fd) (hi : s.kernel.watched fd = some .epollInOut) :
    Good res (sendRes fd .handleWrite s) := by
  obtain ⟨c, hconn⟩ := hsane.watched_open hi
  obtain ⟨hwatched, ⟨m, hans⟩, hlt⟩ := h.resting fd c (by rw [hs]; exact nofun) hconn
  have henabled : (s.con fd).writeEnabled = true := by
    rw [hi, interest] at hwatched
    by_contra hno
    rw [if_neg hno] at hwatched
    cases hwatched
  rw [if_pos henabled] at hans hlt
  have htouch := (Touches.refl (s := s) fd).setCon (s.con fd)
  refine ⟨Sane.goto ?_ _, fun _ => ?_⟩
  · exact hsane.touched_open htouch hsane.sound hconn hconn (hsane.answered c)
  · refine h.begun hsane hs (htouch.goto _) (hsane.open_fd hconn) rfl hfree rfl ?_
    simp only [sendRes, Busy, goto_loc, Responding, State.Answering, goto_con, setCon_con]
    refine ⟨⟨c, hconn, hwatched, m, hans⟩, ?_⟩
    simp only [goto_httpRes, setCon_httpRes]
    omega

/-- The handler of an event that is not the listening socket's starts with an open client. -/
theorem loopOnce_good (hsane : Sane res s) (h : Running s) (hloc : s.loc = .next) :
    Good res (loopOnce s) := by
  have hnone : s.loc.busy = none := by rw [hloc]; rfl
  unfold loopOnce
  cases hactive : s.active with
  | nil => exact ⟨hsane.goto _, fun _ => h.idle hnone rfl trivial⟩
  | cons e rest =>
    obtain ⟨fd, events⟩ := e
    have hnodup := h.nodup
    rw [hactive, List.map_cons, List.nodup_cons] at hnodup
    have hhere := (h.reported (fd, events) (by rw [hactive]; exact List.mem_cons_self)).1
    have hsane' : Sane res { s with active := rest } :=
      ⟨hsane.httpRes, hsane.sound, hsane.listens, hsane.own, hsane.clean, hsane.answered⟩
    have hrun : Running { s with active := rest } := by
      refine ⟨h.client, h.resting, ?_, hnodup.2, ?_⟩
      · simp only [Busy, hloc]
      · exact fun e he => h.reported e (by rw [hactive]; exact List.mem_cons_of_mem _ he)
    have hfree : ∀ e ∈ rest, e.1 ≠ fd := by
      intro e he heq
      have hmem := List.mem_map_of_mem (f := Prod.fst) he
      rw [heq] at hmem
      exact hnodup.1 hmem
    dsimp only
    split_ifs with hin hfd hout
    · exact ⟨hsane'.goto _, fun _ => hrun.idle hnone rfl trivial⟩
    · rcases hhere with ⟨hlfd, -⟩ | hi | ⟨hi, -⟩
      · exact absurd hlfd hfd
      · exact readable_good hsane' hrun hnone hfree hi
      · exact readable_good hsane' hrun hnone hfree hi
    · rcases hhere with ⟨-, hno⟩ | hi | ⟨-, hno⟩
      · exact absurd (hno.symm.trans hout) nofun
      · exact writable_good hsane' hrun hnone hfree hi
      · exact absurd (hno.symm.trans hout) nofun
    · exact ⟨hsane'.goto _, fun hne => absurd rfl hne⟩

theorem step_good {a : Act} (h : Good res s) (hu : step s a = some u) : Good res u := by
  obtain ⟨hsane, hrun⟩ := h
  have hgone : Good res (s.goto .exited) := ⟨hsane.goto _, fun hne => absurd rfl hne⟩
  unfold step at hu
  split at hu
  case h_1 evs hloc =>
    have h := hrun (by rw [hloc]; exact nofun)
    obtain ⟨⟨-, hnodup, hreported⟩, hu⟩ := Option.ite_none_right_eq_some.mp hu
    obtain rfl := Option.some.inj hu
    refine ⟨⟨hsane.httpRes, hsane.sound, hsane.listens, hsane.own, hsane.clean, hsane.answered⟩,
      fun _ => ?_⟩
    have hnone : s.loc.busy = none := by rw [hloc]; rfl
    exact ⟨nofun, fun fd c _ => h.resting fd c (by rw [hnone]; exact nofun), trivial, hnodup,
      fun e he => ⟨hreported e he, nofun⟩⟩
  case h_2 hloc =>
    obtain rfl := Option.some.inj hu
    exact loopOnce_good hsane (hrun (by rw [hloc]; exact nofun)) hloc
  case h_3 hloc =>
    obtain rfl := Option.some.inj hu
    exact hgone
  case h_4 cfd hloc =>
    obtain ⟨hunused, hu⟩ := Option.ite_none_right_eq_some.mp hu
    obtain rfl := Option.some.inj hu
    exact accept_good hsane (hrun (by rw [hloc]; exact nofun)) hloc hunused
  case h_5 cfd ok hloc =>
    obtain rfl := Option.some.inj hu
    have h := hrun (by rw [hloc]; exact nofun)
    have hbusy := h.busy
    simp only [Busy, hloc] at hbusy
    cases ok with
    | true =>
      refine ⟨hsane.goto _, fun _ => ?_⟩
      exact h.busied hsane (by rw [hloc]; rfl) ((Touches.refl cfd).goto _) rfl rfl hbusy
    | false => exact hgone
  case h_6 cfd ok hloc =>
    obtain rfl := Option.some.inj hu
    have h := hrun (by rw [hloc]; exact nofun)
    have hbusy := h.busy
    simp only [Busy, hloc] at hbusy
    cases ok with
    | true =>
      refine ⟨hsane.goto _, fun _ => ?_⟩
      exact h.busied hsane (by rw [hloc]; rfl) ((Touches.refl cfd).goto _) rfl rfl hbusy
    | false => exact hgone
  case h_7 cfd hloc =>
    obtain rfl := Option.some.inj hu
    exact add_good hsane (hrun (by rw [hloc]; exact nofun)) hloc
  case h_8 fd r hloc => exact handleRead_good hsane (hrun (by rw [hloc]; exact nofun)) hloc hu
  case h_9 fd left caller r hloc =>
    exact wrote_good hsane (hrun (by rw [hloc]; exact nofun)) hloc hu
  case h_10 fd caller hloc =>
    obtain ⟨v, hv, rfl⟩ := Option.map_eq_some_iff.mp hu
    obtain rfl := modified_cases hv
    exact modIn_good hsane (hrun (by rw [hloc]; exact nofun)) hloc
  case h_11 fd caller hloc =>
    obtain ⟨v, hv, rfl⟩ := Option.map_eq_some_iff.mp hu
    obtain rfl := modified_cases hv
    exact modInOut_good hsane (hrun (by rw [hloc]; exact nofun)) hloc
  case h_12 | h_13 | h_14 =>
    obtain rfl := Option.some.inj hu
    exact hgone
  case h_15 => cases hu

theorem init_good {lfd : Fd} {own : List Fd} (hlfd : lfd ∈ own) : Good res (init lfd own res) := by
  refine ⟨⟨rfl, Kernel.sound_empty, hlfd, fun _ _ => rfl, fun _ _ => ⟨rfl, rfl⟩, ?_⟩, fun _ => ?_⟩
  · exact fun c => ⟨0, 0, repeats_nil, Nat.zero_le _, Nat.zero_le _⟩
  · exact ⟨nofun, nofun, trivial, List.nodup_nil, nofun⟩

theorem run_good {lfd : Fd} {own : List Fd} (hlfd : lfd ∈ own) {acts : List Act}
    (hrun : exec step acts (init lfd own res) = some u) : Good res u :=
  exec_preserves (fun _ _ _ => step_good) (init_good hlfd) hrun

section Finishing
variable {left : Nat}

theorem step_event {e : Fd × Events} (hloc : s.loc = .wait) (he : Reported s e) :
    step s (.events [e]) = some ({ s with active := [e] }.goto .next) := by
  simp [step, hloc, he]

theorem step_writable (hloc : s.loc = .next) (hactive : s.active = [(fd, ⟨false, true, false⟩)]) :
    step s .next = some (sendRes fd .handleWrite { s with active := [] }) := by
  simp [step, hloc, loopOnce, hactive]

theorem step_wrote (hloc : s.loc = .write fd left caller) (hc : s.kernel.conns fd = some c)
    (hleft : left ≠ 0) :
    step s (.wrote (.wrote left)) = some (({ s with
      kernel := s.kernel.send c ((s.httpRes.drop (s.con fd).written).take left) }.setCon fd
        { s.con fd with written := (s.con fd).written + left }).goto
          (.write fd 0 caller)) := by
  simp [step, hloc, wrote, hc, hleft]

theorem step_written (hloc : s.loc = .write fd 0 caller) (hc : s.kernel.conns fd = some c)
    (henabled : (s.con fd).writeEnabled = true) :
    step s (.wrote (.wrote 0)) = some (s.goto (.modIn fd caller)) := by
  simp [step, hloc, wrote, hc, stopped, henabled]

theorem step_modIn {i : Interest} (hloc : s.loc = .modIn fd .handleWrite)
    (hwatched : s.kernel.watched fd = some i) :
    step s (.succeeds true) = some ((({ s with kernel := s.kernel.watch fd .epollIn }.setCon fd
      { s.con fd with writeEnabled := false }).erase fd).goto .next) := by
  simp only [step, hloc, modified, hwatched, reduceCtorEq, ↓reduceIte, Option.map_some]
  rfl

theorem step_last (hloc : s.loc = .next) (hactive : s.active = []) :
    step s .next = some (s.goto .wait) := by
  simp [step, hloc, loopOnce, hactive]

/-- The answers of the kernel with which the server writes the rest of a response. -/
def restOf (fd : Fd) (left : Nat) : List Act :=
  [.events [(fd, ⟨false, true, false⟩)], .next, .wrote (.wrote left), .wrote (.wrote 0),
    .succeeds true, .next]

theorem exec_restOf (hloc : s.loc = .wait) (hc : s.kernel.conns fd = some c)
    (hwatched : s.kernel.watched fd = some .epollInOut)
    (henabled : (s.con fd).writeEnabled = true)
    (hlt : (s.con fd).written < s.httpRes.length) :
    ∃ u, exec step (restOf fd (s.httpRes.length - (s.con fd).written)) s = some u ∧
      u.loc = .wait ∧ u.kernel.sent c = s.kernel.sent c ++ s.httpRes.drop (s.con fd).written ∧
      u.kernel.watched fd = some .epollIn := by
  have hleft : s.httpRes.length - (s.con fd).written ≠ 0 := by omega
  have htake : (s.httpRes.drop (s.con fd).written).take
      (s.httpRes.length - (s.con fd).written) = s.httpRes.drop (s.con fd).written :=
    List.take_of_length_le (by rw [List.length_drop])
  refine ⟨_, exec_cons.mpr ⟨_, step_event hloc (Or.inr (Or.inl hwatched)),
    exec_cons.mpr ⟨_, step_writable rfl rfl, exec_cons.mpr ⟨_, step_wrote rfl hc hleft,
    exec_cons.mpr ⟨_, step_written rfl hc ?_, exec_cons.mpr ⟨_, step_modIn rfl hwatched,
    exec_cons.mpr ⟨_, step_last rfl rfl, rfl⟩⟩⟩⟩⟩⟩, rfl, ?_, Function.update_self ..⟩
  · simp only [sendRes, goto_con, setCon_con]
    exact henabled
  · simp only [sendRes, goto_con, setCon_con]
    exact (Function.update_self ..).trans (congrArg _ htake)

end Finishing

/-- A client sends a request, and the kernel takes a part of the response. -/
def sample : List Act :=
  [.events [(3, ⟨true, false, false⟩)], .next, .accepted (some 5), .succeeds true, .succeeds true,
    .succeeds true, .next, .events [(5, ⟨true, false, false⟩)], .next,
    .received (.data [71, 69, 84, 10, 10]), .wrote (.wrote 2), .wrote .wouldBlock, .succeeds true,
    .received .wouldBlock, .next]

/-- What `main` starts with, and a response of three bytes. -/
def sampleInit : State := init 3 [0, 1, 2, 3, 4] [72, 105, 33]

/-- Whatever the kernel takes at a time, a client gets whole responses one after the other, at most
one for each request that it has sent, and the last of them may be cut short. -/
theorem responses_whole (lfd : Fd) (own : List Fd) (httpRes : List UInt8) (hlfd : lfd ∈ own)
    (acts : List Act) (s : State) (hrun : exec step acts (init lfd own httpRes) = some s)
    (c : Conn) :
    ∃ m j, s.kernel.sent c = (List.replicate m httpRes).flatten ++ httpRes.take j ∧
      j ≤ httpRes.length ∧ (m + if j = 0 then 0 else 1) ≤ ends requested (s.kernel.received c) := by
  have hsane := (run_good hlfd hrun).1
  rw [← hsane.httpRes]
  exact hsane.answered c

theorem responses_whole_sample : ∃ s, exec step sample sampleInit = some s ∧
    ∃ m j, s.kernel.sent 0 = (List.replicate m [72, 105, 33]).flatten ++ [72, 105, 33].take j ∧
      j ≤ [72, 105, 33].length ∧
      (m + if j = 0 then 0 else 1) ≤ ends requested (s.kernel.received 0) :=
  exists_exec (by decide) fun s hs =>
    responses_whole 3 [0, 1, 2, 3, 4] [72, 105, 33] (by decide) sample s hs 0

/-- Whenever the server waits, every client that it does not watch for writing has got whole
responses only. Any other has an unfinished one, which comes to its end as soon as the kernel takes
the rest of it. -/
theorem waiting_unfinished (lfd : Fd) (own : List Fd) (httpRes : List UInt8) (hlfd : lfd ∈ own)
    (acts : List Act) (s : State) (hrun : exec step acts (init lfd own httpRes) = some s)
    (hloc : s.loc = .wait) (fd : Fd) (c : Conn) (hc : s.kernel.conns fd = some c) :
    s.kernel.watched fd = some .epollIn ∧
        (∃ m, s.kernel.sent c = (List.replicate m httpRes).flatten) ∨
      s.kernel.watched fd = some .epollInOut ∧ ∃ m j,
        s.kernel.sent c = (List.replicate m httpRes).flatten ++ httpRes.take j ∧
        j < httpRes.length ∧ ∃ acts' u, exec step acts' s = some u ∧ u.loc = .wait ∧
          u.kernel.sent c = (List.replicate (m + 1) httpRes).flatten ∧
          u.kernel.watched fd = some .epollIn := by
  obtain ⟨hsane, hgood⟩ := run_good hlfd hrun
  have hrest := (hgood (by rw [hloc]; exact nofun)).resting fd c (by rw [hloc]; exact nofun) hc
  obtain ⟨hwatched, ⟨m, hans⟩, hwritten⟩ := hrest
  have hstream := hans.stream
  rw [← hsane.httpRes]
  unfold interest at hwatched
  split_ifs at hwatched hwritten with henabled
  · right
    refine ⟨hwatched, m, _, hstream, hwritten, ?_⟩
    obtain ⟨u, hu, hwait, hsent, hin⟩ := exec_restOf hloc hc hwatched henabled hwritten
    refine ⟨_, u, hu, hwait, ?_, hin⟩
    rw [hsent, hstream, List.append_assoc, List.take_append_drop, List.replicate_succ',
      List.flatten_append, List.flatten_singleton]
  · left
    refine ⟨hwatched, m, ?_⟩
    rw [hstream, hwritten, List.take_zero, List.append_nil]

theorem waiting_unfinished_sample : ∃ s, exec step sample sampleInit = some s ∧
    (s.kernel.watched 5 = some .epollIn ∧
        (∃ m, s.kernel.sent 0 = (List.replicate m [72, 105, 33]).flatten) ∨
      s.kernel.watched 5 = some .epollInOut ∧ ∃ m j,
        s.kernel.sent 0 = (List.replicate m [72, 105, 33]).flatten ++ [72, 105, 33].take j ∧
        j < [72, 105, 33].length ∧ ∃ acts' u, exec step acts' s = some u ∧ u.loc = .wait ∧
          u.kernel.sent 0 = (List.replicate (m + 1) [72, 105, 33]).flatten ∧
          u.kernel.watched 5 = some .epollIn) :=
  exists_exec (by decide) fun s hs =>
    waiting_unfinished 3 [0, 1, 2, 3, 4] [72, 105, 33] (by decide) sample s hs
      (Option.some.inj (congrArg (Option.map State.loc) hs).symm) 5 0
      (Option.some.inj (congrArg (Option.map fun t : State => t.kernel.conns 5) hs).symm)

example : ((exec step (sample ++ restOf 5 1) sampleInit).map fun s => s.kernel.sent 0) =
    some [72, 105, 33] := by decide

/-- The server keeps nothing of a client that is gone: the number of its descriptor, when it is
given to another, has no `Con`, and is not watched. -/
theorem closed_forgotten (lfd : Fd) (own : List Fd) (httpRes : List UInt8) (hlfd : lfd ∈ own)
    (acts : List Act) (s : State) (hrun : exec step acts (init lfd own httpRes) = some s)
    (fd : Fd) (hclosed : s.kernel.conns fd = none) :
    s.cons fd = none ∧ s.kernel.watched fd = none :=
  (run_good hlfd hrun).1.clean fd hclosed

theorem closed_forgotten_sample : ∃ s, exec step (sample ++ [.events [(5, ⟨true, false, false⟩)],
    .next, .received .eof]) sampleInit = some s ∧ s.cons 5 = none ∧ s.kernel.watched 5 = none :=
  exists_exec (by decide) fun s hs =>
    closed_forgotten 3 [0, 1, 2, 3, 4] [72, 105, 33] (by decide) _ s hs 5
      (Option.some.inj (congrArg (Option.map fun t : State => t.kernel.conns 5) hs).symm)

end

end LanguageTest.Epoll
