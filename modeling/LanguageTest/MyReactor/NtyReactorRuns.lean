import LanguageTest.MyReactor.NtyReactor

namespace LanguageTest.NtyReactor
open Transition Descriptors

/-- What came in as chunks, each with its reply, and a chunk that has none yet. -/
def Echoed (whole : Prop) (received sent pending : List UInt8) : Prop :=
  ∃ pairs : List (List UInt8 × List UInt8),
    received = pairs.flatMap Prod.fst ++ pending ∧ sent = pairs.flatMap Prod.snd ∧
      ∀ p ∈ pairs, p.2 <+: p.1 ∧ p.2 ≠ [] ∧ (whole → p.2 = p.1)

/-- The chunk that an event for sending holds. -/
def NtyEvent.pending (ev : NtyEvent) : List UInt8 :=
  match ev.events with
  | .epollIn => []
  | .epollOut => ev.buffer.take ev.length

def Mask.callback : Mask → Callback
  | .epollIn => .recv
  | .epollOut => .send

/-- The event of a client: it is watched for what it says, unless `EPOLL_CTL_ADD` has failed. -/
structure Slot (whole : Prop) (fd : Fd) (ev : NtyEvent) (watched : Option Mask)
    (received sent : List UInt8) : Prop where
  bound : fd < maxEpollEvents
  fd_eq : ev.fd = fd
  status : ev.status = 1
  callback : ev.callback = ev.events.callback
  watched : watched = none ∨ watched = some ev.events
  length : ev.events = .epollOut → 0 < ev.length ∧ ev.length ≤ ev.buffer.length
  sendable : ev.events = .epollOut → ev.length ≤ maxBufferSize
  echoed : Echoed whole received sent ev.pending

/-- A client that was accepted when the table was full. It is never closed. -/
structure Leaked (fd : Fd) (ev : NtyEvent) (watched : Option Mask) (received sent : List UInt8) :
    Prop where
  watched : watched = none
  received : received = []
  sent : sent = []
  status : fd < maxEpollEvents → ev.status ≠ 0

def Client (whole : Prop) (s : State) (fd : Fd) (c : Conn) : Prop :=
  Slot whole fd (s.events fd) (s.kernel.watched fd) (s.kernel.received c) (s.kernel.sent c) ∨
    Leaked fd (s.events fd) (s.kernel.watched fd) (s.kernel.received c) (s.kernel.sent c)

/-- What the event of the listening socket says. -/
structure Listens (ev : NtyEvent) (watched : Option Mask) : Prop where
  fd_eq : ev.fd = sockFd
  events : ev.events = .epollIn
  callback : ev.callback = .accept
  watched : watched = some .epollIn

structure Sane (whole : Prop) (s : State) : Prop where
  sound : s.kernel.Sound
  apart : ∀ fd ∈ own, s.kernel.conns fd = none
  listens : Listens (s.events sockFd) (s.kernel.watched sockFd)
  closed : ∀ fd, fd ≠ sockFd → s.kernel.conns fd = none → s.kernel.watched fd = none
  clients : ∀ fd c, s.kernel.conns fd = some c → Client whole s fd c
  echoed : ∀ c, ∃ pending, Echoed whole (s.kernel.received c) (s.kernel.sent c) pending
  inside : s.outside = false

/-- The events still to be handled are those that epoll reported. Once the first test is over,
this is known of the second test only. -/
def Due (s : State) : Prop :=
  (s.active.map Ready.fd).Nodup ∧ (∀ r ∈ s.active.tail, Reported s.kernel r) ∧
    ∀ r ∈ s.active.head?, (s.loc = .first → Reported s.kernel r) ∧
      (r.epollOut = true → s.kernel.watched r.fd = some .epollOut)

/-- A step that touches one descriptor, its event and its connection at most. -/
structure Touches (fd : Fd) (s u : State) : Prop where
  events : ∀ g, g ≠ fd → u.events g = s.events g
  kernel : Kernel.Local fd s.kernel u.kernel
  active : u.active = s.active

/-- No access has left the table or a buffer, and the next test and its callback will read nothing
beyond them. -/
structure Inside (s : State) : Prop where
  written : s.outside = false
  read : ∀ i ∈ s.reads, i < maxEpollEvents ∧
    ((s.events i).callback = .send → (s.events i).length ≤ maxBufferSize)

/-- A chunk that is received fits in the buffer with the zero behind it. -/
def Fits : Act → Prop
  | .received (.data bytes) _ => bytes.length < maxBufferSize
  | _ => True

instance : DecidablePred Fits := by
  intro a
  unfold Fits
  split <;> infer_instance

/-- A call of `send` takes the whole chunk. -/
def Complete (s : State) : Act → Prop
  | .sent (.sent n) _ => ∀ r ∈ s.active.head?, n = (s.events r.fd).length
  | _ => True

instance (s : State) : DecidablePred (Complete s) := by
  intro a
  unfold Complete
  split <;> infer_instance

section
variable {whole : Prop} {s u : State} {fd g i : Fd} {c : Conn} {ev : NtyEvent} {add : Bool}
  {a : Act}

theorem setEvent_eq (hi : i < maxEpollEvents) :
    s.setEvent i ev = { s with events := Function.update s.events i ev } :=
  if_pos hi

/-- `nty_event_set` and `nty_event_add`, as the callbacks use them. -/
theorem renew_eq (hi : i < maxEpollEvents) {event : Mask} {length : Nat} {cb : Callback} :
    ntyEventAdd (ntyEventSet s i fd event length 0 cb) i add = { s with
      events := Function.update s.events i
        { s.events i with fd, events := event, callback := cb, status := 1, length }
      kernel := if add ∧ Open s.kernel fd ∧ s.kernel.watched fd = none then
        s.kernel.watch fd event else s.kernel } := by
  rw [ntyEventSet, setEvent_eq hi]
  unfold ntyEventAdd
  simp only [Function.update_self, ↓reduceIte, setEvent_eq hi, Function.update_idem]
  split_ifs <;> rfl

theorem ntyEventDel_eq (hi : i < maxEpollEvents) (hstatus : (s.events i).status = 1) :
    ntyEventDel s i = { s with
      events := Function.update s.events i { s.events i with status := 0 }
      kernel := s.kernel.unwatch (s.events i).fd } := by
  simp only [ntyEventDel, hstatus, ne_eq, not_true_eq_false, ↓reduceIte, setEvent_eq hi]

/-- `nty_event_del` for the event of a descriptor, after the kernel has done something. -/
theorem del_eq (hi : fd < maxEpollEvents) (hfd : (s.events fd).fd = fd)
    (hstatus : (s.events fd).status = 1) (k : Kernel Mask) :
    ntyEventDel { s with kernel := k } fd = { s with
      events := Function.update s.events fd { s.events fd with status := 0 }
      kernel := k.unwatch fd } := by
  rw [ntyEventDel_eq (s := { s with kernel := k }) hi hstatus, hfd]

theorem Echoed.receive {received sent bytes : List UInt8} (h : Echoed whole received sent []) :
    Echoed whole (received ++ bytes) sent bytes := by
  obtain ⟨pairs, rfl, hsent, hpairs⟩ := h
  exact ⟨pairs, by rw [List.append_nil], hsent, hpairs⟩

theorem Echoed.send {received sent chunk reply : List UInt8} (h : Echoed whole received sent chunk)
    (hfirst : reply <+: chunk) (hne : reply ≠ []) (hwhole : whole → reply = chunk) :
    Echoed whole received (sent ++ reply) [] := by
  obtain ⟨pairs, rfl, rfl, hpairs⟩ := h
  refine ⟨pairs ++ [(chunk, reply)], by simp, by simp, ?_⟩
  intro p hp
  rcases List.mem_append.mp hp with hp | hp
  · exact hpairs p hp
  · rw [List.mem_singleton.mp hp]
    exact ⟨hfirst, hne, hwhole⟩

theorem echoed_nil : Echoed whole [] [] [] := ⟨[], rfl, rfl, nofun⟩

/-- The other clients notice nothing. -/
theorem Client.touched (h : Client whole s g c) (ht : Touches fd s u) (hs : s.kernel.Sound)
    (hg : g ≠ fd) (hc : s.kernel.conns g = some c) : Client whole u g c := by
  obtain ⟨hrec, hsent⟩ := ht.kernel.streams_other hs hg hc
  unfold Client at h ⊢
  rwa [ht.events g hg, ht.kernel.watched g hg, hrec, hsent]

/-- A step keeps the state sane when it does so for what it touches. -/
theorem Sane.touched (h : Sane whole s) (ht : Touches fd s u) (hu : u.kernel.Sound)
    (hfd : fd ∉ own) (hinside : u.outside = false)
    (hclosed : u.kernel.conns fd = none → u.kernel.watched fd = none)
    (hclient : ∀ c, u.kernel.conns fd = some c → Client whole u fd c)
    (hechoed : ∀ c, s.kernel.conns fd = some c →
      ∃ pending, Echoed whole (u.kernel.received c) (u.kernel.sent c) pending) :
    Sane whole u where
  sound := hu
  apart g hg := by
    have hne : g ≠ fd := fun heq => hfd (heq ▸ hg)
    rw [ht.kernel.conns g hne]
    exact h.apart g hg
  listens := by
    have hne : sockFd ≠ fd := fun heq => hfd (heq ▸ by decide)
    rw [ht.events _ hne, ht.kernel.watched _ hne]
    exact h.listens
  closed g hg hc := by
    by_cases hne : g = fd
    · subst hne
      exact hclosed hc
    · rw [ht.kernel.conns g hne] at hc
      rw [ht.kernel.watched g hne]
      exact h.closed g hg hc
  clients g c hc := by
    by_cases hne : g = fd
    · subst hne
      exact hclient c hc
    · rw [ht.kernel.conns g hne] at hc
      exact (h.clients g c hc).touched ht h.sound hne hc
  echoed c := by
    by_cases hc : s.kernel.conns fd = some c
    · exact hechoed c hc
    · obtain ⟨hrec, hsent⟩ := ht.kernel.streams c hc
      rw [hrec, hsent]
      exact h.echoed c
  inside := hinside

/-- What is watched is the listening socket or a client with its event. -/
theorem Sane.slot (h : Sane whole s) (hfd : fd ≠ sockFd) {m : Mask}
    (hm : s.kernel.watched fd = some m) :
    ∃ c, s.kernel.conns fd = some c ∧ Slot whole fd (s.events fd) (some (s.events fd).events)
      (s.kernel.received c) (s.kernel.sent c) ∧ m = (s.events fd).events := by
  obtain ⟨c, hc⟩ : ∃ c, s.kernel.conns fd = some c := by
    apply Option.ne_none_iff_exists'.mp
    intro hnone
    rw [h.closed fd hfd hnone] at hm
    cases hm
  rcases h.clients fd c hc with hslot | hleaked
  · rw [hm] at hslot
    have heq : m = (s.events fd).events := by
      rcases hslot.watched with hno | hsome
      · cases hno
      · exact Option.some.inj hsome
    rw [heq] at hslot
    exact ⟨c, hc, hslot, heq⟩
  · rw [hleaked.watched] at hm
    cases hm

theorem Sane.open_fd (h : Sane whole s) (hc : s.kernel.conns fd = some c) : fd ∉ own := by
  intro hfd
  rw [h.apart fd hfd] at hc
  cases hc

theorem touches_set {k : Kernel Mask} (hl : Kernel.Local fd s.kernel k) :
    Touches fd s { s with events := Function.update s.events fd ev, kernel := k } :=
  ⟨fun _ hg => Function.update_of_ne hg .., hl, rfl⟩

/-- A client whose descriptor has been closed. -/
theorem Sane.dropped (h : Sane whole s) (hfd : fd ∉ own) {k : Kernel Mask} (hk : k.Sound)
    (hl : Kernel.Local fd s.kernel k) (hconn : k.conns fd = none) (hwatched : k.watched fd = none)
    (hrec : k.received = s.kernel.received) (hsent : k.sent = s.kernel.sent) :
    Sane whole { s with events := Function.update s.events fd ev, kernel := k } := by
  apply h.touched (touches_set hl) hk hfd h.inside
  · exact fun _ => hwatched
  · intro c hc
    exact absurd (hconn.symm.trans hc) nofun
  · intro c _
    simp only [hrec, hsent]
    exact h.echoed c

/-- A client whose event has been set. Then it is watched, unless `EPOLL_CTL_ADD` fails. -/
theorem Sane.renewed (h : Sane whole s) (hfd : fd ∉ own) {k : Kernel Mask} (hk : k.Sound)
    (hl : Kernel.Local fd s.kernel k) (hconn : k.conns fd = some c)
    (hwatched : k.watched fd = none) (hs : ∀ d, s.kernel.conns fd = some d → d = c)
    (hslot : ∀ w, w = none ∨ w = some ev.events →
      Slot whole fd ev w (k.received c) (k.sent c)) (p : Prop) [Decidable p] :
    Sane whole { s with
      events := Function.update s.events fd ev
      kernel := if p then k.watch fd ev.events else k } ∧
    Touches fd s { s with
      events := Function.update s.events fd ev
      kernel := if p then k.watch fd ev.events else k } := by
  have hkept (k' : Kernel Mask) (hk' : k'.Sound) (hl' : Kernel.Local fd s.kernel k')
      (hconns : k'.conns = k.conns) (hrec : k'.received c = k.received c)
      (hsent : k'.sent c = k.sent c)
      (hw : k'.watched fd = none ∨ k'.watched fd = some ev.events) :
      Sane whole { s with events := Function.update s.events fd ev, kernel := k' } := by
    apply h.touched (touches_set hl') hk' hfd h.inside
    · intro hnone
      have hnone : k'.conns fd = none := hnone
      rw [hconns, hconn] at hnone
      cases hnone
    · intro d hd
      have hd : k'.conns fd = some d := hd
      rw [hconns, hconn] at hd
      obtain rfl := Option.some.inj hd
      left
      simp only [Function.update_self, hrec, hsent]
      exact hslot _ hw
    · intro d hd
      rw [hs d hd]
      simp only [hrec, hsent]
      exact ⟨_, (hslot none (Or.inl rfl)).echoed⟩
  by_cases hp : p
  · simp only [if_pos hp]
    refine ⟨hkept _ hk.watch (hl.watch _) rfl rfl rfl ?_, touches_set (hl.watch _)⟩
    exact Or.inr (Function.update_self ..)
  · simp only [if_neg hp]
    exact ⟨hkept k hk hl rfl rfl rfl (Or.inl hwatched), touches_set hl⟩

theorem recv_sane (h : Sane whole s) (hfd : fd ≠ sockFd)
    (hm : s.kernel.watched fd = some .epollIn) (hfits : Fits a)
    (hu : callback fd a s = some u) : Sane whole u ∧ Touches fd s u := by
  obtain ⟨c, hc, hslot, hin⟩ := h.slot hfd hm
  obtain ⟨hbound, hfdeq, hstatus, hcallback, -, -, -, hechoed⟩ := hslot
  rw [← hin] at hcallback
  have hlt := h.sound.numbered fd c hc
  rw [NtyEvent.pending, ← hin] at hechoed
  rw [callback, hcallback, hfdeq] at hu
  simp only [Mask.callback, recvCallback, ntyEventDel_eq hbound hstatus, Function.update_self,
    hfdeq] at hu
  have hconn : (s.kernel.unwatch fd).conns fd = some c := hc
  rw [hconn] at hu
  cases a with
  | received r add =>
    cases r with
    | error | closed =>
      obtain rfl := Option.some.inj hu
      have hl := (Kernel.Local.refl (k := s.kernel) fd).unwatch.close
      refine ⟨?_, touches_set hl⟩
      exact h.dropped (h.open_fd hc) (h.sound.unwatch.close fd) hl (Function.update_self ..)
        (Function.update_self ..) rfl rfl
    | data bytes =>
      obtain ⟨⟨hbytes, hle⟩, hu⟩ := Option.ite_none_right_eq_some.mp hu
      have hfits : bytes.length < maxBufferSize := hfits
      simp only [State.fill, if_pos hfits, setEvent_eq hbound, renew_eq hbound,
        Function.update_self, Function.update_idem] at hu
      obtain rfl := Option.some.inj hu
      refine h.renewed (h.open_fd hc) (h.sound.unwatch.receive hlt)
        ((Kernel.Local.refl fd).unwatch.receive hc bytes) hc (Function.update_self ..)
        (fun d hd => Option.some.inj (hd.symm.trans hc)) (fun w hw => ?_) _
      have hpos := List.length_pos_iff.mpr hbytes
      refine ⟨hbound, rfl, rfl, rfl, hw, fun _ => ⟨hpos, by simp⟩, fun _ => hle, ?_⟩
      have hpending : (bytes ++ 0 :: (s.events fd).buffer.drop (bytes.length + 1)).take
          bytes.length = bytes := List.take_left
      have hrec : ((s.kernel.unwatch fd).receive c bytes).received c =
          s.kernel.received c ++ bytes := Function.update_self ..
      rw [NtyEvent.pending, hpending, hrec]
      exact hechoed.receive
  | _ => cases hu

theorem send_sane (h : Sane whole s) (hfd : fd ≠ sockFd)
    (hm : s.kernel.watched fd = some .epollOut)
    (hwhole : whole → ∀ n add, a = .sent (.sent n) add → n = (s.events fd).length)
    (hu : callback fd a s = some u) : Sane whole u ∧ Touches fd s u := by
  obtain ⟨c, hc, hslot, hout⟩ := h.slot hfd hm
  obtain ⟨hbound, hfdeq, hstatus, hcallback, -, hlength, -, hechoed⟩ := hslot
  obtain ⟨hpos, hle⟩ := hlength hout.symm
  rw [← hout] at hcallback
  have hlt := h.sound.numbered fd c hc
  rw [NtyEvent.pending, ← hout] at hechoed
  have hgone : some (ntyEventDel (s.close fd) fd) = some u → Sane whole u ∧ Touches fd s u := by
    intro hu
    rw [State.close, del_eq hbound hfdeq hstatus] at hu
    obtain rfl := Option.some.inj hu
    have hl := (Kernel.Local.refl (k := s.kernel) fd).close.unwatch
    refine ⟨?_, touches_set hl⟩
    exact h.dropped (h.open_fd hc) (h.sound.close fd).unwatch hl (Function.update_self ..)
      (Function.update_self ..) rfl rfl
  rw [callback, hcallback, hfdeq] at hu
  simp only [Mask.callback, sendCallback, hfdeq, hc] at hu
  cases a with
  | sent r add =>
    cases r with
    | error => exact hgone hu
    | sent n =>
      obtain ⟨hn, hu⟩ := Option.ite_none_right_eq_some.mp hu
      split_ifs at hu with hzero
      · rw [del_eq hbound hfdeq hstatus, renew_eq hbound] at hu
        simp only [Function.update_self, Function.update_idem] at hu
        obtain rfl := Option.some.inj hu
        refine h.renewed (h.open_fd hc) (h.sound.send hlt).unwatch
          ((Kernel.Local.refl fd).send hc _).unwatch hc (Function.update_self ..)
          (fun d hd => Option.some.inj (hd.symm.trans hc)) (fun w hw => ?_) _
        refine ⟨hbound, rfl, rfl, rfl, hw, nofun, nofun, ?_⟩
        set chunk := (s.events fd).buffer.take (s.events fd).length with hchunk
        have hlen : chunk.length = (s.events fd).length := List.length_take_of_le hle
        have hsent : ((s.kernel.send c (chunk.take n)).unwatch fd).sent c =
            s.kernel.sent c ++ chunk.take n := Function.update_self ..
        rw [hsent]
        apply hechoed.send (List.take_prefix ..)
        · apply List.ne_nil_of_length_pos
          rw [List.length_take, hlen]
          omega
        · intro hw'
          exact List.take_of_length_le (by rw [hlen, hwhole hw' n add rfl])
      · exact hgone hu
  | _ => cases hu

theorem five_le (hfd : fd ∉ own) : 5 ≤ fd := by
  have hmem : ∀ n < 5, n ∈ own := by decide
  exact Nat.le_of_not_lt fun hlt => hfd (hmem fd hlt)

theorem mem_places {n : Nat} : n ∈ List.range' 5 (maxEpollEvents - 5) ↔
    5 ≤ n ∧ n < maxEpollEvents :=
  List.mem_range'_1

/-- A free place in the table has no client, so the next descriptor fits in the table. -/
theorem Sane.lowest_lt (h : Sane whole s) (hlow : Lowest s.kernel fd) (hfull : full s = false) :
    fd < maxEpollEvents := by
  obtain ⟨i, hi, hfree⟩ := List.all_eq_false.mp hfull
  obtain ⟨hi, hlt⟩ := mem_places.mp hi
  have hfree : (s.events i).status = 0 := of_not_not fun hne => hfree (decide_eq_true hne)
  have hopen : ¬ Open s.kernel i := by
    rintro (hopen | hown)
    · obtain ⟨c, hc⟩ := Option.ne_none_iff_exists'.mp hopen
      rcases h.clients i c hc with hslot | hleaked
      · exact absurd (hfree.symm.trans hslot.status) nofun
      · exact hleaked.status hlt hfree
    · have hsmall : ∀ n ∈ own, n < 5 := by decide
      exact Nat.not_le.mpr (hsmall i hown) hi
  have hle : fd ≤ i := Nat.le_of_not_lt fun hlt => hopen (hlow.2 i hlt)
  exact Nat.lt_of_le_of_lt hle hlt

theorem accept_sane (h : Sane whole s) (hu : callback sockFd a s = some u) :
    Sane whole u ∧ ∃ fd ≠ sockFd, s.kernel.conns fd = none ∧ Touches fd s u := by
  rw [callback, h.listens.callback] at hu
  simp only [acceptCallback] at hu
  split at hu
  · obtain rfl := Option.some.inj hu
    exact ⟨h, 0, by decide, h.apart 0 (by decide), fun _ _ => rfl, Kernel.Local.refl 0, rfl⟩
  · rename_i cliFd add
    obtain ⟨hlow, hu⟩ := Option.ite_none_right_eq_some.mp hu
    obtain ⟨hnone, hown⟩ := not_or.mp hlow.1
    have hnone := of_not_not hnone
    have hne : cliFd ≠ sockFd := fun heq => hown (heq ▸ by decide)
    have hwatched := h.closed cliFd hne hnone
    have hl : Kernel.Local cliFd s.kernel (s.kernel.accept cliFd) := (Kernel.Local.refl _).accept
    have hconn : (s.kernel.accept cliFd).conns cliFd = some s.kernel.accepted :=
      Function.update_self ..
    obtain ⟨hrec, hsent⟩ := h.sound.fresh s.kernel.accepted le_rfl
    have hechoed : Echoed whole ((s.kernel.accept cliFd).received s.kernel.accepted)
        ((s.kernel.accept cliFd).sent s.kernel.accepted) [] := by
      simp only [Kernel.accept, hrec, hsent]
      exact echoed_nil
    have hopen : Open (s.kernel.accept cliFd) cliFd := by
      left
      rw [hconn]
      exact Option.some_ne_none _
    rw [accepted] at hu
    split_ifs at hu with hfull
    · obtain rfl := Option.some.inj hu
      have ht : Touches cliFd s { s with kernel := s.kernel.accept cliFd } :=
        ⟨fun _ _ => rfl, hl, rfl⟩
      refine ⟨h.touched ht (h.sound.accept cliFd) hown h.inside (fun _ => hwatched) ?_ ?_,
        cliFd, hne, hnone, ht⟩
      · intro c hc
        obtain rfl := Option.some.inj (hconn.symm.trans hc)
        refine Or.inr ⟨hwatched, hrec, hsent, fun hbound => ?_⟩
        have hmem := mem_places.mpr ⟨five_le hown, hbound⟩
        exact of_decide_eq_true (List.all_eq_true.mp hfull cliFd hmem)
      · intro c hc
        rw [hnone] at hc
        cases hc
    · have hbound := h.lowest_lt hlow (Bool.eq_false_iff.mpr hfull)
      rw [renew_eq hbound] at hu
      obtain rfl := Option.some.inj hu
      let ev : NtyEvent := { s.events cliFd with
        fd := cliFd, events := .epollIn, callback := .recv, status := 1, length := 0 }
      have hslot (w : Option Mask) (hw : w = none ∨ w = some ev.events) :
          Slot whole cliFd ev w ((s.kernel.accept cliFd).received s.kernel.accepted)
            ((s.kernel.accept cliFd).sent s.kernel.accepted) :=
        ⟨hbound, rfl, rfl, rfl, hw, fun hmask => Mask.noConfusion hmask,
          fun hmask => Mask.noConfusion hmask, hechoed⟩
      obtain ⟨hsane, ht⟩ := h.renewed hown (h.sound.accept cliFd) hl hconn hwatched
        (by intro d hd; rw [hnone] at hd; cases hd) hslot
        (add ∧ Open (s.kernel.accept cliFd) cliFd ∧
          (s.kernel.accept cliFd).watched cliFd = none)
      exact ⟨hsane, cliFd, hne, hnone, ht⟩
  · cases hu

/-- A callback for an event that epoll reported touches its descriptor, or a new one. -/
theorem callback_sane (h : Sane whole s) {m : Mask} (hm : s.kernel.watched g = some m)
    (hfits : Fits a)
    (hwhole : whole → ∀ n add, a = .sent (.sent n) add → n = (s.events g).length)
    (hu : callback g a s = some u) :
    Sane whole u ∧ ∃ fd, Touches fd s u ∧ (fd = g ∨ s.kernel.watched fd = none) := by
  by_cases hg : g = sockFd
  · subst hg
    obtain ⟨hsane, fd, hne, hnone, ht⟩ := accept_sane h hu
    exact ⟨hsane, fd, ht, Or.inr (h.closed fd hne hnone)⟩
  · cases m with
    | epollIn =>
      obtain ⟨hsane, ht⟩ := recv_sane h hg hm hfits hu
      exact ⟨hsane, g, ht, Or.inl rfl⟩
    | epollOut =>
      obtain ⟨hsane, ht⟩ := send_sane h hg hm hwhole hu
      exact ⟨hsane, g, ht, Or.inl rfl⟩

/-- What epoll reported of another descriptor still holds then. -/
theorem Touches.reported (ht : Touches fd s u) (hfd : fd = g ∨ s.kernel.watched fd = none)
    {r : Ready} (hne : r.fd ≠ g) (hr : Reported s.kernel r) : Reported u.kernel r := by
  have hne' : r.fd ≠ fd := by
    rintro rfl
    exact hfd.elim hne hr.1
  rw [Reported, ht.kernel.watched r.fd hne']
  exact hr

theorem Sane.at (h : Sane whole s) (active : List Ready) (l : Loc) :
    Sane whole { s with active := active, loc := l } :=
  ⟨h.sound, h.apart, h.listens, h.closed, h.clients, h.echoed, h.inside⟩

/-- One of the two tests. -/
theorem test_good (h : Sane whole s) {r : Ready} {rest : List Ready}
    (hactive : s.active = r :: rest) (hnodup : (s.active.map Ready.fd).Nodup)
    (hrest : ∀ r ∈ rest, Reported s.kernel r) {now : Bool} {m : Mask}
    (hnow : now = true → s.kernel.watched r.fd = some m) (hfits : Fits a)
    (hwhole : whole → Complete s a) (hu : test now r a s = some u) :
    Sane whole u ∧ u.active = r :: rest ∧ (∀ r ∈ rest, Reported u.kernel r) ∧
      (now = false → u = s) := by
  cases now with
  | false =>
    obtain rfl : s = u := by
      cases a with
      | next => exact Option.some.inj hu
      | _ => cases hu
    exact ⟨h, hactive, hrest, fun _ => rfl⟩
  | true =>
    have hcomplete : whole → ∀ n add, a = .sent (.sent n) add → n = (s.events r.fd).length := by
      rintro hw n add rfl
      exact hwhole hw r (by rw [hactive]; rfl)
    obtain ⟨hsane, fd, ht, hfd⟩ := callback_sane h (hnow rfl) hfits hcomplete hu
    refine ⟨hsane, ht.active.trans hactive, fun r' hr' => ?_, nofun⟩
    rw [hactive, List.map_cons, List.nodup_cons] at hnodup
    have hne : r'.fd ≠ r.fd := fun heq => hnodup.1 (heq ▸ List.mem_map_of_mem hr')
    exact ht.reported hfd hne (hrest r' hr')

theorem step_good (h : Sane whole s ∧ Due s) (hfits : Fits a) (hwhole : whole → Complete s a)
    (hu : step s a = some u) : Sane whole u ∧ Due u := by
  obtain ⟨hsane, hnodup, hrest, hhead⟩ := h
  unfold step at hu
  split at hu
  · rename_i ready hloc
    obtain ⟨⟨-, hfds, hready⟩, hu⟩ := Option.ite_none_right_eq_some.mp hu
    obtain rfl := Option.some.inj hu
    refine ⟨hsane.at ready .first, hfds, fun r hr => hready r (List.mem_of_mem_tail hr), ?_⟩
    intro r hr
    have hr := hready r (List.mem_of_mem_head? hr)
    exact ⟨fun _ => hr, hr.2.2⟩
  · obtain rfl := Option.some.inj hu
    exact ⟨hsane.at _ .left, hnodup, hrest, fun r hr => ⟨nofun, (hhead r hr).2⟩⟩
  · obtain rfl := Option.some.inj hu
    exact ⟨hsane.at _ .wait, hnodup, hrest, fun r hr => ⟨nofun, (hhead r hr).2⟩⟩
  · rename_i a r rest hloc hactive
    obtain ⟨v, hv, rfl⟩ := Option.map_eq_some_iff.mp hu
    rw [hactive] at hrest
    have hr := (hhead r (by rw [hactive]; rfl)).1 hloc
    obtain ⟨hsane', hactive', hrest', hkept⟩ := test_good hsane hactive hnodup hrest
      (fun hnow => hr.2.1 (Bool.and_eq_true_iff.mp hnow).1) hfits hwhole hv
    refine ⟨hsane'.at v.active .second, ?_⟩
    rw [hactive] at hnodup
    refine ⟨hactive' ▸ hnodup, hactive' ▸ hrest', ?_⟩
    intro r' hr'
    obtain rfl : r = r' := by
      have hr' : r' ∈ v.active.head? := hr'
      rw [hactive'] at hr'
      exact Option.some.inj hr'
    refine ⟨nofun, fun hout => ?_⟩
    -- one event is not for both, so this was not the callback
    have hout' := hr.2.2 hout
    have hnot : r.epollIn = false := by
      apply Bool.eq_false_iff.mpr
      intro hin
      exact absurd ((hr.2.1 hin).symm.trans hout') nofun
    rw [hkept (by rw [hnot, Bool.false_and])]
    exact hout'
  · rename_i a r rest hloc hactive
    obtain ⟨v, hv, rfl⟩ := Option.map_eq_some_iff.mp hu
    rw [hactive] at hrest
    have hr := (hhead r (by rw [hactive]; rfl)).2
    obtain ⟨hsane', -, hrest', -⟩ := test_good hsane hactive hnodup hrest
      (fun hnow => hr (Bool.and_eq_true_iff.mp hnow).1) hfits hwhole hv
    rw [hactive, List.map_cons, List.nodup_cons] at hnodup
    refine ⟨hsane'.at rest .first, hnodup.2, fun r hr => hrest' r (List.mem_of_mem_tail hr), ?_⟩
    intro r hr
    have hr := hrest' r (List.mem_of_mem_head? hr)
    exact ⟨fun _ => hr, hr.2.2⟩
  · cases hu

theorem init_good (memory : Fd → NtyEvent) : Sane whole (init memory) ∧ Due (init memory) := by
  have hopen : Open Kernel.empty sockFd := Or.inr (by decide)
  have hwatched : (Kernel.empty : Kernel Mask).watched sockFd = none := rfl
  rw [init, renew_eq (by decide), if_pos ⟨rfl, hopen, hwatched⟩]
  refine ⟨⟨Kernel.sound_empty.watch, fun _ _ => rfl, ?_, ?_, nofun, ?_, rfl⟩,
    List.nodup_nil, nofun, nofun⟩
  · exact ⟨by simp, by simp, by simp, by simp [Kernel.watch]⟩
  · exact fun fd hfd _ => Function.update_of_ne hfd ..
  · exact fun c => ⟨[], echoed_nil⟩

theorem run_sane {ok : State → Act → Prop} (hok : ∀ s a, ok s a → Fits a ∧ (whole → Complete s a))
    {memory : Fd → NtyEvent} {acts : List Act} (hmeets : Meets step ok acts (init memory))
    (hrun : exec step acts (init memory) = some s) : Sane whole s :=
  (exec_invariant (I := fun s => Sane whole s ∧ Due s)
    (fun s a _ h hsa hu => step_good h (hok s a hsa).1 (hok s a hsa).2 hu) (init_good memory) hmeets
    hrun).1

/-- An access beyond an array is not forgotten. -/
theorem setEvent_outside (h : s.outside = true) : (s.setEvent i ev).outside = true := by
  rw [State.setEvent]
  split_ifs
  · exact h
  · rfl

theorem renew_outside (h : s.outside = true) {event : Mask} {length : Nat} {cb : Callback} :
    (ntyEventAdd (ntyEventSet s i fd event length 0 cb) i add).outside = true := by
  have hset : (ntyEventSet s i fd event length 0 cb).outside = true := setEvent_outside h
  rw [ntyEventAdd]
  dsimp only
  split_ifs
  · exact setEvent_outside hset
  · exact setEvent_outside hset
  · exact hset
  · exact hset

theorem fill_outside {bytes : List UInt8} (hlong : maxBufferSize ≤ bytes.length) :
    (s.fill i bytes).outside = true := by
  simp only [State.fill, if_neg (Nat.not_lt.mpr hlong)]

/-- A chunk as long as the buffer has no place for the zero. -/
theorem callback_overruns (hfits : ¬ Fits a) (hu : callback g a s = some u) : u.outside = true := by
  obtain ⟨bytes, add, rfl, hlong⟩ : ∃ bytes add, a = .received (.data bytes) add ∧
      maxBufferSize ≤ bytes.length := by
    unfold Fits at hfits
    split at hfits
    · exact ⟨_, _, rfl, Nat.not_lt.mp hfits⟩
    · exact absurd trivial hfits
  unfold callback at hu
  split at hu
  · cases hu
  · simp only [recvCallback] at hu
    split at hu
    · cases ‹Act.received _ _ = _›
    · cases ‹Act.received _ _ = _›
    · rename_i heq _
      cases heq
      obtain ⟨-, hu⟩ := Option.ite_none_right_eq_some.mp hu
      obtain rfl := Option.some.inj hu
      exact renew_outside (fill_outside hlong)
    · cases hu
  · cases hu

theorem step_overruns (hfits : ¬ Fits a) (hu : step s a = some u) : u.outside = true := by
  have htest (now : Bool) (r : Ready) (v : State) (hv : test now r a s = some v) :
      v.outside = true := by
    cases now with
    | true => exact callback_overruns hfits hv
    | false =>
      simp only [test, Bool.false_eq_true, ↓reduceIte] at hv
      split at hv
      · exact absurd trivial hfits
      · cases hv
  unfold step at hu
  split at hu
  · exact absurd trivial hfits
  · exact absurd trivial hfits
  · exact absurd trivial hfits
  · obtain ⟨v, hv, rfl⟩ := Option.map_eq_some_iff.mp hu
    exact htest _ _ v hv
  · obtain ⟨v, hv, rfl⟩ := Option.map_eq_some_iff.mp hu
    exact htest _ _ v hv
  · cases hu

/-- The event of what is watched. -/
theorem Sane.read (h : Sane whole s) {m : Mask} (hm : s.kernel.watched fd = some m) :
    fd < maxEpollEvents ∧ (s.events fd).fd = fd ∧
      ((s.events fd).callback = .send → (s.events fd).length ≤ maxBufferSize) := by
  by_cases hfd : fd = sockFd
  · subst hfd
    obtain ⟨hfdeq, -, hcallback, -⟩ := h.listens
    refine ⟨by decide, hfdeq, fun hsend => ?_⟩
    rw [hcallback] at hsend
    cases hsend
  · obtain ⟨c, -, hslot, -⟩ := h.slot hfd hm
    refine ⟨hslot.bound, hslot.fd_eq, fun hsend => hslot.sendable ?_⟩
    rw [hslot.callback] at hsend
    cases hevents : (s.events fd).events with
    | epollIn =>
      rw [hevents] at hsend
      cases hsend
    | epollOut => rfl

theorem Sane.inside_due (h : Sane whole s) (hdue : Due s) : Inside s := by
  have hread (r : Ready) (m : Mask) (hm : s.kernel.watched r.fd = some m) :
      ∀ i ∈ [r.fd, (s.events r.fd).fd], i < maxEpollEvents ∧
        ((s.events i).callback = .send → (s.events i).length ≤ maxBufferSize) := by
    obtain ⟨hbound, hfdeq, hlength⟩ := h.read hm
    rw [hfdeq]
    simpa using ⟨hbound, hlength⟩
  refine ⟨h.inside, ?_⟩
  obtain ⟨-, -, hhead⟩ := hdue
  unfold State.reads
  split
  · rename_i r rest hloc hactive
    split_ifs with hin
    · exact hread r .epollIn (((hhead r (by rw [hactive]; rfl)).1 hloc).2.1 hin)
    · exact nofun
  · rename_i r rest hloc hactive
    split_ifs with hout
    · exact hread r .epollOut ((hhead r (by rw [hactive]; rfl)).2 hout)
    · exact nofun
  · exact nofun

/-- No access is beyond an array, whatever was in the memory, unless a client sends as many bytes
at once as the buffer has. -/
theorem inside_iff_fits (memory : Fd → NtyEvent) (acts : List Act) (s : State)
    (hrun : exec step acts (init memory) = some s) :
    Always step Inside acts (init memory) ↔
      Meets step (fun _ => Fits) acts (init memory) := by
  apply always_iff_meets (I := fun s => Sane False s ∧ Due s) _ _ _ (init_good memory) hrun
  · exact fun s a u h hfits hu => step_good h hfits nofun hu
  · exact fun s h => h.1.inside_due h.2
  · intro s a u h hfits hu hinside
    have houtside := step_overruns hfits hu
    rw [hinside.written] at houtside
    cases houtside

/-- A client connects, sends four bytes and gets the first three of them back. -/
def sample : List Act :=
  [.events [⟨3, true, false⟩], .accepted (some 5) true, .next, .next,
    .events [⟨5, true, false⟩], .received (.data [80, 73, 78, 71]) true, .next, .next,
    .events [⟨5, false, true⟩], .next, .sent (.sent 3) true, .next]

/-- Memory that holds zeros. -/
def zeros : Fd → NtyEvent := fun _ => ⟨0, .epollIn, .accept, 0, List.replicate maxBufferSize 0, 0⟩

theorem inside_iff_fits_sample : ∃ s, exec step sample (init zeros) = some s ∧
    (Always step Inside sample (init zeros) ↔
      Meets step (fun _ => Fits) sample (init zeros)) :=
  exists_exec (by decide) fun s hs => inside_iff_fits zeros sample s hs

/-- What epoll watches has an event of its own with the callback for it. A free place of the table
has no client, and while there is one the next descriptor has a place. -/
theorem watched_registered (memory : Fd → NtyEvent) (acts : List Act) (s : State)
    (hmeets : Meets step (fun _ => Fits) acts (init memory))
    (hrun : exec step acts (init memory) = some s) :
    (∀ fd m, s.kernel.watched fd = some m → fd < maxEpollEvents ∧ (s.events fd).fd = fd ∧
      (s.events fd).events = m ∧
      (s.events fd).callback = if fd = sockFd then .accept else m.callback) ∧
    (∀ fd, fd ∉ own → fd < maxEpollEvents → (s.events fd).status = 0 →
      s.kernel.conns fd = none ∧ s.kernel.watched fd = none) ∧
    ∀ fd, full s = false → Lowest s.kernel fd → fd < maxEpollEvents := by
  have h : Sane False s := run_sane (fun _ _ hfits => ⟨hfits, nofun⟩) hmeets hrun
  refine ⟨?_, ?_, fun fd hfull hlow => h.lowest_lt hlow hfull⟩
  · intro fd m hm
    by_cases hfd : fd = sockFd
    · subst hfd
      obtain ⟨hfdeq, hevents, hcallback, hwatched⟩ := h.listens
      obtain rfl := Option.some.inj (hwatched.symm.trans hm)
      exact ⟨by decide, hfdeq, hevents, hcallback⟩
    · obtain ⟨c, -, hslot, rfl⟩ := h.slot hfd hm
      rw [if_neg hfd]
      exact ⟨hslot.bound, hslot.fd_eq, rfl, hslot.callback⟩
  · intro fd hfd hbound hstatus
    have hne : fd ≠ sockFd := fun heq => hfd (heq ▸ by decide)
    have hnone : s.kernel.conns fd = none := by
      by_contra hsome
      obtain ⟨c, hc⟩ := Option.ne_none_iff_exists'.mp hsome
      rcases h.clients fd c hc with hslot | hleaked
      · exact absurd (hslot.status.symm.trans hstatus) nofun
      · exact hleaked.status hbound hstatus
    exact ⟨hnone, h.closed fd hne hnone⟩

theorem watched_registered_sample : ∃ s, exec step sample (init zeros) = some s ∧
    (∀ fd m, s.kernel.watched fd = some m → fd < maxEpollEvents ∧ (s.events fd).fd = fd ∧
      (s.events fd).events = m ∧
      (s.events fd).callback = if fd = sockFd then .accept else m.callback) ∧
    (∀ fd, fd ∉ own → fd < maxEpollEvents → (s.events fd).status = 0 →
      s.kernel.conns fd = none ∧ s.kernel.watched fd = none) ∧
    ∀ fd, full s = false → Lowest s.kernel fd → fd < maxEpollEvents :=
  exists_exec (by decide) fun s hs => watched_registered zeros sample s (by decide) hs

theorem Sane.pending (h : Sane whole s) (c : Conn) : ∃ pending,
    Echoed whole (s.kernel.received c) (s.kernel.sent c) pending ∧
      ∀ fd, s.kernel.conns fd = some c → s.kernel.watched fd = some .epollIn → pending = [] := by
  by_cases hc : ∃ fd, s.kernel.conns fd = some c ∧ s.kernel.watched fd = some .epollIn
  · obtain ⟨fd, hc, hm⟩ := hc
    have hfd : fd ≠ sockFd := fun heq => h.open_fd hc (heq ▸ by decide)
    obtain ⟨d, hd, hslot, hin⟩ := h.slot hfd hm
    obtain rfl := Option.some.inj (hc.symm.trans hd)
    have hechoed := hslot.echoed
    rw [NtyEvent.pending, ← hin] at hechoed
    exact ⟨[], hechoed, fun _ _ _ => rfl⟩
  · obtain ⟨pending, hechoed⟩ := h.echoed c
    exact ⟨pending, hechoed, fun fd hfd hm => absurd ⟨fd, hfd, hm⟩ hc⟩

/-- What was received from a client are pieces that it got a reply to, and a rest without one. The
reply is the piece, or only the beginning of it where `send` took no more. While the client is
watched for reading there is no such rest. -/
theorem replies_prefixes (memory : Fd → NtyEvent) (acts : List Act) (s : State)
    (hmeets : Meets step (fun _ => Fits) acts (init memory))
    (hrun : exec step acts (init memory) = some s) (c : Conn) :
    ∃ (pairs : List (List UInt8 × List UInt8)) (pending : List UInt8),
      s.kernel.received c = pairs.flatMap Prod.fst ++ pending ∧
      s.kernel.sent c = pairs.flatMap Prod.snd ∧ (∀ p ∈ pairs, p.2 <+: p.1 ∧ p.2 ≠ []) ∧
      ∀ fd, s.kernel.conns fd = some c → s.kernel.watched fd = some .epollIn → pending = [] := by
  have h : Sane False s := run_sane (fun _ _ hfits => ⟨hfits, nofun⟩) hmeets hrun
  obtain ⟨pending, ⟨pairs, hrec, hsent, hpairs⟩, hnone⟩ := h.pending c
  exact ⟨pairs, pending, hrec, hsent, fun p hp => ⟨(hpairs p hp).1, (hpairs p hp).2.1⟩, hnone⟩

theorem replies_prefixes_sample : ∃ s, exec step sample (init zeros) = some s ∧
    ∃ (pairs : List (List UInt8 × List UInt8)) (pending : List UInt8),
      s.kernel.received 0 = pairs.flatMap Prod.fst ++ pending ∧
      s.kernel.sent 0 = pairs.flatMap Prod.snd ∧ (∀ p ∈ pairs, p.2 <+: p.1 ∧ p.2 ≠ []) ∧
      ∀ fd, s.kernel.conns fd = some 0 → s.kernel.watched fd = some .epollIn → pending = [] :=
  exists_exec (by decide) fun s hs => replies_prefixes zeros sample s (by decide) hs 0

/-- Where `send` takes all that it is given, a client gets back what it sent, and all of it by the
time the server reads from it again. -/
theorem echo_exact (memory : Fd → NtyEvent) (acts : List Act) (s : State)
    (hmeets : Meets step (fun s a => Fits a ∧ Complete s a) acts (init memory))
    (hrun : exec step acts (init memory) = some s) (c : Conn) :
    s.kernel.sent c <+: s.kernel.received c ∧
      ∀ fd, s.kernel.conns fd = some c → s.kernel.watched fd = some .epollIn →
        s.kernel.sent c = s.kernel.received c := by
  have h : Sane True s := run_sane (fun _ _ hok => ⟨hok.1, fun _ => hok.2⟩) hmeets hrun
  obtain ⟨pending, ⟨pairs, hrec, hsent, hpairs⟩, hnone⟩ := h.pending c
  have hsame : pairs.flatMap Prod.snd = pairs.flatMap Prod.fst :=
    List.flatMap_congr fun p hp => (hpairs p hp).2.2 trivial
  rw [hsent, hrec, hsame]
  refine ⟨List.prefix_append .., fun fd hfd hm => ?_⟩
  rw [hnone fd hfd hm, List.append_nil]

theorem echo_exact_sample : ∃ s, exec step (sample.take 8 ++ [.events [⟨5, false, true⟩], .next,
    .sent (.sent 4) true]) (init zeros) = some s ∧
    s.kernel.sent 0 <+: s.kernel.received 0 ∧
      ∀ fd, s.kernel.conns fd = some 0 → s.kernel.watched fd = some .epollIn →
        s.kernel.sent 0 = s.kernel.received 0 :=
  exists_exec (by decide) fun s hs => echo_exact zeros _ s (by decide) hs 0

end

end LanguageTest.NtyReactor
