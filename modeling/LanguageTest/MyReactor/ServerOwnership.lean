import LanguageTest.MyReactor.Server

namespace LanguageTest.ReactorServer
open Transition Monitor

def Loc.handles : Loc → Option (Fd × Option Conn)
  | .worker l => l.handles
  | .main _ | .accept _ | .stop _ => none

/-- The worker is in `closeClient`. -/
def WorkerLoc.closing : WorkerLoc → Option (Fd × Option Conn)
  | .del fd conn _ | .close fd conn _ => some (fd, conn)
  | .take | .recv .. | .send .. | .left => none

def Loc.closing : Loc → Option (Fd × Option Conn)
  | .worker l => l.closing
  | .main _ | .accept _ | .stop _ => none

/-- A descriptor that a worker has taken concerns the connection that its event was for and the
one that it names now. -/
def Concerns (s : State) (k : Conn) (taken : Fd × Option Conn) : Prop :=
  taken.2 = some k ∨ s.conns taken.1 = some k

/-- What is promised about the connections: no two workers are at the same one, `closeClient` gets
a descriptor that still names the connection of the worker, and no connection is closed twice. -/
structure Owned (c : Config Who Cond Loc State) : Prop where
  exclusive : ∀ i j x y k, (c.loc (.workerThread i)).handles = some x →
    (c.loc (.workerThread j)).handles = some y → Concerns c.shared k x → Concerns c.shared k y →
    i = j
  named : ∀ i fd conn, (c.loc (.workerThread i)).closing = some (fd, conn) →
    conn ≠ none ∧ c.shared.conns fd = conn
  once : c.shared.closed.Nodup

/-- A worker that takes a descriptor is the only one with it, and the descriptor names the open
connection that its event was for. -/
def TakesOwned (c : Config Who Cond Loc State) : Move Who Act → Prop
  | .run t _ _ =>
    match c.loc t, c.shared.clientsList with
    | .worker .take, (fd, conn) :: _ =>
      (conn ≠ none ∧ c.shared.conns fd = conn) ∧
        ∀ v, (c.loc v).handles.map Prod.fst ≠ some fd
    | _, _ => True
  | .wake _ => True

instance (c : Config Who Cond Loc State) (b : Move Who Act) : Decidable (TakesOwned c b) := by
  unfold TakesOwned
  split
  · split <;> infer_instance
  · infer_instance

/-- The descriptors that workers have taken are theirs, and the connections that are open are
neither closed nor still to come. -/
structure Valid (c : Config Who Cond Loc State) : Prop where
  named : ∀ t fd conn, (c.loc t).handles = some (fd, conn) →
    conn ≠ none ∧ c.shared.conns fd = conn
  exclusive : ∀ t v fd conn conn', (c.loc t).handles = some (fd, conn) →
    (c.loc v).handles = some (fd, conn') → t = v
  injective : ∀ fd fd' k, c.shared.conns fd = some k → c.shared.conns fd' = some k → fd = fd'
  fresh : ∀ fd k, c.shared.conns fd = some k → k < c.shared.accepted
  closed : ∀ conn ∈ c.shared.closed, ∃ k, conn = some k ∧ k < c.shared.accepted ∧
    ∀ fd, c.shared.conns fd ≠ some k
  nodup : c.shared.closed.Nodup

section
variable {c u : Config Who Cond Loc State} {b : Move Who Act} {t : Who} {fd : Fd}
  {conn : Option Conn}

theorem closing_handles {l : Loc} (h : l.closing = some (fd, conn)) :
    l.handles = some (fd, conn) := by
  cases l with
  | worker l =>
    cases l with
    | del fd' conn' leaving => exact h
    | close fd' conn' leaving => exact h
    | _ => cases h
  | _ => cases h

/-- A worker's descriptor names the connection that it concerns. -/
theorem Valid.concerns (h : Valid c) {x : Fd × Option Conn} {k : Conn}
    (ht : (c.loc t).handles = some x) (hx : Concerns c.shared k x) :
    c.shared.conns x.1 = some k := by
  rcases hx with hx | hx
  · rw [(h.named t x.1 x.2 ht).2, hx]
  · exact hx

theorem Valid.owned (h : Valid c) : Owned c := by
  constructor
  case exclusive =>
    intro i j x y k hi hj hx hy
    have hfd := h.injective x.1 y.1 k (h.concerns hi hx) (h.concerns hj hy)
    have hj' : (c.loc (.workerThread j)).handles = some (x.1, y.2) := by rw [hj, hfd]
    exact Who.workerThread.inj (h.exclusive _ _ _ _ _ hi hj')
  case named => exact fun i fd conn hclosing => h.named _ fd conn (closing_handles hclosing)
  case once => exact h.nodup

/-- Nobody has more descriptors than before. -/
def Fewer (c u : Config Who Cond Loc State) : Prop :=
  ∀ v fd conn, (u.loc v).handles = some (fd, conn) → (c.loc v).handles = some (fd, conn)

theorem fewer_of_self (hother : ∀ v, v ≠ t → u.loc v = c.loc v)
    (hself : (u.loc t).handles = none ∨ (u.loc t).handles = (c.loc t).handles) : Fewer c u := by
  intro v fd conn hv
  by_cases hvt : v = t
  · subst hvt
    rcases hself with hnone | hkept
    · rw [hnone] at hv
      cases hv
    · rwa [← hkept]
  · rwa [← hother v hvt]

theorem Valid.same (h : Valid c) (hsame : Same c.shared u.shared) (hfewer : Fewer c u) :
    Valid u := by
  obtain ⟨hconns, haccepted, hclosed⟩ := hsame
  constructor
  case named =>
    intro v fd conn hv
    rw [hconns]
    exact h.named v fd conn (hfewer v fd conn hv)
  case exclusive =>
    intro v w fd conn conn' hv hw
    exact h.exclusive v w fd conn conn' (hfewer v fd conn hv) (hfewer w fd conn' hw)
  case injective =>
    rw [hconns]
    exact h.injective
  case fresh =>
    rw [hconns, haccepted]
    exact h.fresh
  case closed =>
    rw [hclosed, hconns, haccepted]
    exact h.closed
  case nodup =>
    rw [hclosed]
    exact h.nodup

/-- A new connection has a descriptor that no worker has. -/
theorem Valid.accept (h : Valid c) (haccepted : Accepted fd c.shared u.shared)
    (hfewer : Fewer c u) : Valid u := by
  obtain ⟨⟨hunused, -⟩, hconns, hcount, hclosed⟩ := haccepted
  constructor
  case named =>
    intro v fd' conn hv
    obtain ⟨hsome, hnamed⟩ := h.named v fd' conn (hfewer v fd' conn hv)
    have hne : fd' ≠ fd := by
      intro heq
      rw [heq, hunused] at hnamed
      exact hsome hnamed.symm
    rw [hconns, Function.update_of_ne hne]
    exact ⟨hsome, hnamed⟩
  case exclusive =>
    intro v w fd' conn conn' hv hw
    exact h.exclusive v w fd' conn conn' (hfewer v fd' conn hv) (hfewer w fd' conn' hw)
  case injective =>
    intro x y k hx hy
    rw [hconns, Function.update_apply] at hx hy
    split at hx <;> split at hy
    · next hxfd hyfd => rw [hxfd, hyfd]
    · obtain rfl := Option.some.inj hx
      exact absurd (h.fresh y _ hy) (Nat.lt_irrefl _)
    · obtain rfl := Option.some.inj hy
      exact absurd (h.fresh x _ hx) (Nat.lt_irrefl _)
    · exact h.injective x y k hx hy
  case fresh =>
    intro x k hx
    rw [hconns, Function.update_apply] at hx
    rw [hcount]
    split at hx
    · obtain rfl := Option.some.inj hx
      exact Nat.lt_succ_self _
    · exact Nat.lt_succ_of_lt (h.fresh x k hx)
  case closed =>
    intro conn hconn
    rw [hclosed] at hconn
    obtain ⟨k, heq, hlt, hgone⟩ := h.closed conn hconn
    refine ⟨k, heq, hcount ▸ Nat.lt_succ_of_lt hlt, ?_⟩
    intro x hx
    rw [hconns, Function.update_apply] at hx
    split at hx
    · obtain rfl := Option.some.inj hx
      exact absurd hlt (Nat.lt_irrefl _)
    · exact hgone x hx
  case nodup =>
    rw [hclosed]
    exact h.nodup

/-- A worker takes a descriptor that meets the condition. -/
theorem Valid.take (h : Valid c) (hsame : Same c.shared u.shared)
    (hother : ∀ v, v ≠ t → u.loc v = c.loc v) (hself : (u.loc t).handles = some (fd, conn))
    (hnamed : conn ≠ none ∧ c.shared.conns fd = conn)
    (halone : ∀ v, (c.loc v).handles.map Prod.fst ≠ some fd) : Valid u := by
  obtain ⟨hconns, haccepted, hclosed⟩ := hsame
  have halone : ∀ v conn', (c.loc v).handles ≠ some (fd, conn') := by
    intro v conn' hv
    apply halone v
    rw [hv]
    rfl
  constructor
  case named =>
    intro v fd' conn' hv
    rw [hconns]
    by_cases hvt : v = t
    · rw [hvt, hself] at hv
      obtain ⟨rfl, rfl⟩ := Prod.mk.inj (Option.some.inj hv)
      exact hnamed
    · rw [hother v hvt] at hv
      exact h.named v fd' conn' hv
  case exclusive =>
    intro v w fd' conn' conn'' hv hw
    by_cases hvt : v = t
    · by_cases hwt : w = t
      · rw [hvt, hwt]
      · rw [hvt, hself] at hv
        rw [hother w hwt] at hw
        obtain ⟨rfl, -⟩ := Prod.mk.inj (Option.some.inj hv)
        exact absurd hw (halone w conn'')
    · rw [hother v hvt] at hv
      by_cases hwt : w = t
      · rw [hwt, hself] at hw
        obtain ⟨rfl, -⟩ := Prod.mk.inj (Option.some.inj hw)
        exact absurd hv (halone v conn')
      · rw [hother w hwt] at hw
        exact h.exclusive v w fd' conn' conn'' hv hw
  case injective =>
    rw [hconns]
    exact h.injective
  case fresh =>
    rw [hconns, haccepted]
    exact h.fresh
  case closed =>
    rw [hclosed, hconns, haccepted]
    exact h.closed
  case nodup =>
    rw [hclosed]
    exact h.nodup

/-- A worker closes its own connection. -/
theorem Valid.close (h : Valid c) (hclose : Closed fd conn c.shared u.shared)
    (hhere : (c.loc t).handles = some (fd, conn)) (hother : ∀ v, v ≠ t → u.loc v = c.loc v)
    (hself : (u.loc t).handles = none) : Valid u := by
  obtain ⟨hconns, haccepted, hclosed⟩ := hclose
  have hfewer := fewer_of_self hother (Or.inl hself)
  obtain ⟨hsome, hnamed⟩ := h.named t fd conn hhere
  obtain ⟨k, rfl⟩ := Option.ne_none_iff_exists'.mp hsome
  have hrest : ∀ x j, u.shared.conns x = some j → x ≠ fd ∧ c.shared.conns x = some j := by
    intro x j hx
    rw [hconns, Function.update_apply] at hx
    split at hx
    · cases hx
    · next hne => exact ⟨hne, hx⟩
  constructor
  case named =>
    intro v fd' conn' hv
    have hbefore := hfewer v fd' conn' hv
    have hne : fd' ≠ fd := by
      intro heq
      subst heq
      have hvt := h.exclusive v t fd' conn' (some k) hbefore hhere
      rw [hvt, hself] at hv
      cases hv
    rw [hconns, Function.update_of_ne hne]
    exact h.named v fd' conn' hbefore
  case exclusive =>
    intro v w fd' conn' conn'' hv hw
    exact h.exclusive v w fd' conn' conn'' (hfewer v fd' conn' hv) (hfewer w fd' conn'' hw)
  case injective =>
    exact fun x y j hx hy => h.injective x y j (hrest x j hx).2 (hrest y j hy).2
  case fresh =>
    intro x j hx
    rw [haccepted]
    exact h.fresh x j (hrest x j hx).2
  case closed =>
    intro conn' hconn'
    rw [hclosed] at hconn'
    rw [haccepted]
    rcases List.mem_cons.mp hconn' with rfl | hold
    · refine ⟨k, rfl, h.fresh fd k hnamed, ?_⟩
      intro x hx
      obtain ⟨hne, hx⟩ := hrest x k hx
      exact hne (h.injective x fd k hx hnamed)
    · obtain ⟨j, heq, hlt, hgone⟩ := h.closed conn' hold
      exact ⟨j, heq, hlt, fun x hx => hgone x (hrest x j hx).2⟩
  case nodup =>
    rw [hclosed]
    refine List.nodup_cons.mpr ⟨?_, h.nodup⟩
    intro hmem
    obtain ⟨j, heq, -, hgone⟩ := h.closed (some k) hmem
    exact hgone fd (hnamed.trans heq)

theorem Valid.wake (h : Valid c) (hwoke : Threads.Woke c t u) : Valid u := by
  apply h.same
  · rw [hwoke.shared]
    exact ⟨rfl, rfl, rfl⟩
  · intro v fd conn hv
    rwa [hwoke.loc] at hv

theorem act_valid (h : Valid c) (hok : TakesOwned c b) (hact : program.act c b = some u) :
    Valid u := by
  cases b with
  | wake t => exact h.wake (Threads.act_woke hact)
  | run t a pick =>
    obtain ⟨l, e, he, hran⟩ := Threads.act_ran hact
    have hself := hran.loc_self
    have hhere := hran.loc_here
    have hshared := hran.shared
    cases l with
    | main l =>
      obtain ⟨⟨l', hl'⟩, -, hsame⟩ := mainLoop_cases he
      rw [hl'] at hself
      rw [← hshared] at hsame
      exact h.same hsame (fewer_of_self hran.loc (Or.inl (by rw [hself]; rfl)))
    | accept l =>
      obtain ⟨⟨l', hl'⟩, -, heffect⟩ := acceptThread_cases he
      rw [hl'] at hself
      rw [← hshared] at heffect
      have hfewer := fewer_of_self hran.loc (Or.inl (by rw [hself]; rfl))
      rcases heffect with hsame | ⟨fd, haccepted⟩
      · exact h.same hsame hfewer
      · exact h.accept haccepted hfewer
    | stop l =>
      obtain ⟨⟨l', hl'⟩, -, hsame⟩ := stop_cases he
      rw [hl'] at hself
      rw [← hshared] at hsame
      exact h.same hsame (fewer_of_self hran.loc (Or.inl (by rw [hself]; rfl)))
    | worker l =>
      obtain ⟨l', hl', hworked⟩ := workerThread_cases he
      rw [hl'] at hself
      have hturn := hworked.turn
      rw [← hshared] at hturn
      cases hturn with
      | keeps hsame hhandles =>
        apply h.same hsame
        apply fewer_of_self hran.loc
        rw [hself, hhere]
        exact hhandles
      | takes fd conn rest htake hlist hsame hhandles =>
        subst htake
        simp only [TakesOwned, hhere, hlist] at hok
        refine h.take hsame hran.loc ?_ hok.1 hok.2
        rw [hself]
        exact hhandles
      | closes fd conn leaving hclose hclosed hhandles =>
        subst hclose
        refine h.close hclosed ?_ hran.loc ?_
        · rw [hhere]
          rfl
        · rw [hself]
          exact hhandles

theorem valid_init {listenFd epollFd : Fd} {stop : Bool} :
    Valid (init listenFd epollFd stop) := by
  have hnone : ∀ t, ((init listenFd epollFd stop).loc t).handles = none := by
    intro t
    cases t <;> rfl
  constructor
  case named =>
    intro t fd conn ht
    rw [hnone] at ht
    cases ht
  case exclusive =>
    intro t v fd conn conn' ht
    rw [hnone] at ht
    cases ht
  case injective => exact fun _ _ _ hx => nomatch hx
  case fresh => exact fun _ _ hx => nomatch hx
  case closed => exact fun _ hx => nomatch hx
  case nodup => exact List.nodup_nil

theorem run_ownership {listenFd epollFd : Fd} {stop : Bool} (acts : List (Move Who Act))
    (hok : Meets program.act TakesOwned acts (init listenFd epollFd stop))
    (hrun : exec program.act acts (init listenFd epollFd stop) = some c) : Owned c :=
  (exec_invariant (fun _ _ _ hs hok hact => act_valid hs hok hact) valid_init hok hrun).owned

/-- A client connects and goes, and another one gets its descriptor and is served. -/
theorem run_ownership_reuse : ∃ c, exec program.act
    [.run .acceptThread .next none, .run .mainLoop .next none, .run .mainLoop (.events [3]) none,
      .run .mainLoop .next (some .acceptThread), .run .acceptThread .next none,
      .run .acceptThread (.accepted (some 5)) none, .run .acceptThread (.succeeds true) none,
      .run .acceptThread (.succeeds true) none, .run .acceptThread .next none,
      .run .mainLoop .next none, .run .mainLoop .next none, .run .mainLoop (.events [5]) none,
      .run .mainLoop .next none, .run .mainLoop .next none, .run .mainLoop .next none,
      .run (.workerThread 0) .next none, .run (.workerThread 0) (.received .closed) none,
      .run (.workerThread 0) .next none, .run (.workerThread 0) .next none,
      .run .mainLoop .next none, .run .mainLoop .next none, .run .mainLoop (.events [3]) none,
      .run .mainLoop .next (some .acceptThread), .run .acceptThread .next none,
      .run .acceptThread (.accepted (some 5)) none, .run .acceptThread (.succeeds true) none,
      .run .acceptThread (.succeeds true) none, .run .mainLoop .next none,
      .run .mainLoop .next none, .run .mainLoop (.events [5]) none, .run .mainLoop .next none,
      .run .mainLoop .next none, .run .mainLoop .next none, .run (.workerThread 1) .next none]
    (init 3 4 true) = some c ∧ Owned c :=
  exists_exec (by decide +kernel) fun _ hrun => run_ownership _ (by decide +kernel) hrun

/-- Two events of one client reach two workers. The first closes the connection, a new one gets
its descriptor, and the second is about to close that. -/
theorem run_stolen : ∃ c, exec program.act
    [.run .acceptThread .next none, .run .mainLoop .next none, .run .mainLoop (.events [3]) none,
      .run .mainLoop .next (some .acceptThread), .run .acceptThread .next none,
      .run .acceptThread (.accepted (some 5)) none, .run .acceptThread (.succeeds true) none,
      .run .acceptThread (.succeeds true) none, .run .acceptThread .next none,
      .run .mainLoop .next none, .run .mainLoop .next none, .run .mainLoop (.events [5]) none,
      .run .mainLoop .next none, .run .mainLoop .next none, .run .mainLoop .next none,
      .run (.workerThread 0) .next none, .run .mainLoop .next none, .run .mainLoop .next none,
      .run .mainLoop (.events [5]) none, .run .mainLoop .next none, .run .mainLoop .next none,
      .run .mainLoop .next none, .run (.workerThread 1) .next none,
      .run (.workerThread 0) (.received .closed) none, .run (.workerThread 0) .next none,
      .run (.workerThread 0) .next none, .run .mainLoop .next none, .run .mainLoop .next none,
      .run .mainLoop (.events [3]) none, .run .mainLoop .next (some .acceptThread),
      .run .acceptThread .next none, .run .acceptThread (.accepted (some 5)) none,
      .run (.workerThread 1) (.received .closed) none]
    (init 3 4 true) = some c ∧ ¬ Owned c := by
  refine ⟨_, rfl, ?_⟩
  intro h
  have hnamed := (h.named 1 5 (some 0) rfl).2
  cases hnamed

end

end LanguageTest.ReactorServer
