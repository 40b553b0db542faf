import LanguageTest.Base.ThreadPool1

namespace LanguageTest.ThreadPool1
open Transition Monitor

variable {T α : Type*} [DecidableEq T] [Fintype T]
variable {workers : Finset T} {c u : Config T Cond (Loc α) (State T α)}
variable {t : T} {l : Loc α} {e : Effect Cond (Loc α) (State T α)} {b : Move T (Call α)}

/-- The workers that have found `stop` clear and have not yet taken a request. -/
def awaiting (c : Config T Cond (Loc α) (State T α)) : Finset T :=
  Finset.univ.filter fun t => (c.loc t).isAwait

/-- When the destructor sets `stop`, the queued requests are as many as the awaiting workers. -/
def StopsBalanced (c : Config T Cond (Loc α) (State T α)) : Move T (Call α) → Prop
  | .run t _ _ => (c.loc t).isSetStop → c.shared.tasksQueue.length = (awaiting c).card
  | .wake _ => True

instance (c : Config T Cond (Loc α) (State T α)) (b : Move T (Call α)) :
    Decidable (StopsBalanced c b) :=
  match b with
  | .run t _ _ => inferInstanceAs (Decidable ((c.loc t).isSetStop →
      c.shared.tasksQueue.length = (awaiting c).card))
  | .wake _ => .isTrue trivial

/-- Once the pool is stopped, every awaiting worker has a request to take. -/
def Balance (c : Config T Cond (Loc α) (State T α)) : Prop :=
  c.shared.stop = true → c.shared.tasksQueue.length = (awaiting c).card

omit [DecidableEq T] in
theorem mem_awaiting : t ∈ awaiting c ↔ (c.loc t).isAwait := by
  simp [awaiting]

theorem awaiting_same (hran : program.Ran c t l e u)
    (hsame : e.next.loc.isAwait = l.isAwait) : awaiting u = awaiting c := by
  ext v
  rw [mem_awaiting, mem_awaiting]
  by_cases hv : v = t
  · subst hv
    rw [hran.loc_self, hran.loc_here, hsame]
  · rw [hran.loc v hv]

theorem awaiting_leave (hran : program.Ran c t .await e u) (hgone : e.next.loc.isAwait = false) :
    (awaiting u).card + 1 = (awaiting c).card := by
  have ht : t ∈ awaiting c := by
    rw [mem_awaiting, hran.loc_here]
    rfl
  have herase : awaiting u = (awaiting c).erase t := by
    ext v
    rw [Finset.mem_erase, mem_awaiting, mem_awaiting]
    by_cases hv : v = t
    · subst hv
      simp [hran.loc_self, hgone]
    · simp [hran.loc v hv, hv]
  rw [herase, Finset.card_erase_of_mem ht]
  have hpos := Finset.card_pos.mpr ⟨t, ht⟩
  omega

/-- A step that moves neither the queue, nor `stop`, nor a worker that awaits. -/
theorem Balance.same (h : Balance c) (hran : program.Ran c t l e u)
    (hsame : e.next.loc.isAwait = l.isAwait) (hstop : e.shared.stop = c.shared.stop)
    (hqueue : e.shared.tasksQueue = c.shared.tasksQueue) : Balance u := by
  intro hstopped
  rw [awaiting_same hran hsame, hran.shared, hqueue]
  apply h
  rwa [hran.shared, hstop] at hstopped

theorem Balance.run (h : Balance c) (hordered : Ordered c.shared)
    (hplaced : Placed workers t (c.loc t) c.shared) {k : Call α} {pick : Option T}
    (hok : StopsBalanced c (.run t k pick)) (hact : program.act c (.run t k pick) = some u) :
    Balance u := by
  obtain ⟨l, e, he, hran⟩ := Threads.act_ran hact
  have hok : (c.loc t).isSetStop → c.shared.tasksQueue.length = (awaiting c).card := hok
  rw [hran.loc_here] at hok hplaced
  cases l with
  | left | destroyed => cases he
  | run =>
    obtain rfl := Option.some.inj he
    rcases run_cases t c.shared with ⟨hstop, heq⟩ | ⟨-, heq⟩
    · intro hstopped
      rw [hran.shared, heq] at hstopped
      simp [Effect.go, hstop] at hstopped
    · rw [heq] at hran
      exact h.same hran rfl rfl rfl
  | await =>
    obtain rfl := Option.some.inj he
    rcases await_cases c.shared with ⟨-, heq⟩ | ⟨request, requests, hqueue, heq⟩
    · rw [heq] at hran
      exact h.same hran rfl rfl rfl
    · rw [heq] at hran
      intro hstopped
      rw [hran.shared] at hstopped ⊢
      have hcard := awaiting_leave hran rfl
      have hlen := h hstopped
      rw [hqueue, List.length_cons] at hlen
      simp only [Effect.go]
      omega
  | idle =>
    rcases call_cases he with ⟨request, -, rfl⟩ | ⟨-, rfl⟩
    all_goals exact h.same hran rfl rfl rfl
  | append request =>
    obtain rfl := Option.some.inj he
    -- no call of `append` is under way once the destructor has started
    intro hstopped
    rw [hran.shared] at hstopped
    have hcalling := hplaced.caller rfl
    rw [hordered.lifetime (hordered.stopped hstopped)] at hcalling
    cases hcalling
  | notifyOne | notifyAll =>
    obtain rfl := Option.some.inj he
    exact h.same hran rfl rfl rfl
  | setStop =>
    obtain rfl := Option.some.inj he
    intro _
    rw [awaiting_same hran rfl, hran.shared]
    exact hok rfl
  | join =>
    obtain ⟨-, rfl⟩ := join_cases he
    exact h.same hran rfl rfl rfl

/-- Once the destructor has notified all, no worker is parked without a notification. -/
def Woken (c : Config T Cond (Loc α) (State T α)) : Prop :=
  ∀ d, (c.loc d).hasNotified → ∀ v, (c.status v).isAsleep .condition = false

theorem Woken.wake (h : Woken c) (hact : program.act c (.wake t) = some u) : Woken u := by
  have hwoke := Threads.act_woke hact
  intro d hd v
  rw [hwoke.loc] at hd
  exact hwoke.awake (h d hd v)

theorem Woken.run (h : Woken c) (hbalance : Balance c)
    (hplaced : ∀ v, Placed workers v (c.loc v) c.shared) {k : Call α} {pick : Option T}
    (hact : program.act c (.run t k pick) = some u) : Woken u := by
  obtain ⟨l, e, he, hran⟩ := Threads.act_ran hact
  intro d hd v
  apply Bool.eq_false_iff.mpr
  intro hv
  by_cases hsleep : ∃ cv l', e.next = .sleep cv l'
  · -- a worker that sleeps awaits, and then a stopped pool has a request for it
    obtain ⟨cv, l', hnext⟩ := hsleep
    obtain ⟨rfl, rfl, hqueue, -⟩ := sleep_step he hnext
    have hdt : d ≠ t := by
      intro heq
      subst heq
      rw [hran.loc_self, hnext] at hd
      cases hd
    rw [hran.loc d hdt] at hd
    have hstop := (hplaced d).stopped (hasNotified_stopped hd)
    have hlen := hbalance hstop
    have hpos := Finset.card_pos.mpr ⟨t, mem_awaiting.mpr (by rw [hran.loc_here]; rfl)⟩
    rw [hqueue, List.length_nil] at hlen
    omega
  · obtain ⟨l', hnext⟩ : ∃ l', e.next = .go l' := by
      cases hnext : e.next with
      | go l' => exact ⟨l', rfl⟩
      | sleep cv l' => exact absurd ⟨cv, l', hnext⟩ hsleep
    obtain ⟨hvt, hbefore⟩ := hran.asleep_of_go hnext hv
    have hnotified : ∀ d, (c.loc d).hasNotified = true → False := by
      intro d hd
      rw [h d hd v] at hbefore
      cases hbefore
    by_cases hdt : d = t
    · subst hdt
      rw [hran.loc_self] at hd
      rcases hasNotified_step he hd with hsignal | hl
      · exact (hran.asleep v .condition hvt hv).2 hsignal
      · exact hnotified d (by rwa [hran.loc_here])
    · rw [hran.loc d hdt] at hd
      exact hnotified d hd

/-- What is promised in every state: when the destructor returns, every request appended has been
processed once, in order, and no worker is parked for good once it has notified all. -/
structure Sound (c : Config T Cond (Loc α) (State T α)) : Prop where
  processed : ∀ d, c.loc d = .destroyed → c.shared.processed = c.shared.appended.filterMap id
  woken : Woken c

structure Valid (workers : Finset T) (c : Config T Cond (Loc α) (State T α)) : Prop where
  holds : Holds Ordered (Placed workers) c
  balance : Balance c
  woken : Woken c

theorem valid_launch (workers : Finset T) :
    Valid workers (launch workers : Config T Cond (Loc α) (State T α)) := by
  have hloc : ∀ t, (launch workers : Config T Cond (Loc α) (State T α)).loc t =
      if t ∈ workers then .run else .idle := fun _ => rfl
  refine ⟨⟨⟨rfl, rfl, nofun, nofun⟩, ?_⟩, nofun, ?_⟩
  · intro t
    rw [hloc t]
    by_cases ht : t ∈ workers
    · rw [if_pos ht]
      exact ⟨iff_of_true rfl ht, fun hw _ => hw, nofun, nofun, nofun, nofun⟩
    · rw [if_neg ht]
      exact ⟨iff_of_false nofun ht, fun hw _ => hw, nofun, nofun, nofun, nofun⟩
  · intro d hd v
    rfl

theorem Valid.act (h : Valid workers c) (hok : StopsBalanced c b)
    (hact : program.act c b = some u) : Valid workers u := by
  have hholds := (outline workers).act h.holds (allows_true c b) hact
  cases b with
  | wake t =>
    have hwoke := Threads.act_woke hact
    refine ⟨hholds, ?_, h.woken.wake hact⟩
    have hsame : awaiting u = awaiting c := by
      ext v
      rw [mem_awaiting, mem_awaiting, hwoke.loc]
    unfold Balance
    rw [hwoke.shared, hsame]
    exact h.balance
  | run t k pick =>
    exact ⟨hholds, h.balance.run h.holds.1 (h.holds.2 t) hok hact,
      h.woken.run h.balance h.holds.2 hact⟩

omit [DecidableEq T] in
/-- When the destructor returns nobody awaits, so nothing is queued. -/
theorem Valid.sound (h : Valid workers c) : Sound c := by
  refine ⟨?_, h.woken⟩
  intro d hd
  have hplaced := h.holds.2 d
  have hnone : awaiting c = ∅ := by
    apply Finset.eq_empty_iff_forall_notMem.mpr
    intro w hw
    have hawait := mem_awaiting.mp hw
    have hlive : w ∈ c.shared.live := by
      have hpw := h.holds.2 w
      rw [isAwait_eq hawait] at hpw
      exact hpw.live (hpw.role.mp rfl) nofun
    rw [hplaced.joined hd] at hlive
    cases hlive
  have hlen := h.balance (hplaced.stopped (by rw [hd]; rfl))
  rw [hnone, Finset.card_empty] at hlen
  have horder := h.holds.1.order
  rw [List.length_eq_zero_iff.mp hlen, List.append_nil] at horder
  rw [h.holds.1.processed, horder]

theorem run_shutdown (workers : Finset T) {c₀ : Config T Cond (Loc α) (State T α)}
    (hnew : new workers = some c₀) (acts : List (Move T (Call α)))
    (hok : Meets program.act StopsBalanced acts c₀) (hrun : exec program.act acts c₀ = some c) :
    Sound c := by
  have hlaunch : c₀ = launch workers := by
    unfold new at hnew
    split at hnew
    · cases hnew
    · exact (Option.some.inj hnew).symm
  rw [hlaunch] at hok hrun
  exact (exec_invariant (fun _ _ _ hs hb hact => Valid.act hs hb hact) (valid_launch workers)
    hok hrun).sound

/-- One worker, which awaits when the destructor sets `stop` with one request queued. -/
theorem run_shutdown_one : ∃ c, exec program.act
    [.run 1 (.append (some 7)) none, .run 0 .destroy none, .run 1 .destroy none,
      .run 1 .destroy none, .run 1 .destroy none, .run 1 .destroy none, .run 1 .destroy none,
      .run 0 .destroy none, .run 0 .destroy none, .run 1 .destroy none]
    (launch {0} : Config (Fin 2) Cond (Loc Nat) (State (Fin 2) Nat)) = some c ∧ Sound c :=
  exists_exec (by decide) fun _ hrun =>
    run_shutdown {0} (if_neg (by decide)) _ (by decide) hrun

/-- One worker and no request: the worker sleeps, is notified, finds the queue still empty and
sleeps again. -/
theorem run_stranded : ∃ c, exec program.act
    [.run 0 .destroy none, .run 0 .destroy none, .run 1 .destroy none, .run 1 .destroy none,
      .run 1 .destroy none, .run 0 .destroy none]
    (launch {0} : Config (Fin 2) Cond (Loc Nat) (State (Fin 2) Nat)) = some c ∧ ¬ Sound c :=
  ⟨_, rfl, fun h => absurd (h.woken 1 rfl 0) (by decide)⟩

end LanguageTest.ThreadPool1
