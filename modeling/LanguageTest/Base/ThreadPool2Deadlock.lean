import LanguageTest.Base.ThreadPool2

namespace LanguageTest.ThreadPool2
open Transition Monitor

variable {T α : Type*}

/-- Every worker and every caller of `addTask` sleeps, none of them notified, while a task is
queued or a caller waits to add one. -/
structure Deadlocked (workers : Finset T) (c : Config T Cond (Loc α) (State α)) : Prop where
  workers : ∀ t ∈ workers, (c.status t).isAsleep .cond
  callers : ∀ t, (c.loc t).isCaller → (c.status t).isAsleep .cond
  pending : c.shared.task ≠ [] ∨ ∃ t, (c.loc t).isCaller

/-- The code at the location would find its flag cleared. -/
def Loc.canProceed (s : State α) : Loc α → Bool
  | .runTask | .take => !s.isEmpty
  | .addTask _ | .add _ => !s.isFull
  | .left | .idle | .undefined => false

/-- The two locations that wait on the condition variable. -/
def Loc.mayWait : Loc α → Bool
  | .take | .add _ => true
  | .runTask | .left | .idle | .addTask _ | .undefined => false

section
variable {s : State α} {l : Loc α}

theorem mayWait_role (h : l.mayWait) : l.isWorker ∨ l.isCaller := by
  cases l with
  | take => exact Or.inl rfl
  | add f => exact Or.inr rfl
  | _ => cases h

theorem canProceed_role (h : l.canProceed s) : l.isWorker ∨ l.isCaller := by
  cases l with
  | runTask | take => exact Or.inl rfl
  | addTask f | add f => exact Or.inr rfl
  | _ => cases h

theorem canProceed_caller (h : l.isCaller) : l.canProceed s = !s.isFull := by
  cases l with
  | addTask f | add f => rfl
  | _ => cases h

theorem canProceed_worker (h : l.isWorker) (hwait : l.mayWait) : l.canProceed s = !s.isEmpty := by
  cases l with
  | take => rfl
  | add f => cases h
  | _ => cases hwait

end

/-- The thread has been notified in vain, a sleeper could proceed, and nobody else is left to
carry the notification on. -/
def Absorbs (c : Config T Cond (Loc α) (State α)) (t : T) : Prop :=
  ((c.status t).isNotified ∧ (c.loc t).canProceed c.shared = false) ∧
    (∃ v, (c.loc v).canProceed c.shared ∧ (c.status v).isAsleep .cond) ∧
    (∀ v, v ≠ t → (c.status v).isNotified = false) ∧
    ∀ v, (c.loc v).canProceed c.shared → (c.status v).isAsleep .cond

def Passes (c : Config T Cond (Loc α) (State α)) : Move T α → Prop
  | .run t _ _ => ¬ Absorbs c t
  | .wake _ => True

instance [Fintype T] [DecidableEq T] (c : Config T Cond (Loc α) (State α)) (b : Move T α) :
    Decidable (Passes c b) :=
  match b with
  | .run t _ _ =>
    have : Decidable (Absorbs c t) := inferInstanceAs (Decidable ((_ ∧ _) ∧ _ ∧ _ ∧ _))
    inferInstanceAs (Decidable (¬ Absorbs c t))
  | .wake _ => .isTrue trivial

/-- A notification is under way, or an awake thread can proceed. -/
def Moving (c : Config T Cond (Loc α) (State α)) : Prop :=
  (∃ v, (c.status v).isNotified) ∨
    ∃ v, (c.loc v).canProceed c.shared ∧ (c.status v).isAsleep .cond = false

/-- No sleeper that could proceed is left behind. -/
def Live (c : Config T Cond (Loc α) (State α)) : Prop :=
  (∃ v, (c.loc v).canProceed c.shared ∧ (c.status v).isAsleep .cond) → Moving c

/-- What a step can do to the flags and to its thread: it notifies, or it leaves the members as
they are and either sleeps in vain or moves on to the code under the mutex. -/
theorem step_cases {num : Nat} {s : State α} (h : Agrees num s) {t : T} {l : Loc α} {f : α}
    {e : Effect Cond (Loc α) (State α)} (hstep : step t l f s = some e) :
    (e.signal = some (.one .cond) ∧ ∃ l', e.next = .go l') ∨
    e.shared = s ∧
      ((∃ l', e.next = .sleep .cond l' ∧ l.canProceed s = false ∧ l'.canProceed s = false) ∨
        ∃ l', e.next = .go l' ∧ l.mayWait = false ∧ (l.canProceed s → l'.canProceed s)) := by
  cases l with
  | left | undefined => cases hstep
  | runTask | addTask _ =>
    obtain rfl := Option.some.inj hstep
    rw [h.running]
    right
    exact ⟨rfl, Or.inr ⟨_, rfl, rfl, id⟩⟩
  | idle =>
    obtain rfl := Option.some.inj hstep
    right
    exact ⟨rfl, Or.inr ⟨_, rfl, rfl, nofun⟩⟩
  | take =>
    obtain rfl := Option.some.inj hstep
    rcases take_cases h with ⟨hempty, heq⟩ | ⟨ta, task, -, heq⟩ <;> rw [heq]
    · right
      have hflag : Loc.canProceed s .take = false := by
        simp [Loc.canProceed, h.empty.mpr hempty]
      exact ⟨rfl, Or.inl ⟨_, rfl, hflag, hflag⟩⟩
    · left
      exact ⟨rfl, _, rfl⟩
  | add f =>
    obtain rfl := Option.some.inj hstep
    unfold add
    by_cases hfull : s.isFull = true
    · rw [if_pos hfull]
      right
      have hflag : Loc.canProceed s (.add f) = false := by
        simp [Loc.canProceed, hfull]
      exact ⟨rfl, Or.inl ⟨_, rfl, hflag, hflag⟩⟩
    · rw [if_neg hfull]
      left
      exact ⟨rfl, _, rfl⟩

theorem parks : Parks (program (T := T) (α := α)) fun l => l.mayWait := by
  intro t l f s e cv l' hstep hnext
  cases l with
  | left | undefined => cases hstep
  | runTask | idle | addTask _ =>
    obtain rfl := Option.some.inj hstep
    cases hnext
  | take =>
    obtain rfl := Option.some.inj hstep
    unfold take at hnext
    split at hnext
    · cases hnext
      rfl
    · split at hnext <;> cases hnext
  | add f =>
    obtain rfl := Option.some.inj hstep
    unfold add at hnext
    split at hnext <;> cases hnext
    rfl

section
variable {num : Nat} {c u : Config T Cond (Loc α) (State α)} {b : Move T α}

/-- A step that notifies leaves a notification under way or nobody asleep. -/
theorem live_of_notify {t : T} {l l' : Loc α} {e : Effect Cond (Loc α) (State α)}
    (hran : program.Ran c t l e u) (hsignal : e.signal = some (.one .cond))
    (hnext : e.next = .go l') : Live u := by
  intro hstuck
  rcases hran.one .cond hsignal with ⟨w, -, -, hw⟩ | hnone
  · left
    exact ⟨w, hw⟩
  · exfalso
    obtain ⟨v, -, hasleep⟩ := hstuck
    rw [hnone v (hran.asleep_of_go hnext hasleep).1] at hasleep
    cases hasleep

section
variable {t : T} {l l' : Loc α} {e : Effect Cond (Loc α) (State α)}

/-- What moves the pool on stays, as long as it is not the thread of the step. -/
theorem Moving.ran (hran : program.Ran c t l e u) (hshared : e.shared = c.shared) {w : T}
    (hw : w ≠ t) (h : (c.status w).isNotified ∨
      (c.loc w).canProceed c.shared ∧ (c.status w).isAsleep .cond = false) : Moving u := by
  rcases h with hnotified | ⟨hproceed, hawake⟩
  · left
    exact ⟨w, hran.notified w hw hnotified⟩
  · right
    exact ⟨w, by rwa [hran.loc w hw, hran.shared, hshared], hran.awake hw hawake⟩

theorem Live.sleep (h : Live c) (hno : ¬ Absorbs c t) (hran : program.Ran c t l e u)
    (hshared : e.shared = c.shared) (hnext : e.next = .sleep .cond l')
    (hl : l.canProceed c.shared = false) (hl' : l'.canProceed c.shared = false) : Live u := by
  intro hstuck
  obtain ⟨v, hv, hasleep⟩ := hstuck
  rw [hran.shared, hshared] at hv
  have hvt : v ≠ t := by
    intro heq
    subst heq
    rw [hran.loc_self, hnext, Next.loc, hl'] at hv
    cases hv
  rw [hran.loc v hvt] at hv
  have hsleeper : ∃ v, (c.loc v).canProceed c.shared ∧ (c.status v).isAsleep .cond :=
    ⟨v, hv, (hran.asleep v .cond hvt hasleep).1⟩
  have hself : (c.loc t).canProceed c.shared = false := by rwa [hran.loc_here]
  rcases h hsleeper with ⟨w, hw⟩ | ⟨w, hw, hawake⟩
  · by_cases hwt : w = t
    · -- the notified thread itself sleeps again: somebody else carries the wake-up on
      subst hwt
      by_contra hstopped
      apply hno
      refine ⟨⟨hw, hself⟩, hsleeper, ?_, ?_⟩
      · intro x hx
        apply Bool.eq_false_iff.mpr
        exact fun hnotified => hstopped (Moving.ran hran hshared hx (Or.inl hnotified))
      · intro x hproceed
        have hx : x ≠ w := by
          intro heq
          rw [heq, hself] at hproceed
          cases hproceed
        by_contra hawake
        apply hstopped
        exact Moving.ran hran hshared hx (Or.inr ⟨hproceed, Bool.eq_false_iff.mpr hawake⟩)
    · exact Moving.ran hran hshared hwt (Or.inl hw)
  · have hwt : w ≠ t := by
      intro heq
      rw [heq, hself] at hw
      cases hw
    exact Moving.ran hran hshared hwt (Or.inr ⟨hw, hawake⟩)

theorem Live.go (h : Live c) (hsleepers : Sleepers (fun l : Loc α => l.mayWait) c)
    (hran : program.Ran c t l e u) (hshared : e.shared = c.shared) (hnext : e.next = .go l')
    (hl : l.mayWait = false) (hproceed : l.canProceed c.shared → l'.canProceed c.shared) :
    Live u := by
  intro hstuck
  obtain ⟨v, hv, hasleep⟩ := hstuck
  obtain ⟨hvt, hbefore⟩ := hran.asleep_of_go hnext hasleep
  rw [hran.shared, hshared, hran.loc v hvt] at hv
  rcases h ⟨v, hv, hbefore⟩ with ⟨w, hw⟩ | ⟨w, hw, hawake⟩
  · have hwt : w ≠ t := by
      intro heq
      subst heq
      have hwait := hsleepers.notified hw
      simp only [hran.loc_here, hl, Bool.false_eq_true] at hwait
    exact Moving.ran hran hshared hwt (Or.inl hw)
  · by_cases hwt : w = t
    · subst hwt
      right
      rw [hran.loc_here] at hw
      refine ⟨w, ?_, ?_⟩
      · rw [hran.loc_self, hran.shared, hshared, hnext]
        exact hproceed hw
      · rw [hran.self, hnext]
        rfl
    · exact Moving.ran hran hshared hwt (Or.inr ⟨hw, hawake⟩)

end

variable [DecidableEq T]

theorem Live.wake [Fintype T] (h : Live c) {t : T} (hact : program.act c (.wake t) = some u) :
    Live u := by
  have hwoke := Threads.act_woke hact
  intro hstuck
  obtain ⟨v, hv, hasleep⟩ := hstuck
  rw [hwoke.loc, hwoke.shared] at hv
  rcases h ⟨v, hv, hwoke.asleep hasleep⟩ with ⟨w, hw⟩ | ⟨w, hw, hawake⟩
  · left
    exact ⟨w, hwoke.notified hw⟩
  · right
    exact ⟨w, by rwa [hwoke.loc, hwoke.shared], hwoke.awake hawake⟩

theorem Live.act [Fintype T] (h : Live c) (hagrees : Agrees num c.shared)
    (hsleepers : Sleepers (fun l : Loc α => l.mayWait) c) (hpasses : Passes c b)
    (hact : program.act c b = some u) : Live u := by
  cases b with
  | wake t => exact h.wake hact
  | run t f pick =>
    obtain ⟨l, e, he, hran⟩ := Threads.act_ran hact
    rcases step_cases (t := t) hagrees he with ⟨hsignal, l', hnext⟩ |
      ⟨hshared, ⟨l', hnext, hl, hl'⟩ | ⟨l', hnext, hl, hproceed⟩⟩
    · exact live_of_notify hran hsignal hnext
    · exact h.sleep hpasses hran hshared hnext hl hl'
    · exact h.go hsleepers hran hshared hnext hl hproceed

/-- The members, the roles of the threads, and no sleeper left behind. -/
structure Valid (workers : Finset T) (num : Nat) (c : Config T Cond (Loc α) (State α)) :
    Prop where
  holds : Holds (Agrees num) (Placed workers) c
  sleepers : Sleepers (fun l : Loc α => l.mayWait) c
  live : Live c

variable {workers : Finset T}

theorem valid_start (hnum : 1 ≤ num) :
    Valid workers num (start workers num : Config T Cond (Loc α) (State α)) := by
  constructor
  case holds => exact holds_start hnum
  case sleepers => exact fun t => Or.inl rfl
  case live =>
    intro hstuck
    obtain ⟨v, -, hasleep⟩ := hstuck
    cases hasleep

omit [DecidableEq T] in
/-- Whoever has been notified or can proceed is no sleeper of a deadlock. -/
theorem Valid.not_moving (h : Valid workers num c) (hdead : Deadlocked workers c) :
    ¬ Moving c := by
  have hall : ∀ v, (c.loc v).isWorker ∨ (c.loc v).isCaller → (c.status v).isAsleep .cond := by
    intro v hv
    rcases hv with hv | hv
    · exact hdead.workers v ((h.holds.2 v).2.mp hv)
    · exact hdead.callers v hv
  intro hmoving
  rcases hmoving with ⟨v, hv⟩ | ⟨v, hv, hawake⟩
  · have hasleep := hall v (mayWait_role (h.sleepers.notified hv))
    rw [Status.isNotified_not_asleep hv] at hasleep
    cases hasleep
  · rw [hall v (canProceed_role hv)] at hawake
    cases hawake

omit [DecidableEq T] in
theorem Valid.not_deadlocked (h : Valid workers num c) (hnum : 1 ≤ num)
    (hworkers : workers.Nonempty) : ¬ Deadlocked workers c := by
  intro hdead
  have hagrees := h.holds.1
  apply h.not_moving hdead
  apply h.live
  by_cases htask : c.shared.task = []
  · -- a caller waits although the queue is not full
    obtain ⟨v, hv⟩ := hdead.pending.resolve_left (not_not.mpr htask)
    have hnotfull : c.shared.isFull = false := by
      apply Bool.eq_false_iff.mpr
      intro hfull
      have hlen := hagrees.full.mp hfull
      rw [htask] at hlen
      rw [← hlen] at hnum
      cases hnum
    refine ⟨v, ?_, hdead.callers v hv⟩
    rw [canProceed_caller hv, hnotfull]
    rfl
  · -- a worker waits although a task is queued
    obtain ⟨v, hv⟩ := hworkers
    have hnotempty : c.shared.isEmpty = false := by
      apply Bool.eq_false_iff.mpr
      exact mt hagrees.empty.mp htask
    have hasleep := hdead.workers v hv
    refine ⟨v, ?_, hasleep⟩
    rw [canProceed_worker ((h.holds.2 v).2.mpr hv) (h.sleepers.asleep hasleep), hnotempty]
    rfl

variable [Fintype T]

theorem Valid.act (h : Valid workers num c) (hpasses : Passes c b)
    (hact : program.act c b = some u) : Valid workers num u where
  holds := (outline workers num).act h.holds (allows_true c b) hact
  sleepers := parks.act h.sleepers hact
  live := h.live.act h.holds.1 h.sleepers hpasses hact

theorem run_not_deadlocked (workers : Finset T) (hworkers : workers.Nonempty) (num : Nat)
    (hnum : 1 ≤ num) (acts : List (Move T α))
    (hpasses : Meets program.act Passes acts (start workers num))
    (hrun : exec program.act acts (start workers num) = some c) : ¬ Deadlocked workers c :=
  (exec_invariant (fun _ _ _ hs hb hact => Valid.act hs hb hact) (valid_start hnum) hpasses
    hrun).not_deadlocked hnum hworkers

/-- A worker sleeps on the empty queue, the first task fills it, a second caller sleeps until
the worker has taken it. -/
theorem run_not_deadlocked_two : ∃ c, exec program.act
    [.run 0 0 none, .run 0 0 none, .run 1 7 none, .run 1 7 none, .run 1 7 (some 0),
      .run 1 8 none, .run 1 8 none, .run 1 8 none, .run 0 0 (some 1), .run 1 8 none]
    (start {0} 1 : Config (Fin 2) Cond (Loc Nat) (State Nat)) = some c ∧ ¬ Deadlocked {0} c :=
  exists_exec (by decide) fun _ hrun =>
    run_not_deadlocked {0} ⟨0, by decide⟩ 1 le_rfl _ (by decide) hrun

/-- A worker, a queue of one task and two callers: the second task added wakes the other caller
instead of the worker. -/
theorem run_deadlocked : ∃ c, exec program.act
    [.run 0 0 none, .run 0 0 none, .run 1 7 none, .run 1 7 none, .run 1 7 (some 0),
      .run 2 8 none, .run 2 8 none, .run 2 8 none, .run 1 9 none, .run 1 9 none, .run 1 9 none,
      .run 0 0 (some 2), .run 0 0 none, .run 0 0 none, .run 2 8 (some 1), .run 1 9 none]
    (start {0} 1 : Config (Fin 3) Cond (Loc Nat) (State Nat)) = some c ∧ Deadlocked {0} c := by
  refine ⟨_, rfl, ?_⟩
  constructor
  case workers => decide
  case callers => decide
  case pending => left; decide

end

end LanguageTest.ThreadPool2
