import LanguageTest.Library.Monitor

namespace LanguageTest.Semaphore
open Transition Monitor

variable {T : Type*}

inductive Cond where
  | cond
  deriving DecidableEq

structure State where
  count : Int

inductive Loc where
  | idle
  | wait
  | signal
  | undefined
  deriving DecidableEq

inductive Call where
  | wait
  | signal

def Call.loc : Call → Loc
  | .wait => .wait
  | .signal => .signal

def mode : Loc → Mode
  | .wait | .signal => .entry
  | .idle | .undefined => .outside

def wait (s : State) : Effect Cond Loc State :=
  if s.count > 0 then .go { s with count := s.count - 1 } .idle
  else .sleep s .cond .wait

/-- The count has no value beyond the greatest one of its type, which is `max`. -/
def signal (max : Int) (s : State) : Effect Cond Loc State :=
  if s.count < max then .notifyOne { s with count := s.count + 1 } .cond .idle
  else .go s .undefined

def step (max : Int) (_ : T) (l : Loc) (call : Call) (s : State) :
    Option (Effect Cond Loc State) :=
  match l with
  | .idle => some (.go s call.loc)
  | .wait => some (wait s)
  | .signal => some (signal max s)
  | .undefined => none

def program (max : Int) : Threads T Cond Loc Call State := ⟨mode, step max⟩

/-- The constructor. -/
def new (count : Int) : Config T Cond Loc State := ⟨⟨count⟩, none, fun _ => .ready .idle⟩

/-- The count of `semaphore` is a `long`. -/
def semaphore : Threads T Cond Loc Call State := program 9223372036854775807

/-- `my_sem` has the same two bodies, as `wait` and `do_next`. Its count is an `int`, and it starts
at 0. -/
def mySem : Threads T Cond Loc Call State := program 2147483647

theorem parks {max : Int} : Parks (program (T := T) max) fun l => l = .wait := by
  intro t l call s e cv l' hstep hnext
  cases l with
  | undefined => cases hstep
  | idle =>
    obtain rfl := Option.some.inj hstep
    cases hnext
  | signal =>
    obtain rfl := Option.some.inj hstep
    unfold signal at hnext
    split at hnext <;> cases hnext
  | wait =>
    obtain rfl := Option.some.inj hstep
    unfold wait at hnext
    split at hnext <;> cases hnext
    rfl

/-- The step of a thread with which a call returns. -/
def returns (call : Call) (c : Config T Cond Loc State) :
    Move T Call → Config T Cond Loc State → Bool
  | .run t _ _, u => decide (c.loc t = call.loc ∧ u.loc t = .idle)
  | .wake _, _ => false

/-- A `signal()` finds room for one more permit. -/
def HasRoom (max : Int) (_ : T) (l : Loc) (s : State) : Prop := l = .signal → s.count < max

instance (max : Int) (t : T) (l : Loc) (s : State) : Decidable (HasRoom max t l s) :=
  inferInstanceAs (Decidable (_ → _))

theorem step_safe {max : Int} {t : T} {l : Loc} {s : State} {call : Call}
    {e : Effect Cond Loc State} (hnonneg : 0 ≤ s.count) (hroom : HasRoom max t l s)
    (hstep : step max t l call s = some e) :
    0 ≤ e.shared.count ∧ e.next.loc ≠ .undefined := by
  cases l with
  | undefined => cases hstep
  | idle =>
    obtain rfl := Option.some.inj hstep
    exact ⟨hnonneg, by cases call <;> nofun⟩
  | wait =>
    obtain rfl := Option.some.inj hstep
    unfold wait
    by_cases hpos : s.count > 0
    · rw [if_pos hpos]
      refine ⟨?_, nofun⟩
      simp only [Effect.go]
      omega
    · rw [if_neg hpos]
      exact ⟨hnonneg, nofun⟩
  | signal =>
    obtain rfl := Option.some.inj hstep
    rw [signal, if_pos (hroom rfl)]
    refine ⟨?_, nofun⟩
    simp only [Effect.notifyOne]
    omega

section
variable [Fintype T]

/-- Whenever a thread is parked without a notification, the permits are spoken for by threads
already notified. -/
def NoLostWakeup (c : Config T Cond Loc State) : Prop :=
  (∃ t, (c.status t).isAsleep .cond) → c.shared.count ≤ c.pending.card

/-- What holds after a run. -/
structure Permits [DecidableEq T] (max count : Int) (acts : List (Move T Call))
    (c : Config T Cond Loc State) : Prop where
  nonneg : 0 ≤ c.shared.count
  calls : c.shared.count = count +
    countSteps (program max).act (returns .signal) acts (new count) -
    countSteps (program max).act (returns .wait) acts (new count)
  defined : ∀ t, c.loc t ≠ .undefined
  wakeup : NoLostWakeup c

structure Valid (c : Config T Cond Loc State) : Prop where
  nonneg : 0 ≤ c.shared.count
  defined : ∀ t, c.loc t ≠ .undefined
  sleepers : Sleepers (fun l => l = .wait) c
  wakeup : NoLostWakeup c

theorem valid_new {count : Int} (hcount : 0 ≤ count) :
    Valid (new count : Config T Cond Loc State) := by
  refine ⟨hcount, fun t => nofun, fun t => Or.inl rfl, ?_⟩
  intro hasleep
  obtain ⟨v, hv⟩ := hasleep
  cases hv

variable {c u : Config T Cond Loc State} {max count : Int} {t : T} {l : Loc}

theorem wait_wakeup [DecidableEq T] (h : NoLostWakeup c)
    (hran : (program max).Ran c t .wait (wait c.shared) u) : NoLostWakeup u := by
  intro hasleep
  rw [hran.shared]
  unfold wait at hran ⊢
  by_cases hpos : c.shared.count > 0
  · rw [if_pos hpos] at hran ⊢
    obtain ⟨v, hv⟩ := hasleep
    have hle := h ⟨v, (hran.asleep_of_go rfl hv).2⟩
    have hcard := hran.card_le
    simp only [Effect.go]
    omega
  · rw [if_neg hpos]
    simp only [Effect.sleep]
    omega

theorem signal_wakeup (h : NoLostWakeup c) (hsleepers : Sleepers (fun l => l = .wait) c)
    (hroom : c.shared.count < max)
    (hran : (program max).Ran c t .signal (signal max c.shared) u) : NoLostWakeup u := by
  intro hasleep
  rw [hran.shared]
  rw [signal, if_pos hroom] at hran ⊢
  have hready : (c.status t).isReady := by
    apply (hsleepers t).resolve_right
    rw [hran.loc_here]
    nofun
  rcases hran.card_one hready rfl with hlt | hnone
  · obtain ⟨v, hv⟩ := hasleep
    have hle := h ⟨v, (hran.asleep_of_go rfl hv).2⟩
    simp only [Effect.notifyOne]
    omega
  · exfalso
    obtain ⟨v, hv⟩ := hasleep
    rw [hnone v (hran.asleep_of_go rfl hv).1] at hv
    cases hv

variable [DecidableEq T]

theorem Valid.wake (h : Valid c) (hact : (program max).act c (.wake t) = some u) : Valid u := by
  have hwoke := Threads.act_woke hact
  refine ⟨hwoke.shared ▸ h.nonneg, fun v => hwoke.loc v ▸ h.defined v,
    parks.act h.sleepers hact, ?_⟩
  intro hasleep
  obtain ⟨v, hv⟩ := hasleep
  have hle := h.wakeup ⟨v, hwoke.asleep hv⟩
  have hcard := Finset.card_le_card hwoke.subset
  rw [hwoke.shared]
  omega

theorem Valid.run (h : Valid c) {call : Call} {pick : Option T}
    (hroom : HasRoom max t (c.loc t) c.shared)
    (hact : (program max).act c (.run t call pick) = some u) : Valid u := by
  obtain ⟨l, e, he, hran⟩ := Threads.act_ran hact
  rw [hran.loc_here] at hroom
  obtain ⟨hnonneg, hdefined⟩ := step_safe h.nonneg hroom he
  refine ⟨hran.shared ▸ hnonneg, ?_, parks.act h.sleepers hact, ?_⟩
  · intro v
    by_cases hv : v = t
    · subst hv
      rwa [hran.loc_self]
    · rw [hran.loc v hv]
      exact h.defined v
  · cases l with
    | undefined => cases he
    | idle =>
      obtain rfl := Option.some.inj he
      intro hasleep
      have hready : (c.status t).isReady := by
        apply (h.sleepers t).resolve_right
        rw [hran.loc_here]
        nofun
      obtain ⟨v, hv⟩ := hasleep
      have hle := h.wakeup ⟨v, (hran.asleep_of_go rfl hv).2⟩
      have hcard := Finset.card_le_card (hran.subset hready)
      rw [hran.shared]
      simp only [Effect.go]
      omega
    | wait =>
      obtain rfl := Option.some.inj he
      exact wait_wakeup h.wakeup hran
    | signal =>
      obtain rfl := Option.some.inj he
      exact signal_wakeup h.wakeup h.sleepers (hroom rfl) hran

/-- A call that returns shifts the count by one, and no other step does. -/
theorem act_balance {b : Move T Call} (hact : (program max).act c b = some u) :
    u.shared.count =
      c.shared.count + (returns .signal c b u).toNat - (returns .wait c b u).toNat := by
  cases b with
  | wake t =>
    rw [(Threads.act_woke hact).shared]
    simp [returns]
  | run t call pick =>
    obtain ⟨l, e, he, hran⟩ := Threads.act_ran hact
    simp only [returns, hran.loc_here, hran.loc_self, hran.shared]
    cases l with
    | undefined => cases he
    | idle =>
      obtain rfl := Option.some.inj he
      simp [Call.loc, Effect.go]
    | wait =>
      obtain rfl := Option.some.inj he
      unfold wait
      split <;> simp [Call.loc, Effect.go, Effect.sleep, Next.loc]
    | signal =>
      obtain rfl := Option.some.inj he
      unfold signal
      split <;> simp [Call.loc, Effect.go, Effect.notifyOne, Next.loc]

/-- In every run whose signals find room the count is what the calls that have returned make of
it, and no wake-up is lost. -/
theorem run_permits (max count : Int) (hcount : 0 ≤ count) (acts : List (Move T Call))
    (hroom : Meets (program max).act (Allows (HasRoom max)) acts (new count))
    (hrun : exec (program max).act acts (new count) = some c) : Permits max count acts c := by
  have h : Valid c := by
    apply exec_invariant _ (valid_new hcount) hroom hrun
    intro s b u hs hok hact
    cases b with
    | run t call pick => exact hs.run hok hact
    | wake t => exact hs.wake hact
  constructor
  case nonneg => exact h.nonneg
  case calls => exact exec_balance (fun c => c.shared.count) (fun _ _ _ => act_balance) hrun
  case defined => exact h.defined
  case wakeup => exact h.wakeup

/-- Two waiters sleep, one is notified, and a third thread takes the permit before it resumes. -/
theorem run_permits_barge : ∃ c, exec semaphore.act
    [.run 0 .wait none, .run 0 .wait none, .run 1 .wait none, .run 1 .wait none,
      .run 2 .signal none, .run 2 .signal (some 0), .run 2 .wait none, .run 2 .wait none,
      .run 0 .wait none]
    (new 0 : Config (Fin 3) Cond Loc State) = some c ∧ Permits 9223372036854775807 0
      [.run 0 .wait none, .run 0 .wait none, .run 1 .wait none, .run 1 .wait none,
        .run 2 .signal none, .run 2 .signal (some 0), .run 2 .wait none, .run 2 .wait none,
        .run 0 .wait none] c :=
  exists_exec (by decide) fun _ hrun => run_permits _ 0 le_rfl _ (by decide) hrun

/-- A semaphore made with the greatest count is signalled. -/
theorem run_permits_full : ∃ c, exec semaphore.act [.run 0 .signal none, .run 0 .signal none]
    (new 9223372036854775807 : Config (Fin 1) Cond Loc State) = some c ∧
      ¬ Permits 9223372036854775807 9223372036854775807
        [.run 0 .signal none, .run 0 .signal none] c :=
  ⟨_, rfl, fun h => h.defined 0 rfl⟩

end

end LanguageTest.Semaphore
