import LanguageTest.Library.Transition
import Mathlib.Algebra.Order.BigOperators.Group.Finset
import Mathlib.Data.Fintype.Card

namespace LanguageTest.Monitor
open Transition

variable {T C L A S : Type*}

/-- What a step does to the condition variables. -/
inductive Signal (C : Type*) where
  | one (cv : C)
  | all (cv : C)

/-- A step ends at a location, or asleep on a condition variable. -/
inductive Next (C L : Type*) where
  | go (l : L)
  | sleep (cv : C) (l : L)

/-- A sleeper continues at its location once it has been notified or has woken by itself. -/
inductive Status (C L : Type*) where
  | ready (l : L)
  | asleep (cv : C) (l : L)
  | notified (cv : C) (l : L)

/-- How the code at a location stands to the mutex: it runs without it, it first acquires it,
or it runs with the mutex already held. -/
inductive Mode where
  | outside
  | entry
  | inside
  deriving DecidableEq

structure Effect (C L S : Type*) where
  shared : S
  signal : Option (Signal C)
  next : Next C L

/-- The code of the threads, one mutex, and the condition variables used with it. -/
structure Threads (T C L A S : Type*) where
  mode : L → Mode
  step : T → L → A → S → Option (Effect C L S)

structure Config (T C L S : Type*) where
  shared : S
  owner : Option T
  status : T → Status C L

/-- A thread runs one step, `pick` being the sleeper that a single notification reaches, or a
sleeper wakes without a notification. -/
inductive Move (T A : Type*) where
  | run (t : T) (a : A) (pick : Option T)
  | wake (t : T)

def Effect.go (s : S) (l : L) : Effect C L S := ⟨s, none, .go l⟩
def Effect.sleep (s : S) (cv : C) (l : L) : Effect C L S := ⟨s, none, .sleep cv l⟩
def Effect.notifyOne (s : S) (cv : C) (l : L) : Effect C L S := ⟨s, some (.one cv), .go l⟩
def Effect.notifyAll (s : S) (cv : C) (l : L) : Effect C L S := ⟨s, some (.all cv), .go l⟩

def Next.loc : Next C L → L
  | .go l => l
  | .sleep _ l => l

def Next.status : Next C L → Status C L
  | .go l => .ready l
  | .sleep cv l => .asleep cv l

namespace Status

def loc : Status C L → L
  | .ready l => l
  | .asleep _ l => l
  | .notified _ l => l

/-- The location from which the thread can run. -/
def runnable : Status C L → Option L
  | .ready l => some l
  | .asleep _ _ => none
  | .notified _ l => some l

def isAsleep [DecidableEq C] (cv : C) : Status C L → Bool
  | .asleep cv' _ => decide (cv' = cv)
  | _ => false

def isReady : Status C L → Bool
  | .ready _ => true
  | _ => false

def isNotified : Status C L → Bool
  | .notified _ _ => true
  | _ => false

def notify [DecidableEq C] (cv : C) : Status C L → Status C L
  | .asleep cv' l => if cv' = cv then .notified cv l else .asleep cv' l
  | .ready l => .ready l
  | .notified cv' l => .notified cv' l

end Status

section
variable [Fintype T] [DecidableEq T] [DecidableEq C]

/-- The statuses after a notification. A single one is lost only when nobody sleeps. -/
def deliver (status : T → Status C L) (pick : Option T) :
    Option (Signal C) → Option (T → Status C L)
  | none => some status
  | some (.all cv) => some fun t => (status t).notify cv
  | some (.one cv) =>
    match pick with
    | some t =>
      if (status t).isAsleep cv then some (Function.update status t ((status t).notify cv))
      else none
    | none => if ∃ t, (status t).isAsleep cv then none else some status

namespace Threads

/-- The thread may run the code at the location with the mutex as it stands. -/
def Admits (p : Threads T C L A S) (owner : Option T) (t : T) (l : L) : Prop :=
  (p.mode l = .entry → owner = none) ∧ (p.mode l = .inside → owner = some t)

instance (p : Threads T C L A S) (owner : Option T) (t : T) (l : L) :
    Decidable (p.Admits owner t l) :=
  inferInstanceAs (Decidable (_ ∧ _))

/-- A sleeper has released the mutex. -/
def ownerAfter (p : Threads T C L A S) (owner : Option T) (t : T) (l : L) :
    Next C L → Option T
  | .go l' => if p.mode l' = .inside then some t else if p.mode l = .outside then owner else none
  | .sleep _ _ => none

def act (p : Threads T C L A S) (c : Config T C L S) : Move T A → Option (Config T C L S)
  | .run t a pick =>
    (c.status t).runnable.bind fun l =>
      if p.Admits c.owner t l then
        (p.step t l a c.shared).bind fun e =>
          (deliver c.status pick e.signal).map fun status =>
            ⟨e.shared, p.ownerAfter c.owner t l e.next, Function.update status t e.next.status⟩
      else none
  | .wake t =>
    match c.status t with
    | .asleep _ l => some { c with status := Function.update c.status t (.ready l) }
    | _ => none

end Threads

end

section
variable {st : Status C L} {cv cv' : C} {l : L}

@[simp] theorem Next.loc_status (n : Next C L) : n.status.loc = n.loc := by
  cases n <;> rfl

theorem Status.isNotified_not_ready (h : st.isNotified) : st.isReady = false := by
  cases st with
  | ready l => cases h
  | asleep cv l => cases h
  | notified cv l => rfl

theorem Status.runnable_loc (h : st.runnable = some l) : st.loc = l := by
  cases st with
  | ready l' => exact Option.some.inj h
  | asleep cv l' => cases h
  | notified cv l' => exact Option.some.inj h

variable [DecidableEq C]

theorem Status.runnable_not_asleep (h : st.runnable = some l) : st.isAsleep cv = false := by
  cases st with
  | ready l' => rfl
  | asleep cv' l' => cases h
  | notified cv' l' => rfl

theorem Status.runnable_of_awake (h : ∀ cv, st.isAsleep cv = false) :
    st.runnable = some st.loc := by
  cases st with
  | ready l => rfl
  | asleep cv l =>
    have hself := h cv
    simp [Status.isAsleep] at hself
  | notified cv l => rfl

theorem Status.isAsleep_not_ready (h : st.isAsleep cv) : st.isReady = false := by
  cases st with
  | ready l => cases h
  | asleep cv' l => rfl
  | notified cv' l => rfl

theorem Status.isNotified_not_asleep (h : st.isNotified) : st.isAsleep cv = false := by
  cases st with
  | ready l => cases h
  | asleep cv' l => cases h
  | notified cv' l => rfl

@[simp] theorem Status.notify_loc (cv : C) (st : Status C L) : (st.notify cv).loc = st.loc := by
  unfold Status.notify
  cases st with
  | ready l => rfl
  | asleep cv' l => by_cases h : cv' = cv <;> simp [h, Status.loc]
  | notified cv' l => rfl

theorem Status.isAsleep_notify (h : (st.notify cv').isAsleep cv) :
    st.isAsleep cv ∧ cv ≠ cv' := by
  cases st with
  | ready l => cases h
  | asleep cv'' l =>
    by_cases heq : cv'' = cv'
    · simp only [Status.notify, heq, ↓reduceIte] at h
      cases h
    · simp only [Status.notify, heq, ↓reduceIte] at h
      have hcv : cv'' = cv := of_decide_eq_true h
      exact ⟨h, fun hne => heq (hcv.trans hne)⟩
  | notified cv'' l => cases h

theorem Status.isNotified_notify (h : st.isAsleep cv) : (st.notify cv).isNotified := by
  cases st with
  | ready l => cases h
  | asleep cv' l =>
    have hcv : cv' = cv := of_decide_eq_true h
    simp [Status.notify, hcv, Status.isNotified]
  | notified cv' l => cases h

theorem Status.isReady_notify (h : st.isReady) : (st.notify cv).isReady := by
  cases st with
  | ready l => rfl
  | asleep cv' l => cases h
  | notified cv' l => cases h

theorem Status.isNotified_of_notify (h : st.isNotified) : (st.notify cv).isNotified := by
  cases st with
  | ready l => cases h
  | asleep cv' l => cases h
  | notified cv' l => exact h

end

section
variable [Fintype T] [DecidableEq T] [DecidableEq C]
variable {status status' : T → Status C L} {pick : Option T} {sig : Option (Signal C)}
variable {cv : C} {t : T}

/-- A notification touches only sleepers. -/
theorem deliver_status (h : deliver status pick sig = some status') (t : T) :
    status' t = status t ∨
      ∃ cv, sig.elim False (fun s => s = .one cv ∨ s = .all cv) ∧
        status' t = (status t).notify cv := by
  unfold deliver at h
  rcases sig with _ | (cv | cv)
  · left
    rw [Option.some.inj h]
  · cases pick with
    | none =>
      left
      by_cases hany : ∃ t, (status t).isAsleep cv
      · simp [hany] at h
      · simp only [hany, if_false] at h
        rw [Option.some.inj h]
    | some v =>
      by_cases hv : (status v).isAsleep cv
      · simp only [hv, if_true] at h
        rw [← Option.some.inj h]
        by_cases htv : t = v
        · subst htv
          right
          exact ⟨cv, Or.inl rfl, Function.update_self ..⟩
        · left
          exact Function.update_of_ne htv ..
      · simp [hv] at h
  · right
    exact ⟨cv, Or.inr rfl, by rw [← Option.some.inj h]⟩

theorem deliver_all (h : deliver status pick (some (.all cv)) = some status') (t : T) :
    status' t = (status t).notify cv := by
  rw [← Option.some.inj h]

/-- A single notification reaches a sleeper, unless nobody sleeps. -/
theorem deliver_one (h : deliver status pick (some (.one cv)) = some status') :
    (∃ v, (status v).isAsleep cv ∧
      status' = Function.update status v ((status v).notify cv)) ∨
    status' = status ∧ ∀ v, (status v).isAsleep cv = false := by
  unfold deliver at h
  cases pick with
  | none =>
    right
    by_cases hany : ∃ t, (status t).isAsleep cv
    · simp [hany] at h
    · simp only [hany, if_false] at h
      refine ⟨(Option.some.inj h).symm, ?_⟩
      intro v
      exact Bool.eq_false_iff.mpr fun hv => hany ⟨v, hv⟩
  | some v =>
    left
    by_cases hv : (status v).isAsleep cv
    · simp only [hv, if_true] at h
      exact ⟨v, hv, (Option.some.inj h).symm⟩
    · simp [hv] at h

end

namespace Config

def loc (c : Config T C L S) (t : T) : L := (c.status t).loc

end Config

namespace Threads

variable [Fintype T] [DecidableEq T] [DecidableEq C]
variable {p : Threads T C L A S} {c u : Config T C L S} {t : T}

/-- What a step of a thread can do: it moves its own thread, and it touches the others only
by notifying sleepers. -/
structure Ran (p : Threads T C L A S) (c : Config T C L S) (t : T) (l : L)
    (e : Effect C L S) (u : Config T C L S) : Prop where
  here : (c.status t).runnable = some l
  admits : p.Admits c.owner t l
  shared : u.shared = e.shared
  owner : u.owner = p.ownerAfter c.owner t l e.next
  self : u.status t = e.next.status
  loc : ∀ v, v ≠ t → u.loc v = c.loc v
  asleep : ∀ v cv, v ≠ t → (u.status v).isAsleep cv →
    (c.status v).isAsleep cv ∧ e.signal ≠ some (.all cv)
  notified : ∀ v, v ≠ t → (c.status v).isNotified → (u.status v).isNotified
  ready : ∀ v, v ≠ t → (c.status v).isReady → (u.status v).isReady
  one : ∀ cv, e.signal = some (.one cv) →
    (∃ v, v ≠ t ∧ (c.status v).isAsleep cv ∧ (u.status v).isNotified) ∨
      ∀ v, v ≠ t → (u.status v).isAsleep cv = false

/-- A sleeper that wakes without a notification. -/
structure Woke (c : Config T C L S) (t : T) (u : Config T C L S) : Prop where
  here : ∃ cv, (c.status t).isAsleep cv
  shared : u.shared = c.shared
  owner : u.owner = c.owner
  self : u.status t = .ready (c.loc t)
  other : ∀ v, v ≠ t → u.status v = c.status v

theorem act_run {a : A} {pick : Option T} (h : p.act c (.run t a pick) = some u) :
    ∃ l e status, (c.status t).runnable = some l ∧ p.Admits c.owner t l ∧
      p.step t l a c.shared = some e ∧ deliver c.status pick e.signal = some status ∧
      u = ⟨e.shared, p.ownerAfter c.owner t l e.next, Function.update status t e.next.status⟩ := by
  obtain ⟨l, hl, h⟩ := Option.bind_eq_some_iff.mp h
  by_cases hadmits : p.Admits c.owner t l
  · rw [if_pos hadmits] at h
    obtain ⟨e, he, h⟩ := Option.bind_eq_some_iff.mp h
    obtain ⟨status, hstatus, rfl⟩ := Option.map_eq_some_iff.mp h
    exact ⟨l, e, status, hl, hadmits, he, hstatus, rfl⟩
  · rw [if_neg hadmits] at h
    cases h

theorem act_ran {a : A} {pick : Option T} (h : p.act c (.run t a pick) = some u) :
    ∃ l e, p.step t l a c.shared = some e ∧ p.Ran c t l e u := by
  obtain ⟨l, e, status, hl, hadmits, he, hstatus, rfl⟩ := act_run h
  refine ⟨l, e, he, ?_⟩
  constructor
  case here => exact hl
  case admits => exact hadmits
  case shared => rfl
  case owner => rfl
  case self => exact Function.update_self ..
  case loc =>
    intro v hv
    simp only [Config.loc, Function.update_of_ne hv]
    rcases deliver_status hstatus v with hsame | ⟨cv, -, hsame⟩
    · rw [hsame]
    · rw [hsame, Status.notify_loc]
  case asleep =>
    intro v cv hv hasleep
    simp only [Function.update_of_ne hv] at hasleep
    rcases hsig : e.signal with _ | (cv' | cv')
    all_goals rw [hsig] at hstatus
    · rw [Option.some.inj hstatus]
      exact ⟨hasleep, by simp⟩
    · refine ⟨?_, by simp⟩
      rcases deliver_status hstatus v with hsame | ⟨cv'', -, hsame⟩
      · rwa [← hsame]
      · rw [hsame] at hasleep
        exact (Status.isAsleep_notify hasleep).1
    · rw [deliver_all hstatus v] at hasleep
      obtain ⟨hbefore, hne⟩ := Status.isAsleep_notify hasleep
      exact ⟨hbefore, fun heq => hne (Signal.all.inj (Option.some.inj heq)).symm⟩
  case notified =>
    intro v hv hnotified
    simp only [Function.update_of_ne hv]
    rcases deliver_status hstatus v with hsame | ⟨cv, -, hsame⟩
    · rwa [hsame]
    · rw [hsame]
      exact Status.isNotified_of_notify hnotified
  case ready =>
    intro v hv hready
    simp only [Function.update_of_ne hv]
    rcases deliver_status hstatus v with hsame | ⟨cv, -, hsame⟩
    · rwa [hsame]
    · rw [hsame]
      exact Status.isReady_notify hready
  case one =>
    intro cv hsig
    rw [hsig] at hstatus
    rcases deliver_one hstatus with ⟨v, hv, rfl⟩ | ⟨rfl, hnone⟩
    · left
      have hvt : v ≠ t := by
        intro hvt
        subst hvt
        rw [Status.runnable_not_asleep hl] at hv
        cases hv
      refine ⟨v, hvt, hv, ?_⟩
      simp only [Function.update_of_ne hvt, Function.update_self]
      exact Status.isNotified_notify hv
    · right
      intro v hv
      simp only [Function.update_of_ne hv]
      exact hnone v

/-- A thread that can run takes its step, unless the step has to choose a sleeper. -/
theorem act_enabled {l : L} {a : A} {e : Effect C L S} (hl : (c.status t).runnable = some l)
    (hadmits : p.Admits c.owner t l) (he : p.step t l a c.shared = some e)
    (hsignal : ∀ cv, e.signal ≠ some (.one cv)) :
    ∃ u, p.act c (.run t a none) = some u := by
  obtain ⟨status, hstatus⟩ : ∃ status, deliver c.status none e.signal = some status := by
    rcases hsig : e.signal with _ | (cv | cv)
    · exact ⟨_, rfl⟩
    · exact absurd hsig (hsignal cv)
    · exact ⟨_, rfl⟩
  simp [act, hl, if_pos hadmits, he, hstatus]

theorem act_woke (h : p.act c (.wake t) = some u) : Woke c t u := by
  unfold act at h
  cases hstatus : c.status t with
  | ready l => simp [hstatus] at h
  | asleep cv l =>
    simp only [hstatus, Option.some.injEq] at h
    subst h
    constructor
    case here => exact ⟨cv, by rw [hstatus]; exact decide_eq_true rfl⟩
    case shared => rfl
    case owner => rfl
    case self => simp [Config.loc, hstatus, Status.loc]
    case other => exact fun v hv => Function.update_of_ne hv ..
  | notified cv l => simp [hstatus] at h

end Threads

namespace Threads

variable {p : Threads T C L A S} {c u : Config T C L S} {t : T} {l : L} {e : Effect C L S}

theorem Ran.loc_here [DecidableEq C] (h : p.Ran c t l e u) : c.loc t = l :=
  Status.runnable_loc h.here

theorem Ran.loc_self [DecidableEq C] (h : p.Ran c t l e u) : u.loc t = e.next.loc := by
  unfold Config.loc
  rw [h.self, Next.loc_status]

/-- A thread that goes on leaves only the threads asleep that slept before. -/
theorem Ran.asleep_of_go [DecidableEq C] (h : p.Ran c t l e u) {l' : L} (hnext : e.next = .go l')
    {v : T} {cv : C} (hv : (u.status v).isAsleep cv) : v ≠ t ∧ (c.status v).isAsleep cv := by
  have hvt : v ≠ t := by
    intro heq
    subst heq
    rw [h.self, hnext] at hv
    cases hv
  exact ⟨hvt, (h.asleep v cv hvt hv).1⟩

theorem Ran.awake [DecidableEq C] (h : p.Ran c t l e u) {v : T} {cv : C} (hv : v ≠ t)
    (hc : (c.status v).isAsleep cv = false) : (u.status v).isAsleep cv = false := by
  apply Bool.eq_false_iff.mpr
  intro hu
  rw [(h.asleep v cv hv hu).1] at hc
  cases hc

variable [DecidableEq T] [DecidableEq C]

theorem Woke.loc (h : Woke c t u) (v : T) : u.loc v = c.loc v := by
  unfold Config.loc
  by_cases hv : v = t
  · subst hv
    rw [h.self]
    rfl
  · rw [h.other v hv]

theorem Woke.asleep (h : Woke c t u) {v : T} {cv : C} (hv : (u.status v).isAsleep cv) :
    (c.status v).isAsleep cv := by
  by_cases hvt : v = t
  · subst hvt
    rw [h.self] at hv
    cases hv
  · rwa [h.other v hvt] at hv

theorem Woke.awake (h : Woke c t u) {v : T} {cv : C} (hc : (c.status v).isAsleep cv = false) :
    (u.status v).isAsleep cv = false := by
  apply Bool.eq_false_iff.mpr
  intro hu
  rw [h.asleep hu] at hc
  cases hc

theorem Woke.notified (h : Woke c t u) {v : T} (hv : (c.status v).isNotified) :
    (u.status v).isNotified := by
  by_cases hvt : v = t
  · subst hvt
    obtain ⟨cv, hcv⟩ := h.here
    cases hstatus : c.status v <;> rw [hstatus] at hv hcv
    · cases hv
    · cases hv
    · cases hcv
  · rwa [h.other v hvt]

end Threads

section Sleepers
/-- The threads of the program sleep at these locations only. -/
def Parks (p : Threads T C L A S) (W : L → Prop) : Prop :=
  ∀ t l a s e cv l', p.step t l a s = some e → e.next = .sleep cv l' → W l'

/-- A thread elsewhere neither sleeps nor has been notified. -/
def Sleepers (W : L → Prop) (c : Config T C L S) : Prop :=
  ∀ t, (c.status t).isReady ∨ W (c.loc t)

theorem Sleepers.notified {W : L → Prop} {c : Config T C L S} (h : Sleepers W c) {t : T}
    (ht : (c.status t).isNotified) : W (c.loc t) := by
  apply (h t).resolve_left
  rw [Status.isNotified_not_ready ht]
  nofun

variable [DecidableEq C]

theorem Sleepers.asleep {W : L → Prop} {c : Config T C L S} (h : Sleepers W c) {t : T} {cv : C}
    (ht : (c.status t).isAsleep cv) : W (c.loc t) := by
  apply (h t).resolve_left
  rw [Status.isAsleep_not_ready ht]
  nofun

variable [Fintype T] [DecidableEq T]

theorem Parks.act {p : Threads T C L A S} {W : L → Prop} (h : Parks p W)
    {c u : Config T C L S} {b : Move T A} (hc : Sleepers W c) (hact : p.act c b = some u) :
    Sleepers W u := by
  intro t
  cases b with
  | wake v =>
    have hwoke := Threads.act_woke hact
    by_cases hv : t = v
    · subst hv
      left
      rw [hwoke.self]
      rfl
    · rw [hwoke.other t hv, hwoke.loc]
      exact hc t
  | run v a pick =>
    obtain ⟨l, e, he, hran⟩ := Threads.act_ran hact
    by_cases hv : t = v
    · subst hv
      cases hnext : e.next with
      | go l' =>
        left
        rw [hran.self, hnext]
        rfl
      | sleep cv l' =>
        right
        rw [hran.loc_self, hnext]
        exact h t l a c.shared e cv l' he hnext
    · rw [hran.loc t hv]
      exact (hc t).imp (hran.ready t hv) id

end Sleepers

section Informing
variable [DecidableEq C] [Fintype T] [DecidableEq T]

/-- A step that may end what the others wait for notifies all of them, and a thread that goes to
sleep has something to wait for. -/
def Informs (p : Threads T C L A S) (cv : C) (W : T → S → Prop) : Prop :=
  ∀ t l a s e, p.step t l a s = some e →
    e.signal = some (.all cv) ∧ (∃ l', e.next = .go l') ∨
      (∀ v, W v s → W v e.shared) ∧ ((∃ l', e.next = .go l') ∨ W t e.shared)

/-- Who sleeps waits for something that has not come. -/
def Waiting (cv : C) (W : T → S → Prop) (c : Config T C L S) : Prop :=
  ∀ t, (c.status t).isAsleep cv → W t c.shared

theorem Informs.act {p : Threads T C L A S} {cv : C} {W : T → S → Prop} (h : Informs p cv W)
    {c u : Config T C L S} {b : Move T A} (hc : Waiting cv W c) (hact : p.act c b = some u) :
    Waiting cv W u := by
  intro v hv
  cases b with
  | wake t =>
    have hwoke := Threads.act_woke hact
    rw [hwoke.shared]
    exact hc v (hwoke.asleep hv)
  | run t a pick =>
    obtain ⟨l, e, he, hran⟩ := Threads.act_ran hact
    rw [hran.shared]
    rcases h t l a c.shared e he with ⟨hall, l', hgo⟩ | ⟨hkeeps, hnext⟩
    · have hvt := (hran.asleep_of_go hgo hv).1
      exact absurd hall (hran.asleep v cv hvt hv).2
    · by_cases hvt : v = t
      · subst hvt
        rcases hnext with ⟨l', hgo⟩ | hwaits
        · exact absurd rfl (hran.asleep_of_go hgo hv).1
        · exact hwaits
      · exact hkeeps v (hc v (hran.asleep v cv hvt hv).1)

end Informing

section Counting
variable [Fintype T]

/-- The threads that have been notified and have not yet resumed. -/
def Config.pending (c : Config T C L S) : Finset T :=
  Finset.univ.filter fun t => (c.status t).isNotified

variable {p : Threads T C L A S} {c u : Config T C L S} {t : T} {l : L} {e : Effect C L S}

theorem mem_pending : t ∈ c.pending ↔ (c.status t).isNotified := by
  simp [Config.pending]

theorem not_mem_pending (h : (c.status t).isReady) : t ∉ c.pending := by
  intro ht
  rw [Status.isNotified_not_ready (mem_pending.mp ht)] at h
  cases h

variable [DecidableEq C]

/-- What all threads have left to do shrinks when the thread that steps has less left. -/
theorem Threads.Ran.sum_lt (h : p.Ran c t l e u) {w : T → L → Nat}
    (hw : w t (u.loc t) < w t (c.loc t)) :
    ∑ v, w v (u.loc v) < ∑ v, w v (c.loc v) := by
  apply Finset.sum_lt_sum
  · intro v _
    by_cases hv : v = t
    · subst hv
      exact hw.le
    · rw [h.loc v hv]
  · exact ⟨t, Finset.mem_univ t, hw⟩

/-- A step resumes at most its own thread. -/
theorem Threads.Ran.card_le [DecidableEq T] (h : p.Ran c t l e u) :
    c.pending.card ≤ u.pending.card + 1 := by
  have hsub : c.pending.erase t ⊆ u.pending := by
    intro v hv
    obtain ⟨hne, hmem⟩ := Finset.mem_erase.mp hv
    exact mem_pending.mpr (h.notified v hne (mem_pending.mp hmem))
  have hcard := Finset.card_le_card hsub
  have herase := Finset.pred_card_le_card_erase (s := c.pending) (a := t)
  omega

theorem Threads.Ran.subset (h : p.Ran c t l e u) (hready : (c.status t).isReady) :
    c.pending ⊆ u.pending := by
  intro v hv
  have hne : v ≠ t := by
    intro heq
    exact not_mem_pending hready (heq ▸ hv)
  exact mem_pending.mpr (h.notified v hne (mem_pending.mp hv))

/-- A single notification adds to the notified threads, unless nobody sleeps. -/
theorem Threads.Ran.card_one (h : p.Ran c t l e u) (hready : (c.status t).isReady) {cv : C}
    (hsignal : e.signal = some (.one cv)) :
    c.pending.card < u.pending.card ∨ ∀ v, v ≠ t → (u.status v).isAsleep cv = false := by
  apply (h.one cv hsignal).imp _ id
  intro hone
  obtain ⟨v, -, hasleep, hnotified⟩ := hone
  apply Finset.card_lt_card
  apply Finset.ssubset_iff_subset_ne.mpr
  refine ⟨h.subset hready, ?_⟩
  intro heq
  have hv : v ∈ c.pending := heq ▸ mem_pending.mpr hnotified
  rw [Status.isNotified_not_asleep (mem_pending.mp hv)] at hasleep
  cases hasleep

theorem Threads.Woke.subset [DecidableEq T] (h : Threads.Woke c t u) : c.pending ⊆ u.pending := by
  intro v hv
  exact mem_pending.mpr (h.notified (mem_pending.mp hv))

end Counting

section Outlines

/-- A local condition on the steps of a run: on the thread, its location and the shared state. -/
def Allows (ok : T → L → S → Prop) (c : Config T C L S) : Move T A → Prop
  | .run t _ _ => ok t (c.loc t) c.shared
  | .wake _ => True

instance {ok : T → L → S → Prop} [∀ t l s, Decidable (ok t l s)] (c : Config T C L S)
    (b : Move T A) : Decidable (Allows ok c b) :=
  match b with
  | .run t _ _ => inferInstanceAs (Decidable (ok t (c.loc t) c.shared))
  | .wake _ => .isTrue trivial

theorem allows_true (c : Config T C L S) (b : Move T A) :
    Allows (fun _ _ _ => True) c b := by
  cases b <;> trivial

/-- A proof outline: a fact about the shared state, and one for each thread at its location that
the steps of the other threads leave true. -/
structure Outline (p : Threads T C L A S) (ok : T → L → S → Prop) (G : S → Prop)
    (J : T → L → S → Prop) : Prop where
  shared : ∀ t l a s e, ok t l s → G s → J t l s → p.step t l a s = some e → G e.shared
  thread : ∀ t l a s e, ok t l s → G s → J t l s → p.step t l a s = some e →
    J t e.next.loc e.shared
  others : ∀ t l a s e, ok t l s → G s → J t l s → p.step t l a s = some e →
    ∀ v l', v ≠ t → J v l' s → J v l' e.shared

def Holds (G : S → Prop) (J : T → L → S → Prop) (c : Config T C L S) : Prop :=
  G c.shared ∧ ∀ t, J t (c.loc t) c.shared

/-- One thread writes and all others read. -/
def OneWriter {R : Type*} (Writes Reads : S → L → Prop) : Option R → L → S → Prop
  | none, l, s => Writes s l
  | some _, l, s => Reads s l

/-- The rule for one writer: readers change nothing, so that a reader has to allow for the steps of
the writer only. -/
theorem Outline.oneWriter {R : Type*} {p : Threads (Option R) C L A S}
    {ok : Option R → L → S → Prop} {G : S → Prop} {Writes Reads : S → L → Prop}
    {Later : S → S → Prop}
    (hwrite : ∀ l a s e, G s → Writes s l → p.step none l a s = some e →
      G e.shared ∧ Writes e.shared e.next.loc ∧ Later s e.shared)
    (hread : ∀ r l a s e, ok (some r) l s → G s → Reads s l → p.step (some r) l a s = some e →
      e.shared = s ∧ Reads s e.next.loc)
    (hlater : ∀ s u l, G u → Later s u → Reads s l → Reads u l) :
    Outline p ok G (OneWriter Writes Reads) where
  shared t l a s e hok hs hl hstep := by
    cases t with
    | none => exact (hwrite l a s e hs hl hstep).1
    | some r => rwa [(hread r l a s e hok hs hl hstep).1]
  thread t l a s e hok hs hl hstep := by
    cases t with
    | none => exact (hwrite l a s e hs hl hstep).2.1
    | some r =>
      obtain ⟨hsame, hnext⟩ := hread r l a s e hok hs hl hstep
      rw [hsame]
      exact hnext
  others t l a s e hok hs hl hstep v l' hv hl' := by
    cases t with
    | none =>
      obtain ⟨hu, -, hgrow⟩ := hwrite l a s e hs hl hstep
      cases v with
      | none => exact absurd rfl hv
      | some r => exact hlater s e.shared l' hu hgrow hl'
    | some r => rwa [(hread r l a s e hok hs hl hstep).1]

variable [Fintype T] [DecidableEq T] [DecidableEq C]
variable {p : Threads T C L A S} {ok : T → L → S → Prop} {G : S → Prop} {J : T → L → S → Prop}
variable {c u : Config T C L S} {b : Move T A}

theorem Outline.act (h : Outline p ok G J) (hc : Holds G J c) (hok : Allows ok c b)
    (hact : p.act c b = some u) : Holds G J u := by
  obtain ⟨hG, hJ⟩ := hc
  cases b with
  | run t a pick =>
    obtain ⟨l, e, he, hran⟩ := Threads.act_ran hact
    have hok : ok t (c.loc t) c.shared := hok
    have hJt := hJ t
    rw [hran.loc_here] at hok hJt
    constructor
    · rw [hran.shared]
      exact h.shared t l a c.shared e hok hG hJt he
    · intro v
      rw [hran.shared]
      by_cases hv : v = t
      · subst hv
        rw [hran.loc_self]
        exact h.thread v l a c.shared e hok hG hJt he
      · rw [hran.loc v hv]
        exact h.others t l a c.shared e hok hG hJt he v _ hv (hJ v)
  | wake t =>
    have hwoke := Threads.act_woke hact
    constructor
    · rwa [hwoke.shared]
    · intro v
      rw [hwoke.shared, hwoke.loc]
      exact hJ v

/-- An outline whose steps need no condition holds in every state of every run. -/
theorem Outline.runs (h : Outline p (fun _ _ _ => True) G J) {acts : List (Move T A)}
    (hc : Holds G J c) (hrun : exec p.act acts c = some u) : Holds G J u :=
  exec_preserves (fun _ _ _ hs hact => h.act hs (allows_true _ _) hact) hc hrun

end Outlines

section Exclusion
variable [Fintype T] [DecidableEq T] [DecidableEq C]

/-- A thread comes to hold the mutex only by acquiring it, and sleeps only by releasing it. -/
structure Disciplined (p : Threads T C L A S) : Prop where
  holds : ∀ t l a s e, p.step t l a s = some e → p.mode e.next.loc = .inside →
    p.mode l ≠ .outside
  sleeps : ∀ t l a s e cv l', p.step t l a s = some e → e.next = .sleep cv l' →
    p.mode l ≠ .outside ∧ p.mode l' ≠ .inside

/-- The owner of the mutex is the thread inside. -/
def Exclusive (p : Threads T C L A S) (c : Config T C L S) : Prop :=
  ∀ t, p.mode (c.loc t) = .inside ↔ c.owner = some t

variable {p : Threads T C L A S} {c u : Config T C L S} {b : Move T A}

/-- When every critical section is a single step, the mutex is free between the steps. -/
theorem Threads.act_free (h : ∀ l, p.mode l ≠ .inside) (hc : c.owner = none)
    (hact : p.act c b = some u) : u.owner = none := by
  cases b with
  | wake t => rw [(Threads.act_woke hact).owner, hc]
  | run t a pick =>
    obtain ⟨l, e, -, hran⟩ := Threads.act_ran hact
    rw [hran.owner]
    cases e.next with
    | sleep cv l' => rfl
    | go l' => simp [Threads.ownerAfter, h l', hc]

theorem Disciplined.act (h : Disciplined p) (hc : Exclusive p c) (hact : p.act c b = some u) :
    Exclusive p u := by
  cases b with
  | wake t =>
    have hwoke := Threads.act_woke hact
    intro v
    rw [hwoke.loc, hwoke.owner]
    exact hc v
  | run t a pick =>
    obtain ⟨l, e, he, hran⟩ := Threads.act_ran hact
    -- the mutex is free or the thread's own, whenever its step needs it
    have hfree : p.mode l ≠ .outside → ∀ v, v ≠ t → p.mode (c.loc v) ≠ .inside := by
      intro hl v hv hinside
      have howner := (hc v).mp hinside
      cases hmode : p.mode l with
      | outside => exact hl hmode
      | entry => rw [hran.admits.1 hmode] at howner; cases howner
      | inside =>
        rw [hran.admits.2 hmode] at howner
        exact hv (Option.some.inj howner).symm
    intro v
    rw [hran.owner]
    cases hnext : e.next with
    | sleep cv l' =>
      obtain ⟨hl, hl'⟩ := h.sleeps t l a c.shared e cv l' he hnext
      simp only [Threads.ownerAfter, reduceCtorEq, iff_false]
      by_cases hv : v = t
      · subst hv
        rw [hran.loc_self, hnext]
        exact hl'
      · rw [hran.loc v hv]
        exact hfree hl v hv
    | go l' =>
      by_cases hl' : p.mode l' = .inside
      · have hl := h.holds t l a c.shared e he (by rw [hnext]; exact hl')
        simp only [Threads.ownerAfter, hl', ↓reduceIte]
        by_cases hv : v = t
        · subst hv
          rw [hran.loc_self, hnext]
          exact iff_of_true hl' rfl
        · rw [hran.loc v hv]
          exact iff_of_false (hfree hl v hv) fun heq => hv (Option.some.inj heq).symm
      · by_cases hl : p.mode l = .outside
        · simp only [Threads.ownerAfter, hl', hl, ↓reduceIte]
          by_cases hv : v = t
          · subst hv
            rw [hran.loc_self, hnext]
            apply iff_of_false hl'
            intro howner
            have hinside := (hc v).mpr howner
            rw [hran.loc_here, hl] at hinside
            cases hinside
          · rw [hran.loc v hv]
            exact hc v
        · simp only [Threads.ownerAfter, hl', hl, ↓reduceIte, reduceCtorEq, iff_false]
          by_cases hv : v = t
          · subst hv
            rw [hran.loc_self, hnext]
            exact hl'
          · rw [hran.loc v hv]
            exact hfree hl v hv

end Exclusion

end LanguageTest.Monitor
