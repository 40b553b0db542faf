import LanguageTest.Library.Wakeups
import Mathlib.Data.Fintype.Option

namespace LanguageTest.PrintId
open Transition Monitor

variable {n : Nat}

inductive Cond where
  | cv
  deriving DecidableEq

/-- The flag, and the ids that have been printed. -/
structure State where
  ready : Bool
  output : List Int

/-- Every thread is one critical section, which starts anew when a `wait` is over. -/
inductive Loc where
  | enter
  | finished
  deriving DecidableEq

def mode : Loc → Mode
  | .enter => .entry
  | .finished => .outside

def idOf (i : Fin n) : Int := (i : Nat)

def printId (id : Int) (s : State) : Effect Cond Loc State :=
  if !s.ready then .sleep s .cv .enter
  else .notifyOne { s with output := s.output ++ [id] } .cv .finished

def go (s : State) : Effect Cond Loc State := .notifyOne { s with ready := true } .cv .finished

/-- The threads, of which `main` starts ten, and `main` itself. -/
def step (t : Option (Fin n)) (l : Loc) (_ : Unit) (s : State) : Option (Effect Cond Loc State) :=
  match l, t with
  | .enter, some i => some (printId (idOf i) s)
  | .enter, none => some (go s)
  | .finished, _ => none

def program : Threads (Option (Fin n)) Cond Loc Unit State := ⟨mode, step⟩

def init : Config (Option (Fin n)) Cond Loc State :=
  ⟨⟨false, []⟩, none, fun _ => .ready .enter⟩

/-- The ids of all threads. -/
def ids (n : Nat) : List Int := (List.finRange n).map idOf

/-- Nobody prints before `go`, and then everybody that has finished has printed its id once. -/
structure Printed (c : Config (Option (Fin n)) Cond Loc State) : Prop where
  ready : c.shared.ready = true ↔ c.loc none = .finished
  waits : c.shared.ready = false → c.shared.output = []
  nodup : c.shared.output.Nodup
  mem : ∀ v, v ∈ c.shared.output ↔ ∃ i : Fin n, c.loc (some i) = .finished ∧ idOf i = v

/-- What a thread can do. -/
inductive Does (s : State) : Option (Fin n) → Effect Cond Loc State → Prop
  | waits (i : Fin n) (h : s.ready = false) : Does s (some i) (.sleep s .cv .enter)
  | prints (i : Fin n) (h : s.ready = true) :
    Does s (some i) (.notifyOne { s with output := s.output ++ [idOf i] } .cv .finished)
  | go : Does s none (.notifyOne { s with ready := true } .cv .finished)

section
variable {c u : Config (Option (Fin n)) Cond Loc State} {t : Option (Fin n)} {s : State} {l : Loc}
  {a : Unit} {e : Effect Cond Loc State} {b : Move (Option (Fin n)) Unit}

theorem idOf_injective : Function.Injective (idOf (n := n)) := by
  intro i j h
  unfold idOf at h
  omega

theorem step_does (he : program.step t l a s = some e) : l = .enter ∧ Does s t e := by
  cases l with
  | finished => cases he
  | enter =>
    refine ⟨rfl, ?_⟩
    cases t with
    | none =>
      obtain rfl := Option.some.inj he
      exact .go
    | some i =>
      obtain rfl := Option.some.inj he
      unfold printId
      split_ifs with hready
      · exact .waits i (by simpa using hready)
      · exact .prints i (by simpa using hready)

/-- The flag stays, and everybody who finds it set notifies the next. -/
theorem relays : Relays (program (n := n)) .cv (fun s => s.ready = true)
    fun t l => t.isSome ∧ l = .enter where
  makes t l a s e he hno hwork := by
    cases (step_does he).2 with
    | waits i h => exact absurd hwork hno
    | prints i h => rfl
    | go => rfl
  takes t l a s e he hrole hwork hstill := by
    cases (step_does he).2 with
    | waits i h => exact absurd hwork (Bool.eq_false_iff.mp h)
    | prints i h => rfl
    | go => rfl
  sleeps t l a s e l' he hnext := by
    cases (step_does he).2 with
    | waits i h =>
      cases hnext
      exact ⟨Bool.eq_false_iff.mp h, rfl, rfl⟩
    | prints i h => cases hnext
    | go => cases hnext

/-- A thread has one critical section to run. -/
def left : Loc → Nat
  | .enter => 1
  | .finished => 0

theorem program_toils : Toils (program (n := n)) left where
  go t l a s e l' he hnext := by
    obtain ⟨rfl, hdoes⟩ := step_does he
    cases hdoes with
    | waits i h => cases hnext
    | prints i h | go =>
      cases hnext
      exact ⟨Nat.one_pos, nofun⟩
  sleep t l a s e _ l' he hnext := by
    obtain ⟨rfl, hdoes⟩ := step_does he
    cases hdoes with
    | waits i h =>
      cases hnext
      exact ⟨le_rfl, Nat.one_pos, rfl⟩
    | prints i h | go => cases hnext

theorem Printed.same (h : Printed c) (hshared : u.shared = c.shared)
    (hloc : ∀ v, u.loc v = c.loc v) : Printed u := by
  constructor
  case ready => simpa only [hshared, hloc] using h.ready
  case waits => exact hshared ▸ h.waits
  case nodup => exact hshared ▸ h.nodup
  case mem => simpa only [hshared, hloc] using h.mem

theorem Printed.prints {i : Fin n} (h : Printed c) (hready : c.shared.ready = true)
    (hshared : u.shared = { c.shared with output := c.shared.output ++ [idOf i] })
    (hbefore : c.loc (some i) = .enter) (hself : u.loc (some i) = .finished)
    (hother : ∀ v, v ≠ some i → u.loc v = c.loc v) : Printed u := by
  have hnew : idOf i ∉ c.shared.output := by
    intro hin
    obtain ⟨j, hj, hid⟩ := (h.mem _).mp hin
    rw [idOf_injective hid, hbefore] at hj
    cases hj
  constructor
  case ready =>
    rw [hshared, hother none nofun]
    exact h.ready
  case waits =>
    intro hno
    rw [hshared] at hno
    exact absurd hready (Bool.eq_false_iff.mp hno)
  case nodup =>
    rw [hshared, ← List.concat_eq_append, List.nodup_concat]
    exact ⟨hnew, h.nodup⟩
  case mem =>
    intro v
    rw [hshared, List.mem_append, List.mem_singleton, h.mem]
    constructor
    · rintro (⟨j, hj, rfl⟩ | rfl)
      · have hne : some j ≠ some i := by
          intro heq
          rw [heq, hbefore] at hj
          cases hj
        exact ⟨j, (hother _ hne).trans hj, rfl⟩
      · exact ⟨i, hself, rfl⟩
    · rintro ⟨j, hj, rfl⟩
      by_cases hji : j = i
      · exact Or.inr (congrArg idOf hji)
      · have hne : some j ≠ some i := fun heq => hji (Option.some.inj heq)
        exact Or.inl ⟨j, (hother _ hne).symm.trans hj, rfl⟩

theorem Printed.act (h : Printed c) (hact : program.act c b = some u) : Printed u := by
  cases b with
  | wake t =>
    have hwoke := Threads.act_woke hact
    exact h.same hwoke.shared hwoke.loc
  | run t a pick =>
    obtain ⟨l, e, he, hran⟩ := Threads.act_ran hact
    obtain ⟨rfl, hdoes⟩ := step_does he
    have hshared := hran.shared
    have hself := hran.loc_self
    have hother := hran.loc
    cases hdoes with
    | waits i hready =>
      refine h.same hshared fun v => ?_
      by_cases hv : v = some i
      · rw [hv, hself, hran.loc_here]
        rfl
      · exact hother v hv
    | prints i hready => exact h.prints hready hshared hran.loc_here hself hother
    | go =>
      have hsame (i : Fin n) : u.loc (some i) = c.loc (some i) := hother _ nofun
      constructor
      case ready =>
        rw [hshared, hself]
        exact iff_of_true rfl rfl
      case waits =>
        intro hno
        rw [hshared] at hno
        cases hno
      case nodup => exact hshared ▸ h.nodup
      case mem => simpa only [hshared, hsame, Effect.notifyOne] using h.mem

/-- What holds in every state of every run. -/
structure Good (c : Config (Option (Fin n)) Cond Loc State) : Prop where
  free : c.owner = none
  printed : Printed c
  relayed : Relayed .cv (fun s => s.ready = true) (fun t l => t.isSome ∧ l = .enter) c

theorem Good.act (h : Good c) (hact : program.act c b = some u) : Good u where
  free := Threads.act_free (by intro l; cases l <;> nofun) h.free hact
  printed := h.printed.act hact
  relayed := relays.act h.relayed hact

theorem good_init : Good (init : Config (Option (Fin n)) Cond Loc State) where
  free := rfl
  printed := by
    refine ⟨?_, fun _ => rfl, List.nodup_nil, fun v => ?_⟩
    · simp [init, Config.loc, Status.loc]
    · simp [init, Config.loc, Status.loc]
  relayed := ⟨nofun, fun _ ⟨_, h⟩ => nomatch h⟩

theorem run_good {acts : List (Move (Option (Fin n)) Unit)}
    (hrun : exec program.act acts init = some c) : Good c :=
  exec_preserves (fun _ _ _ h hact => h.act hact) good_init hrun

theorem Good.not_runnable (h : Good c) (hstuck : program.Stuck c) (t : Option (Fin n)) :
    (c.status t).runnable ≠ some .enter := by
  intro hl
  have hnone := hstuck.step_eq_none hl ⟨fun _ => h.free, nofun⟩ ()
  cases t <;> cases hnone

/-- Who has not finished then, sleeps, and is not `main`. -/
theorem Good.asleep (h : Good c) (hstuck : program.Stuck c) (ht : c.loc t ≠ .finished) :
    (c.status t).isAsleep .cv ∧ t.isSome := by
  have henter : c.loc t = .enter := by
    cases hloc : c.loc t with
    | enter => rfl
    | finished => exact absurd hloc ht
  have hasleep : (c.status t).isAsleep .cv := by
    by_contra hno
    apply h.not_runnable hstuck t
    rw [Status.runnable_of_awake fun _ => Bool.eq_false_iff.mpr hno]
    exact congrArg some henter
  exact ⟨hasleep, (h.relayed.roles t hasleep).1⟩

/-- `main` sets the flag and wakes one thread, which prints and wakes the next. -/
def sample : List (Move (Option (Fin 2)) Unit) :=
  let first := some ⟨0, Nat.two_pos⟩
  let second := some ⟨1, Nat.one_lt_two⟩
  [.run first () none, .run second () none, .run none () (some second), .run second () (some first),
    .run first () none]

/-- One notification of one thread is enough for all: when no thread can go on, all have finished,
and every id has been printed once. -/
theorem relayed_to_all (n : Nat) (acts : List (Move (Option (Fin n)) Unit))
    (c : Config (Option (Fin n)) Cond Loc State) (hrun : exec program.act acts init = some c)
    (hstuck : program.Stuck c) : (∀ t, c.loc t = .finished) ∧ c.shared.output.Perm (ids n) := by
  have h := run_good hrun
  have hmain : c.loc none = .finished := by
    by_contra hno
    cases (h.asleep hstuck hno).2
  have hready := h.printed.ready.mpr hmain
  have hall : ∀ t, c.loc t = .finished := by
    intro t
    by_contra hno
    obtain ⟨w, l, hl, -, rfl⟩ := h.relayed.awake hready ⟨t, (h.asleep hstuck hno).1⟩
    exact h.not_runnable hstuck w hl
  refine ⟨hall, ?_⟩
  apply (List.perm_ext_iff_of_nodup h.printed.nodup
    ((List.nodup_finRange n).map idOf_injective)).mpr
  intro v
  rw [h.printed.mem]
  simp [hall]

theorem relayed_to_all_sample : ∃ c : Config (Option (Fin 2)) Cond Loc State,
    exec program.act sample init = some c ∧
      (∀ t, c.loc t = .finished) ∧ c.shared.output.Perm (ids 2) :=
  ⟨_, rfl, relayed_to_all 2 sample _ rfl fun
    | none, _, _ => rfl
    | some 0, _, _ => rfl
    | some 1, _, _ => rfl⟩

/-- Apart from wake-ups without a notification, a run has at most two steps for each thread. -/
theorem relay_ends (n : Nat) (acts : List (Move (Option (Fin n)) Unit))
    (c : Config (Option (Fin n)) Cond Loc State) (hrun : exec program.act acts init = some c) :
    acts.length ≤ 2 * (n + 1) + 2 * acts.countP Move.isWake := by
  have hle := program_toils.length_le hrun
  have htoil : (init : Config (Option (Fin n)) Cond Loc State).toil left = 2 * (n + 1) := by
    simp [Config.toil, init, Status.toil, left, Nat.mul_comm]
  omega

theorem relay_ends_sample : ∃ c : Config (Option (Fin 2)) Cond Loc State,
    exec program.act sample init = some c ∧
      sample.length ≤ 2 * (2 + 1) + 2 * sample.countP Move.isWake :=
  exists_exec rfl fun c hc => relay_ends 2 sample c hc

end

end LanguageTest.PrintId
