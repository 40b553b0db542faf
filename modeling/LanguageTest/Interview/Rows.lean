import LanguageTest.Library.Turns
import LanguageTest.Library.Wakeups
import Mathlib.Algebra.BigOperators.Fin

namespace LanguageTest.Rows
open Transition Monitor Turns

inductive Cond where
  | cond
  deriving DecidableEq

/-- The flag and what has been printed. The number of turns taken is history, which no step
reads. -/
structure State where
  flag : Nat
  output : List Char
  turns : Nat

/-- A thread is in iteration `i` of its loop before it acquires the mutex, or behind the loop. -/
inductive Loc where
  | enter (i : Nat)
  | left
  deriving DecidableEq

def mode : Loc → Mode
  | .enter _ => .entry
  | .left => .outside

/-- The arguments of the `child` and of `main`. -/
def num : Fin 2 → Nat
  | 0 => 10
  | 1 => 100

/-- The numbers below `num`, each with a blank behind it. -/
def row (num : Nat) : List Char :=
  (List.range num).flatMap (fun j => (Nat.repr j).toList ++ [' ']) ++ ['\n']

/-- The test of the loop. -/
def test (rounds i : Nat) : Loc := if i < rounds then .enter i else .left

def enter (rounds num i : Nat) (s : State) : Effect Cond Loc State :=
  if s.flag ≠ num then .sleep s .cond (.enter i)
  else
    .notifyOne
      { flag := if num = 10 then 100 else 10, output := s.output ++ row num, turns := s.turns + 1 }
      .cond (test rounds (i + 1))

/-- Both threads run the same function, for 50 rounds in the source. -/
def step (rounds : Nat) (t : Fin 2) (l : Loc) (_ : Unit) (s : State) :
    Option (Effect Cond Loc State) :=
  match l with
  | .enter i => some (enter rounds (num t) i s)
  | .left => none

def program (rounds : Nat) : Threads (Fin 2) Cond Loc Unit State := ⟨mode, step rounds⟩

def init (rounds : Nat) : Config (Fin 2) Cond Loc State :=
  ⟨⟨10, [], 0⟩, none, fun _ => .ready (test rounds 0)⟩

/-- A row of ten and a row of a hundred numbers in every round. -/
def rows (rounds : Nat) : List Char := (List.replicate rounds (row 10 ++ row 100)).flatten

/-- Whose turn it is. -/
def holder (turns : Nat) : Fin 2 := ⟨turns % 2, Nat.mod_lt _ Nat.two_pos⟩

/-- The row of a turn. -/
def turnRow (i : Nat) : List Char := if i = 0 then row 10 else row 100

/-- What holds in every state of every run. -/
structure Good (rounds : Nat) (c : Config (Fin 2) Cond Loc State) : Prop where
  free : c.owner = none
  flag : c.shared.flag = num (holder c.shared.turns)
  output : c.shared.output = (inTurn turnRow 2 c.shared.turns).flatten
  turns : c.shared.turns ≤ 2 * rounds
  loc : ∀ t, c.loc t = test rounds (taken 2 t c.shared.turns)
  waits : ∀ t, (c.status t).isAsleep .cond → t ≠ holder c.shared.turns

/-- A thread whose turn it is not goes to sleep, and the other prints its row. -/
inductive Does (rounds : Nat) (s : State) (t : Fin 2) (i : Nat) : Effect Cond Loc State → Prop
  | waits (h : t ≠ holder s.turns) : Does rounds s t i (.sleep s .cond (.enter i))
  | prints (h : t = holder s.turns) :
    Does rounds s t i
      (.notifyOne
        ⟨num (holder (s.turns + 1)), s.output ++ turnRow (s.turns % 2), s.turns + 1⟩ .cond
        (test rounds (i + 1)))

section
variable {rounds i k : Nat} {c u : Config (Fin 2) Cond Loc State} {s : State} {t v : Fin 2}
  {l : Loc} {a : Unit} {e : Effect Cond Loc State} {b : Move (Fin 2) Unit}

theorem num_eq_iff : num t = num v ↔ t = v := by decide +revert

theorem row_num (t : Fin 2) : row (num t) = turnRow t := by
  rcases Fin.exists_fin_two.mp ⟨t, rfl⟩ with rfl | rfl <;> rfl

theorem flag_next (t : Fin 2) : (if num t = 10 then 100 else 10) = num (t + 1) := by
  decide +revert

theorem holder_succ (k : Nat) : holder (k + 1) = holder k + 1 := by
  apply Fin.ext
  simp only [holder, Fin.add_def]
  omega

theorem other_unique {w : Fin 2} (hv : v ≠ t) (hw : w ≠ t) : w = v := by
  omega

theorem test_eq_enter (h : test rounds k = .enter i) : k = i ∧ i < rounds := by
  unfold test at h
  split_ifs at h with hlt
  obtain rfl := Loc.enter.inj h
  exact ⟨rfl, hlt⟩

theorem step_does (hflag : s.flag = num (holder s.turns))
    (he : (program rounds).step t l a s = some e) : ∃ i, l = .enter i ∧ Does rounds s t i e := by
  cases l with
  | left => cases he
  | enter i =>
    obtain rfl := Option.some.inj he
    refine ⟨i, rfl, ?_⟩
    by_cases hturn : t = holder s.turns
    · have hflag : s.flag = num t := hturn ▸ hflag
      rw [enter, if_neg (not_not.mpr hflag), flag_next, row_num, hturn, ← holder_succ]
      exact .prints rfl
    · have hflag : s.flag ≠ num t := by
        rw [hflag, ne_eq, num_eq_iff]
        exact Ne.symm hturn
      rw [enter, if_pos hflag]
      exact .waits hturn

theorem Good.prints (h : Good rounds c) (hran : (program rounds).Ran c t (.enter i) e u)
    (hturn : t = holder c.shared.turns) (hsignal : e.signal = some (.one .cond))
    (hnext : e.next = .go (test rounds (i + 1)))
    (hshared : e.shared = ⟨num (holder (c.shared.turns + 1)),
      c.shared.output ++ turnRow (c.shared.turns % 2), c.shared.turns + 1⟩) : Good rounds u := by
  have hval : c.shared.turns % 2 = t := by rw [hturn]; rfl
  have hloc := h.loc t
  rw [hran.loc_here] at hloc
  obtain ⟨htaken, hlt⟩ := test_eq_enter hloc.symm
  constructor
  case free =>
    rw [hran.owner, hnext]
    unfold test
    split_ifs <;> simp [Threads.ownerAfter, program, mode]
  case flag => rw [hran.shared, hshared]
  case output =>
    rw [hran.shared, hshared, inTurn_succ, List.flatten_append, h.output, List.flatten_singleton]
  case turns =>
    rw [← htaken, ← hval] at hlt
    rw [hran.shared, hshared]
    exact lt_of_taken Nat.two_pos hlt
  case loc =>
    intro v
    have hsucc := taken_succ (k := c.shared.turns) v.isLt
    rw [hran.shared, hshared]
    by_cases hv : v = t
    · subst hv
      rw [hsucc, if_pos hval, htaken, hran.loc_self, hnext]
      rfl
    · have hne : c.shared.turns % 2 ≠ v := fun heq => hv (Fin.ext (heq.symm.trans hval))
      rw [hsucc, if_neg hne, hran.loc v hv, h.loc v]
      rfl
  case waits =>
    -- the notification has reached the other thread, if it was asleep
    intro v hv
    obtain ⟨hvt, -⟩ := hran.asleep_of_go hnext hv
    have hawake := hran.awake_of_one hsignal hvt fun w hw => other_unique hvt hw
    rw [hawake] at hv
    cases hv

theorem Good.act (h : Good rounds c) (hact : (program rounds).act c b = some u) :
    Good rounds u := by
  cases b with
  | wake t =>
    have hwoke := Threads.act_woke hact
    constructor
    case free => exact hwoke.owner.trans h.free
    case flag => exact hwoke.shared ▸ h.flag
    case output => exact hwoke.shared ▸ h.output
    case turns => exact hwoke.shared ▸ h.turns
    case loc =>
      intro v
      rw [hwoke.loc, hwoke.shared]
      exact h.loc v
    case waits =>
      intro v hv
      rw [hwoke.shared]
      exact h.waits v (hwoke.asleep hv)
  | run t a pick =>
    obtain ⟨l, e, he, hran⟩ := Threads.act_ran hact
    obtain ⟨i, rfl, hdoes⟩ := step_does h.flag he
    cases hdoes with
    | prints hturn => exact h.prints hran hturn rfl rfl rfl
    | waits hturn =>
      have hshared : u.shared = c.shared := hran.shared
      constructor
      case free => exact hran.owner
      case flag => exact hshared ▸ h.flag
      case output => exact hshared ▸ h.output
      case turns => exact hshared ▸ h.turns
      case loc =>
        intro v
        rw [hshared]
        by_cases hv : v = t
        · rw [hv, hran.loc_self, ← h.loc t, hran.loc_here]
          rfl
        · rw [hran.loc v hv]
          exact h.loc v
      case waits =>
        intro v hv
        rw [hshared]
        by_cases hvt : v = t
        · exact hvt ▸ hturn
        · exact h.waits v (hran.asleep v _ hvt hv).1

theorem good_init : Good rounds (init rounds) := by
  constructor
  case free => rfl
  case flag => rfl
  case output => rfl
  case turns => exact Nat.zero_le _
  case loc =>
    intro t
    show test rounds 0 = test rounds (taken 2 t 0)
    rw [taken_zero]
  case waits => exact nofun

theorem run_good {acts : List (Move (Fin 2) Unit)}
    (hrun : exec (program rounds).act acts (init rounds) = some c) : Good rounds c :=
  exec_preserves (fun _ _ _ h hact => h.act hact) good_init hrun

/-- When nobody can go on, whoever has the turn has finished, and it is the last turn. -/
theorem Good.turns_eq (h : Good rounds c) (hstuck : (program rounds).Stuck c) :
    c.shared.turns = 2 * rounds := by
  apply le_antisymm h.turns
  by_contra hlt
  have htaken : taken 2 (holder c.shared.turns) c.shared.turns < rounds :=
    taken_of_lt Nat.two_pos (by omega)
  have hawake : (c.status (holder c.shared.turns)).runnable =
      some (c.loc (holder c.shared.turns)) := by
    apply Status.runnable_of_awake
    intro _
    exact Bool.eq_false_iff.mpr fun hv => h.waits _ hv rfl
  rw [h.loc, test, if_pos htaken] at hawake
  cases hstuck.step_eq_none hawake ⟨fun _ => h.free, nofun⟩ ()

theorem rows_eq (rounds : Nat) : rows rounds = (inTurn turnRow 2 (2 * rounds)).flatten := by
  have hround : ((List.range 2).map turnRow).flatten = row 10 ++ row 100 := by
    simp [List.range_succ, turnRow]
  rw [inTurn_full, List.flatten_flatten, List.map_replicate, hround, rows]

/-- The rounds of the loop that a thread has left to run. -/
def left (rounds : Nat) : Loc → Nat
  | .enter i => rounds - (i + 1) + 1
  | .left => 0

theorem left_test (rounds i : Nat) : left rounds (test rounds i) = rounds - i := by
  unfold test
  split_ifs with hlt
  · simp only [left]
    omega
  · simp only [left]
    omega

theorem enter_cases (rounds num i : Nat) (s : State) :
    enter rounds num i s = .sleep s .cond (.enter i) ∨
      ∃ u, enter rounds num i s = .notifyOne u .cond (test rounds (i + 1)) := by
  unfold enter
  by_cases hflag : s.flag = num
  · rw [if_neg (not_not.mpr hflag)]
    exact Or.inr ⟨_, rfl⟩
  · rw [if_pos hflag]
    exact Or.inl rfl

theorem program_toils : Toils (program rounds) (left rounds) where
  go t l a s e l' he hnext := by
    cases l with
    | left => cases he
    | enter i =>
      obtain rfl := Option.some.inj he
      rcases enter_cases rounds (num t) i s with heq | ⟨u, heq⟩ <;> rw [heq] at hnext ⊢
      · cases hnext
      · cases hnext
        rw [left_test]
        exact ⟨Nat.lt_succ_self _, nofun⟩
  sleep t l a s e _ l' he hnext := by
    cases l with
    | left => cases he
    | enter i =>
      obtain rfl := Option.some.inj he
      rcases enter_cases rounds (num t) i s with heq | ⟨u, heq⟩ <;> rw [heq] at hnext ⊢
      · cases hnext
        exact ⟨le_rfl, Nat.succ_pos _, rfl⟩
      · cases hnext

/-- The child prints a row, `main` waits, is notified and prints its own. -/
def sample : List (Move (Fin 2) Unit) :=
  let child := ⟨0, Nat.two_pos⟩
  let main := ⟨1, Nat.one_lt_two⟩
  [.run main () none, .run child () (some main), .run main () none]

/-- The rows alternate in every run, no notification is lost, and the run comes to its end. -/
theorem rows_alternate (rounds : Nat) (acts : List (Move (Fin 2) Unit))
    (c : Config (Fin 2) Cond Loc State)
    (hrun : exec (program rounds).act acts (init rounds) = some c) :
    c.shared.output <+: rows rounds ∧
      ((program rounds).Stuck c → (∀ t, c.loc t = .left) ∧ c.shared.output = rows rounds) ∧
      acts.length ≤ 4 * rounds + 2 * acts.countP Move.isWake := by
  have h := run_good hrun
  refine ⟨?_, fun hstuck => ?_, ?_⟩
  · obtain ⟨rest, hrest⟩ := inTurn_mono (f := turnRow) (m := 2) h.turns
    rw [h.output, rows_eq, ← hrest, List.flatten_append]
    exact List.prefix_append _ _
  · have hturns := h.turns_eq hstuck
    refine ⟨fun t => ?_, ?_⟩
    · rw [h.loc, hturns, taken_full Nat.two_pos, test, if_neg (Nat.lt_irrefl _)]
    · rw [h.output, hturns, rows_eq]
  · have hle := program_toils.length_le hrun
    have htoil : (init rounds).toil (left rounds) = 4 * rounds := by
      simp only [Config.toil, init, Status.toil, left_test, Fin.sum_univ_two]
      omega
    omega

theorem rows_alternate_sample : ∃ c, exec (program 1).act sample (init 1) = some c ∧
    c.shared.output <+: rows 1 ∧
      ((program 1).Stuck c → (∀ t, c.loc t = .left) ∧ c.shared.output = rows 1) ∧
      sample.length ≤ 4 * 1 + 2 * sample.countP Move.isWake :=
  exists_exec rfl fun c hc => rows_alternate 1 sample c hc

end

end LanguageTest.Rows
