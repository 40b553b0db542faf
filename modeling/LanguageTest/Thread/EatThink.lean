import LanguageTest.Library.Locks
import LanguageTest.Library.Transition
import Mathlib.Algebra.Order.BigOperators.Group.Finset
import Mathlib.Data.Fintype.Defs

namespace LanguageTest.EatThink
open Transition Locks

inductive Philosopher where
  | A
  | B
  | C
  | D
  | E
  deriving DecidableEq

instance : Fintype Philosopher := ⟨{.A, .B, .C, .D, .E}, fun phi => by cases phi <;> decide⟩

abbrev Chopstick := Nat

def left : Philosopher → Chopstick
  | .A => 5
  | .B => 1
  | .C => 2
  | .D => 3
  | .E => 4

def right : Philosopher → Chopstick
  | .A => 1
  | .B => 2
  | .C => 3
  | .D => 4
  | .E => 5

/-- Before `lock`, before `trylock`, behind a `trylock` that gave `EBUSY`, eating, and between the
two calls of `unlock`. -/
inductive Loc where
  | thinking
  | fetched
  | busy
  | eating
  | releasing
  deriving DecidableEq

/-- The mutexes with their owners. How often each philosopher has eaten is history. An `unlock` by
another than the owner is noted in `undefined`. -/
structure State where
  chopstick : Chopstick → Option Philosopher
  loc : Philosopher → Loc
  meals : Philosopher → Nat
  undefined : Bool

def State.goto (s : State) (phi : Philosopher) (l : Loc) : State :=
  { s with loc := Function.update s.loc phi l }

def State.take (s : State) (phi : Philosopher) (c : Chopstick) : State :=
  { s with chopstick := Function.update s.chopstick c (some phi) }

def unlock (s : State) (phi : Philosopher) (c : Chopstick) : State :=
  if s.chopstick c = some phi then { s with chopstick := Function.update s.chopstick c none }
  else { s with undefined := true }

def eat (s : State) (phi : Philosopher) : State :=
  { s with meals := Function.update s.meals phi (s.meals phi + 1) }

/-- One call of `eat_think`. A philosopher who waits for a chopstick takes no step. -/
def step (s : State) (phi : Philosopher) : Option State :=
  match s.loc phi with
  | .thinking =>
    if s.chopstick (left phi) = none then some ((s.take phi (left phi)).goto phi .fetched)
    else none
  | .fetched =>
    if s.chopstick (right phi) ≠ none then some (s.goto phi .busy)
    else some ((eat (s.take phi (right phi)) phi).goto phi .eating)
  | .busy => some ((unlock s phi (left phi)).goto phi .thinking)
  | .eating => some ((unlock s phi (left phi)).goto phi .releasing)
  | .releasing => some ((unlock s phi (right phi)).goto phi .thinking)

def init : State := ⟨fun _ => none, fun _ => .thinking, fun _ => 0, false⟩

/-- The chopsticks that a philosopher has at a place. -/
def hands (phi : Philosopher) : Loc → Finset Chopstick
  | .thinking => ∅
  | .fetched | .busy => {left phi}
  | .eating => {left phi, right phi}
  | .releasing => {right phi}

/-- The chopsticks are with the philosophers that have them in their hands. -/
structure Mannered (s : State) : Prop where
  owned : Owned s.chopstick fun phi => (hands phi (s.loc phi) : Set Chopstick)
  undefined : s.undefined = false

section
variable {s u : State} {phi v : Philosopher} {c : Chopstick} {l : Loc}

theorem left_ne_right (phi : Philosopher) : left phi ≠ right phi := by
  cases phi <;> decide

theorem hands_goto (hv : v ≠ phi) :
    (hands v ((s.goto phi l).loc v) : Set Chopstick) = hands v (s.loc v) := by
  simp only [State.goto, Function.update_of_ne hv]

theorem Mannered.take (h : Mannered s) (hfree : s.chopstick c = none)
    (hl : (hands phi l : Set Chopstick) = insert c (hands phi (s.loc phi) : Set Chopstick)) :
    Mannered ((s.take phi c).goto phi l) where
  owned := by
    apply h.owned.acquire hfree
    · simp only [State.goto, State.take, Function.update_self]
      exact hl
    · exact fun v hv => hands_goto hv
  undefined := h.undefined

theorem Mannered.unlock (h : Mannered s) (hc : c ∈ hands phi (s.loc phi))
    (hl : (hands phi l : Set Chopstick) = (hands phi (s.loc phi) : Set Chopstick) \ {c}) :
    Mannered ((unlock s phi c).goto phi l) := by
  rw [EatThink.unlock, if_pos ((h.owned phi c).mp hc)]
  constructor
  case owned =>
    apply h.owned.release (t := phi) (by exact hc)
    · simp only [State.goto, Function.update_self]
      exact hl
    · exact fun v hv => hands_goto hv
  case undefined => exact h.undefined

theorem Mannered.step (h : Mannered s) (hu : step s phi = some u) : Mannered u := by
  have hne := left_ne_right phi
  unfold EatThink.step at hu
  cases hloc : s.loc phi <;> simp only [hloc] at hu
  case thinking =>
    obtain ⟨hfree, hu⟩ := Option.ite_none_right_eq_some.mp hu
    obtain rfl := Option.some.inj hu
    apply h.take hfree
    simp [hloc, hands]
  case fetched =>
    split_ifs at hu with hfree
    · obtain rfl := Option.some.inj hu
      refine ⟨h.owned.keep fun v => ?_, h.undefined⟩
      by_cases hv : v = phi
      · subst hv
        simp [State.goto, hloc, hands]
      · exact hands_goto hv
    · obtain rfl := Option.some.inj hu
      have htake : Mannered ((s.take phi (right phi)).goto phi .eating) := by
        apply h.take (not_not.mp hfree)
        simp [hloc, hands, Set.pair_comm]
      exact ⟨htake.owned, htake.undefined⟩
  case busy =>
    obtain rfl := Option.some.inj hu
    apply h.unlock (by simp [hloc, hands])
    simp [hloc, hands]
  case eating =>
    obtain rfl := Option.some.inj hu
    apply h.unlock (by simp [hloc, hands])
    simp [hloc, hands, hne]
  case releasing =>
    obtain rfl := Option.some.inj hu
    apply h.unlock (by simp [hloc, hands])
    simp [hloc, hands]

/-- How many steps a philosopher takes at most until he thinks again. -/
def rest : Loc → Nat
  | .thinking => 0
  | .busy | .releasing => 1
  | .eating => 2
  | .fetched => 3

end

end LanguageTest.EatThink
