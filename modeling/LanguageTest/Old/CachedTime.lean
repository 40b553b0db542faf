import LanguageTest.Library.Precision
import Mathlib.Algebra.Ring.Int.Defs
import Mathlib.Algebra.Ring.Nat

namespace LanguageTest.CachedTime
open Precision

structure Timeval where
  tvSec : Int
  tvUsec : Int
  deriving DecidableEq

structure Timespec where
  tvSec : Int
  tvNsec : Int
  deriving DecidableEq

/-- The calls that ask for the time of day. -/
inductive WallCall where
  | time
  | gettimeofday
  | clockRealtime
  deriving DecidableEq

/-- A clock other than these two is asked for from the kernel. -/
inductive Call where
  | wall (call : WallCall)
  | clockMonotonic
  | clockOther
  deriving DecidableEq

/-- What a call gave that was answered from the cache. -/
inductive Result where
  | time (t : Int)
  | gettimeofday (tv : Timeval)
  | clockRealtime (tp : Timespec)
  | clockMonotonic (tp : Timespec)
  | failed (call : Call)
  deriving DecidableEq

/-- The unit in which a call tells the time of day, in ns. -/
def WallCall.unit : WallCall → Nat
  | .time => 10 ^ 9
  | .gettimeofday => 10 ^ 3
  | .clockRealtime => 1

/-- The time of day in ns, truncated as the call tells it. -/
def WallCall.tell (v : Nat) : WallCall → Result
  | .time => .time (v / 10 ^ 9)
  | .gettimeofday => .gettimeofday ⟨v / 10 ^ 9, v % 10 ^ 9 / 10 ^ 3⟩
  | .clockRealtime => .clockRealtime ⟨v / 10 ^ 9, v % 10 ^ 9⟩

namespace Result

def wall : Result → Option Told
  | .time t => some ⟨10 ^ 9, t * 10 ^ 9⟩
  | .gettimeofday tv => some ⟨10 ^ 3, tv.tvSec * 10 ^ 9 + tv.tvUsec * 10 ^ 3⟩
  | .clockRealtime tp => some ⟨1, tp.tvSec * 10 ^ 9 + tp.tvNsec⟩
  | .clockMonotonic _ | .failed _ => none

def monotonic : Result → Option Told
  | .clockMonotonic tp => some ⟨1, tp.tvSec * 10 ^ 9 + tp.tvNsec⟩
  | .time _ | .gettimeofday _ | .clockRealtime _ | .failed _ => none

end Result

namespace WallCall

variable {c c' : WallCall} {v v' : Nat}

theorem unit_pos (c : WallCall) : 0 < c.unit := by
  cases c <;> decide

theorem unit_nested (c c' : WallCall) : Nested c.unit c'.unit := by
  cases c <;> cases c' <;> unfold Nested <;> decide

theorem wall_tell : (c.tell v).wall = some (truncate c.unit v) := by
  cases c with
  | time => simp [tell, Result.wall, truncate, unit]
  | gettimeofday =>
    simp only [tell, Result.wall, truncate, unit, Option.some.injEq, Told.mk.injEq, true_and]
    omega
  | clockRealtime =>
    simp only [tell, Result.wall, truncate, unit, Option.some.injEq, Told.mk.injEq, true_and]
    omega

/-- Two truncations are in order as far as the coarser unit can tell the times apart. -/
theorem notEarlier_tell : NotEarlier (truncate c.unit v) (truncate c'.unit v') ↔
    v / max c.unit c'.unit ≤ v' / max c.unit c'.unit :=
  notEarlier_truncate (unit_nested c c') c.unit_pos c'.unit_pos

end WallCall

end LanguageTest.CachedTime
