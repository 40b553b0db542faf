import LanguageTest.Library.Arithmetic
import LanguageTest.Library.Transition
import LanguageTest.Old.CachedTime

namespace LanguageTest.VdsoTime
open Transition
open CachedTime (Timespec)

/-- `g_max_ticks_multi`. -/
def maxTicksMulti : Nat := 150

/-- What the two counters show when a statement is executed: the TSC, and the kernel clock in ns. -/
structure Moment where
  tsc : Nat
  clock : Nat
  deriving DecidableEq

/-- A test `RDTSC() - walltick > max_ticks`: the TSC that it read, and the two variables. -/
structure Test where
  tsc : Nat
  walltick : Nat
  maxTicks : Nat
  deriving DecidableEq

/-- The next statement of the thread, with the test that the call has evaluated. -/
inductive Loc where
  | idle
  | entered
  | testing
  | adjusting (test : Option Test)
  | reading (test : Option Test)
  | transforming (test : Option Test)
  | stamping (test : Option Test)
  | returning (test : Option Test) (cached : Bool)
  deriving DecidableEq

/-- What a call returned, and as history its test and the clock reading behind the value, with the
TSC when it was taken. -/
structure Answer where
  value : Nat
  reading : Nat
  delivered : Nat
  test : Option Test
  deriving DecidableEq

/-- The static variables, the answers so far with the last one first, and the moment of the last
statement. The last clock reading and its TSC are history. -/
structure State where
  loc : Loc
  curTime : Nat
  walltick : Nat
  maxTicks : Nat
  tick : Nat
  tp : Timespec
  answers : List Answer
  last : Moment
  reading : Nat
  delivered : Nat

def clockGettime (ns : Nat) : Timespec := ⟨ns / 10 ^ 9, ns % 10 ^ 9⟩

def transformTimeToUint64 (tp : Timespec) : Nat := toSize (tp.tvSec * 10 ^ 9 + tp.tvNsec)

/-- The next statement of `get_uint64_time`, for this frequency of the CPU. -/
def statement (cpuspeedMhz : Nat) (s : State) (m : Moment) : State :=
  match s.loc with
  | .idle => { s with loc := .entered }
  | .entered => { s with loc := if s.curTime = 0 then .adjusting none else .testing }
  | .testing =>
    let tick := toSize ((m.tsc : Int) - s.walltick)
    let test := some ⟨m.tsc, s.walltick, s.maxTicks⟩
    { s with
      tick := tick
      loc := if tick > s.maxTicks then .adjusting test else .returning test true }
  | .adjusting test =>
    { s with
      maxTicks := if s.tick = 0 then toSize (cpuspeedMhz * maxTicksMulti) else s.maxTicks
      loc := .reading test }
  | .reading test =>
    { s with
      tp := clockGettime m.clock
      reading := m.clock
      delivered := m.tsc
      loc := .transforming test }
  | .transforming test => { s with curTime := transformTimeToUint64 s.tp, loc := .stamping test }
  | .stamping test => { s with walltick := m.tsc, loc := .returning test false }
  | .returning test _ =>
    { s with
      answers := ⟨s.curTime, s.reading, s.delivered, test⟩ :: s.answers
      loc := .idle }

/-- Any time may pass before a statement. The TSC and the clock do not go back. -/
def step (cpuspeedMhz : Nat) (s : State) (m : Moment) : Option State :=
  if s.last.tsc ≤ m.tsc ∧ m.tsc < 2 ^ 64 ∧ s.last.clock ≤ m.clock then
    some { statement cpuspeedMhz s m with last := m }
  else none

def start : State := ⟨.idle, 0, 0, 2000, 0, ⟨0, 0⟩, [], ⟨0, 0⟩, 0, 0⟩

/-- The times never decrease, and every answer after a test is of a reading that is not older than
the limit. -/
structure Fresh (s : State) : Prop where
  ordered : s.answers.Pairwise fun a b => b.value ≤ a.value
  recent : ∀ a ∈ s.answers, ∀ t ∈ a.test, t.walltick ≤ t.tsc →
    a.value = a.reading ∧ t.tsc ≤ a.delivered + t.maxTicks

/-- No tick passes between `clock_gettime` and the `RDTSC()` after it, and the clock has not run
out of the numbers of 64 bits. -/
def Prompt (s : State) (m : Moment) : Prop :=
  match s.loc with
  | .reading _ => m.clock < 2 ^ 64
  | .transforming _ | .stamping _ => m.tsc = s.last.tsc
  | _ => True

instance (s : State) (m : Moment) : Decidable (Prompt s m) := by
  unfold Prompt
  split <;> infer_instance

/-- The answer of a call with this test would be fresh. -/
def Covers (s : State) (test : Option Test) : Prop :=
  ∀ t ∈ test, t.tsc ≤ s.delivered + t.maxTicks

/-- Where the thread is, and what it knows about the reading and the test. -/
def Place (s : State) : Prop :=
  match s.loc with
  | .idle | .entered | .testing => s.walltick = s.delivered ∧ s.curTime = s.reading
  | .adjusting test | .reading test => ∀ t ∈ test, t.tsc ≤ s.last.tsc
  | .transforming test => s.last.tsc = s.delivered ∧ Covers s test
  | .stamping test => s.last.tsc = s.delivered ∧ s.curTime = s.reading ∧ Covers s test
  | .returning test _ => s.walltick = s.delivered ∧ s.curTime = s.reading ∧ Covers s test

structure Sound (s : State) : Prop where
  fresh : Fresh s
  values : ∀ a ∈ s.answers, a.value ≤ s.reading
  stamped : s.walltick ≤ s.last.tsc
  clock : s.tp = clockGettime s.reading
  read : s.reading ≤ s.last.clock
  bounded : s.reading < 2 ^ 64
  place : Place s

section
variable {s u : State} {m : Moment} {cpuspeedMhz : Nat}

theorem step_eq_some (h : step cpuspeedMhz s m = some u) :
    s.last.tsc ≤ m.tsc ∧ m.tsc < 2 ^ 64 ∧ s.last.clock ≤ m.clock ∧
      u = { statement cpuspeedMhz s m with last := m } := by
  unfold step at h
  split_ifs at h with hm
  exact ⟨hm.1, hm.2.1, hm.2.2, (Option.some.inj h).symm⟩

theorem transform_clockGettime {ns : Nat} (h : ns < 2 ^ 64) :
    transformTimeToUint64 (clockGettime ns) = ns := by
  unfold transformTimeToUint64 clockGettime toSize
  dsimp only
  omega

/-- A tick count that has not run out is the plain difference. -/
theorem toSize_ticks {tsc walltick : Nat} (hle : walltick ≤ tsc) (hlt : tsc < 2 ^ 64) :
    toSize ((tsc : Int) - walltick) = tsc - walltick := by
  unfold toSize
  omega

/-- One more answer. -/
theorem Fresh.answer {a : Answer} (h : Fresh s) (hu : u.answers = a :: s.answers)
    (hv : ∀ b ∈ s.answers, b.value ≤ a.value)
    (ht : ∀ t ∈ a.test, a.value = a.reading ∧ t.tsc ≤ a.delivered + t.maxTicks) : Fresh u := by
  constructor
  · rw [hu]
    exact List.pairwise_cons.mpr ⟨hv, h.ordered⟩
  · rw [hu]
    intro b hb
    rcases List.mem_cons.mp hb with rfl | hb
    · exact fun t hmem _ => ht t hmem
    · exact h.recent b hb

/-- A statement that reads no clock and does not return. -/
theorem Sound.keep (hs : Sound s) (hanswers : u.answers = s.answers)
    (hreading : u.reading = s.reading) (htp : u.tp = s.tp) (hstamped : u.walltick ≤ u.last.tsc)
    (hlast : s.last.clock ≤ u.last.clock) (hplace : Place u) : Sound u where
  fresh := ⟨hanswers ▸ hs.fresh.ordered, hanswers ▸ hs.fresh.recent⟩
  values := by
    rw [hanswers, hreading]
    exact hs.values
  stamped := hstamped
  clock := by rw [htp, hreading, hs.clock]
  read := by
    rw [hreading]
    exact hs.read.trans hlast
  bounded := hreading ▸ hs.bounded
  place := hplace

/-- A call returns. -/
theorem Sound.answer {test : Option Test} (hs : Sound s) (hstamped : s.walltick ≤ m.tsc)
    (hclock : s.last.clock ≤ m.clock) (hwalltick : s.walltick = s.delivered)
    (hcur : s.curTime = s.reading) (htest : Covers s test) :
    Sound { s with
      answers := ⟨s.curTime, s.reading, s.delivered, test⟩ :: s.answers
      loc := .idle
      last := m } where
  fresh := hs.fresh.answer (a := ⟨s.curTime, s.reading, s.delivered, test⟩) rfl
    (fun b hb => hcur ▸ hs.values b hb) (fun t ht => ⟨hcur, htest t ht⟩)
  values := List.forall_mem_cons.mpr ⟨hcur.le, hs.values⟩
  stamped := hstamped
  clock := hs.clock
  read := hs.read.trans hclock
  bounded := hs.bounded
  place := ⟨hwalltick, hcur⟩

theorem Sound.next (hs : Sound s) (hok : Prompt s m) (h : step cpuspeedMhz s m = some u) :
    Sound u := by
  obtain ⟨hm, hlt, hclock, rfl⟩ := step_eq_some h
  have hplace := hs.place
  have hstamped := hs.stamped.trans hm
  unfold Place at hplace
  unfold Prompt at hok
  unfold statement
  cases hloc : s.loc with
  | idle =>
    rw [hloc] at hplace
    exact hs.keep rfl rfl rfl hstamped hclock hplace
  | entered =>
    rw [hloc] at hplace
    refine hs.keep rfl rfl rfl hstamped hclock ?_
    dsimp only [Place]
    by_cases hzero : s.curTime = 0
    · rw [if_pos hzero]
      simp
    · rw [if_neg hzero]
      exact hplace
  | testing =>
    rw [hloc] at hplace
    obtain ⟨hwalltick, hcur⟩ := hplace
    refine hs.keep rfl rfl rfl hstamped hclock ?_
    dsimp only [Place]
    rw [toSize_ticks hstamped hlt]
    by_cases hlarge : m.tsc - s.walltick > s.maxTicks
    · rw [if_pos hlarge]
      rintro _ ⟨⟩
      exact le_rfl
    · -- the cached time is as old as `walltick`
      rw [if_neg hlarge]
      refine ⟨hwalltick, hcur, ?_⟩
      rintro _ ⟨⟩
      dsimp only
      omega
  | adjusting test =>
    rw [hloc] at hplace
    exact hs.keep rfl rfl rfl hstamped hclock fun t ht => (hplace t ht).trans hm
  | reading test =>
    rw [hloc] at hplace hok
    have hread := hs.read.trans hclock
    refine ⟨⟨hs.fresh.ordered, hs.fresh.recent⟩, ?_, hstamped, rfl, le_rfl, hok, rfl, ?_⟩
    · exact fun a ha => (hs.values a ha).trans hread
    · exact fun t ht => ((hplace t ht).trans hm).trans (Nat.le_add_right _ _)
  | transforming test =>
    rw [hloc] at hplace hok
    refine hs.keep rfl rfl rfl hstamped hclock ⟨hok.trans hplace.1, ?_, hplace.2⟩
    dsimp only
    rw [hs.clock, transform_clockGettime hs.bounded]
  | stamping test =>
    rw [hloc] at hplace hok
    exact hs.keep rfl rfl rfl le_rfl hclock ⟨hok.trans hplace.1, hplace.2⟩
  | returning test cached =>
    rw [hloc] at hplace
    obtain ⟨hwalltick, hcur, htest⟩ := hplace
    exact hs.answer hstamped hclock hwalltick hcur htest

/-- A tick that does pass there can be seen: as soon as a later call comes `max_ticks` after the
`RDTSC()`, its answer from the cache is too old. -/
theorem Sound.delayed {test : Option Test} (hs : Sound s) (hloc : s.loc = .stamping test)
    (hdelay : s.last.tsc < m.tsc) (h : step cpuspeedMhz s m = some u) (hcur : s.curTime ≠ 0)
    (hroom : m.tsc + s.maxTicks < 2 ^ 64) :
    ∃ ms v, exec (step cpuspeedMhz) ms u = some v ∧ ¬ Fresh v := by
  obtain ⟨-, hlt, hclock, rfl⟩ := step_eq_some h
  have hplace := hs.place
  unfold Place at hplace
  rw [hloc] at hplace
  have hticks : toSize (s.maxTicks : Int) = s.maxTicks := by
    unfold toSize
    omega
  let later : Moment := ⟨m.tsc + s.maxTicks, m.clock⟩
  let old : Answer := ⟨s.curTime, s.reading, s.delivered, some ⟨later.tsc, m.tsc, s.maxTicks⟩⟩
  have hrun : exec (step cpuspeedMhz) [m, m, m, later, later]
      { statement cpuspeedMhz s m with last := m } = some { s with
        loc := .idle
        walltick := m.tsc
        tick := s.maxTicks
        answers := old :: ⟨s.curTime, s.reading, s.delivered, test⟩ :: s.answers
        last := later } := by
    simp [exec, step, statement, hloc, hcur, later, hticks, hlt, hroom, old, -Nat.reducePow]
  refine ⟨_, _, hrun, fun hfresh => ?_⟩
  have hlate := (hfresh.recent old (List.mem_cons_self ..) _ rfl (Nat.le_add_right _ _)).2
  have hdelivered := hplace.1
  dsimp only [old, later] at hlate
  omega

theorem sound_start : Sound start where
  fresh := ⟨List.Pairwise.nil, by simp [start]⟩
  values := by simp [start]
  stamped := le_rfl
  clock := rfl
  read := le_rfl
  bounded := by decide
  place := ⟨rfl, rfl⟩

theorem sound_of_run {ms : List Moment} (hok : Meets (step cpuspeedMhz) Prompt ms start)
    (hrun : exec (step cpuspeedMhz) ms start = some s) : Sound s :=
  exec_invariant (fun _ _ _ hs hok h => hs.next hok h) sound_start hok hrun

/-- No weaker condition on the moment of the `RDTSC()` would do for every way to go on. -/
theorem run_delayed {ms : List Moment} {test : Option Test}
    (hok : Meets (step cpuspeedMhz) Prompt ms start)
    (hrun : exec (step cpuspeedMhz) ms start = some s) (hloc : s.loc = .stamping test)
    (hdelay : ¬ Prompt s m) (h : step cpuspeedMhz s m = some u) (hcur : s.curTime ≠ 0)
    (hroom : m.tsc + s.maxTicks < 2 ^ 64) :
    ∃ ns v, exec (step cpuspeedMhz) ns u = some v ∧ ¬ Fresh v := by
  have hlater := (step_eq_some h).1
  unfold Prompt at hdelay
  rw [hloc] at hdelay
  exact (sound_of_run hok hrun).delayed hloc (by omega) h hcur hroom

end

theorem run_fresh (cpuspeedMhz : Nat) (ms : List Moment) (u : State)
    (hok : Meets (step cpuspeedMhz) Prompt ms start)
    (hrun : exec (step cpuspeedMhz) ms start = some u) : Fresh u :=
  (sound_of_run hok hrun).fresh

/-- Two calls, the second of which is answered from the cache. The first takes this long between
its clock reading and the `RDTSC()` after it. -/
def twoCalls (delay : Nat) : List Moment :=
  [⟨0, 900⟩, ⟨1, 900⟩, ⟨2, 900⟩, ⟨10, 1000⟩, ⟨10, 1000⟩, ⟨10 + delay, 1000 + delay⟩,
    ⟨13 + delay, 1000 + delay⟩, ⟨14 + delay, 1000 + delay⟩, ⟨15 + delay, 1000 + delay⟩,
    ⟨16 + delay, 1000 + delay⟩, ⟨17 + delay, 1000 + delay⟩]

theorem run_fresh_prompt : ∃ u, exec (step 3000) (twoCalls 0) start = some u ∧ Fresh u :=
  exists_exec (by decide +kernel) fun u hrun =>
    run_fresh 3000 (twoCalls 0) u (by decide +kernel) hrun

/-- The thread is preempted before it reads `walltick`. -/
theorem run_preempted : ∃ u, exec (step 3000) (twoCalls 10000000) start = some u ∧ ¬ Fresh u := by
  refine ⟨_, rfl, fun h => ?_⟩
  have hrecent := h.recent _ (List.mem_cons_self ..) _ rfl (by decide +kernel)
  exact absurd hrecent.2 (by decide +kernel)

end LanguageTest.VdsoTime
