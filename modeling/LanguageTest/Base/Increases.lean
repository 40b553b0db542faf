import LanguageTest.Library.Transition
import Mathlib.Algebra.BigOperators.Fin
import Mathlib.Algebra.Order.BigOperators.Group.Finset
import Mathlib.Data.Fintype.BigOperators

namespace LanguageTest.Increases
open Transition Relation

variable {n : Nat}

/-- A thread in iteration `i`: before `try_lock`, and with the mutex before it reads the counter,
writes the sum back and calls `unlock`. -/
inductive Loc where
  | test (i : Nat)
  | locked (i : Nat)
  | loaded (i : Nat) (v : Int)
  | stored (i : Nat)
  deriving DecidableEq

/-- The owner of the mutex, the counter, the threads, and what `main` has printed. -/
structure State (n : Nat) where
  mtx : Option (Fin n)
  counter : Int
  loc : Fin n → Loc
  output : Option Int

def State.goto (s : State n) (t : Fin n) (l : Loc) : State n :=
  { s with loc := Function.update s.loc t l }

/-- `try_lock` may fail although nobody has the mutex. -/
inductive Act (n : Nat) where
  | main
  | thread (t : Fin n) (spurious : Bool)

/-- The source makes 10000 attempts. -/
def attempt10kIncreases (attempts : Nat) (s : State n) (t : Fin n) (spurious : Bool) :
    Option (State n) :=
  match s.loc t with
  | .test i =>
    if i < attempts then
      if s.mtx = none ∧ spurious = false then some { s.goto t (.locked i) with mtx := some t }
      else some (s.goto t (.test (i + 1)))
    else none
  | .locked i => some (s.goto t (.loaded i s.counter))
  | .loaded i v => some { s.goto t (.stored i) with counter := v + 1 }
  | .stored i => some { s.goto t (.test (i + 1)) with mtx := none }

/-- A thread that has left its loop can be joined. -/
def Finished (attempts : Nat) (s : State n) : Prop := ∀ t, s.loc t = .test attempts

instance (attempts : Nat) (s : State n) : Decidable (Finished attempts s) :=
  inferInstanceAs (Decidable (∀ _, _))

/-- `main` prints the counter when it has joined all threads. -/
def main (attempts : Nat) (s : State n) : Option (State n) :=
  if s.output = none ∧ Finished attempts s then some { s with output := some s.counter } else none

def step (attempts : Nat) (s : State n) : Act n → Option (State n)
  | .main => main attempts s
  | .thread t spurious => attempt10kIncreases attempts s t spurious

/-- The source starts ten threads. -/
def init (n : Nat) : State n := ⟨none, 0, fun _ => .test 0, none⟩

/-- The action is allowed where `try_lock` may fail without a reason, or does not do so. -/
def Act.allowed (spurious : Bool) : Act n → Prop
  | .main => True
  | .thread _ failed => failed = true → spurious = true

/-- Some run prints this number. -/
def Prints (n attempts : Nat) (spurious : Bool) (v : Int) : Prop :=
  ∃ acts s, (∀ a ∈ acts, Act.allowed spurious a) ∧
    exec (step attempts) acts (init n) = some s ∧ s.output = some v

/-- The iterations that a thread has begun to spend. -/
def tried : Loc → Nat
  | .test i => i
  | .locked i | .loaded i _ | .stored i => i + 1

/-- The increase that a thread with the mutex still owes. -/
def pending : Loc → Nat
  | .test _ | .stored _ => 0
  | .locked _ | .loaded _ _ => 1

/-- How often `try_lock` has succeeded. -/
def successes (s : State n) : Int := s.counter + ∑ t, (pending (s.loc t) : Int)

/-- What a step of a thread can be. -/
inductive Does (attempts : Nat) (s : State n) (t : Fin n) (spurious : Bool) : State n → Prop
  | lock {i : Nat} : s.loc t = .test i → i < attempts → s.mtx = none →
      Does attempts s t spurious { s.goto t (.locked i) with mtx := some t }
  | fail {i : Nat} : s.loc t = .test i → i < attempts → (s.mtx = none → spurious = true) →
      Does attempts s t spurious (s.goto t (.test (i + 1)))
  | load {i : Nat} : s.loc t = .locked i →
      Does attempts s t spurious (s.goto t (.loaded i s.counter))
  | store {i : Nat} {v : Int} : s.loc t = .loaded i v →
      Does attempts s t spurious { s.goto t (.stored i) with counter := v + 1 }
  | unlock {i : Nat} : s.loc t = .stored i →
      Does attempts s t spurious { s.goto t (.test (i + 1)) with mtx := none }

/-- What holds in every state of every run. -/
structure Good (attempts : Nat) (s : State n) : Prop where
  owned : ∀ t, s.mtx = some t ↔ ∀ i, s.loc t ≠ .test i
  current : ∀ t i v, s.loc t = .loaded i v → v = s.counter
  within : ∀ t, tried (s.loc t) ≤ attempts
  nonneg : 0 ≤ s.counter
  counted : successes s ≤ ∑ t, (tried (s.loc t) : Int)
  output : ∀ v, s.output = some v → v = s.counter ∧ Finished attempts s

/-- What holds while `try_lock` fails only when another thread has the mutex: nobody fails before
the first success, and the thread that has succeeded makes no other attempt before the second
one. -/
structure Reasoned (s : State n) : Prop where
  untried : successes s = 0 → ∀ t, s.loc t = .test 0
  one : successes s = 1 → ∃ a, tried (s.loc a) = 1 ∧ ∀ b, s.mtx = some b → b = a
  alone : n ≤ 1 → successes s = ∑ t, (tried (s.loc t) : Int)

/-- All threads are before `try_lock`, but for the one that has the mutex. -/
def placed (mtx : Option (Fin n)) (counter : Int) (f : Fin n → Nat) : State n :=
  ⟨mtx, counter, fun t => if mtx = some t then .locked (f t) else .test (f t), none⟩

/-- The fewest increases that can be printed where `try_lock` does not fail without a reason. -/
def fewest (n attempts : Nat) : Nat := if n ≤ 1 then n * attempts else min attempts 2

section
variable {attempts : Nat} {spurious : Bool} {s u : State n} {t x : Fin n} {l : Loc} {a : Act n}
  {f g : Fin n → Nat} {c v : Int}

@[simp] theorem goto_loc : (s.goto t l).loc x = if x = t then l else s.loc x :=
  Function.update_apply ..

@[simp] theorem goto_counter : (s.goto t l).counter = s.counter := rfl

/-- A sum over the threads when one of them has moved. -/
theorem sum_goto (F : Loc → Nat) : ∑ x, (F ((s.goto t l).loc x) : Int) =
    ∑ x, (F (s.loc x) : Int) + F l - F (s.loc t) := by
  have hrest : ∑ x ∈ Finset.univ.erase t, (F ((s.goto t l).loc x) : Int) =
      ∑ x ∈ Finset.univ.erase t, (F (s.loc x) : Int) := by
    apply Finset.sum_congr rfl
    intro x hx
    rw [goto_loc, if_neg (Finset.ne_of_mem_erase hx)]
  have hnew := Finset.add_sum_erase Finset.univ (fun x => (F ((s.goto t l).loc x) : Int))
    (Finset.mem_univ t)
  have hold := Finset.add_sum_erase Finset.univ (fun x => (F (s.loc x) : Int)) (Finset.mem_univ t)
  simp only [goto_loc, ↓reduceIte] at hnew hrest ⊢
  omega

theorem none_ne_some (x : Fin n) : (none : Option (Fin n)) ≠ some x :=
  (Option.some_ne_none x).symm

theorem thread_does (h : attempt10kIncreases attempts s t spurious = some u) :
    Does attempts s t spurious u := by
  unfold attempt10kIncreases at h
  cases hl : s.loc t with
  | test i =>
    simp only [hl] at h
    split_ifs at h with hi hfree
    · obtain rfl := Option.some.inj h
      exact .lock hl hi hfree.1
    · obtain rfl := Option.some.inj h
      refine .fail hl hi fun hnone => ?_
      simpa [hnone] using hfree
  | locked i =>
    simp only [hl] at h
    obtain rfl := Option.some.inj h
    exact .load hl
  | loaded i v =>
    simp only [hl] at h
    obtain rfl := Option.some.inj h
    exact .store hl
  | stored i =>
    simp only [hl] at h
    obtain rfl := Option.some.inj h
    exact .unlock hl

theorem Does.not_finished (hd : Does attempts s t spurious u) : ¬ Finished attempts s := by
  intro hall
  have ht := hall t
  cases hd with
  | lock hl hi => exact hi.ne (Loc.test.inj (hl.symm.trans ht))
  | fail hl hi => exact hi.ne (Loc.test.inj (hl.symm.trans ht))
  | load hl => exact Loc.noConfusion (hl.symm.trans ht)
  | store hl => exact Loc.noConfusion (hl.symm.trans ht)
  | unlock hl => exact Loc.noConfusion (hl.symm.trans ht)

theorem successes_moved {m : Option (Fin n)} (c : Int) :
    successes { s.goto t l with mtx := m, counter := c } =
      successes s + (c - s.counter) + pending l - pending (s.loc t) := by
  have hsum := sum_goto (s := s) (t := t) (l := l) pending
  unfold successes
  dsimp only
  omega

theorem Good.not_test (h : Good attempts s) (hx : s.mtx = some x) (i : Nat) :
    s.loc x ≠ .test i :=
  (h.owned x).mp hx i

/-- The thread `t` moves on and leaves the mutex and the counter like this. -/
theorem Good.moved (h : Good attempts s) (hlive : ¬ Finished attempts s) {m : Option (Fin n)}
    (hown : m = some t ↔ ∀ i, l ≠ .test i) (hothers : ∀ x, x ≠ t → (m = some x ↔ s.mtx = some x))
    (hloaded : ∀ i v, l = .loaded i v → v = c) (hcounter : c = s.counter ∨ s.mtx = some t)
    (hwithin : tried l ≤ attempts) (hnonneg : 0 ≤ c)
    (hcounted : c - s.counter + pending l + tried (s.loc t) ≤ pending (s.loc t) + tried l) :
    Good attempts { s.goto t l with mtx := m, counter := c } := by
  constructor
  case owned =>
    intro x
    rw [goto_loc]
    split_ifs with hx
    · exact hx ▸ hown
    · exact (hothers x hx).trans (h.owned x)
  case current =>
    intro x i v hv
    rw [goto_loc] at hv
    split_ifs at hv with hx
    · exact hloaded i v hv
    · rcases hcounter with hsame | ht
      · exact (h.current x i v hv).trans hsame.symm
      · -- nobody else has the mutex
        have hown := (h.owned x).mpr fun i hi => Loc.noConfusion (hv.symm.trans hi)
        exact absurd (Option.some.inj (hown.symm.trans ht)) hx
  case within =>
    intro x
    rw [goto_loc]
    split_ifs
    · exact hwithin
    · exact h.within x
  case nonneg => exact hnonneg
  case counted =>
    have hold := h.counted
    have hsum := sum_goto (s := s) (t := t) (l := l) tried
    rw [successes_moved]
    dsimp only
    omega
  case output => exact fun v hv => absurd (h.output v hv).2 hlive

theorem Good.does (h : Good attempts s) (hd : Does attempts s t spurious u) : Good attempts u := by
  have hlive := hd.not_finished
  have hnonneg := h.nonneg
  cases hd with
  | @lock i hl hi hfree =>
    refine h.moved hlive ⟨fun _ _ => Loc.noConfusion, fun _ => rfl⟩ (fun x hx => ?_)
      (fun _ _ => Loc.noConfusion) (Or.inl rfl) hi hnonneg
      (by simp [hl, pending, tried, Int.add_comm])
    rw [hfree]
    exact iff_of_false (fun heq => hx (Option.some.inj heq).symm) (none_ne_some x)
  | @fail i hl hi _ =>
    have ht : s.mtx ≠ some t := fun heq => h.not_test heq i hl
    exact h.moved hlive (iff_of_false ht fun hno => hno _ rfl) (fun _ _ => Iff.rfl)
      (fun _ _ => Loc.noConfusion) (Or.inl rfl) hi hnonneg (by simp [hl, pending, tried])
  | @load i hl =>
    have ht : s.mtx = some t := (h.owned t).mpr (by simp [hl])
    have hwithin := h.within t
    rw [hl] at hwithin
    refine h.moved hlive (iff_of_true ht fun _ => Loc.noConfusion) (fun _ _ => Iff.rfl)
      (fun i v hv => ?_) (Or.inl rfl) hwithin hnonneg (by simp [hl, pending, tried])
    exact (Loc.loaded.inj hv).2.symm
  | @store i v hl =>
    have ht : s.mtx = some t := (h.owned t).mpr (by simp [hl])
    have hv := h.current t i v hl
    have hwithin := h.within t
    rw [hl] at hwithin
    exact h.moved hlive (iff_of_true ht fun _ => Loc.noConfusion) (fun _ _ => Iff.rfl)
      (fun _ _ => Loc.noConfusion) (Or.inr ht) hwithin (by omega) (by simp [hl, pending, tried, hv])
  | @unlock i hl =>
    have ht : s.mtx = some t := (h.owned t).mpr (by simp [hl])
    have hwithin := h.within t
    rw [hl] at hwithin
    refine h.moved hlive (iff_of_false (none_ne_some t) fun hno => hno _ rfl) (fun x hx => ?_)
      (fun _ _ => Loc.noConfusion) (Or.inl rfl) hwithin hnonneg (by simp [hl, pending, tried])
    rw [ht]
    exact iff_of_false (none_ne_some x) fun heq => hx (Option.some.inj heq).symm

theorem main_eq (h : main attempts s = some u) :
    u = { s with output := some s.counter } ∧ Finished attempts s := by
  unfold main at h
  split_ifs at h with hall
  exact ⟨(Option.some.inj h).symm, hall.2⟩

theorem Good.step (h : Good attempts s) (hu : step attempts s a = some u) : Good attempts u := by
  cases a with
  | main =>
    obtain ⟨rfl, hall⟩ := main_eq hu
    exact ⟨h.owned, h.current, h.within, h.nonneg, h.counted,
      fun v hv => ⟨(Option.some.inj hv).symm, hall⟩⟩
  | thread t failed => exact h.does (thread_does hu)

theorem good_init : Good attempts (init n) where
  owned t := iff_of_false (none_ne_some t) fun hno => hno 0 rfl
  current _ _ _ := Loc.noConfusion
  within t := Nat.zero_le _
  nonneg := le_rfl
  counted := by simp [successes, init, pending, tried]
  output v hv := absurd hv.symm (Option.some_ne_none v)

theorem successes_nonneg (h : Good attempts s) : 0 ≤ successes s := by
  have hsum : 0 ≤ ∑ t, (pending (s.loc t) : Int) :=
    Finset.sum_nonneg fun t _ => Int.natCast_nonneg _
  have hnonneg := h.nonneg
  unfold successes
  omega

/-- A step with the mutex, which is no attempt. -/
theorem Reasoned.kept (h : Reasoned s) (hsuccesses : successes u = successes s)
    (htried : ∀ x, tried (u.loc x) = tried (s.loc x))
    (hmtx : ∀ b, u.mtx = some b → s.mtx = some b) (ht : ∀ i, s.loc t ≠ .test i) : Reasoned u where
  untried hzero := absurd (h.untried (hsuccesses ▸ hzero) t) (ht 0)
  one hone := by
    obtain ⟨a, ha, hown⟩ := h.one (hsuccesses ▸ hone)
    exact ⟨a, (htried a).trans ha, fun b hb => hown b (hmtx b hb)⟩
  alone hn := by
    rw [hsuccesses, h.alone hn]
    exact Finset.sum_congr rfl fun x _ => by rw [htried x]

/-- The thread has moved within its iteration. -/
theorem tried_goto (hl : tried l = tried (s.loc t)) (x : Fin n) :
    tried ((s.goto t l).loc x) = tried (s.loc x) := by
  rw [goto_loc]
  split_ifs with hx
  · exact hx ▸ hl
  · rfl

theorem Reasoned.lock (h : Reasoned s) (hg : Good attempts s) {i : Nat} (hl : s.loc t = .test i) :
    Reasoned { s.goto t (.locked i) with mtx := some t } := by
  have hmore : successes { s.goto t (.locked i) with mtx := some t } = successes s + 1 :=
    (successes_moved s.counter).trans (by simp [hl, pending])
  have hnonneg := successes_nonneg hg
  constructor
  case untried =>
    intro hzero
    omega
  case one =>
    intro hone
    have hzero := h.untried (by omega) t
    obtain rfl := Loc.test.inj (hl.symm.trans hzero)
    exact ⟨t, by simp [tried], fun b hb => (Option.some.inj hb).symm⟩
  case alone =>
    intro hn
    have hsum := sum_goto (s := s) (t := t) (l := .locked i) tried
    rw [hmore, h.alone hn, hsum, hl]
    simp only [tried]
    omega

theorem Reasoned.fail (h : Reasoned s) (hg : Good attempts s) {i : Nat} (hl : s.loc t = .test i)
    (hheld : s.mtx ≠ none) : Reasoned (s.goto t (.test (i + 1))) := by
  obtain ⟨b, hb⟩ := Option.ne_none_iff_exists'.mp hheld
  have hbt : b ≠ t := by
    rintro rfl
    exact hg.not_test hb i hl
  have hsame : successes (s.goto t (.test (i + 1))) = successes s :=
    (successes_moved s.counter).trans (by simp [hl, pending])
  constructor
  case untried =>
    intro hzero
    exact absurd (h.untried (hsame ▸ hzero) b) (hg.not_test hb 0)
  case one =>
    intro hone
    obtain ⟨a, ha, hown⟩ := h.one (hsame ▸ hone)
    have hat : a ≠ t := hown b hb ▸ hbt
    exact ⟨a, by rw [goto_loc, if_neg hat, ha], hown⟩
  case alone =>
    intro hn
    exact absurd (Fin.ext (by omega)) hbt

theorem Reasoned.does (h : Reasoned s) (hg : Good attempts s) (hd : Does attempts s t false u) :
    Reasoned u := by
  cases hd with
  | lock hl => exact h.lock hg hl
  | fail hl hi hreason => exact h.fail hg hl fun hnone => Bool.noConfusion (hreason hnone)
  | load hl =>
    exact h.kept (t := t) ((successes_moved s.counter).trans (by simp [hl, pending]))
      (tried_goto (by rw [hl]; rfl)) (fun _ hb => hb) (by simp [hl])
  | @store i v hl =>
    have hv := hg.current t i v hl
    exact h.kept (t := t) ((successes_moved (v + 1)).trans (by simp [hl, pending, hv]))
      (tried_goto (by rw [hl]; rfl)) (fun _ hb => hb) (by simp [hl])
  | unlock hl =>
    exact h.kept (t := t) ((successes_moved s.counter).trans (by simp [hl, pending]))
      (tried_goto (by rw [hl]; rfl)) (fun b hb => absurd hb (none_ne_some b)) (by simp [hl])

theorem Reasoned.step (h : Reasoned s) (hg : Good attempts s) (ha : Act.allowed false a)
    (hu : Increases.step attempts s a = some u) : Reasoned u := by
  cases a with
  | main =>
    obtain ⟨rfl, -⟩ := main_eq hu
    exact ⟨h.untried, h.one, h.alone⟩
  | thread t failed =>
    obtain rfl : failed = false := Bool.eq_false_iff.mpr fun hf => Bool.noConfusion (ha hf)
    exact h.does hg (thread_does hu)

theorem reasoned_init : Reasoned (init n) where
  untried _ _ := rfl
  one hone := by simp [successes, init, pending] at hone
  alone _ := by simp [successes, init, pending, tried]

theorem run_good {acts : List (Act n)} (hrun : exec (step attempts) acts (init n) = some s) :
    Good attempts s :=
  exec_preserves (fun _ _ _ h hu => h.step hu) good_init hrun

theorem run_reasoned {acts : List (Act n)} (hallowed : ∀ a ∈ acts, Act.allowed false a)
    (hrun : exec (step attempts) acts (init n) = some s) : Good attempts s ∧ Reasoned s := by
  have hstep : ∀ (s : State n) a u, Good attempts s ∧ Reasoned s → Act.allowed false a →
      step attempts s a = some u → Good attempts u ∧ Reasoned u :=
    fun _ _ _ h ha hu => ⟨h.1.step hu, h.2.step h.1 ha hu⟩
  exact exec_invariant (I := fun s => Good attempts s ∧ Reasoned s) hstep ⟨good_init, reasoned_init⟩
    (meets_of_forall hallowed) hrun

/-- When all threads have finished, their increases have been counted. -/
theorem Finished.sums (hall : Finished attempts s) :
    successes s = s.counter ∧ ∑ t, (tried (s.loc t) : Int) = n * attempts := by
  constructor
  · simp [successes, hall _, pending]
  · simp [hall _, tried]

/-- One more action leads to the state. -/
def Moves (attempts : Nat) (spurious : Bool) (s u : State n) : Prop :=
  ∃ a, Act.allowed spurious a ∧ step attempts s a = some u

theorem Moves.thread (failed : Bool) (hfailed : failed = true → spurious = true)
    (h : attempt10kIncreases attempts s t failed = some u) : Moves attempts spurious s u :=
  ⟨.thread t failed, hfailed, h⟩

/-- A thread fails, since another one has the mutex or without a reason. -/
theorem moves_fail {i : Nat} (hl : s.loc t = .test i) (hi : i < attempts)
    (hreason : s.mtx = none → spurious = true) :
    Moves attempts spurious s (s.goto t (.test (i + 1))) := by
  apply Moves.thread (t := t) spurious id
  have hno : ¬ (s.mtx = none ∧ spurious = false) := fun hfree =>
    Bool.noConfusion ((hreason hfree.1).symm.trans hfree.2)
  simp [attempt10kIncreases, hl, hi, hno]

theorem goto_goto {k : Loc} : (s.goto t l).goto t k = s.goto t k := by
  simp [State.goto]

/-- A thread that fails again and again. -/
theorem leads_fails {i j : Nat} (hl : s.loc t = .test i) (hij : i ≤ j) (hj : j ≤ attempts)
    (hreason : s.mtx = none → spurious = true) :
    ReflTransGen (Moves attempts spurious) s (s.goto t (.test j)) := by
  induction j, hij using Nat.le_induction with
  | base =>
    have hsame : s.goto t (.test i) = s := by simp [State.goto, ← hl]
    rw [hsame]
  | succ j hij ih =>
    have hnext := moves_fail (s := s.goto t (.test j)) (t := t) (i := j) (by simp) hj hreason
    rw [goto_goto] at hnext
    exact (ih (Nat.le_of_succ_le hj)).tail hnext

theorem placed_goto {m : Option (Fin n)} (hm : m ≠ some t) (k : Nat) :
    (placed m c f).goto t (.test k) = placed m c (Function.update f t k) := by
  simp only [placed, State.goto, State.mk.injEq, true_and, and_true]
  funext x
  by_cases hx : x = t
  · subst hx
    simp [hm]
  · simp [hx]

/-- The threads without the mutex fail as often as they like. -/
theorem leads_raise {m : Option (Fin n)} (hle : ∀ x, f x ≤ g x ∧ g x ≤ attempts)
    (hown : ∀ x, m = some x → g x = f x) (hreason : m = none → spurious = true) :
    ReflTransGen (Moves attempts spurious) (placed m c f) (placed m c g) := by
  -- one thread after the other
  suffices h : ∀ S : Finset (Fin n),
      ReflTransGen (Moves attempts spurious) (placed m c f) (placed m c (S.piecewise g f)) by
    simpa using h Finset.univ
  intro S
  induction S using Finset.induction_on with
  | empty => simpa using ReflTransGen.refl
  | insert x S hx ih =>
    rw [Finset.piecewise_insert]
    have hold : S.piecewise g f x = f x := Finset.piecewise_eq_of_notMem _ _ _ hx
    by_cases hm : m = some x
    · rwa [hown x hm, ← hold, Function.update_eq_self]
    · have hloc : (placed m c (S.piecewise g f)).loc x = .test (f x) := by
        simp [placed, hm, hold]
      have hfails := leads_fails hloc (hle x).1 (hle x).2 hreason
      rw [placed_goto hm] at hfails
      exact ih.trans hfails

theorem moves_lock (ht : f t < attempts) :
    Moves attempts spurious (placed none c f) (placed (some t) c f) := by
  apply Moves.thread (t := t) false Bool.noConfusion
  simp only [attempt10kIncreases, placed, reduceCtorEq, ↓reduceIte, ht, and_self, State.goto,
    Option.some.injEq, State.mk.injEq, true_and, and_true]
  funext x
  by_cases hx : x = t
  · simp [hx]
  · simp [hx, Ne.symm hx]

/-- The thread with the mutex counts its increase and leaves. -/
theorem leads_unlock (ht : g t = f t + 1) (hothers : ∀ x, x ≠ t → g x = f x) :
    ReflTransGen (Moves attempts spurious) (placed (some t) c f) (placed none (c + 1) g) := by
  let loaded := (placed (some t) c f).goto t (.loaded (f t) c)
  let stored : State n := { loaded.goto t (.stored (f t)) with counter := c + 1 }
  have hload : Moves attempts spurious (placed (some t) c f) loaded :=
    .thread (t := t) false Bool.noConfusion (by simp [attempt10kIncreases, placed, loaded])
  have hstore : Moves attempts spurious loaded stored :=
    .thread (t := t) false Bool.noConfusion (by simp [attempt10kIncreases, loaded, stored])
  have hunlock : Moves attempts spurious stored
      { stored.goto t (.test (f t + 1)) with mtx := none } :=
    .thread (t := t) false Bool.noConfusion (by simp [attempt10kIncreases, stored])
  have hend : { stored.goto t (.test (f t + 1)) with mtx := none } = placed none (c + 1) g := by
    simp only [placed, stored, loaded, State.goto, Function.update_idem, State.mk.injEq, true_and,
      and_true]
    funext x
    by_cases hx : x = t
    · simp [hx, ht]
    · simp [hx, Ne.symm hx, hothers x hx]
  exact ((ReflTransGen.single hload).tail hstore).tail (hend ▸ hunlock)

/-- A thread succeeds, and meanwhile the others fail. -/
theorem leads_succeed (ht : f t < attempts) (hg : g t = f t + 1)
    (hle : ∀ x, x ≠ t → f x ≤ g x ∧ g x ≤ attempts) :
    ReflTransGen (Moves attempts spurious) (placed none c f) (placed none (c + 1) g) := by
  have hraise : ReflTransGen (Moves attempts spurious) (placed (some t) c f)
      (placed (some t) c (Function.update g t (f t))) := by
    refine leads_raise (fun x => ?_) (fun x heq => ?_)
      (fun heq => absurd heq (Option.some_ne_none t))
    · by_cases hx : x = t
      · subst hx
        simpa using ht.le
      · simpa [hx] using hle x hx
    · obtain rfl := Option.some.inj heq
      simp
  exact ((ReflTransGen.single (moves_lock ht)).trans hraise).trans
    (leads_unlock (by simpa using hg) (fun x hx => by simp [hx]))

/-- One more iteration of a thread. -/
theorem sum_left (ht : f t < attempts) :
    ∑ x, (attempts - Function.update f t (f t + 1) x) + 1 = ∑ x, (attempts - f x) := by
  have hrest : ∑ x ∈ Finset.univ.erase t, (attempts - Function.update f t (f t + 1) x) =
      ∑ x ∈ Finset.univ.erase t, (attempts - f x) := by
    apply Finset.sum_congr rfl
    intro x hx
    rw [Function.update_of_ne (Finset.ne_of_mem_erase hx)]
  rw [← Finset.add_sum_erase _ _ (Finset.mem_univ t), hrest,
    ← Finset.add_sum_erase _ (fun x => attempts - f x) (Finset.mem_univ t),
    Function.update_self]
  omega

theorem exists_lt_of_sum (h : 0 < ∑ x, (attempts - f x)) : ∃ t, f t < attempts := by
  obtain ⟨t, -, ht⟩ := Finset.exists_ne_zero_of_sum_ne_zero h.ne'
  exact ⟨t, by omega⟩

/-- The threads succeed in all that is left to them, one after the other. -/
theorem leads_finish (spurious : Bool) (c : Int) (hle : ∀ x, f x ≤ attempts) :
    ReflTransGen (Moves attempts spurious) (placed none c f)
      (placed none (c + (∑ x, (attempts - f x) : Nat)) fun _ => attempts) := by
  induction hk : ∑ x, (attempts - f x) generalizing f c with
  | zero =>
    have hall : f = fun _ => attempts := by
      funext x
      have hx := Finset.sum_eq_zero_iff.mp hk x (Finset.mem_univ x)
      have hfx := hle x
      omega
    rw [hall, Nat.cast_zero, add_zero]
  | succ k ih =>
    have hpos : 0 < ∑ x, (attempts - f x) := hk ▸ Nat.succ_pos k
    obtain ⟨t, ht⟩ := exists_lt_of_sum hpos
    have hnext := sum_left ht
    have hwithin : ∀ x, Function.update f t (f t + 1) x ≤ attempts := by
      intro x
      by_cases hx : x = t
      · subst hx
        rw [Function.update_self]
        exact ht
      · simpa [hx] using hle x
    have hrest := ih (c := c + 1) hwithin (by omega)
    rw [add_assoc, ← Nat.cast_one, ← Nat.cast_add, Nat.add_comm 1] at hrest
    refine ReflTransGen.trans (leads_succeed ht (by simp) fun x hx => ?_) hrest
    simpa [hx] using hle x

/-- Any number of iterations can be left to the threads. -/
theorem exists_left (hle : ∀ x, f x ≤ attempts) {m : Nat} (hm : m ≤ ∑ x, (attempts - f x)) :
    ∃ g : Fin n → Nat, (∀ x, f x ≤ g x ∧ g x ≤ attempts) ∧ ∑ x, (attempts - g x) = m := by
  induction hk : ∑ x, (attempts - f x) generalizing f with
  | zero => exact ⟨f, fun x => ⟨le_rfl, hle x⟩, by omega⟩
  | succ k ih =>
    rcases hm.eq_or_lt with heq | hlt
    · exact ⟨f, fun x => ⟨le_rfl, hle x⟩, heq.symm⟩
    · have hpos : 0 < ∑ x, (attempts - f x) := hk ▸ Nat.succ_pos k
      obtain ⟨t, ht⟩ := exists_lt_of_sum hpos
      have hnext := sum_left ht
      have hwithin : ∀ x, f x ≤ Function.update f t (f t + 1) x ∧
          Function.update f t (f t + 1) x ≤ attempts := by
        intro x
        by_cases hx : x = t
        · subst hx
          rw [Function.update_self]
          exact ⟨Nat.le_succ _, ht⟩
        · simpa [hx] using hle x
      obtain ⟨g, hg, hsum⟩ := ih (fun x => (hwithin x).2) (by omega) (by omega)
      exact ⟨g, fun x => ⟨(hwithin x).1.trans (hg x).1, (hg x).2⟩, hsum⟩

theorem prints_of_leads (h : ReflTransGen (Moves attempts spurious) (placed none 0 fun _ => 0)
    (placed (n := n) none v fun _ => attempts)) : Prints n attempts spurious v := by
  have hmain : Moves attempts spurious (placed (n := n) none v fun _ => attempts)
      { placed (n := n) none v fun _ => attempts with output := some v } :=
    ⟨.main, trivial, by simp [step, main, placed, Finished]⟩
  have hinit : placed (n := n) none 0 (fun _ => 0) = init n := by simp [placed, init]
  rw [hinit] at h
  obtain ⟨acts, hallowed, hrun⟩ := exists_exec_of_reflTransGen (h.tail hmain)
  exact ⟨acts, _, hallowed, hrun, rfl⟩

theorem Prints.bounds (h : Prints n attempts spurious v) : 0 ≤ v ∧ v ≤ n * attempts := by
  obtain ⟨acts, s, -, hrun, hv⟩ := h
  have hgood := run_good hrun
  obtain ⟨rfl, hall⟩ := hgood.output v hv
  obtain ⟨hsuccesses, hsum⟩ := hall.sums
  have hcounted := hgood.counted
  exact ⟨hgood.nonneg, by omega⟩

theorem Prints.fewest_le (h : Prints n attempts false v) : fewest n attempts ≤ v := by
  obtain ⟨acts, s, hallowed, hrun, hv⟩ := h
  obtain ⟨hgood, hreasoned⟩ := run_reasoned hallowed hrun
  obtain ⟨rfl, hall⟩ := hgood.output v hv
  obtain ⟨hsuccesses, hsum⟩ := hall.sums
  have hnonneg := hgood.nonneg
  unfold fewest
  split_ifs with hn
  · have halone := hreasoned.alone hn
    push_cast
    omega
  · by_contra hlt
    have hfew : s.counter = 0 ∨ s.counter = 1 := by omega
    rcases hfew with hzero | hone
    · -- nobody has succeeded, and so nobody has tried
      have hfirst := hreasoned.untried (by omega) ⟨0, by omega⟩
      have hattempts := Loc.test.inj ((hall _).symm.trans hfirst)
      omega
    · -- the only thread that has succeeded has tried no more than that
      obtain ⟨a, ha, -⟩ := hreasoned.one (by omega)
      rw [hall a] at ha
      have hattempts : attempts = 1 := ha
      omega

/-- Nothing fails. -/
theorem prints_all : Prints n attempts spurious (n * attempts : Nat) := by
  have hfinish := leads_finish (f := fun _ : Fin n => 0) spurious 0 fun _ => Nat.zero_le attempts
  apply prints_of_leads
  simpa using hfinish

/-- Everything that is not to succeed fails at the start. -/
theorem prints_spurious {m : Nat} (hm : m ≤ n * attempts) : Prints n attempts true m := by
  obtain ⟨g, hg, hsum⟩ := exists_left (n := n) (f := fun _ => 0) (fun _ => Nat.zero_le attempts)
    (m := m) (by simpa using hm)
  have hraise : ReflTransGen (Moves attempts true) (placed none 0 fun _ => 0) (placed none 0 g) :=
    leads_raise hg (fun x heq => absurd heq (none_ne_some x)) fun _ => rfl
  have hfinish := leads_finish true 0 fun x => (hg x).2
  rw [hsum, zero_add] at hfinish
  exact prints_of_leads (hraise.trans hfinish)

/-- Two threads succeed once. While the first one has the mutex, all others fail, but the second one
keeps an attempt for later, and the first one fails while the second one has it. -/
theorem leads_twice (spurious : Bool) {first second : Fin n} (hne : second ≠ first)
    (hg : ∀ x, g x ≤ attempts) (hfirst : 1 ≤ g first) (hsecond : 1 ≤ g second) :
    ReflTransGen (Moves attempts spurious) (placed none 0 fun _ => 0) (placed none 2 g) := by
  have hlast := hg second
  let middle := Function.update (Function.update g first 1) second (g second - 1)
  have hbefore : ReflTransGen (Moves attempts spurious) (placed none 0 fun _ => 0)
      (placed none (0 + 1) middle) := by
    apply leads_succeed (t := first) (hfirst.trans (hg first))
    · simp [middle, hne.symm]
    · intro x hx
      have hwithin := hg x
      simp only [middle, Function.update_apply, if_neg hx]
      split_ifs <;> omega
  have hafter : ReflTransGen (Moves attempts spurious) (placed none (0 + 1) middle)
      (placed none (0 + 1 + 1) g) := by
    apply leads_succeed (t := second)
    · simp only [middle, Function.update_self]
      omega
    · simp only [middle, Function.update_self]
      omega
    · intro x hx
      have hwithin := hg x
      simp only [middle, Function.update_apply, if_neg hx]
      split_ifs with heq
      · subst heq
        exact ⟨hfirst, hwithin⟩
      · exact ⟨le_rfl, hwithin⟩
  exact hbefore.trans hafter

/-- Two threads have used one attempt, and any number of the others is left. -/
theorem exists_left_but_two {first second : Fin n} (hne : second ≠ first)
    (hattempts : 1 ≤ attempts) {m : Nat} (hm : m + 2 ≤ n * attempts) :
    ∃ g : Fin n → Nat, (∀ x, g x ≤ attempts) ∧ 1 ≤ g first ∧ 1 ≤ g second ∧
      ∑ x, (attempts - g x) = m := by
  let once : Fin n → Nat := Function.update (Function.update (fun _ => 0) first 1) second 1
  have honce : ∀ x, once x ≤ attempts := by
    intro x
    simp only [once, Function.update_apply]
    split_ifs <;> omega
  have hleft : m ≤ ∑ x, (attempts - once x) := by
    have hfirst := sum_left (f := fun _ : Fin n => 0) (t := first) hattempts
    have hunused : Function.update (fun _ => 0) first 1 second < attempts := by
      rw [Function.update_of_ne hne]
      exact hattempts
    have hsecond := sum_left hunused
    simp only [Function.update_of_ne hne, zero_add, tsub_zero, Finset.sum_const, Finset.card_univ,
      Fintype.card_fin, smul_eq_mul] at hfirst hsecond
    simp only [once]
    omega
  obtain ⟨g, hg, hsum⟩ := exists_left honce hleft
  have hfirst : once first ≤ g first := (hg first).1
  have hsecond : once second ≤ g second := (hg second).1
  simp only [once, Function.update_self, Function.update_of_ne hne.symm] at hfirst hsecond
  exact ⟨g, fun x => (hg x).2, hfirst, hsecond, hsum⟩

theorem prints_reasoned (hn : 2 ≤ n) (hattempts : 1 ≤ attempts) {m : Nat}
    (hm : m + 2 ≤ n * attempts) : Prints n attempts false (m + 2 : Nat) := by
  have hne : (⟨1, hn⟩ : Fin n) ≠ ⟨0, Nat.zero_lt_of_lt hn⟩ := by simp
  obtain ⟨g, hg, hfirst, hsecond, hsum⟩ := exists_left_but_two hne hattempts hm
  have htwice := leads_twice false hne hg hfirst hsecond
  have hfinish := leads_finish false 2 hg
  rw [hsum, Int.add_comm] at hfinish
  apply prints_of_leads
  exact_mod_cast htwice.trans hfinish

/-- The only success of all, while the others fail. -/
theorem prints_once (hn : 2 ≤ n) : Prints n 1 false 1 := by
  apply prints_of_leads
  have honce : ReflTransGen (Moves 1 false) (placed (n := n) none 0 fun _ => 0)
      (placed none (0 + 1) fun _ => 1) :=
    leads_succeed (t := ⟨0, Nat.zero_lt_of_lt hn⟩) Nat.one_pos rfl
      fun _ _ => ⟨Nat.zero_le 1, le_rfl⟩
  exact honce

/-- As `try_lock` may fail on a free mutex, any number up to that of all attempts can be printed.
Where it fails only when another thread has the mutex, two increases are the fewest, or one if every
thread makes a single attempt, and a thread alone does not fail. -/
theorem printed_increases_iff (n attempts : Nat) (v : Int) :
    (Prints n attempts true v ↔ 0 ≤ v ∧ v ≤ n * attempts) ∧
    (Prints n attempts false v ↔ fewest n attempts ≤ v ∧ v ≤ n * attempts) := by
  constructor
  case left =>
    refine ⟨Prints.bounds, fun ⟨hnonneg, hle⟩ => ?_⟩
    obtain ⟨m, rfl⟩ := Int.eq_ofNat_of_zero_le hnonneg
    exact prints_spurious (by exact_mod_cast hle)
  case right =>
    refine ⟨fun h => ⟨h.fewest_le, h.bounds.2⟩, fun ⟨hfewest, hle⟩ => ?_⟩
    obtain ⟨m, rfl⟩ := Int.eq_ofNat_of_zero_le ((Int.natCast_nonneg _).trans hfewest)
    have hm : m ≤ n * attempts := by exact_mod_cast hle
    have hlow : fewest n attempts ≤ m := by exact_mod_cast hfewest
    unfold fewest at hlow
    split_ifs at hlow with hn
    · rw [le_antisymm hm hlow]
      exact prints_all
    · rcases Nat.lt_or_ge m 2 with hfew | hmany
      · rcases hm.eq_or_lt with hall | hlt
        · rw [hall]
          exact prints_all
        · -- one attempt for each thread
          have hpos : 0 < attempts := Nat.pos_of_mul_pos_left (Nat.zero_lt_of_lt hlt)
          obtain rfl : attempts = 1 := by omega
          obtain rfl : m = 1 := by omega
          exact prints_once (by omega)
      · obtain ⟨k, rfl⟩ := Nat.exists_eq_add_of_le' hmany
        refine prints_reasoned (by omega) ?_ hm
        by_contra hzero
        obtain rfl : attempts = 0 := by omega
        omega

end

end LanguageTest.Increases
