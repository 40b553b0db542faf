import LanguageTest.Library.Monitor
import LanguageTest.Library.Turns
import Mathlib.Data.Fintype.Fin

namespace LanguageTest.Temp
open Transition Monitor Turns

inductive Cond where
  | cond
  deriving DecidableEq

/-- The turn and what has been printed. The number of turns taken is history, which no step
reads. -/
structure State where
  flag : Nat
  output : List Char
  turns : Nat

/-- A thread is at the test of its loop, in iteration `i` before it acquires the mutex, and, when
it is the main thread, behind the loop. -/
inductive Loc where
  | test (i : Nat)
  | enter (i : Nat)
  | endl
  | left
  deriving DecidableEq

def mode : Loc → Mode
  | .enter _ => .entry
  | .test _ | .endl | .left => .outside

def letter (id : Nat) : Char := Char.ofNat ('A'.toNat + id)

def enter (id i : Nat) (s : State) : Effect Cond Loc State :=
  if s.flag ≠ id then .sleep s .cond (.enter i)
  else
    .notifyAll
      { flag := (s.flag + 1) % 3, output := s.output ++ [letter id, ' '], turns := s.turns + 1 }
      .cond (.test (i + 1))

/-- The threads `A` and `B` are 0 and 1, and 2 is the main thread. -/
def step (loop : Nat) (id : Fin 3) (l : Loc) (_ : Unit) (s : State) :
    Option (Effect Cond Loc State) :=
  match l with
  | .test i => some (.go s (if i < loop then .enter i else if id = 2 then .endl else .left))
  | .enter i => some (enter id i s)
  | .endl => some (.go { s with output := s.output ++ ['\n'] } .left)
  | .left => none

def program (loop : Nat) : Threads (Fin 3) Cond Loc Unit State := ⟨mode, step loop⟩

def init : Config (Fin 3) Cond Loc State := ⟨⟨0, [], 0⟩, none, fun _ => .ready (.test 0)⟩

def abc (n : Nat) : List Char := (List.replicate n ['A', 'B', 'C']).flatten

/-- What is left of an output without blanks and newlines. -/
def letters (output : List Char) : List Char := output.filter Char.isAlpha

/-- The letters, each with a blank behind it. -/
def spaced (w : List Char) : List Char := w.flatMap fun ch => [ch, ' ']

def Finished (c : Config (Fin 3) Cond Loc State) : Prop := ∀ t, c.loc t = .left

/-- What is promised in every state. It can be run to the end without a wake-up that nobody has
notified of. -/
structure Sound (loop : Nat) (c : Config (Fin 3) Cond Loc State) : Prop where
  printed : letters c.shared.output <+: abc loop
  awake : ¬ Finished c → ∃ t, c.loc t ≠ .left ∧ (c.status t).isAsleep .cond = false
  ends : ∃ acts u, (∀ b ∈ acts, ∀ t, b ≠ .wake t) ∧
    exec (program loop).act acts c = some u ∧ Finished u
  complete : Finished c → c.shared.output = spaced (abc loop) ++ ['\n']

/-- The letters of the turns taken. -/
def taking (s : State) : List Char := inTurn letter 3 s.turns

/-- Where a thread is by the number of its turns so far. -/
def Counted (loop : Nat) (t : Fin 3) (l : Loc) (s : State) : Prop :=
  match l with
  | .test i => taken 3 t s.turns = i ∧ i ≤ loop
  | .enter i => taken 3 t s.turns = i ∧ i < loop
  | .endl => taken 3 t s.turns = loop ∧ t = 2
  | .left => taken 3 t s.turns = loop

/-- The main thread knows what has been printed: the last letter was its own. -/
def Printed (t : Fin 3) (l : Loc) (s : State) : Prop :=
  t = 2 → s.output = spaced (taking s) ++ if l = .left then ['\n'] else []

/-- It is the turn of another thread. -/
def Waits (t : Fin 3) (s : State) : Prop := s.flag ≠ t

theorem abc_eq (n : Nat) : abc n = inTurn letter 3 (3 * n) := by
  rw [inTurn_full]
  rfl

theorem letters_spaced (k : Nat) : letters (spaced (inTurn letter 3 k)) = inTurn letter 3 k := by
  induction k with
  | zero => rfl
  | succ k ih =>
    have halpha : ∀ i < 3, (letter i).isAlpha = true := by decide
    have hblank : (' ').isAlpha = false := by decide
    have hlast := halpha (k % 3) (Nat.mod_lt k (by decide))
    rw [inTurn_succ, spaced, List.flatMap_append, letters, List.filter_append]
    unfold letters spaced at ih
    rw [ih]
    simp [hlast, hblank]

section
variable {loop i : Nat} {s : State} {t v : Fin 3} {l l' : Loc} {e : Effect Cond Loc State}

theorem printed_iff (hl : l ≠ .left) :
    Printed t l s ↔ (t = 2 → s.output = spaced (taking s)) := by
  rw [Printed, if_neg hl, List.append_nil]

/-- A thread whose turn it is not goes to sleep, and another prints and passes the turn on. -/
theorem enter_cases (hflag : s.flag = s.turns % 3) :
    s.flag ≠ t ∧ enter t i s = .sleep s .cond (.enter i) ∨
      s.turns % 3 = t ∧ enter t i s =
        .notifyAll ⟨(s.turns + 1) % 3, s.output ++ [letter t, ' '], s.turns + 1⟩ .cond
          (.test (i + 1)) := by
  by_cases hturn : s.flag = t
  · right
    have hnext : (s.flag + 1) % 3 = (s.turns + 1) % 3 := by omega
    refine ⟨hflag.symm.trans hturn, ?_⟩
    rw [enter, if_neg (not_not.mpr hturn), hnext]
  · left
    exact ⟨hturn, if_pos hturn⟩

/-- The letter of the thread whose turn it is. -/
theorem spaced_next (hturn : s.turns % 3 = t) (hout : s.output = spaced (taking s)) :
    s.output ++ [letter t, ' '] = spaced (inTurn letter 3 (s.turns + 1)) := by
  rw [inTurn_succ, hturn, spaced, List.flatMap_append, hout]
  rfl

/-- The main thread has the last turn of all. -/
theorem not_left (hturn : s.turns % 3 = t) (ht : Counted loop t (.enter i) s)
    (hl : Counted loop 2 l s) : l ≠ .left := by
  rintro rfl
  have htaken : taken 3 t s.turns = i := ht.1
  have hlast : taken 3 2 s.turns = loop := hl
  have hlt : i < loop := ht.2
  rw [← hturn, taken_turn] at htaken
  rw [taken, if_neg (by omega)] at hlast
  omega

theorem outline (loop : Nat) : Outline (program loop) (fun _ _ _ => True)
    (fun s => s.flag = s.turns % 3) fun t l s => Counted loop t l s ∧ Printed t l s where
  shared t l a s e _ hflag _ hstep := by
    cases l with
    | left => cases hstep
    | test i =>
      obtain rfl := Option.some.inj hstep
      exact hflag
    | endl =>
      obtain rfl := Option.some.inj hstep
      exact hflag
    | enter i =>
      obtain rfl := Option.some.inj hstep
      rcases enter_cases (i := i) (t := t) hflag with ⟨-, heq⟩ | ⟨-, heq⟩ <;> rw [heq]
      · exact hflag
      · rfl
  thread t l a s e _ hflag hl hstep := by
    obtain ⟨hcount, hprint⟩ := hl
    cases l with
    | left => cases hstep
    | test i =>
      obtain ⟨htaken, hle⟩ := hcount
      obtain rfl := Option.some.inj hstep
      by_cases hlt : i < loop
      · simp only [Effect.go, if_pos hlt]
        exact ⟨⟨htaken, hlt⟩, hprint⟩
      · obtain rfl : i = loop := Nat.le_antisymm hle (Nat.not_lt.mp hlt)
        by_cases ht : t = 2
        · simp only [Effect.go, if_neg hlt, if_pos ht]
          exact ⟨⟨htaken, ht⟩, hprint⟩
        · simp only [Effect.go, if_neg hlt, if_neg ht]
          exact ⟨htaken, fun heq => absurd heq ht⟩
    | endl =>
      obtain ⟨htaken, rfl⟩ := hcount
      obtain rfl := Option.some.inj hstep
      refine ⟨htaken, fun _ => ?_⟩
      have hout := (printed_iff (l := .endl) nofun).mp hprint rfl
      simp only [Effect.go, hout]
      rfl
    | enter i =>
      obtain rfl := Option.some.inj hstep
      rcases enter_cases (i := i) (t := t) hflag with ⟨-, heq⟩ | ⟨hturn, heq⟩ <;> rw [heq]
      · exact ⟨hcount, hprint⟩
      · have hsucc := taken_succ (k := s.turns) t.isLt
        rw [if_pos hturn, hcount.1] at hsucc
        refine ⟨⟨hsucc, hcount.2⟩, (printed_iff (l := .test (i + 1)) nofun).mpr fun ht => ?_⟩
        exact spaced_next hturn ((printed_iff (l := .enter i) nofun).mp hprint ht)
  others t l a s e _ hflag hl hstep v l' hv hl' := by
    cases l with
    | left => cases hstep
    | test i =>
      obtain rfl := Option.some.inj hstep
      exact hl'
    | endl =>
      obtain ⟨-, rfl⟩ := hl.1
      obtain rfl := Option.some.inj hstep
      refine ⟨?_, fun heq => absurd heq hv⟩
      cases l' <;> exact hl'.1
    | enter i =>
      obtain rfl := Option.some.inj hstep
      rcases enter_cases (i := i) (t := t) hflag with ⟨-, heq⟩ | ⟨hturn, heq⟩ <;> rw [heq]
      · exact hl'
      · obtain ⟨hcount, hprint⟩ := hl'
        have hsame := taken_succ (k := s.turns) v.isLt
        rw [hturn, if_neg (fun h => hv (Fin.ext h.symm)), Nat.add_zero] at hsame
        constructor
        · unfold Counted Effect.notifyAll
          simp only [hsame]
          exact hcount
        · intro htwo
          subst htwo
          have hleft := not_left hturn hl.1 hcount
          have hout := (printed_iff hleft).mp hprint rfl
          exact (printed_iff hleft).mpr (fun _ => spaced_next hturn hout) rfl

theorem informs (loop : Nat) : Informs (program loop) .cond Waits := by
  intro t l a s e hstep
  cases l with
  | left => cases hstep
  | test i =>
    obtain rfl := Option.some.inj hstep
    exact Or.inr ⟨fun _ h => h, Or.inl ⟨_, rfl⟩⟩
  | endl =>
    obtain rfl := Option.some.inj hstep
    exact Or.inr ⟨fun _ h => h, Or.inl ⟨_, rfl⟩⟩
  | enter i =>
    obtain rfl := Option.some.inj hstep
    unfold enter
    split_ifs with hturn
    · exact Or.inr ⟨fun _ h => h, Or.inr hturn⟩
    · exact Or.inl ⟨rfl, _, rfl⟩

theorem parks (loop : Nat) : Parks (program loop) fun l => ∃ i, l = .enter i := by
  intro t l a s e cv l' hstep hnext
  cases l with
  | left => cases hstep
  | test i =>
    obtain rfl := Option.some.inj hstep
    cases hnext
  | endl =>
    obtain rfl := Option.some.inj hstep
    cases hnext
  | enter i =>
    obtain rfl := Option.some.inj hstep
    unfold enter at hnext
    split_ifs at hnext
    · cases hnext
      exact ⟨i, rfl⟩
    · cases hnext

/-- Every iteration is one critical section. -/
theorem mode_ne_inside (loop : Nat) (l : Loc) : (program loop).mode l ≠ .inside := by
  cases l <;> nofun

/-- What every run keeps. -/
structure Valid (loop : Nat) (c : Config (Fin 3) Cond Loc State) : Prop where
  holds : Holds (fun s => s.flag = s.turns % 3) (fun t l s => Counted loop t l s ∧ Printed t l s) c
  waiting : Waiting .cond Waits c
  sleepers : Sleepers (fun l => ∃ i, l = .enter i) c
  free : c.owner = none

variable {c u : Config (Fin 3) Cond Loc State} {b : Move (Fin 3) Unit}

theorem valid_init (loop : Nat) : Valid loop init := by
  constructor
  case holds =>
    refine ⟨rfl, fun t => ⟨⟨taken_zero, Nat.zero_le _⟩, fun _ => rfl⟩⟩
  case waiting => exact fun t => nofun
  case sleepers => exact fun t => Or.inl rfl
  case free => rfl

theorem Valid.act (h : Valid loop c) (hact : (program loop).act c b = some u) : Valid loop u where
  holds := (outline loop).act h.holds (allows_true c b) hact
  waiting := (informs loop).act h.waiting hact
  sleepers := (parks loop).act h.sleepers hact
  free := Threads.act_free (mode_ne_inside loop) h.free hact

/-- Whose turn it is. -/
def holder (turns : Nat) : Fin 3 := Fin.ofNat 3 turns

namespace Valid

theorem holder_awake (h : Valid loop c) :
    (c.status (holder c.shared.turns)).isAsleep .cond = false := by
  apply Bool.eq_false_iff.mpr
  intro hasleep
  exact h.waiting _ hasleep h.holds.1

theorem counted (h : Valid loop c) (t : Fin 3) : Counted loop t (c.loc t) c.shared :=
  (h.holds.2 t).1

theorem taken_le (h : Valid loop c) (t : Fin 3) : taken 3 t c.shared.turns ≤ loop := by
  have hcount := h.counted t
  cases hl : c.loc t <;> rw [hl] at hcount
  · exact hcount.1.le.trans hcount.2
  · exact hcount.1.le.trans hcount.2.le
  · exact hcount.1.le
  · exact le_of_eq hcount

theorem turns_le (h : Valid loop c) : c.shared.turns ≤ 3 * loop :=
  (le_taken (by decide)).trans (Nat.mul_le_mul_left 3 (h.taken_le 0))

theorem letters (h : Valid loop c) : letters c.shared.output = taking c.shared := by
  have hout := (h.holds.2 2).2 rfl
  have hend : Temp.letters (if c.loc 2 = .left then ['\n'] else []) = [] := by
    split_ifs <;> rfl
  rw [hout, Temp.letters, List.filter_append]
  unfold Temp.letters at hend
  rw [hend, List.append_nil]
  exact letters_spaced _

theorem finished (h : Valid loop c) (hfinished : Finished c) : c.shared.turns = 3 * loop := by
  apply full_of_taken (by decide)
  intro t ht
  have hcount := h.counted ⟨t, ht⟩
  rwa [hfinished] at hcount

/-- Some thread that has not finished is awake, and if it waits for its turn, it has it. -/
theorem exists_awake (h : Valid loop c) (hno : ¬ Finished c) :
    ∃ t, c.loc t ≠ .left ∧ (c.status t).isAsleep .cond = false ∧
      ∀ i, c.loc t = .enter i → c.shared.flag = t := by
  by_cases hfull : c.shared.turns = 3 * loop
  · -- everyone has had every turn
    have henter : ∀ t i, c.loc t ≠ .enter i := by
      intro t i hl
      have hcount := h.counted t
      rw [hl] at hcount
      have htaken : taken 3 t c.shared.turns = i := hcount.1
      have hlt : i < loop := hcount.2
      rw [hfull, taken_full (by decide)] at htaken
      omega
    obtain ⟨t, ht⟩ := not_forall.mp hno
    refine ⟨t, ht, ?_, fun i hl => absurd hl (henter t i)⟩
    apply Bool.eq_false_iff.mpr
    intro hasleep
    obtain ⟨i, hl⟩ := h.sleepers.asleep hasleep
    exact henter t i hl
  · refine ⟨holder c.shared.turns, ?_, h.holder_awake, fun i hl => h.holds.1⟩
    intro hl
    have hcount := h.counted (holder c.shared.turns)
    rw [hl] at hcount
    have hle := h.turns_le
    have hlt := taken_of_lt (by decide) (Nat.lt_of_le_of_ne hle hfull)
    exact hlt.ne hcount

end Valid

/-- What a thread still has to do. -/
def rest (loop : Nat) (l : Loc) : Nat :=
  match l with
  | .test i => 2 * (loop - i) + 2
  | .enter i => 2 * (loop - i) + 1
  | .endl => 1
  | .left => 0

theorem rest_decreases (hcount : Counted loop t l s) (hl : l ≠ .left)
    (hturn : ∀ i, l = .enter i → s.flag = t) :
    ∃ e, (program loop).step t l () s = some e ∧ (∀ cv, e.signal ≠ some (.one cv)) ∧
      rest loop e.next.loc < rest loop l := by
  cases l with
  | left => exact absurd rfl hl
  | endl => exact ⟨_, rfl, nofun, Nat.zero_lt_one⟩
  | test i =>
    refine ⟨_, rfl, nofun, ?_⟩
    simp only [Effect.go, Next.loc]
    split_ifs <;> simp only [rest] <;> omega
  | enter i =>
    refine ⟨_, rfl, ?_⟩
    rw [enter, if_neg (not_not.mpr (hturn i rfl))]
    refine ⟨nofun, ?_⟩
    have hlt : i < loop := hcount.2
    simp only [Effect.notifyAll, Next.loc, rest]
    omega

/-- No run is stuck, and none needs a wake-up without a notification. -/
theorem Valid.exists_step (h : Valid loop c) (hno : ¬ Finished c) :
    ∃ b u, (∀ t, b ≠ .wake t) ∧ (program loop).act c b = some u ∧ Valid loop u ∧
      ∑ t, rest loop (u.loc t) < ∑ t, rest loop (c.loc t) := by
  obtain ⟨t, hl, hawake, hturn⟩ := h.exists_awake hno
  obtain ⟨e, he, hsignal, hlt⟩ := rest_decreases (h.counted t) hl hturn
  have hrunnable : (c.status t).runnable = some (c.loc t) := by
    apply Status.runnable_of_awake
    intro cv
    cases cv
    exact hawake
  have hadmits : (program loop).Admits c.owner t (c.loc t) :=
    ⟨fun _ => h.free, fun hinside => absurd hinside (mode_ne_inside loop _)⟩
  obtain ⟨u, hu⟩ := Threads.act_enabled hrunnable hadmits he hsignal
  refine ⟨.run t () none, u, nofun, hu, h.act hu, ?_⟩
  obtain ⟨l', e', he', hran⟩ := Threads.act_ran hu
  obtain rfl := hran.loc_here
  obtain rfl : e = e' := Option.some.inj (he.symm.trans he')
  apply hran.sum_lt (w := fun _ => rest loop)
  rwa [hran.loc_self]

theorem Valid.sound (h : Valid loop c) : Sound loop c := by
  constructor
  case printed =>
    rw [h.letters, abc_eq]
    exact inTurn_mono h.turns_le
  case awake =>
    intro hno
    obtain ⟨t, hl, hawake, -⟩ := h.exists_awake hno
    exact ⟨t, hl, hawake⟩
  case ends =>
    obtain ⟨acts, u, hacts, hu, -, hend⟩ := exists_completion (I := Valid loop)
      (fun c => ∑ t, rest loop (c.loc t)) (fun _ => Valid.exists_step) h
    exact ⟨acts, u, hacts, hu, hend⟩
  case complete =>
    intro hfinished
    have hout := (h.holds.2 2).2 rfl
    rw [hout, if_pos (hfinished 2), abc_eq, taking, h.finished hfinished]

theorem valid_run {acts : List (Move (Fin 3) Unit)}
    (hrun : exec (program loop).act acts init = some c) : Valid loop c :=
  exec_preserves (fun _ _ _ h hact => Valid.act h hact) (valid_init loop) hrun

theorem turns_succ (hact : (program loop).act c b = some u) :
    u.shared.turns ≤ c.shared.turns + 1 := by
  cases b with
  | wake t =>
    rw [(Threads.act_woke hact).shared]
    exact Nat.le_succ _
  | run t a pick =>
    obtain ⟨l, e, he, hran⟩ := Threads.act_ran hact
    rw [hran.shared]
    cases l with
    | left => cases he
    | test i =>
      obtain rfl := Option.some.inj he
      exact Nat.le_succ _
    | endl =>
      obtain rfl := Option.some.inj he
      exact Nat.le_succ _
    | enter i =>
      obtain rfl := Option.some.inj he
      unfold enter
      split_ifs
      · exact Nat.le_succ _
      · exact Nat.le_refl _

/-- The words that are printed at some time of some run. -/
theorem exists_letters_iff {w : List Char} :
    (∃ acts c, exec (program loop).act acts init = some c ∧ letters c.shared.output = w) ↔
      w <+: abc loop := by
  constructor
  · rintro ⟨acts, c, hrun, rfl⟩
    exact (valid_run hrun).sound.printed
  · intro hw
    obtain ⟨acts, u, -, hu, hend⟩ := (valid_init loop).sound.ends
    have hturns := (valid_run hu).finished hend
    rw [abc_eq] at hw
    have hlen := hw.length_le
    rw [length_inTurn] at hlen
    obtain ⟨bs, v, -, hv, hk⟩ := exists_passing (fun c => c.shared.turns)
      (fun _ _ _ => turns_succ) hu (Nat.zero_le w.length) (hlen.trans hturns.ge)
    refine ⟨bs, v, hv, ?_⟩
    rw [(valid_run hv).letters, taking, hk]
    exact (eq_inTurn hw).symm

theorem exists_finished_iff {w : List Char} :
    (∃ acts c, exec (program loop).act acts init = some c ∧ Finished c ∧
      letters c.shared.output = w) ↔ w = abc loop := by
  have hletters : ∀ {acts c}, exec (program loop).act acts init = some c → Finished c →
      letters c.shared.output = abc loop := by
    intro acts c hrun hend
    rw [(valid_run hrun).letters, taking, (valid_run hrun).finished hend, abc_eq]
  constructor
  · rintro ⟨acts, c, hrun, hend, rfl⟩
    exact hletters hrun hend
  · rintro rfl
    obtain ⟨acts, u, -, hu, hend⟩ := (valid_init loop).sound.ends
    exact ⟨acts, u, hu, hend, hletters hu hend⟩

/-- The first letter is printed with a blank. -/
theorem run_blank : ∃ c, exec (program 1).act [.run 0 () none, .run 0 () none] init = some c ∧
    ¬ c.shared.output <+: abc 1 :=
  ⟨_, rfl, by decide⟩

end

end LanguageTest.Temp
