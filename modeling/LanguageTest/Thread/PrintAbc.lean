import LanguageTest.Thread.Temp

namespace LanguageTest.PrintAbc
open Transition Monitor Turns
open Temp (letter abc abc_eq holder)

/-- The turn and what has been printed. The number of turns passed on is history, which no step
reads. -/
structure State where
  cnt : Nat
  output : List Char
  turns : Nat

/-- A thread is at the test of its outer loop, at the test of its turn, before the mutex, or inside
with its letter printed. -/
inductive Loc where
  | test (num : Nat)
  | spin (num : Nat)
  | lock (num : Nat)
  | advance (num : Nat)
  | left
  deriving DecidableEq

def mode : Loc → Mode
  | .lock _ => .entry
  | .advance _ => .inside
  | .test _ | .spin _ | .left => .outside

/-- The threads `t1` and `t2` are 0 and 1, and 2 is the main thread. -/
def ch : Fin 3 → Char
  | 0 => 'A'
  | 1 => 'B'
  | 2 => 'C'

/-- `num--` in the test of the outer loop. -/
def test : Nat → Loc
  | 0 => .left
  | num + 1 => .spin num

def step (t : Fin 3) (l : Loc) (_ : Unit) (s : State) : Option (Effect Empty Loc State) :=
  match l with
  | .test num => some (.go s (test num))
  | .spin num =>
    some (.go s (if (ch t).toNat ≠ s.cnt + 'A'.toNat then .spin num else .lock num))
  | .lock num => some (.go { s with output := s.output ++ [ch t] } (.advance num))
  | .advance num =>
    some (.go { s with cnt := (s.cnt + 1) % 3, turns := s.turns + 1 } (.test num))
  | .left => none

def program : Threads (Fin 3) Empty Loc Unit State := ⟨mode, step⟩

def init (num : Nat) : Config (Fin 3) Empty Loc State :=
  ⟨⟨0, [], 0⟩, none, fun _ => .ready (.test num)⟩

def Finished (c : Config (Fin 3) Empty Loc State) : Prop := ∀ t, c.loc t = .left

/-- The test of its turn keeps the thread where it is. -/
def Spins (c : Config (Fin 3) Empty Loc State) (t : Fin 3) : Prop :=
  (∃ num, c.loc t = .spin num) ∧ (ch t).toNat ≠ c.shared.cnt + 'A'.toNat

/-- What is promised in every state. It can be run to the end. -/
structure Sound (n : Nat) (c : Config (Fin 3) Empty Loc State) : Prop where
  printed : c.shared.output <+: abc n
  moving : ¬ Finished c → ∃ t, c.loc t ≠ .left ∧ ¬ Spins c t
  complete : Finished c → c.shared.output = abc n
  ends : ∃ acts u, (∀ b ∈ acts, ∀ t, b ≠ .wake t) ∧ exec program.act acts c = some u ∧ Finished u

/-- Where a thread is by the number of its turns so far. -/
def Counted (n : Nat) (t : Fin 3) (l : Loc) (s : State) : Prop :=
  match l with
  | .test num => taken 3 t s.turns + num = n
  | .spin num | .lock num | .advance num => taken 3 t s.turns + num + 1 = n
  | .left => taken 3 t s.turns = n

/-- Only the thread whose turn it is gets past the test, and what has been printed is known to
it. -/
def Owned (t : Fin 3) (l : Loc) (s : State) : Prop :=
  match l with
  | .lock _ => s.cnt = t ∧ s.output = inTurn letter 3 s.turns
  | .advance _ => s.cnt = t ∧ s.output = inTurn letter 3 (s.turns + 1)
  | .test _ | .spin _ | .left => s.cnt = t → s.output = inTurn letter 3 s.turns

section
variable {n num : Nat} {s u : State} {t v : Fin 3} {l l' : Loc} {e : Effect Empty Loc State}

theorem ch_eq (t : Fin 3) : ch t = letter t := by decide +revert

theorem ch_test (t : Fin 3) : (ch t).toNat ≠ s.cnt + 'A'.toNat ↔ s.cnt ≠ t := by
  have hch : ∀ t : Fin 3, (ch t).toNat = t + 'A'.toNat := by decide
  rw [hch]
  omega

/-- What the others own when it is not their turn. -/
theorem Owned.other (h : Owned v l s) (hne : s.cnt ≠ v)
    (hout : u.cnt = v → u.output = inTurn letter 3 u.turns) : Owned v l u := by
  cases l with
  | lock num => exact absurd h.1 hne
  | advance num => exact absurd h.1 hne
  | test num => exact hout
  | spin num => exact hout
  | left => exact hout

theorem outline (n : Nat) : Outline program (fun _ _ _ => True)
    (fun s => s.cnt = s.turns % 3) fun t l s => Counted n t l s ∧ Owned t l s where
  shared t l a s e _ hcnt _ hstep := by
    cases l with
    | left => cases hstep
    | test num =>
      obtain rfl := Option.some.inj hstep
      exact hcnt
    | spin num =>
      obtain rfl := Option.some.inj hstep
      exact hcnt
    | lock num =>
      obtain rfl := Option.some.inj hstep
      exact hcnt
    | advance num =>
      obtain rfl := Option.some.inj hstep
      simp only [Effect.go]
      omega
  thread t l a s e _ hcnt hl hstep := by
    obtain ⟨hcount, howned⟩ := hl
    cases l with
    | left => cases hstep
    | test num =>
      obtain rfl := Option.some.inj hstep
      cases num with
      | zero => exact ⟨hcount, howned⟩
      | succ num => exact ⟨hcount, howned⟩
    | spin num =>
      obtain rfl := Option.some.inj hstep
      simp only [ch_test]
      split_ifs with hturn
      · exact ⟨hcount, howned⟩
      · have hcnt : s.cnt = t := not_not.mp hturn
        exact ⟨hcount, hcnt, howned hcnt⟩
    | lock num =>
      obtain ⟨hturn, hout⟩ := howned
      obtain rfl := Option.some.inj hstep
      refine ⟨hcount, hturn, ?_⟩
      have hletter : letter (s.turns % 3) = ch t := by rw [← hcnt, hturn, ch_eq]
      rw [inTurn_succ]
      simp only [Effect.go, hletter, hout]
    | advance num =>
      obtain ⟨hturn, hout⟩ := howned
      obtain rfl := Option.some.inj hstep
      have hsucc := taken_succ (k := s.turns) t.isLt
      rw [if_pos (hcnt.symm.trans hturn)] at hsucc
      refine ⟨?_, fun _ => hout⟩
      have hcount : taken 3 t s.turns + num + 1 = n := hcount
      simp only [Effect.go, Next.loc, Counted, hsucc]
      omega
  others t l a s e _ hcnt hl hstep v l' hv hl' := by
    cases l with
    | left => cases hstep
    | test num =>
      obtain rfl := Option.some.inj hstep
      exact hl'
    | spin num =>
      obtain rfl := Option.some.inj hstep
      exact hl'
    | lock num =>
      have hturn : s.cnt = t := hl.2.1
      have hne : s.cnt ≠ v := fun heq => hv (Fin.ext (heq.symm.trans hturn))
      obtain rfl := Option.some.inj hstep
      exact ⟨hl'.1, hl'.2.other hne fun heq => absurd heq hne⟩
    | advance num =>
      obtain ⟨hturn, hout⟩ : s.cnt = t ∧ s.output = inTurn letter 3 (s.turns + 1) := hl.2
      have hne : s.cnt ≠ v := fun heq => hv (Fin.ext (heq.symm.trans hturn))
      have hsame := taken_succ (k := s.turns) v.isLt
      rw [← hcnt, if_neg hne, Nat.add_zero] at hsame
      obtain rfl := Option.some.inj hstep
      refine ⟨?_, hl'.2.other hne fun _ => hout⟩
      unfold Counted Effect.go
      simp only [hsame]
      exact hl'.1

theorem disciplined : Disciplined program where
  holds t l a s e hstep hinside := by
    cases l with
    | left => cases hstep
    | test num =>
      obtain rfl := Option.some.inj hstep
      cases num <;> cases hinside
    | spin num =>
      obtain rfl := Option.some.inj hstep
      simp only [Effect.go, Next.loc] at hinside
      split_ifs at hinside <;> cases hinside
    | lock num =>
      intro hmode
      cases hmode
    | advance num =>
      intro hmode
      cases hmode
  sleeps t l a s e cv := cv.elim

/-- What every run keeps. -/
structure Valid (n : Nat) (c : Config (Fin 3) Empty Loc State) : Prop where
  holds : Holds (fun s => s.cnt = s.turns % 3) (fun t l s => Counted n t l s ∧ Owned t l s) c
  exclusive : Exclusive program c

/-- What a thread still has to do. -/
def rest (l : Loc) : Nat :=
  match l with
  | .test num => 4 * num + 1
  | .spin num => 4 * num + 4
  | .lock num => 4 * num + 3
  | .advance num => 4 * num + 2
  | .left => 0

theorem rest_decreases (hl : l ≠ .left) (hturn : s.cnt = t ∨ ∃ num, l = .test num) :
    ∃ e, program.step t l () s = some e ∧ (∀ cv, e.signal ≠ some (.one cv)) ∧
      rest e.next.loc < rest l := by
  cases l with
  | left => exact absurd rfl hl
  | test num =>
    refine ⟨_, rfl, fun cv => cv.elim, ?_⟩
    cases num <;> simp only [Effect.go, Next.loc, test, rest] <;> omega
  | spin num =>
    refine ⟨_, rfl, fun cv => cv.elim, ?_⟩
    have hcnt : s.cnt = t := by
      refine hturn.resolve_right ?_
      rintro ⟨num', hnum⟩
      cases hnum
    have hturn' : ¬ s.cnt ≠ t := not_not.mpr hcnt
    simp only [Effect.go, Next.loc, ch_test, if_neg hturn', rest]
    omega
  | lock num =>
    refine ⟨_, rfl, fun cv => cv.elim, ?_⟩
    simp [Effect.go, Next.loc, rest]
  | advance num =>
    refine ⟨_, rfl, fun cv => cv.elim, ?_⟩
    simp [Effect.go, Next.loc, rest]

variable {c d : Config (Fin 3) Empty Loc State} {b : Move (Fin 3) Unit}

theorem valid_init (n : Nat) : Valid n (init n) := by
  constructor
  case holds =>
    refine ⟨rfl, fun t => ⟨?_, fun _ => rfl⟩⟩
    show taken 3 t 0 + n = n
    rw [taken_zero, Nat.zero_add]
  case exclusive => exact fun t => iff_of_false nofun nofun

theorem Valid.act (h : Valid n c) (hact : program.act c b = some d) : Valid n d where
  holds := (outline n).act h.holds (allows_true c b) hact
  exclusive := disciplined.act h.exclusive hact

namespace Valid

theorem counted (h : Valid n c) (t : Fin 3) : Counted n t (c.loc t) c.shared := (h.holds.2 t).1

theorem taken_le (h : Valid n c) (t : Fin 3) : taken 3 t c.shared.turns ≤ n := by
  have hcount := h.counted t
  cases hl : c.loc t <;> rw [hl] at hcount <;> unfold Counted at hcount <;> omega

theorem turns_le (h : Valid n c) : c.shared.turns ≤ 3 * n :=
  (le_taken (by decide)).trans (Nat.mul_le_mul_left 3 (h.taken_le 0))

theorem finished (h : Valid n c) (hfinished : Finished c) : c.shared.turns = 3 * n := by
  apply full_of_taken (by decide)
  intro t ht
  have hcount := h.counted ⟨t, ht⟩
  rwa [hfinished] at hcount

/-- The thread whose turn it is knows the output. -/
theorem output_eq (h : Valid n c) : c.shared.output = inTurn letter 3 c.shared.turns ∨
    (∃ num, c.loc (holder c.shared.turns) = .advance num) ∧
      c.shared.output = inTurn letter 3 (c.shared.turns + 1) := by
  have howned := (h.holds.2 (holder c.shared.turns)).2
  have hcnt : c.shared.cnt = holder c.shared.turns := h.holds.1
  cases hl : c.loc (holder c.shared.turns) <;> rw [hl] at howned
  · exact Or.inl (howned hcnt)
  · exact Or.inl (howned hcnt)
  · exact Or.inl howned.2
  · exact Or.inr ⟨⟨_, rfl⟩, howned.2⟩
  · exact Or.inl (howned hcnt)

theorem printed (h : Valid n c) : c.shared.output <+: abc n := by
  rw [abc_eq]
  rcases h.output_eq with hout | ⟨⟨num, hl⟩, hout⟩ <;> rw [hout]
  · exact inTurn_mono h.turns_le
  · have hcount := h.counted (holder c.shared.turns)
    rw [hl] at hcount
    apply inTurn_mono
    apply Nat.succ_le_of_lt
    apply lt_of_taken (by decide)
    have hcount : taken 3 (c.shared.turns % 3) c.shared.turns + num + 1 = n := hcount
    omega

/-- Some thread that has not finished is not kept from going on. -/
theorem exists_active (h : Valid n c) (hno : ¬ Finished c) :
    ∃ t, c.loc t ≠ .left ∧ (c.shared.cnt = t ∨ ∃ num, c.loc t = .test num) := by
  by_cases hfull : c.shared.turns = 3 * n
  · obtain ⟨t, ht⟩ := not_forall.mp hno
    refine ⟨t, ht, Or.inr ?_⟩
    have hcount := h.counted t
    have htaken : taken 3 t c.shared.turns = n := by rw [hfull, taken_full (by decide)]
    -- everyone has had every turn
    cases hl : c.loc t with
    | test num => exact ⟨num, rfl⟩
    | left => exact absurd hl ht
    | spin num | lock num | advance num =>
      rw [hl] at hcount
      unfold Counted at hcount
      omega
  · refine ⟨holder c.shared.turns, ?_, Or.inl h.holds.1⟩
    intro hl
    have hcount := h.counted (holder c.shared.turns)
    rw [hl] at hcount
    have hlt := taken_of_lt (by decide) (Nat.lt_of_le_of_ne h.turns_le hfull)
    exact hlt.ne hcount

/-- The mutex is free for the thread whose turn it is. -/
theorem admits (h : Valid n c) (hturn : c.shared.cnt = t ∨ ∃ num, c.loc t = .test num) :
    program.Admits c.owner t (c.loc t) := by
  refine ⟨fun hentry => ?_, (h.exclusive t).mp⟩
  have hcnt : c.shared.cnt = t := by
    apply hturn.resolve_right
    rintro ⟨num, hl⟩
    rw [hl] at hentry
    cases hentry
  cases howner : c.owner with
  | none => rfl
  | some v =>
    have hinside := (h.exclusive v).mpr howner
    have howned := (h.holds.2 v).2
    cases hl : c.loc v with
    | advance num =>
      rw [hl] at howned
      obtain rfl : v = t := Fin.ext (howned.1.symm.trans hcnt)
      rw [hl] at hentry
      cases hentry
    | test num | spin num | lock num | left =>
      rw [hl] at hinside
      cases hinside

/-- No run is stuck. -/
theorem exists_step (h : Valid n c) (hno : ¬ Finished c) :
    ∃ b d, (∀ t, b ≠ .wake t) ∧ program.act c b = some d ∧ Valid n d ∧
      ∑ t, rest (d.loc t) < ∑ t, rest (c.loc t) := by
  obtain ⟨t, hl, hturn⟩ := h.exists_active hno
  obtain ⟨e, he, hsignal, hlt⟩ := rest_decreases hl hturn
  have hrunnable : (c.status t).runnable = some (c.loc t) := Status.runnable_of_awake nofun
  obtain ⟨d, hd⟩ := Threads.act_enabled hrunnable (h.admits hturn) he hsignal
  refine ⟨.run t () none, d, nofun, hd, h.act hd, ?_⟩
  obtain ⟨l', e', he', hran⟩ := Threads.act_ran hd
  obtain rfl := hran.loc_here
  obtain rfl : e = e' := Option.some.inj (he.symm.trans he')
  apply hran.sum_lt (w := fun _ => rest)
  rwa [hran.loc_self]

end Valid

theorem Valid.sound (h : Valid n c) : Sound n c := by
  constructor
  case printed => exact h.printed
  case moving =>
    intro hno
    obtain ⟨t, hl, hturn⟩ := h.exists_active hno
    refine ⟨t, hl, fun hspins => ?_⟩
    obtain ⟨⟨num, hspin⟩, hne⟩ := hspins
    rcases hturn with hcnt | ⟨num', htest⟩
    · exact ch_test t |>.mp hne hcnt
    · rw [hspin] at htest
      cases htest
  case complete =>
    intro hfinished
    rcases h.output_eq with hout | ⟨⟨num, hl⟩, -⟩
    · rw [hout, h.finished hfinished, abc_eq]
    · rw [hfinished] at hl
      cases hl
  case ends =>
    obtain ⟨acts, u, hacts, hu, -, hend⟩ := exists_completion (I := Valid n)
      (fun c => ∑ t, rest (c.loc t)) (fun _ => Valid.exists_step) h
    exact ⟨acts, u, hacts, hu, hend⟩

theorem valid_run {acts : List (Move (Fin 3) Unit)}
    (hrun : exec program.act acts (init n) = some c) : Valid n c :=
  exec_preserves (fun _ _ _ h hact => Valid.act h hact) (valid_init n) hrun

theorem length_output_succ (hact : program.act c b = some d) :
    d.shared.output.length ≤ c.shared.output.length + 1 := by
  cases b with
  | wake t =>
    rw [(Threads.act_woke hact).shared]
    exact Nat.le_succ _
  | run t a pick =>
    obtain ⟨l, e, he, hran⟩ := Threads.act_ran hact
    rw [hran.shared]
    cases l with
    | left => cases he
    | test num =>
      obtain rfl := Option.some.inj he
      exact Nat.le_succ _
    | spin num =>
      obtain rfl := Option.some.inj he
      exact Nat.le_succ _
    | lock num =>
      obtain rfl := Option.some.inj he
      exact (List.length_append ..).le
    | advance num =>
      obtain rfl := Option.some.inj he
      exact Nat.le_succ _

/-- The words that are printed at some time of some run. -/
theorem exists_output_iff {w : List Char} :
    (∃ acts c, exec program.act acts (init n) = some c ∧ c.shared.output = w) ↔ w <+: abc n := by
  constructor
  · rintro ⟨acts, c, hrun, rfl⟩
    exact (valid_run hrun).printed
  · intro hw
    obtain ⟨acts, u, -, hu, hend⟩ := (valid_init n).sound.ends
    have hcomplete := (valid_run hu).sound.complete hend
    obtain ⟨bs, v, -, hv, hk⟩ := exists_passing (fun c => c.shared.output.length)
      (fun _ _ _ => length_output_succ) hu (Nat.zero_le w.length)
      (hcomplete ▸ hw.length_le)
    refine ⟨bs, v, hv, ?_⟩
    exact (List.prefix_of_prefix_length_le (valid_run hv).printed hw hk.le).eq_of_length hk

theorem exists_finished_iff {w : List Char} :
    (∃ acts c, exec program.act acts (init n) = some c ∧ Finished c ∧ c.shared.output = w) ↔
      w = abc n := by
  constructor
  · rintro ⟨acts, c, hrun, hend, rfl⟩
    exact (valid_run hrun).sound.complete hend
  · rintro rfl
    obtain ⟨acts, u, -, hu, hend⟩ := (valid_init n).sound.ends
    exact ⟨acts, u, hu, hend, (valid_run hu).sound.complete hend⟩

/-- Both programs print the same letters, in every run and in the runs to the end. -/
theorem run_abc (n : Nat) :
    (∀ acts c, exec (Temp.program n).act acts Temp.init = some c → Temp.Sound n c) ∧
    (∀ acts c, exec program.act acts (init n) = some c → Sound n c) ∧
    (∀ w, (∃ acts c, exec (Temp.program n).act acts Temp.init = some c ∧
        Temp.letters c.shared.output = w) ↔
      ∃ acts c, exec program.act acts (init n) = some c ∧ c.shared.output = w) ∧
    ∀ w, (∃ acts c, exec (Temp.program n).act acts Temp.init = some c ∧ Temp.Finished c ∧
        Temp.letters c.shared.output = w) ↔
      ∃ acts c, exec program.act acts (init n) = some c ∧ Finished c ∧ c.shared.output = w := by
  refine ⟨?_, ?_, ?_, ?_⟩
  · exact fun _ _ hrun => (Temp.valid_run hrun).sound
  · exact fun _ _ hrun => (valid_run hrun).sound
  · exact fun w => Temp.exists_letters_iff.trans exists_output_iff.symm
  · exact fun w => Temp.exists_finished_iff.trans exists_finished_iff.symm

end

end LanguageTest.PrintAbc
