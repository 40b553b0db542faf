import LanguageTest.Stl.SafeQueue

namespace LanguageTest.SafeQueue
open Transition Monitor

variable {T α : Type*}

/-- The thread has tested the flags and, as the members stand, will wait on the condition
variable. -/
def Loc.waits (s : State α) : Cond → Loc α → Bool
  | .fullQue, .pushFinished _ => !s.finished && decide (s.sizeMax ≤ s.queue.length)
  | .fullQue, .pushBody _ => decide (s.sizeMax ≤ s.queue.length)
  | .empty, .popCheck _ => s.queue.isEmpty && !s.finished
  | .empty, .popFinished _ => !(s.queue.isEmpty && s.finished)
  | .empty, .popWait _ => true
  | _, _ => false

/-- No thread is parked on the condition variable without a notification. -/
def NoneAsleep (cv : Cond) (c : Config T Cond (Loc α) (State α)) : Prop :=
  ∀ v, (c.status v).isAsleep cv = false

/-- After `quit` nobody is parked; after `finished` no producer is, and no consumer that faces an
empty queue. -/
structure Released (c : Config T Cond (Loc α) (State α)) : Prop where
  quit : c.shared.quitReturned = true → ∀ cv, NoneAsleep cv c
  producers : c.shared.finishedReturned = true → NoneAsleep .fullQue c
  consumers : c.shared.finishedReturned = true → c.shared.queue = [] → NoneAsleep .empty c

/-- What is asked of a notification of `quit` or `finished`: no thread is between its test of the
flags and its wait, and no producer is parked when `finished` leaves them out. -/
def NotifiesInTime (c : Config T Cond (Loc α) (State α)) : Loc α → Prop
  | .quitEmpty => ∀ v, (c.loc v).waits c.shared .empty = false
  | .quitFull => ∀ v, (c.loc v).waits c.shared .fullQue = false
  | .finishedEmpty => (∀ v, (c.loc v).waits c.shared .empty = false) ∧
      (∀ v, (c.loc v).waits c.shared .fullQue = false) ∧ NoneAsleep .fullQue c
  | _ => True

def InTime (c : Config T Cond (Loc α) (State α)) : Move T (Call α) → Prop
  | .run t _ _ => NotifiesInTime c (c.loc t)
  | .wake _ => True

section
variable {sizeMax : Nat} {s u : State α} {t : T} {l l' : Loc α} {cv : Cond} {call : Call α}
variable {e : Effect Cond (Loc α) (State α)}

theorem waits_inside (h : l.waits s cv = true) : mode l = .inside := by
  cases cv <;> cases l <;> first | rfl | cases h

/-- A set flag only ends the wait. -/
theorem waits_mono (hqueue : u.queue = s.queue) (hsize : u.sizeMax = s.sizeMax)
    (hfinished : s.finished = true → u.finished = true) (h : l.waits u cv = true) :
    l.waits s cv = true := by
  have hclear : u.finished = false → s.finished = false := by
    intro hu
    apply Bool.eq_false_iff.mpr
    intro hs
    rw [hfinished hs] at hu
    cases hu
  cases cv <;> cases l <;> simp only [Loc.waits, hqueue, hsize] at h ⊢ <;>
    cases hu : u.finished <;> simp_all

/-- The step brings its thread no nearer to a wait than it was. -/
def NoNearer (s : State α) (cv : Cond) (l : Loc α) (e : Effect Cond (Loc α) (State α)) : Prop :=
  (e.next.loc.waits e.shared cv = true ∨ ∃ l', e.next = .sleep cv l') → l.waits s cv = true

theorem noNearer_go {sig : Option (Signal Cond)}
    (h : l'.waits u cv = true → l.waits s cv = true) : NoNearer s cv l ⟨u, sig, .go l'⟩ := by
  intro hnear
  rcases hnear with hnear | ⟨l'', hnear⟩
  · exact h hnear
  · cases hnear

theorem noNearer_outside {sig : Option (Signal Cond)} (h : mode l' ≠ .inside) :
    NoNearer s cv l ⟨u, sig, .go l'⟩ :=
  noNearer_go fun hwaits => absurd (waits_inside hwaits) h

theorem noNearer_sleep {cv' : Cond} (h : mode l' ≠ .inside) (hl : l.waits s cv' = true) :
    NoNearer s cv l (.sleep u cv' l') := by
  intro hnear
  rcases hnear with hnear | ⟨l'', hnear⟩
  · exact absurd (waits_inside hnear) h
  · cases hnear
    exact hl

theorem push_noNearer (hflag : s.quit = true ∨ s.finished = true) (data : α) :
    NoNearer s cv l (push data s) := by
  unfold push
  by_cases hquit : s.quit = true
  · rw [if_pos hquit]
    exact noNearer_outside nofun
  · rw [if_neg hquit]
    apply noNearer_go
    cases cv <;> simp [Loc.waits, hflag.resolve_left hquit]

theorem pushFinished_noNearer (data : α) :
    NoNearer s cv (.pushFinished data) (pushFinished data s) := by
  unfold pushFinished
  by_cases hfinished : s.finished = true
  · rw [if_pos hfinished]
    exact noNearer_outside nofun
  · rw [if_neg hfinished]
    apply noNearer_go
    cases cv <;> simp [Loc.waits, hfinished]

theorem pushBody_noNearer (data : α) : NoNearer s cv (.pushBody data) (pushBody data s) := by
  unfold pushBody
  by_cases hroom : s.queue.length < s.sizeMax
  · rw [if_pos hroom]
    exact noNearer_outside nofun
  · rw [if_neg hroom]
    exact noNearer_sleep nofun (decide_eq_true (Nat.le_of_not_lt hroom))

theorem pop_noNearer (hflag : s.quit = true ∨ s.finished = true) (data : α) :
    NoNearer s cv l (pop data s) := by
  unfold pop
  by_cases hquit : s.quit = true
  · rw [if_pos hquit]
    exact noNearer_outside nofun
  · rw [if_neg hquit]
    apply noNearer_go
    cases cv <;> simp [Loc.waits, hflag.resolve_left hquit]

theorem popCheck_noNearer (data : α) : NoNearer s cv (.popCheck data) (popCheck data s) := by
  unfold popCheck
  cases hqueue : s.queue with
  | nil =>
    apply noNearer_go
    cases cv <;> simp [Loc.waits, hqueue]
  | cons x rest => exact noNearer_outside nofun

theorem popFinished_noNearer (data : α) :
    NoNearer s cv (.popFinished data) (popFinished data s) := by
  unfold popFinished
  by_cases hdone : (s.queue.isEmpty && s.finished) = true
  · rw [if_pos hdone]
    exact noNearer_outside nofun
  · rw [if_neg hdone]
    apply noNearer_go
    intro hwaits
    cases cv with
    | fullQue => cases hwaits
    | empty => simp only [Loc.waits, Bool.eq_false_iff.mpr hdone, Bool.not_false]

theorem step_noNearer (hflag : s.quit = true ∨ s.finished = true)
    (hstep : step t l call s = some e) : NoNearer s cv l e := by
  cases l with
  | idle | pushed _ _ _ | popped _ _ =>
    obtain rfl := Option.some.inj hstep
    cases call <;> exact noNearer_outside nofun
  | quit | quitEmpty | quitFull | finished | finishedEmpty =>
    obtain rfl := Option.some.inj hstep
    exact noNearer_outside nofun
  | push data =>
    obtain rfl := Option.some.inj hstep
    exact push_noNearer hflag data
  | pushFinished data =>
    obtain rfl := Option.some.inj hstep
    exact pushFinished_noNearer data
  | pushBody data =>
    obtain rfl := Option.some.inj hstep
    exact pushBody_noNearer data
  | pop data =>
    obtain rfl := Option.some.inj hstep
    exact pop_noNearer hflag data
  | popCheck data =>
    obtain rfl := Option.some.inj hstep
    exact popCheck_noNearer data
  | popFinished data =>
    obtain rfl := Option.some.inj hstep
    exact popFinished_noNearer data
  | popWait data =>
    obtain rfl := Option.some.inj hstep
    exact noNearer_sleep nofun rfl

theorem step_queue (hstep : step t l call s = some e) :
    e.shared.queue = s.queue ∨ mode l = .inside := by
  cases l with
  | pushFinished _ | pushBody _ | popCheck _ | popFinished _ | popWait _ => exact Or.inr rfl
  | push data =>
    obtain rfl := Option.some.inj hstep
    left
    show (push data s).shared.queue = s.queue
    unfold push
    split <;> rfl
  | pop data =>
    obtain rfl := Option.some.inj hstep
    left
    show (pop data s).shared.queue = s.queue
    unfold pop
    split <;> rfl
  | _ =>
    obtain rfl := Option.some.inj hstep
    exact Or.inl rfl

end

theorem disciplined : Disciplined (program (T := T) (α := α)) := by
  constructor
  case holds =>
    intro t l call s e hstep hinside
    cases l with
    | idle | pushed _ _ _ | popped _ _ =>
      obtain rfl := Option.some.inj hstep
      cases call <;> cases hinside
    | quit | quitEmpty | quitFull | finished | finishedEmpty =>
      obtain rfl := Option.some.inj hstep
      cases hinside
    | _ => exact nofun
  case sleeps =>
    intro t l call s e cv l' hstep hnext
    cases l with
    | idle | pushed _ _ _ | popped _ _ | quit | quitEmpty | quitFull | finished | finishedEmpty =>
      obtain rfl := Option.some.inj hstep
      cases hnext
    | push data =>
      obtain rfl := Option.some.inj hstep
      unfold push at hnext
      split at hnext <;> cases hnext
    | pushFinished data =>
      obtain rfl := Option.some.inj hstep
      unfold pushFinished at hnext
      split at hnext <;> cases hnext
    | pushBody data =>
      obtain rfl := Option.some.inj hstep
      unfold pushBody at hnext
      split at hnext
      · cases hnext
      · cases hnext
        exact ⟨nofun, nofun⟩
    | pop data =>
      obtain rfl := Option.some.inj hstep
      unfold pop at hnext
      split at hnext <;> cases hnext
    | popCheck data =>
      obtain rfl := Option.some.inj hstep
      unfold popCheck at hnext
      split at hnext <;> cases hnext
    | popFinished data =>
      obtain rfl := Option.some.inj hstep
      unfold popFinished at hnext
      split at hnext <;> cases hnext
    | popWait data =>
      obtain rfl := Option.some.inj hstep
      cases hnext
      exact ⟨nofun, nofun⟩

section Runs
variable [DecidableEq T] {sizeMax : Nat} {c u : Config T Cond (Loc α) (State α)}
variable {t : T} {l l' : Loc α} {cv : Cond} {e : Effect Cond (Loc α) (State α)}

/-- No thread is parked on the condition variable or on its way there. -/
def Out (cv : Cond) (c : Config T Cond (Loc α) (State α)) : Prop :=
  ∀ v, (c.status v).isAsleep cv = false ∧ (c.loc v).waits c.shared cv = false

omit [DecidableEq T] in
/-- The other threads come no nearer to a wait: only the thread inside the mutex moves the
queue. -/
theorem waits_other (hexclusive : Exclusive program c) (hran : program.Ran c t l e u)
    (hsize : e.shared.sizeMax = c.shared.sizeMax)
    (hfinished : c.shared.finished = true → e.shared.finished = true)
    (hqueue : e.shared.queue = c.shared.queue ∨ mode l = .inside) {v : T} (hv : v ≠ t)
    (h : (u.loc v).waits u.shared cv = true) : (c.loc v).waits c.shared cv = true := by
  rw [hran.loc v hv, hran.shared] at h
  rcases hqueue with hqueue | hinside
  · exact waits_mono hqueue hsize hfinished h
  · exfalso
    apply hv
    have howner := (hexclusive v).mp (waits_inside h)
    have hself := (hexclusive t).mp (by rw [hran.loc_here]; exact hinside)
    exact Option.some.inj (howner.symm.trans hself)

theorem Out.wake [Fintype T] (h : Out cv c) (hact : program.act c (.wake t) = some u) :
    Out cv u := by
  have hwoke := Threads.act_woke hact
  intro v
  rw [hwoke.loc, hwoke.shared]
  exact ⟨hwoke.awake (h v).1, (h v).2⟩

/-- Once a flag is set and nobody is parked or about to, nobody will be. -/
theorem Out.run (h : Out cv c) (hflag : c.shared.quit = true ∨ c.shared.finished = true)
    (hexclusive : Exclusive program c) (hordered : Ordered sizeMax c.shared)
    (hplaced : Placed l c.shared) {call : Call α}
    (hstep : step t l call c.shared = some e) (hran : program.Ran c t l e u) : Out cv u := by
  have hkeeps := step_keeps (t := t) hordered hplaced hstep
  have hnear : NoNearer c.shared cv l e := step_noNearer (t := t) hflag hstep
  have hself : l.waits c.shared cv = false := by
    have hl := (h t).2
    rwa [hran.loc_here] at hl
  intro v
  constructor
  · by_cases hvt : v = t
    · subst hvt
      rw [hran.self]
      apply Bool.eq_false_iff.mpr
      intro hv
      cases hnext : e.next with
      | go l' =>
        rw [hnext] at hv
        cases hv
      | sleep cv' l' =>
        rw [hnext] at hv
        obtain rfl : cv' = cv := of_decide_eq_true hv
        rw [hnear (Or.inr ⟨l', hnext⟩)] at hself
        cases hself
    · exact hran.awake hvt (h v).1
  · apply Bool.eq_false_iff.mpr
    intro hv
    by_cases hvt : v = t
    · subst hvt
      rw [hran.loc_self, hran.shared] at hv
      rw [hnear (Or.inl hv)] at hself
      cases hself
    · have hbefore := waits_other hexclusive hran
        (hkeeps.ordered.size.trans hordered.size.symm) hkeeps.finished (step_queue hstep) hvt hv
      rw [(h v).2] at hbefore
      cases hbefore

/-- A notification that comes in time leaves nobody parked or about to. -/
theorem out_of_notified (hran : program.Ran c t l ⟨s, some (.all cv'), .go l'⟩ u)
    (hasleep : cv' = cv ∨ NoneAsleep cv c) (hl' : mode l' ≠ .inside)
    (hmembers : s.queue = c.shared.queue ∧ s.sizeMax = c.shared.sizeMax ∧
      s.finished = c.shared.finished)
    (htime : ∀ v, (c.loc v).waits c.shared cv = false) : Out cv u := by
  intro v
  constructor
  · apply Bool.eq_false_iff.mpr
    intro hv
    obtain ⟨hvt, hbefore⟩ := hran.asleep_of_go rfl hv
    rcases hasleep with heq | hnone
    · apply (hran.asleep v cv hvt hv).2
      rw [heq]
    · rw [hnone v] at hbefore
      cases hbefore
  · apply Bool.eq_false_iff.mpr
    intro hv
    rw [hran.shared] at hv
    by_cases hvt : v = t
    · subst hvt
      rw [hran.loc_self] at hv
      exact hl' (waits_inside hv)
    · rw [hran.loc v hvt] at hv
      have hbefore := waits_mono hmembers.1 hmembers.2.1
        (fun hfinished => hmembers.2.2.trans hfinished) hv
      rw [htime v] at hbefore
      cases hbefore

/-- The members, the mutex, and what the notifications sent so far have achieved. -/
structure Valid (sizeMax : Nat) (c : Config T Cond (Loc α) (State α)) : Prop where
  holds : Holds (Ordered sizeMax) (fun _ => Placed) c
  exclusive : Exclusive program c
  emptied : ∀ t, c.loc t = .quitFull → Out .empty c
  quit : c.shared.quitReturned = true → ∀ cv, Out cv c
  finished : c.shared.finishedReturned = true → ∀ cv, Out cv c

omit [DecidableEq T] in
theorem valid_new (sizeMax : Nat) :
    Valid sizeMax (new sizeMax : Config T Cond (Loc α) (State α)) where
  holds := holds_new sizeMax
  exclusive _ := iff_of_false nofun nofun
  emptied _ := nofun
  quit := nofun
  finished := nofun

omit [DecidableEq T] in
/-- Who is at its last notification, or has returned from it, came from there. -/
theorem step_returns {s : State α} {call : Call α} (hstep : step t l call s = some e) :
    (e.next.loc = .quitFull → l = .quitEmpty) ∧
    (e.shared.quitReturned = true → s.quitReturned = true ∨ l = .quitFull) ∧
    (e.shared.finishedReturned = true → s.finishedReturned = true ∨ l = .finishedEmpty) := by
  cases l with
  | idle | pushed _ _ _ | popped _ _ =>
    obtain rfl := Option.some.inj hstep
    cases call <;> exact ⟨nofun, Or.inl, Or.inl⟩
  | quitEmpty =>
    obtain rfl := Option.some.inj hstep
    exact ⟨fun _ => rfl, Or.inl, Or.inl⟩
  | quitFull =>
    obtain rfl := Option.some.inj hstep
    exact ⟨nofun, fun _ => Or.inr rfl, Or.inl⟩
  | finishedEmpty =>
    obtain rfl := Option.some.inj hstep
    exact ⟨nofun, Or.inl, fun _ => Or.inr rfl⟩
  | quit | finished | popWait _ =>
    obtain rfl := Option.some.inj hstep
    exact ⟨nofun, Or.inl, Or.inl⟩
  | push data =>
    obtain rfl := Option.some.inj hstep
    simp only [push]
    split <;> exact ⟨nofun, Or.inl, Or.inl⟩
  | pushFinished data =>
    obtain rfl := Option.some.inj hstep
    simp only [pushFinished]
    split <;> exact ⟨nofun, Or.inl, Or.inl⟩
  | pushBody data =>
    obtain rfl := Option.some.inj hstep
    simp only [pushBody]
    split <;> exact ⟨nofun, Or.inl, Or.inl⟩
  | pop data =>
    obtain rfl := Option.some.inj hstep
    simp only [pop]
    split <;> exact ⟨nofun, Or.inl, Or.inl⟩
  | popCheck data =>
    obtain rfl := Option.some.inj hstep
    simp only [popCheck]
    split <;> exact ⟨nofun, Or.inl, Or.inl⟩
  | popFinished data =>
    obtain rfl := Option.some.inj hstep
    simp only [popFinished]
    split <;> exact ⟨nofun, Or.inl, Or.inl⟩

theorem Valid.run [Fintype T] (h : Valid sizeMax c) {call : Call α} {pick : Option T}
    (hok : InTime c (.run t call pick)) (hact : program.act c (.run t call pick) = some u) :
    Valid sizeMax u := by
  obtain ⟨l, e, he, hran⟩ := Threads.act_ran hact
  obtain ⟨hordered, hplaced⟩ := h.holds
  have hok : NotifiesInTime c (c.loc t) := hok
  have hl := hplaced t
  rw [hran.loc_here] at hok hl
  obtain ⟨hfull, hquit, hfinished⟩ := step_returns (t := t) he
  -- what nobody waits for any more stays so, as a flag is set
  have hout : ∀ cv, (c.shared.quit = true ∨ c.shared.finished = true) → Out cv c → Out cv u :=
    fun cv hflag hbefore => hbefore.run hflag h.exclusive hordered hl he hran
  constructor
  case holds => exact (outline sizeMax).act h.holds (allows_true c _) hact
  case exclusive => exact disciplined.act h.exclusive hact
  case emptied =>
    intro v hv
    by_cases hvt : v = t
    · subst hvt
      rw [hran.loc_self] at hv
      obtain rfl := hfull hv
      obtain rfl := Option.some.inj he
      exact out_of_notified hran (Or.inl rfl) nofun ⟨rfl, rfl, rfl⟩ hok
    · rw [hran.loc v hvt] at hv
      have hflag := hplaced v
      rw [hv] at hflag
      exact hout .empty (Or.inl hflag) (h.emptied v hv)
  case quit =>
    intro hreturned cv
    rw [hran.shared] at hreturned
    rcases hquit hreturned with hbefore | rfl
    · exact hout cv (Or.inl (hordered.quit hbefore)) (h.quit hbefore cv)
    · cases cv with
      | empty => exact hout .empty (Or.inl hl) (h.emptied t hran.loc_here)
      | fullQue =>
        obtain rfl := Option.some.inj he
        exact out_of_notified hran (Or.inl rfl) nofun ⟨rfl, rfl, rfl⟩ hok
  case finished =>
    intro hreturned cv
    rw [hran.shared] at hreturned
    rcases hfinished hreturned with hbefore | rfl
    · exact hout cv (Or.inr (hordered.finished hbefore)) (h.finished hbefore cv)
    · obtain ⟨hempty, hfullQue, hnone⟩ := hok
      obtain rfl := Option.some.inj he
      cases cv with
      | empty => exact out_of_notified hran (Or.inl rfl) nofun ⟨rfl, rfl, rfl⟩ hempty
      | fullQue => exact out_of_notified hran (Or.inr hnone) nofun ⟨rfl, rfl, rfl⟩ hfullQue

theorem Valid.wake [Fintype T] (h : Valid sizeMax c) (hact : program.act c (.wake t) = some u) :
    Valid sizeMax u := by
  have hwoke := Threads.act_woke hact
  constructor
  case holds => exact (outline sizeMax).act h.holds (allows_true c _) hact
  case exclusive => exact disciplined.act h.exclusive hact
  case emptied =>
    intro v hv
    rw [hwoke.loc] at hv
    exact (h.emptied v hv).wake hact
  case quit =>
    intro hreturned cv
    rw [hwoke.shared] at hreturned
    exact (h.quit hreturned cv).wake hact
  case finished =>
    intro hreturned cv
    rw [hwoke.shared] at hreturned
    exact (h.finished hreturned cv).wake hact

variable [Fintype T]

instance (c : Config T Cond (Loc α) (State α)) (l : Loc α) : Decidable (NotifiesInTime c l) :=
  match l with
  | .quitEmpty => inferInstanceAs (Decidable (∀ v, (c.loc v).waits c.shared .empty = false))
  | .quitFull => inferInstanceAs (Decidable (∀ v, (c.loc v).waits c.shared .fullQue = false))
  | .finishedEmpty => inferInstanceAs (Decidable (_ ∧ _ ∧ ∀ _, _ = false))
  | .idle | .push _ | .pushFinished _ | .pushBody _ | .pushed .. | .pop _ | .popCheck _
  | .popFinished _ | .popWait _ | .popped .. | .quit | .finished => .isTrue trivial

instance (c : Config T Cond (Loc α) (State α)) (b : Move T (Call α)) : Decidable (InTime c b) :=
  match b with
  | .run t _ _ => inferInstanceAs (Decidable (NotifiesInTime c (c.loc t)))
  | .wake _ => .isTrue trivial

theorem run_released (sizeMax : Nat) (acts : List (Move T (Call α)))
    (hok : Meets program.act InTime acts (new sizeMax))
    (hrun : exec program.act acts (new sizeMax) = some c) : Released c := by
  have h : Valid sizeMax c := by
    apply exec_invariant _ (valid_new sizeMax) hok hrun
    intro s b u hs hb hact
    cases b with
    | run t call pick => exact hs.run hb hact
    | wake t => exact hs.wake hact
  constructor
  case quit => exact fun hreturned cv v => (h.quit hreturned cv v).1
  case producers => exact fun hreturned v => (h.finished hreturned .fullQue v).1
  case consumers => exact fun hreturned _ v => (h.finished hreturned .empty v).1

/-- A consumer sleeps on the empty queue until `finished` notifies it. -/
theorem run_released_finished : ∃ c, exec program.act
    [.run 0 (.pop 0) none, .run 0 .quit none, .run 0 .quit none, .run 0 .quit none,
      .run 0 .quit none, .run 1 .finished none, .run 1 .quit none, .run 1 .quit none,
      .run 0 .quit none, .run 0 .quit none, .run 0 .quit none]
    (new 1 : Config (Fin 2) Cond (Loc Nat) (State Nat)) = some c ∧ Released c :=
  exists_exec (by decide) fun _ hrun => run_released 1 _ (by decide) hrun

/-- A queue of one is full and a producer sleeps when `finished` is called: it notifies the
consumers only. -/
theorem run_parked : ∃ c, exec program.act
    [.run 0 (.push 7) none, .run 0 .quit none, .run 0 .quit none, .run 0 .quit none,
      .run 0 (.push 8) none, .run 0 .quit none, .run 0 .quit none, .run 0 .quit none,
      .run 1 .finished none, .run 1 .quit none, .run 1 .quit none]
    (new 1 : Config (Fin 2) Cond (Loc Nat) (State Nat)) = some c ∧ ¬ Released c :=
  ⟨_, rfl, fun h => absurd (h.producers rfl 0) (by decide)⟩

end Runs

end LanguageTest.SafeQueue
