import LanguageTest.Library.Measures
import LanguageTest.Library.Monitor

namespace LanguageTest.Monitor
open Transition

variable {T C L A S : Type*}

section
variable {st : Status C L} {n : Next C L} {cv : C} {l : L}

theorem Status.runnable_of_isNotified (h : st.isNotified) : st.runnable = some st.loc := by
  cases st with
  | ready l => cases h
  | asleep cv l => cases h
  | notified cv l => rfl

theorem Next.sleep_of_isAsleep [DecidableEq C] (h : n.status.isAsleep cv) :
    ∃ l, n = .sleep cv l := by
  cases n with
  | go l => cases h
  | sleep cv' l =>
    obtain rfl : cv' = cv := of_decide_eq_true h
    exact ⟨l, rfl⟩

end

section
variable [Fintype T] [DecidableEq T] [DecidableEq C] {p : Threads T C L A S}
  {c u : Config T C L S} {t v : T} {l l' : L} {e : Effect C L S} {a : A}

omit [Fintype T] [DecidableEq T] in
/-- Another thread that is awake stays awake, and where it is. -/
theorem Threads.Ran.runnable (h : p.Ran c t l e u) (hv : v ≠ t)
    (hl : (c.status v).runnable = some l') : (u.status v).runnable = some l' := by
  have hloc : (u.status v).loc = l' := (h.loc v hv).trans (Status.runnable_loc hl)
  have hready := h.ready v hv
  have hnotified := h.notified v hv
  cases hstatus : c.status v with
  | asleep cv k => rw [hstatus] at hl; cases hl
  | ready k =>
    rw [hstatus] at hready
    cases hu : u.status v with
    | ready m => rw [hu] at hloc; exact congrArg some hloc
    | asleep cv m => rw [hu] at hready; exact nomatch hready rfl
    | notified cv m => rw [hu] at hready; exact nomatch hready rfl
  | notified cv k =>
    rw [hstatus] at hnotified
    rw [Status.runnable_of_isNotified (hnotified rfl), hloc]

omit [Fintype T] [DecidableEq T] in
theorem Threads.Woke.runnable (h : Woke c t u) (hl : (c.status v).runnable = some l') :
    (u.status v).runnable = some l' := by
  have hv : v ≠ t := by
    rintro rfl
    obtain ⟨cv, hcv⟩ := h.here
    rw [Status.runnable_not_asleep hl] at hcv
    cases hcv
  rw [h.other v hv]
  exact hl

omit [Fintype T] [DecidableEq T] in
/-- A single notification reaches the only other thread. -/
theorem Threads.Ran.awake_of_one (h : p.Ran c t l e u) {cv : C}
    (hsignal : e.signal = some (.one cv)) (hv : v ≠ t) (honly : ∀ w, w ≠ t → w = v) :
    (u.status v).isAsleep cv = false := by
  rcases h.one cv hsignal with ⟨w, hw, -, hnotified⟩ | hnone
  · rw [honly w hw] at hnotified
    exact Status.isNotified_not_asleep hnotified
  · exact hnone v hv

/-- A thread that can run takes its step, and a sleeper is notified if it has to be one. -/
theorem Threads.act_enabled_pick (hl : (c.status t).runnable = some l)
    (hadmits : p.Admits c.owner t l) (he : p.step t l a c.shared = some e) :
    ∃ pick u, p.act c (.run t a pick) = some u := by
  obtain ⟨pick, status, hstatus⟩ : ∃ pick status, deliver c.status pick e.signal = some status := by
    rcases e.signal with _ | (cv | cv)
    · exact ⟨none, _, rfl⟩
    · by_cases hany : ∃ v, (c.status v).isAsleep cv
      · obtain ⟨v, hv⟩ := hany
        exact ⟨some v, _, if_pos hv⟩
      · exact ⟨none, _, if_neg hany⟩
    · exact ⟨none, _, rfl⟩
  exact ⟨pick, _, by simp [act, hl, if_pos hadmits, he, hstatus]; rfl⟩

/-- No thread can take a step. -/
def Threads.Stuck (p : Threads T C L A S) (c : Config T C L S) : Prop :=
  ∀ t a pick, p.act c (.run t a pick) = none

theorem Threads.Stuck.step_eq_none (h : p.Stuck c) (hl : (c.status t).runnable = some l)
    (hadmits : p.Admits c.owner t l) (a : A) : p.step t l a c.shared = none := by
  cases he : p.step t l a c.shared with
  | none => rfl
  | some e =>
    obtain ⟨pick, u, hu⟩ := act_enabled_pick hl hadmits he
    rw [h t a pick] at hu
    cases hu

/-- A single notification is enough for work of a kind: whoever makes some notifies one of those who
wait for it, whoever has the role of doing it takes it or notifies the next, and nobody falls asleep
while it is there. -/
structure Relays (p : Threads T C L A S) (cv : C) (Work : S → Prop) (Role : T → L → Prop) :
    Prop where
  makes : ∀ t l a s e, p.step t l a s = some e → ¬ Work s → Work e.shared →
    e.signal = some (.one cv)
  takes : ∀ t l a s e, p.step t l a s = some e → Role t l → Work s → Work e.shared →
    e.signal = some (.one cv)
  sleeps : ∀ t l a s e l', p.step t l a s = some e → e.next = .sleep cv l' →
    ¬ Work e.shared ∧ Role t l'

/-- While there is work and somebody sleeps, somebody is awake to do it. -/
structure Relayed (cv : C) (Work : S → Prop) (Role : T → L → Prop) (c : Config T C L S) :
    Prop where
  roles : ∀ t, (c.status t).isAsleep cv → Role t (c.loc t)
  awake : Work c.shared → (∃ t, (c.status t).isAsleep cv) →
    ∃ t l, (c.status t).runnable = some l ∧ Role t l

variable {cv : C} {Work : S → Prop} {Role : T → L → Prop} {b : Move T A}

omit [Fintype T] in
theorem Relays.awake_run (h : Relays p cv Work Role) (hc : Relayed cv Work Role c)
    (hran : p.Ran c t l e u) (he : p.step t l a c.shared = some e) (hwork : Work e.shared)
    (hv : (u.status v).isAsleep cv) : ∃ w l, (u.status w).runnable = some l ∧ Role w l := by
  have hvt : v ≠ t := by
    rintro rfl
    rw [hran.self] at hv
    obtain ⟨l', hl'⟩ := Next.sleep_of_isAsleep hv
    exact (h.sleeps v l a c.shared e l' he hl').1 hwork
  have hbefore := (hran.asleep v cv hvt hv).1
  -- a step that notifies wakes somebody, since one is left asleep
  have hone (hsignal : e.signal = some (.one cv)) :
      ∃ w l, (u.status w).runnable = some l ∧ Role w l := by
    rcases hran.one cv hsignal with ⟨w, hw, hasleep, hnotified⟩ | hnone
    · refine ⟨w, _, Status.runnable_of_isNotified hnotified, ?_⟩
      have hloc : (u.status w).loc = c.loc w := hran.loc w hw
      rw [hloc]
      exact hc.roles w hasleep
    · exact absurd hv (Bool.eq_false_iff.mp (hnone v hvt))
  by_cases hwas : Work c.shared
  · obtain ⟨w, l', hl', hrole⟩ := hc.awake hwas ⟨v, hbefore⟩
    by_cases hw : w = t
    · subst hw
      obtain rfl := Option.some.inj (hl'.symm.trans hran.here)
      exact hone (h.takes w l' a c.shared e he hrole hwas hwork)
    · exact ⟨w, l', hran.runnable hw hl', hrole⟩
  · exact hone (h.makes t l a c.shared e he hwas hwork)

theorem Relays.act (h : Relays p cv Work Role) (hc : Relayed cv Work Role c)
    (hact : p.act c b = some u) : Relayed cv Work Role u := by
  cases b with
  | wake t =>
    have hwoke := Threads.act_woke hact
    constructor
    case roles =>
      intro v hv
      rw [hwoke.loc]
      exact hc.roles v (hwoke.asleep hv)
    case awake =>
      rintro hwork ⟨v, hv⟩
      rw [hwoke.shared] at hwork
      obtain ⟨w, l, hl, hrole⟩ := hc.awake hwork ⟨v, hwoke.asleep hv⟩
      exact ⟨w, l, hwoke.runnable hl, hrole⟩
  | run t a pick =>
    obtain ⟨l, e, he, hran⟩ := Threads.act_ran hact
    constructor
    case roles =>
      intro v hv
      by_cases hvt : v = t
      · subst hvt
        rw [hran.self] at hv
        obtain ⟨l', hl'⟩ := Next.sleep_of_isAsleep hv
        rw [hran.loc_self, hl']
        exact (h.sleeps v l a c.shared e l' he hl').2
      · rw [hran.loc v hvt]
        exact hc.roles v (hran.asleep v cv hvt hv).1
    case awake =>
      rintro hwork ⟨v, hv⟩
      exact h.awake_run hc hran he (hran.shared ▸ hwork) hv

end

section Sums

variable [DecidableEq C] {st : Status C L} {l : L} {cv : C}

theorem Status.notify_of_runnable (h : st.runnable = some l) : st.notify cv = st := by
  cases st with
  | ready k => rfl
  | asleep cv' k => cases h
  | notified cv' k => rfl

theorem Status.notify_of_not_asleep (h : st.isAsleep cv = false) : st.notify cv = st := by
  cases st with
  | ready k => rfl
  | asleep cv' k => exact if_neg (of_decide_eq_false h)
  | notified cv' k => rfl

theorem Status.notify_of_asleep (h : st.isAsleep cv) : st.notify cv = .notified cv st.loc := by
  cases st with
  | ready k => cases h
  | asleep cv' k => exact if_pos (of_decide_eq_true h)
  | notified cv' k => cases h

variable [Fintype T] [DecidableEq T] {p : Threads T C L A S} {c u : Config T C L S} {t : T} {a : A}
  {pick : Option T} {status status' : T → Status C L} {f : T → Status C L → Nat}

/-- What a single notification adds to a sum over the threads. -/
theorem deliver_one_sum_le {k : Nat}
    (hf : ∀ v, (status v).isAsleep cv → f v ((status v).notify cv) ≤ f v (status v) + k)
    (h : deliver status pick (some (.one cv)) = some status') :
    ∑ v, f v (status' v) ≤ ∑ v, f v (status v) + k := by
  rcases deliver_one h with ⟨v, hv, rfl⟩ | ⟨rfl, -⟩
  · have hsum := sum_update status f v ((status v).notify cv)
    have hnotify := hf v hv
    omega
  · exact Nat.le_add_right _ _

theorem deliver_all_sum_le {r : T → Nat}
    (hf : ∀ v, f v ((status v).notify cv) ≤ f v (status v) + r v)
    (h : deliver status pick (some (.all cv)) = some status') :
    ∑ v, f v (status' v) ≤ ∑ v, f v (status v) + ∑ v, r v := by
  rw [← Finset.sum_add_distrib]
  apply Finset.sum_le_sum
  intro v _
  rw [deliver_all h v]
  exact hf v

/-- A step changes a sum over the threads by its notification, and for its own thread. -/
theorem Threads.act_sum (f : T → Status C L → Nat) (h : p.act c (.run t a pick) = some u) :
    ∃ l e status, (c.status t).runnable = some l ∧ p.step t l a c.shared = some e ∧
      deliver c.status pick e.signal = some status ∧ u.shared = e.shared ∧
      ∑ v, f v (u.status v) + f t (c.status t) = ∑ v, f v (status v) + f t e.next.status := by
  obtain ⟨l, e, status, hl, -, he, hstatus, rfl⟩ := act_run h
  have hself : status t = c.status t := by
    rcases deliver_status hstatus t with hsame | ⟨cv, -, hsame⟩
    · exact hsame
    · rw [hsame, Status.notify_of_runnable hl]
  exact ⟨l, e, status, hl, he, hstatus, rfl, hself ▸ sum_update status f t e.next.status⟩

theorem Threads.Woke.sum (f : T → Status C L → Nat) (h : Woke c t u) :
    ∑ v, f v (u.status v) + f t (c.status t) =
      ∑ v, f v (c.status v) + f t (.ready (c.loc t)) := by
  have hstatus : u.status = Function.update c.status t (.ready (c.loc t)) := by
    funext v
    by_cases hv : v = t
    · rw [hv, h.self, Function.update_self]
    · rw [h.other v hv, Function.update_of_ne hv]
  rw [hstatus]
  exact sum_update c.status f t (.ready (c.loc t))

end Sums

section Toil

/-- What a thread has left to do, twice over, so that a sleeper has one step less. -/
def Status.toil (w : L → Nat) : Status C L → Nat
  | .ready l => 2 * w l
  | .notified _ l => 2 * w l
  | .asleep _ l => 2 * w l - 1

def Config.toil [Fintype T] (w : L → Nat) (c : Config T C L S) : Nat :=
  ∑ t, (c.status t).toil w

/-- Every step brings its thread further and notifies one sleeper at most, or it is a sleep. -/
structure Toils (p : Threads T C L A S) (w : L → Nat) : Prop where
  go : ∀ t l a s e l', p.step t l a s = some e → e.next = .go l' →
    w l' < w l ∧ ∀ cv, e.signal ≠ some (.all cv)
  sleep : ∀ t l a s e cv l', p.step t l a s = some e → e.next = .sleep cv l' →
    w l' ≤ w l ∧ 0 < w l' ∧ e.signal = none

def Move.isWake : Move T A → Bool
  | .run .. => false
  | .wake _ => true

variable {st : Status C L} {w : L → Nat} {l : L}

theorem Status.toil_of_runnable (h : st.runnable = some l) : st.toil w = 2 * w l := by
  cases st with
  | asleep cv k => cases h
  | ready k => rw [← Option.some.inj h]; rfl
  | notified cv k => rw [← Option.some.inj h]; rfl

variable [Fintype T] [DecidableEq T] [DecidableEq C] {p : Threads T C L A S}
  {c u : Config T C L S} {t : T} {a : A} {b : Move T A}

theorem Status.toil_notify (cv : C) (st : Status C L) :
    (st.notify cv).toil w ≤ st.toil w + 1 := by
  cases st with
  | ready l => exact Nat.le_succ _
  | notified cv' l => exact Nat.le_succ _
  | asleep cv' l =>
    simp only [notify]
    split_ifs
    · simp only [toil]
      omega
    · exact Nat.le_succ _

theorem Toils.run_lt (h : Toils p w) {pick : Option T}
    (hact : p.act c (.run t a pick) = some u) : u.toil w < c.toil w := by
  obtain ⟨l, e, status, hl, he, hstatus, -, hsum⟩ := Threads.act_sum (fun _ => Status.toil w) hact
  have hlater := Status.toil_of_runnable (w := w) hl
  simp only [Config.toil]
  cases hnext : e.next with
  | sleep cv l' =>
    obtain ⟨hle, hpos, hsignal⟩ := h.sleep t l a c.shared e cv l' he hnext
    rw [hsignal] at hstatus
    obtain rfl := Option.some.inj hstatus
    have hafter : e.next.status.toil w = 2 * w l' - 1 := by rw [hnext]; rfl
    omega
  | go l' =>
    obtain ⟨hlt, hall⟩ := h.go t l a c.shared e l' he hnext
    have hone : ∑ v, (status v).toil w ≤ ∑ v, (c.status v).toil w + 1 := by
      rcases hsignal : e.signal with _ | (cv | cv)
      · rw [hsignal] at hstatus
        obtain rfl := Option.some.inj hstatus
        exact Nat.le_succ _
      · rw [hsignal] at hstatus
        exact deliver_one_sum_le (f := fun _ => Status.toil w)
          (fun v _ => Status.toil_notify cv (c.status v)) hstatus
      · exact absurd hsignal (hall cv)
    have hafter : e.next.status.toil w = 2 * w l' := by rw [hnext]; rfl
    omega

theorem toil_wake (hact : p.act c (.wake t) = some u) : u.toil w ≤ c.toil w + 1 := by
  have hwoke := Threads.act_woke hact
  obtain ⟨cv, hasleep⟩ := hwoke.here
  have hsum := hwoke.sum fun _ => Status.toil w
  have hstep : (Status.ready (c.loc t) : Status C L).toil w ≤ (c.status t).toil w + 1 := by
    cases ht : c.status t with
    | ready l => rw [ht] at hasleep; cases hasleep
    | notified cv l => rw [ht] at hasleep; cases hasleep
    | asleep cv l =>
      simp only [Config.loc, ht, Status.loc, Status.toil]
      omega
  simp only [Config.toil]
  omega

/-- Without wake-ups that nobody has asked for, a run comes to its end. -/
theorem Toils.length_le (h : Toils p w) {acts : List (Move T A)}
    (hrun : exec p.act acts c = some u) :
    acts.length + u.toil w ≤ c.toil w + 2 * acts.countP Move.isWake := by
  refine exec_length_le (I := fun _ => True) (Config.toil w) Move.isWake (fun c b u _ hact => ?_)
    trivial hrun
  refine ⟨trivial, ?_⟩
  cases b with
  | run t a pick => exact h.run_lt hact
  | wake t => exact Nat.add_le_add_right (toil_wake hact) 1

end Toil

end LanguageTest.Monitor
