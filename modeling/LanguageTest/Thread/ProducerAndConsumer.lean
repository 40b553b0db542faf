import LanguageTest.Library.Wakeups
import Mathlib.Data.Fintype.BigOperators

namespace LanguageTest.ProducerAndConsumer
open Transition Monitor

variable {p k : Nat}

inductive Cond where
  | isFull
  | isEmpty
  deriving DecidableEq

/-- The members of the object. What has been printed as produced and as consumed is history, which
no step reads. -/
structure State where
  itemBuff : List Int
  itemId : Int
  produced : List Int
  consumed : List Int

/-- A thread is before its next iteration, or a producer is behind `unlock`. -/
inductive Loc where
  | enter
  | unlocked
  deriving DecidableEq

def mode : Loc → Mode
  | .enter => .entry
  | .unlocked => .outside

/-- The last side effect of `item_id = item_id++ % buffsize` on `item_id`. -/
inductive Last where
  | assignment
  | increment
  deriving DecidableEq

/-- Before C++17 the two side effects are unsequenced, so that the caller says which one is last. -/
def State.push (buffsize : Nat) (last : Last) (s : State) : State :=
  let id := match last with
    | .assignment => s.itemId.tmod buffsize
    | .increment => s.itemId.tmod buffsize + 1
  { s with itemBuff := s.itemBuff ++ [id], itemId := id, produced := s.produced ++ [id] }

def producItem (buffsize : Nat) (last : Last) (s : State) : Effect Cond Loc State :=
  if s.itemBuff.length = buffsize then .sleep s .isFull .enter
  else .go (s.push buffsize last) .unlocked

/-- A consumer that finds the buffer empty notifies a producer before it waits. -/
def consumeItem (s : State) : Effect Cond Loc State :=
  match s.itemBuff with
  | [] => ⟨s, some (.one .isFull), .sleep .isEmpty .enter⟩
  | id :: rest => .go { s with itemBuff := rest, consumed := s.consumed ++ [id] } .enter

/-- The producers and the consumers. -/
def step (buffsize : Nat) (t : Fin p ⊕ Fin k) (l : Loc) (last : Last) (s : State) :
    Option (Effect Cond Loc State) :=
  match t, l with
  | .inl _, .enter => some (producItem buffsize last s)
  | .inl _, .unlocked => some (.notifyAll s .isEmpty .enter)
  | .inr _, .enter => some (consumeItem s)
  | .inr _, .unlocked => none

def program (buffsize : Nat) : Threads (Fin p ⊕ Fin k) Cond Loc Last State := ⟨mode, step buffsize⟩

def init : Config (Fin p ⊕ Fin k) Cond Loc State := ⟨⟨[], 0, [], []⟩, none, fun _ => .ready .enter⟩

/-- The items are consumed in the order in which they were produced, each once. -/
structure Buffered (buffsize : Nat) (s : State) : Prop where
  bound : s.itemBuff.length ≤ buffsize
  order : s.produced = s.consumed ++ s.itemBuff

/-- What a thread can do. -/
inductive Does (buffsize : Nat) (s : State) :
    Fin p ⊕ Fin k → Loc → Effect Cond Loc State → Prop
  | full (i : Fin p) (h : s.itemBuff.length = buffsize) :
    Does buffsize s (.inl i) .enter (.sleep s .isFull .enter)
  | push (i : Fin p) (last : Last) (h : s.itemBuff.length ≠ buffsize) :
    Does buffsize s (.inl i) .enter (.go (s.push buffsize last) .unlocked)
  | notify (i : Fin p) : Does buffsize s (.inl i) .unlocked (.notifyAll s .isEmpty .enter)
  | empty (i : Fin k) (h : s.itemBuff = []) :
    Does buffsize s (.inr i) .enter ⟨s, some (.one .isFull), .sleep .isEmpty .enter⟩
  | pop (i : Fin k) (id : Int) (rest : List Int) (h : s.itemBuff = id :: rest) :
    Does buffsize s (.inr i) .enter
      (.go { s with itemBuff := rest, consumed := s.consumed ++ [id] } .enter)

/-- Nobody waits in vain: while a consumer sleeps, a producer is going to notify it, or the buffer
is empty and a producer is awake to fill it. -/
structure Attended (c : Config (Fin p ⊕ Fin k) Cond Loc State) : Prop where
  announced : c.shared.itemBuff ≠ [] → (∃ t, (c.status t).isAsleep .isEmpty) →
    ∃ i : Fin p, (c.status (.inl i)).runnable = some .unlocked
  awake : c.shared.itemBuff = [] → (∃ t, (c.status t).isAsleep .isEmpty) →
    ∃ i : Fin p, ∃ l, (c.status (.inl i)).runnable = some l

/-- Where the threads can be, and on what they can sleep. -/
structure Placed (c : Config (Fin p ⊕ Fin k) Cond Loc State) : Prop where
  consumers : ∀ i : Fin k, c.loc (.inr i) = .enter
  full : ∀ t, (c.status t).isAsleep .isFull → t.isLeft ∧ c.loc t = .enter
  empty : ∀ t, (c.status t).isAsleep .isEmpty → t.isRight

section
variable {buffsize : Nat} {c u : Config (Fin p ⊕ Fin k) Cond Loc State} {t : Fin p ⊕ Fin k}
  {s : State} {l : Loc} {a : Last} {e : Effect Cond Loc State} {b : Move (Fin p ⊕ Fin k) Last}

theorem step_does (he : (program buffsize).step t l a s = some e) : Does buffsize s t l e := by
  cases t with
  | inl i =>
    cases l with
    | enter =>
      obtain rfl := Option.some.inj he
      unfold producItem
      split_ifs with hfull
      · exact .full i hfull
      · exact .push i a hfull
    | unlocked =>
      obtain rfl := Option.some.inj he
      exact .notify i
  | inr i =>
    cases l with
    | enter =>
      obtain rfl := Option.some.inj he
      unfold consumeItem
      split
      · exact .empty i ‹_›
      · exact .pop i _ _ ‹_›
    | unlocked => cases he

theorem Buffered.step (h : Buffered buffsize s) (he : Does (p := p) (k := k) buffsize s t l e) :
    Buffered buffsize e.shared := by
  cases he with
  | full i | notify i | empty i => exact h
  | push i last hfull =>
    have hlt := lt_of_le_of_ne h.bound hfull
    constructor
    case bound =>
      simp only [Effect.go, State.push, List.length_append, List.length_singleton]
      exact hlt
    case order => simp [Effect.go, State.push, h.order]
  | pop i id rest hbuff =>
    have hbound := h.bound
    rw [hbuff] at hbound
    constructor
    case bound => exact (Nat.le_succ _).trans hbound
    case order => simp [Effect.go, h.order, hbuff]

theorem Placed.act (h : Placed c) (hact : (program buffsize).act c b = some u) : Placed u := by
  cases b with
  | wake t =>
    have hwoke := Threads.act_woke hact
    constructor
    case consumers =>
      intro i
      rw [hwoke.loc]
      exact h.consumers i
    case full =>
      intro v hv
      rw [hwoke.loc]
      exact h.full v (hwoke.asleep hv)
    case empty => exact fun v hv => h.empty v (hwoke.asleep hv)
  | run t a pick =>
    obtain ⟨l, e, he, hran⟩ := Threads.act_ran hact
    have hdoes := step_does he
    have hself := hran.self
    constructor
    case consumers =>
      intro i
      by_cases hi : .inr i = t
      · subst hi
        rw [hran.loc_self]
        cases hdoes <;> rfl
      · rw [hran.loc _ hi]
        exact h.consumers i
    case full =>
      intro v hv
      by_cases hvt : v = t
      · subst hvt
        rw [hself] at hv
        rw [hran.loc_self]
        cases hdoes with
        | full i | empty i => first | exact ⟨rfl, rfl⟩ | cases hv
        | push i last | notify i | pop i => cases hv
      · rw [hran.loc v hvt]
        exact h.full v (hran.asleep v _ hvt hv).1
    case empty =>
      intro v hv
      by_cases hvt : v = t
      · subst hvt
        rw [hself] at hv
        cases hdoes with
        | full i | empty i => first | rfl | cases hv
        | push i last | notify i | pop i => cases hv
      · exact h.empty v (hran.asleep v _ hvt hv).1

/-- When the last consumer goes to sleep, a producer is awake or has just been notified. -/
theorem Placed.awake {i : Fin k} (hp : 0 < p) (h : Placed c) (hu : Placed u)
    (hran : (program buffsize).Ran c (.inr i) l
      ⟨s, some (.one .isFull), .sleep .isEmpty .enter⟩ u) :
    ∃ j : Fin p, ∃ l, (u.status (.inl j)).runnable = some l := by
  rcases hran.one .isFull rfl with ⟨v, -, hasleep, hnotified⟩ | hnone
  · obtain ⟨hleft, -⟩ := h.full v hasleep
    obtain ⟨j, rfl⟩ := Sum.isLeft_iff.mp hleft
    exact ⟨j, _, Status.runnable_of_isNotified hnotified⟩
  · refine ⟨⟨0, hp⟩, _, Status.runnable_of_awake fun cv => ?_⟩
    cases cv with
    | isFull => exact hnone _ nofun
    | isEmpty => exact Bool.eq_false_iff.mpr fun hv => nomatch hu.empty _ hv

/-- A consumer falls asleep while there are items only if a producer is going to notify it. -/
theorem Attended.announced_run (h : Attended c) (hu : Placed u)
    (hran : (program buffsize).Ran c t l e u) (hdoes : Does buffsize c.shared t l e)
    (hbuff : e.shared.itemBuff ≠ []) {v : Fin p ⊕ Fin k} (hv : (u.status v).isAsleep .isEmpty) :
    ∃ i : Fin p, (u.status (.inl i)).runnable = some .unlocked := by
  cases hdoes with
  | full i hfull =>
    have hvt : v ≠ .inl i := by
      rintro rfl
      cases hu.empty _ hv
    obtain ⟨j, hj⟩ := h.announced hbuff ⟨v, (hran.asleep v _ hvt hv).1⟩
    have hji : (.inl j : Fin p ⊕ Fin k) ≠ .inl i := by
      intro heq
      rw [heq, hran.here] at hj
      cases hj
    exact ⟨j, hran.runnable hji hj⟩
  | push i last hfull => exact ⟨i, by rw [hran.self]; rfl⟩
  | notify i =>
    obtain ⟨hvt, -⟩ := hran.asleep_of_go rfl hv
    exact absurd rfl (hran.asleep v _ hvt hv).2
  | empty i hempty => exact absurd hempty hbuff
  | pop i id rest hpop =>
    obtain ⟨hvt, hbefore⟩ := hran.asleep_of_go rfl hv
    obtain ⟨j, hj⟩ := h.announced (hpop ▸ List.cons_ne_nil _ _) ⟨v, hbefore⟩
    exact ⟨j, hran.runnable nofun hj⟩

theorem Attended.awake_run (hbuffsize : 0 < buffsize) (hp : 0 < p) (h : Attended c)
    (hc : Placed c) (hu : Placed u) (hran : (program buffsize).Ran c t l e u)
    (hdoes : Does buffsize c.shared t l e) (hbuff : e.shared.itemBuff = [])
    {v : Fin p ⊕ Fin k} (hv : (u.status v).isAsleep .isEmpty) :
    ∃ i : Fin p, ∃ l, (u.status (.inl i)).runnable = some l := by
  cases hdoes with
  | full i hfull =>
    have hnil : c.shared.itemBuff.length = 0 := congrArg List.length hbuff
    omega
  | push i last hfull => exact absurd hbuff (by simp [Effect.go, State.push])
  | notify i =>
    obtain ⟨hvt, -⟩ := hran.asleep_of_go rfl hv
    exact absurd rfl (hran.asleep v _ hvt hv).2
  | empty i hempty => exact hc.awake hp hu hran
  | pop i id rest hpop =>
    -- it took the last item, and whoever sleeps is going to be notified
    obtain ⟨hvt, hbefore⟩ := hran.asleep_of_go rfl hv
    obtain ⟨j, hj⟩ := h.announced (hpop ▸ List.cons_ne_nil _ _) ⟨v, hbefore⟩
    exact ⟨j, _, hran.runnable nofun hj⟩

theorem Attended.act (hbuffsize : 0 < buffsize) (hp : 0 < p) (h : Attended c) (hc : Placed c)
    (hu : Placed u) (hact : (program buffsize).act c b = some u) : Attended u := by
  cases b with
  | wake t =>
    have hwoke := Threads.act_woke hact
    constructor
    case announced =>
      rintro hbuff ⟨v, hv⟩
      rw [hwoke.shared] at hbuff
      obtain ⟨i, hi⟩ := h.announced hbuff ⟨v, hwoke.asleep hv⟩
      exact ⟨i, hwoke.runnable hi⟩
    case awake =>
      rintro hbuff ⟨v, hv⟩
      rw [hwoke.shared] at hbuff
      obtain ⟨i, l, hi⟩ := h.awake hbuff ⟨v, hwoke.asleep hv⟩
      exact ⟨i, l, hwoke.runnable hi⟩
  | run t a pick =>
    obtain ⟨l, e, he, hran⟩ := Threads.act_ran hact
    constructor
    case announced =>
      rintro hbuff ⟨v, hv⟩
      exact h.announced_run hu hran (step_does he) (hran.shared ▸ hbuff) hv
    case awake =>
      rintro hbuff ⟨v, hv⟩
      exact h.awake_run hbuffsize hp hc hu hran (step_does he) (hran.shared ▸ hbuff) hv

/-- What holds in every state of every run. -/
structure Good (buffsize : Nat) (c : Config (Fin p ⊕ Fin k) Cond Loc State) : Prop where
  free : c.owner = none
  buffered : Buffered buffsize c.shared
  placed : Placed c

theorem Good.act (h : Good buffsize c) (hact : (program buffsize).act c b = some u) :
    Good buffsize u where
  free := Threads.act_free (by intro l; cases l <;> nofun) h.free hact
  buffered := by
    cases b with
    | wake t => exact (Threads.act_woke hact).shared ▸ h.buffered
    | run t a pick =>
      obtain ⟨l, e, he, hran⟩ := Threads.act_ran hact
      exact hran.shared ▸ h.buffered.step (step_does he)
  placed := h.placed.act hact

theorem good_init : Good buffsize (init : Config (Fin p ⊕ Fin k) Cond Loc State) where
  free := rfl
  buffered := ⟨Nat.zero_le _, rfl⟩
  placed := ⟨fun _ => rfl, nofun, nofun⟩

theorem run_good {acts : List (Move (Fin p ⊕ Fin k) Last)}
    (hrun : exec (program buffsize).act acts init = some c) : Good buffsize c :=
  exec_preserves (fun _ _ _ h hact => h.act hact) good_init hrun

theorem run_attended {acts : List (Move (Fin p ⊕ Fin k) Last)} (hbuffsize : 0 < buffsize)
    (hp : 0 < p) (hrun : exec (program buffsize).act acts init = some c) : Attended c := by
  have hboth : Good buffsize c ∧ Attended c :=
    exec_preserves (I := fun c => Good buffsize c ∧ Attended c)
      (fun c b u h hact => ⟨h.1.act hact,
        h.2.act hbuffsize hp h.1.placed (h.1.act hact).placed hact⟩)
      ⟨good_init, fun _ ⟨_, h⟩ => (nomatch h), fun _ ⟨_, h⟩ => (nomatch h)⟩ hrun
  exact hboth.2

/-- A thread that is awake can take its step. -/
theorem Good.enabled (h : Good buffsize c) (hl : (c.status t).runnable = some l) :
    ∃ pick u, (program buffsize).act c (.run t a pick) = some u := by
  obtain ⟨e, he⟩ : ∃ e, (program (p := p) (k := k) buffsize).step t l a c.shared = some e := by
    cases t with
    | inl i => cases l <;> exact ⟨_, rfl⟩
    | inr i =>
      have henter := h.placed.consumers i
      rw [Config.loc, Status.runnable_loc hl] at henter
      subst henter
      exact ⟨_, rfl⟩
  exact Threads.act_enabled_pick hl ⟨fun _ => h.free, fun hin => by cases l <;> cases hin⟩ he

/-- How many steps a thread can take before it falls asleep or an item is produced. A notification
of all counts for the consumers that it wakes. -/
def weight (t : Fin p ⊕ Fin k) (st : Status Cond Loc) : Nat :=
  match t, st.runnable with
  | _, none => 0
  | .inl _, some .enter => 1
  | .inl _, some .unlocked => 2 * k + 2
  | .inr _, some _ => 2

/-- The same for all threads, and a step for each item in the buffer. -/
def toil (c : Config (Fin p ⊕ Fin k) Cond Loc State) : Nat :=
  ∑ t, weight t (c.status t) + c.shared.itemBuff.length

@[simp] theorem weight_producer (i : Fin p) :
    weight (.inl i : Fin p ⊕ Fin k) (.ready .enter) = 1 := rfl

@[simp] theorem weight_unlocked (i : Fin p) :
    weight (.inl i : Fin p ⊕ Fin k) (.ready .unlocked) = 2 * k + 2 := rfl

@[simp] theorem weight_consumer (i : Fin k) :
    weight (.inr i : Fin p ⊕ Fin k) (.ready .enter) = 2 := rfl

@[simp] theorem weight_asleep (t : Fin p ⊕ Fin k) (cv : Cond) :
    weight t (.asleep cv l) = 0 := by
  cases t <;> rfl

theorem weight_of_runnable (hl : (c.status t).runnable = some l) :
    weight t (c.status t) = weight t (.ready l) := by
  unfold weight
  rw [hl]
  rfl

theorem weight_le (i : Fin k) (st : Status Cond Loc) :
    weight (.inr i : Fin p ⊕ Fin k) st ≤ 2 := by
  unfold weight
  cases st.runnable <;> simp

/-- What the notification of all consumers adds. -/
theorem Placed.notify_all_le (h : Placed c) {pick : Option (Fin p ⊕ Fin k)}
    {status : Fin p ⊕ Fin k → Status Cond Loc}
    (hstatus : deliver c.status pick (some (.all .isEmpty)) = some status) :
    ∑ t, weight t (status t) ≤ ∑ t, weight t (c.status t) + 2 * k := by
  have hle := deliver_all_sum_le (f := weight) (r := Sum.elim (fun _ => 0) fun _ => 2) ?_ hstatus
  · simpa [Fintype.sum_sum_type, Nat.mul_comm] using hle
  · intro v
    cases v with
    | inl i =>
      have hno : (c.status (.inl i)).isAsleep .isEmpty = false :=
        Bool.eq_false_iff.mpr fun hv => nomatch h.empty _ hv
      rw [Status.notify_of_not_asleep hno]
      exact le_rfl
    | inr i => exact (weight_le i _).trans (Nat.le_add_left _ _)

theorem Placed.notify_one_le (h : Placed c) {pick : Option (Fin p ⊕ Fin k)}
    {status : Fin p ⊕ Fin k → Status Cond Loc}
    (hstatus : deliver c.status pick (some (.one .isFull)) = some status) :
    ∑ t, weight t (status t) ≤ ∑ t, weight t (c.status t) + 1 := by
  refine deliver_one_sum_le (f := weight) (fun v hv => ?_) hstatus
  obtain ⟨hleft, hloc⟩ := h.full v hv
  obtain ⟨i, rfl⟩ := Sum.isLeft_iff.mp hleft
  have hloc : (c.status (.inl i)).loc = .enter := hloc
  rw [Status.notify_of_asleep hv, hloc]
  exact Nat.le_add_left _ _

theorem Placed.toil_run (h : Placed c) {pick : Option (Fin p ⊕ Fin k)}
    (hact : (program buffsize).act c (.run t a pick) = some u) :
    toil u + (2 * k + 3) * c.shared.produced.length + 1 ≤
      toil c + (2 * k + 3) * u.shared.produced.length := by
  obtain ⟨l, e, status, hl, he, hstatus, hshared, hsum⟩ := Threads.act_sum weight hact
  rw [weight_of_runnable hl] at hsum
  unfold toil
  rw [hshared]
  cases step_does he with
  | full i hfull =>
    obtain rfl := Option.some.inj hstatus
    simp only [Effect.sleep, Next.status, weight_producer, weight_asleep] at hsum ⊢
    omega
  | push i last hfull =>
    obtain rfl := Option.some.inj hstatus
    simp only [Effect.go, Next.status, weight_producer, weight_unlocked, State.push,
      List.length_append, List.length_singleton, Nat.mul_add] at hsum ⊢
    omega
  | notify i =>
    have hnotified := h.notify_all_le hstatus
    simp only [Effect.notifyAll, Next.status, weight_producer, weight_unlocked] at hsum ⊢
    omega
  | empty i hempty =>
    have hnotified := h.notify_one_le hstatus
    simp only [Next.status, weight_consumer, weight_asleep] at hsum ⊢
    omega
  | pop i id rest hpop =>
    obtain rfl := Option.some.inj hstatus
    simp only [Effect.go, Next.status, weight_consumer, hpop, List.length_cons] at hsum ⊢
    omega

theorem Placed.toil_wake (h : Placed c) (hact : (program buffsize).act c (.wake t) = some u) :
    toil u ≤ toil c + 2 := by
  have hwoke := Threads.act_woke hact
  have hsum := hwoke.sum weight
  have hle : weight t (.ready (c.loc t)) ≤ 2 := by
    obtain ⟨cv, hasleep⟩ := hwoke.here
    cases t with
    | inr i => exact weight_le i _
    | inl i =>
      have henter : c.loc (.inl i) = .enter := by
        cases cv with
        | isFull => exact (h.full _ hasleep).2
        | isEmpty => cases h.empty _ hasleep
      rw [henter, weight_producer]
      exact Nat.le_succ 1
  unfold toil
  rw [hwoke.shared]
  omega

/-- A producer fills the buffer and is asleep when the consumer comes, who takes the item, finds the
buffer empty and wakes it. -/
def sample : List (Move (Fin 1 ⊕ Fin 1) Last) :=
  let producer := .inl ⟨0, Nat.one_pos⟩
  let consumer := .inr ⟨0, Nat.one_pos⟩
  [.run producer .increment none, .run producer .assignment none, .run producer .assignment none,
    .run consumer .assignment none, .run consumer .assignment (some producer)]

/-- In every state the buffer holds no more than its size, and what has been consumed and what is in
it are what has been produced, in the same order. -/
theorem buffered (p k buffsize : Nat) (acts : List (Move (Fin p ⊕ Fin k) Last))
    (c : Config (Fin p ⊕ Fin k) Cond Loc State)
    (hrun : exec (program buffsize).act acts init = some c) : Buffered buffsize c.shared :=
  (run_good hrun).buffered

theorem buffered_sample : ∃ c, exec (program 1).act sample init = some c ∧ Buffered 1 c.shared :=
  exists_exec (by decide) fun c hc => buffered 1 1 1 sample c hc

/-- Some thread can always go on, although a producer is notified only when the buffer is empty. -/
theorem goes_on (p k buffsize : Nat) (hp : 0 < p) (hk : 0 < k) (hbuffsize : 0 < buffsize)
    (acts : List (Move (Fin p ⊕ Fin k) Last)) (c : Config (Fin p ⊕ Fin k) Cond Loc State)
    (hrun : exec (program buffsize).act acts init = some c) :
    ∀ last, ∃ t pick u, (program buffsize).act c (.run t last pick) = some u := by
  intro last
  have h := run_good hrun
  have hattended := run_attended hbuffsize hp hrun
  let t : Fin p ⊕ Fin k := .inr ⟨0, hk⟩
  by_cases hawake : ∀ cv, (c.status t).isAsleep cv = false
  · exact ⟨t, h.enabled (Status.runnable_of_awake hawake)⟩
  · obtain ⟨cv, hcv⟩ := not_forall.mp hawake
    have hasleep := Bool.eq_true_of_not_eq_false hcv
    cases cv with
    | isFull => cases (h.placed.full t hasleep).1
    | isEmpty =>
      by_cases hbuff : c.shared.itemBuff = []
      · obtain ⟨i, l, hl⟩ := hattended.awake hbuff ⟨t, hasleep⟩
        exact ⟨.inl i, h.enabled hl⟩
      · obtain ⟨i, hl⟩ := hattended.announced hbuff ⟨t, hasleep⟩
        exact ⟨.inl i, h.enabled hl⟩

theorem goes_on_sample : ∃ c : Config (Fin 1 ⊕ Fin 1) Cond Loc State,
    exec (program 1).act sample init = some c ∧
      ∀ last, ∃ t pick u, (program 1).act c (.run t last pick) = some u :=
  exists_exec (by decide) fun c hc =>
    goes_on 1 1 1 Nat.one_pos Nat.one_pos Nat.one_pos sample c hc

/-- Only so many steps lie between one item and the next: the waits and notifications do not go on
without an item being produced. -/
theorem steps_le (p k buffsize : Nat) (acts : List (Move (Fin p ⊕ Fin k) Last))
    (c : Config (Fin p ⊕ Fin k) Cond Loc State)
    (hrun : exec (program buffsize).act acts init = some c) :
    acts.length ≤
      p + 2 * k + (2 * k + 3) * c.shared.produced.length + 3 * acts.countP Move.isWake := by
  have hle := exec_length_add_le (I := Good buffsize) toil
    (fun c => (2 * k + 3) * c.shared.produced.length) Move.isWake 3 (fun c b u h hact => ?_)
    good_init hrun
  · have htoil : toil (init : Config (Fin p ⊕ Fin k) Cond Loc State) = p + 2 * k := by
      simp [toil, init, Fintype.sum_sum_type, Nat.mul_comm]
    rw [htoil] at hle
    exact (Nat.le_add_right _ _).trans ((Nat.le_add_right _ _).trans hle)
  · refine ⟨h.act hact, ?_⟩
    cases b with
    | run t a pick => exact h.placed.toil_run hact
    | wake t =>
      have hwake := h.placed.toil_wake hact
      rw [(Threads.act_woke hact).shared, Move.isWake, if_pos rfl]
      omega

theorem steps_le_sample : ∃ c : Config (Fin 1 ⊕ Fin 1) Cond Loc State,
    exec (program 1).act sample init = some c ∧
      sample.length ≤
        1 + 2 * 1 + (2 * 1 + 3) * c.shared.produced.length + 3 * sample.countP Move.isWake :=
  exists_exec (by decide) fun c hc => steps_le 1 1 1 sample c hc

end

end LanguageTest.ProducerAndConsumer
