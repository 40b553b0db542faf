import LanguageTest.Library.Wakeups
import Mathlib.Data.Fintype.Sum

namespace LanguageTest.Cargo
open Transition Monitor

variable {n : Nat}

inductive Cond where
  | produce
  | consume
  deriving DecidableEq

/-- The cargo, and what has been printed. -/
structure State where
  cargo : Int
  output : List Int

/-- Every thread is one critical section, which starts anew when a `wait` is over. -/
inductive Loc where
  | enter
  | finished
  deriving DecidableEq

def mode : Loc → Mode
  | .enter => .entry
  | .finished => .outside

def consumer (s : State) : Effect Cond Loc State :=
  if s.cargo = 0 then .sleep s .consume .enter
  else .notifyOne ⟨0, s.output ++ [s.cargo]⟩ .produce .finished

def producer (id : Int) (s : State) : Effect Cond Loc State :=
  if s.cargo ≠ 0 then .sleep s .produce .enter
  else .notifyOne { s with cargo := id } .consume .finished

/-- The id of a producer. -/
def idOf (i : Fin n) : Int := i + 1

/-- The producers and the consumers, of which `main` starts ten each. -/
def step (t : Fin n ⊕ Fin n) (l : Loc) (_ : Unit) (s : State) : Option (Effect Cond Loc State) :=
  match l, t with
  | .enter, .inl i => some (producer (idOf i) s)
  | .enter, .inr _ => some (consumer s)
  | .finished, _ => none

def program : Threads (Fin n ⊕ Fin n) Cond Loc Unit State := ⟨mode, step⟩

def init : Config (Fin n ⊕ Fin n) Cond Loc State := ⟨⟨0, []⟩, none, fun _ => .ready .enter⟩

/-- The cargo, if there is one. -/
def held (cargo : Int) : List Int := if cargo = 0 then [] else [cargo]

/-- The values so far, in the order in which they were produced. -/
def State.values (s : State) : List Int := s.output ++ held s.cargo

/-- The threads that have finished. -/
def done {n : Nat} (c : Config (Fin n ⊕ Fin n) Cond Loc State)
    (side : Fin n → Fin n ⊕ Fin n) : Finset (Fin n) :=
  Finset.univ.filter fun i => c.loc (side i) = .finished

/-- Every producer that has finished has left its value, and every consumer has printed one. -/
structure HandedOver (c : Config (Fin n ⊕ Fin n) Cond Loc State) : Prop where
  nodup : c.shared.values.Nodup
  mem : ∀ v, v ∈ c.shared.values ↔ ∃ i : Fin n, c.loc (.inl i) = .finished ∧ idOf i = v
  printed : c.shared.output.length = (done c .inr).card

/-- What a thread can do. -/
inductive Does (s : State) : Fin n ⊕ Fin n → Effect Cond Loc State → Prop
  | full (i : Fin n) (h : s.cargo ≠ 0) : Does s (.inl i) (.sleep s .produce .enter)
  | produces (i : Fin n) (h : s.cargo = 0) :
    Does s (.inl i) (.notifyOne { s with cargo := idOf i } .consume .finished)
  | empty (i : Fin n) (h : s.cargo = 0) : Does s (.inr i) (.sleep s .consume .enter)
  | consumes (i : Fin n) (h : s.cargo ≠ 0) :
    Does s (.inr i) (.notifyOne ⟨0, s.output ++ [s.cargo]⟩ .produce .finished)

section
variable {c u : Config (Fin n ⊕ Fin n) Cond Loc State} {t : Fin n ⊕ Fin n} {s : State} {l : Loc}
  {a : Unit} {e : Effect Cond Loc State}

theorem idOf_ne_zero (i : Fin n) : idOf i ≠ 0 := by
  unfold idOf
  omega

theorem idOf_injective : Function.Injective (idOf (n := n)) := by
  intro i j h
  unfold idOf at h
  omega

theorem step_does (he : program.step t l a s = some e) : l = .enter ∧ Does s t e := by
  cases l with
  | finished => cases he
  | enter =>
    refine ⟨rfl, ?_⟩
    cases t <;> obtain rfl := Option.some.inj he
    · unfold producer
      split_ifs with hcargo
      · exact .full _ hcargo
      · exact .produces _ (not_not.mp hcargo)
    · unfold consumer
      split_ifs with hcargo
      · exact .empty _ hcargo
      · exact .consumes _ hcargo

theorem relays_consume : Relays (program (n := n)) .consume (fun s => s.cargo ≠ 0)
    fun t l => t.isRight ∧ l = .enter where
  makes t l a s e he hno hwork := by
    cases (step_does he).2 with
    | full i h => exact absurd h hno
    | produces i h => rfl
    | empty i h => exact absurd hwork hno
    | consumes i h => exact absurd h hno
  takes t l a s e he hrole hwork hstill := by
    cases (step_does he).2 with
    | full i h => cases hrole.1
    | produces i h => cases hrole.1
    | empty i h => exact absurd h hwork
    | consumes i h => exact absurd rfl hstill
  sleeps t l a s e l' he hnext := by
    cases (step_does he).2 with
    | empty i h =>
      cases hnext
      exact ⟨not_not.mpr h, rfl, rfl⟩
    | _ => cases hnext

theorem relays_produce : Relays (program (n := n)) .produce (fun s => s.cargo = 0)
    fun t l => t.isLeft ∧ l = .enter where
  makes t l a s e he hno hwork := by
    cases (step_does he).2 with
    | full i h => exact absurd hwork hno
    | produces i h => exact absurd h hno
    | empty i h => exact absurd h hno
    | consumes i h => rfl
  takes t l a s e he hrole hwork hstill := by
    cases (step_does he).2 with
    | full i h => exact absurd hwork h
    | produces i h => exact absurd hstill (idOf_ne_zero i)
    | empty i h => cases hrole.1
    | consumes i h => cases hrole.1
  sleeps t l a s e l' he hnext := by
    cases (step_does he).2 with
    | full i h =>
      cases hnext
      exact ⟨h, rfl, rfl⟩
    | _ => cases hnext

/-- A thread has one critical section to run. -/
def left : Loc → Nat
  | .enter => 1
  | .finished => 0

theorem program_toils : Toils (program (n := n)) left where
  go t l a s e l' he hnext := by
    obtain ⟨rfl, hdoes⟩ := step_does he
    cases hdoes with
    | full i h | empty i h => cases hnext
    | produces i h | consumes i h =>
      cases hnext
      exact ⟨Nat.one_pos, nofun⟩
  sleep t l a s e cv l' he hnext := by
    obtain ⟨rfl, hdoes⟩ := step_does he
    cases hdoes with
    | full i h | empty i h =>
      cases hnext
      exact ⟨le_rfl, Nat.one_pos, rfl⟩
    | produces i h | consumes i h => cases hnext

theorem HandedOver.same (h : HandedOver c) (hshared : u.shared = c.shared)
    (hloc : ∀ v, u.loc v = c.loc v) : HandedOver u := by
  constructor
  case nodup => exact hshared ▸ h.nodup
  case mem => simpa only [hshared, hloc] using h.mem
  case printed =>
    have hdone : done u .inr = done c .inr := by simp only [done, hloc]
    rw [hshared, hdone]
    exact h.printed

theorem HandedOver.produces {i : Fin n} (h : HandedOver c) (hcargo : c.shared.cargo = 0)
    (hshared : u.shared = { c.shared with cargo := idOf i })
    (hbefore : c.loc (.inl i) = .enter) (hself : u.loc (.inl i) = .finished)
    (hother : ∀ v, v ≠ .inl i → u.loc v = c.loc v) : HandedOver u := by
  have hvalues : c.shared.values = c.shared.output := by
    rw [State.values, held, if_pos hcargo, List.append_nil]
  have hvalues' : u.shared.values = c.shared.output ++ [idOf i] := by
    rw [State.values, hshared, held, if_neg (idOf_ne_zero i)]
  have hmem := h.mem
  rw [hvalues] at hmem
  have hnew : idOf i ∉ c.shared.output := by
    intro hin
    obtain ⟨j, hj, hid⟩ := (hmem _).mp hin
    rw [idOf_injective hid, hbefore] at hj
    cases hj
  constructor
  case nodup =>
    rw [hvalues', ← List.concat_eq_append, List.nodup_concat]
    exact ⟨hnew, hvalues ▸ h.nodup⟩
  case mem =>
    intro v
    rw [hvalues', List.mem_append, List.mem_singleton, hmem]
    constructor
    · rintro (⟨j, hj, rfl⟩ | rfl)
      · have hne : (.inl j : Fin n ⊕ Fin n) ≠ .inl i := by
          rintro heq
          rw [heq, hbefore] at hj
          cases hj
        exact ⟨j, (hother _ hne).trans hj, rfl⟩
      · exact ⟨i, hself, rfl⟩
    · rintro ⟨j, hj, rfl⟩
      by_cases hji : j = i
      · exact Or.inr (congrArg idOf hji)
      · have hne : (.inl j : Fin n ⊕ Fin n) ≠ .inl i := fun heq => hji (Sum.inl.inj heq)
        exact Or.inl ⟨j, (hother _ hne).symm.trans hj, rfl⟩
  case printed =>
    have hdone : done u .inr = done c .inr := by
      apply Finset.filter_congr
      intro j _
      rw [hother (.inr j) nofun]
    rw [hshared, hdone]
    exact h.printed

theorem HandedOver.consumes {i : Fin n} (h : HandedOver c) (hcargo : c.shared.cargo ≠ 0)
    (hshared : u.shared = ⟨0, c.shared.output ++ [c.shared.cargo]⟩)
    (hbefore : c.loc (.inr i) = .enter) (hself : u.loc (.inr i) = .finished)
    (hother : ∀ v, v ≠ .inr i → u.loc v = c.loc v) : HandedOver u := by
  have hvalues : u.shared.values = c.shared.values := by
    simp only [State.values, hshared, held, ↓reduceIte, if_neg hcargo, List.append_nil]
  constructor
  case nodup => exact hvalues ▸ h.nodup
  case mem =>
    intro v
    have hsame (j : Fin n) : u.loc (.inl j) = c.loc (.inl j) := hother _ nofun
    simp only [hvalues, h.mem, hsame]
  case printed =>
    have hdone : done u .inr = insert i (done c .inr) := by
      ext j
      simp only [done, Finset.mem_insert, Finset.mem_filter, Finset.mem_univ, true_and]
      by_cases hj : j = i
      · subst hj
        exact iff_of_true hself (Or.inl rfl)
      · rw [hother (.inr j) fun heq => hj (Sum.inr.inj heq), or_iff_right hj]
    have hnot : i ∉ done c .inr := by
      intro hin
      rw [(Finset.mem_filter.mp hin).2] at hbefore
      cases hbefore
    rw [hdone, Finset.card_insert_of_notMem hnot, ← h.printed, hshared, List.length_append]
    rfl

/-- What holds in every state of every run. -/
structure Good (c : Config (Fin n ⊕ Fin n) Cond Loc State) : Prop where
  free : c.owner = none
  handed : HandedOver c
  produce : Relayed .produce (fun s => s.cargo = 0) (fun t l => t.isLeft ∧ l = .enter) c
  consume : Relayed .consume (fun s => s.cargo ≠ 0) (fun t l => t.isRight ∧ l = .enter) c

theorem HandedOver.act {b : Move (Fin n ⊕ Fin n) Unit} (h : HandedOver c)
    (hact : program.act c b = some u) : HandedOver u := by
  cases b with
  | wake t =>
    have hwoke := Threads.act_woke hact
    exact h.same hwoke.shared hwoke.loc
  | run t a pick =>
    obtain ⟨l, e, he, hran⟩ := Threads.act_ran hact
    obtain ⟨rfl, hdoes⟩ := step_does he
    have hshared := hran.shared
    have hhere := hran.loc_here
    have hself := hran.loc_self
    have hother := hran.loc
    have hstay (hnext : e.next.loc = .enter) (v : Fin n ⊕ Fin n) : u.loc v = c.loc v := by
      by_cases hv : v = t
      · rw [hv, hself, hnext, hhere]
      · exact hother v hv
    cases hdoes with
    | full i hcargo | empty i hcargo => exact h.same hshared (hstay rfl)
    | produces i hcargo => exact h.produces hcargo hshared hhere hself hother
    | consumes i hcargo => exact h.consumes hcargo hshared hhere hself hother

theorem Good.act {b : Move (Fin n ⊕ Fin n) Unit} (h : Good c)
    (hact : program.act c b = some u) : Good u where
  free := Threads.act_free (by intro l; cases l <;> nofun) h.free hact
  handed := h.handed.act hact
  produce := relays_produce.act h.produce hact
  consume := relays_consume.act h.consume hact

theorem good_init : Good (init : Config (Fin n ⊕ Fin n) Cond Loc State) where
  free := rfl
  handed := by
    refine ⟨List.nodup_nil, fun v => ?_, ?_⟩
    · simp [init, State.values, held, Config.loc, Status.loc]
    · simp [init, done, Config.loc, Status.loc]
  produce := ⟨nofun, fun _ ⟨_, h⟩ => nomatch h⟩
  consume := ⟨nofun, fun _ ⟨_, h⟩ => nomatch h⟩

theorem run_good {acts : List (Move (Fin n ⊕ Fin n) Unit)}
    (hrun : exec program.act acts init = some c) : Good c :=
  exec_preserves (fun _ _ _ h hact => h.act hact) good_init hrun

theorem Good.not_runnable (h : Good c) (hstuck : program.Stuck c) (t : Fin n ⊕ Fin n) :
    (c.status t).runnable ≠ some .enter := by
  intro hl
  have hnone := hstuck.step_eq_none hl ⟨fun _ => h.free, nofun⟩ ()
  cases t <;> cases hnone

/-- Who has not finished then, sleeps. -/
theorem Good.asleep (h : Good c) (hstuck : program.Stuck c) {t : Fin n ⊕ Fin n}
    (ht : c.loc t ≠ .finished) : ∃ cv, (c.status t).isAsleep cv := by
  have henter : c.loc t = .enter := by
    cases hloc : c.loc t with
    | enter => rfl
    | finished => exact absurd hloc ht
  by_contra hno
  apply h.not_runnable hstuck t
  rw [Status.runnable_of_awake fun cv => Bool.eq_false_iff.mpr fun hcv => hno ⟨cv, hcv⟩]
  exact congrArg some henter

theorem Good.consumers_finished (h : Good c) (hstuck : program.Stuck c)
    (hcargo : c.shared.cargo ≠ 0) (i : Fin n) : c.loc (.inr i) = .finished := by
  by_contra hi
  obtain ⟨cv, hcv⟩ := h.asleep hstuck hi
  cases cv with
  | produce => cases (h.produce.roles _ hcv).1
  | consume =>
    obtain ⟨t, l, hl, -, rfl⟩ := h.consume.awake hcargo ⟨_, hcv⟩
    exact h.not_runnable hstuck t hl

theorem Good.producers_finished (h : Good c) (hstuck : program.Stuck c)
    (hcargo : c.shared.cargo = 0) (i : Fin n) : c.loc (.inl i) = .finished := by
  by_contra hi
  obtain ⟨cv, hcv⟩ := h.asleep hstuck hi
  cases cv with
  | consume => cases (h.consume.roles _ hcv).1
  | produce =>
    obtain ⟨t, l, hl, -, rfl⟩ := h.produce.awake hcargo ⟨_, hcv⟩
    exact h.not_runnable hstuck t hl

/-- The ids of all producers. -/
def ids (n : Nat) : List Int := (List.finRange n).map idOf

theorem HandedOver.subset (h : HandedOver c) : c.shared.values ⊆ ids n := by
  intro v hv
  obtain ⟨i, -, rfl⟩ := (h.mem v).mp hv
  exact List.mem_map_of_mem (List.mem_finRange i)

theorem HandedOver.length_le (h : HandedOver c) : c.shared.values.length ≤ n := by
  have hle := (List.subperm_of_subset h.nodup h.subset).length_le
  rwa [ids, List.length_map, List.length_finRange] at hle

theorem Good.no_cargo (h : Good c) (hstuck : program.Stuck c) : c.shared.cargo = 0 := by
  by_contra hcargo
  have hdone : done c .inr = Finset.univ :=
    Finset.filter_true_of_mem fun i _ => h.consumers_finished hstuck hcargo i
  have hprinted := h.handed.printed
  rw [hdone, Finset.card_univ, Fintype.card_fin] at hprinted
  -- all consumers have printed a value, and there is one more
  have hle := h.handed.length_le
  rw [State.values, held, if_neg hcargo, List.length_append, hprinted, List.length_singleton] at hle
  exact Nat.not_succ_le_self n hle

/-- A consumer waits, a producer leaves its value, and the consumer prints it. -/
def sample : List (Move (Fin 1 ⊕ Fin 1) Unit) :=
  [.run (.inr 0) () none, .run (.inl 0) () (some (.inr 0)), .run (.inr 0) () none]

/-- In every state the values of the producers that have finished are there, each once: printed, as
many as consumers have finished, or in the cargo. -/
theorem printed_once (n : Nat) (acts : List (Move (Fin n ⊕ Fin n) Unit))
    (c : Config (Fin n ⊕ Fin n) Cond Loc State) (hrun : exec program.act acts init = some c) :
    HandedOver c :=
  (run_good hrun).handed

theorem printed_once_sample : ∃ c, exec program.act sample init = some c ∧ HandedOver c :=
  exists_exec rfl fun c hc => printed_once 1 sample c hc

/-- A single notification is enough: when no thread can go on, all have finished, and every value
has been printed once. -/
theorem stuck_finished (n : Nat) (acts : List (Move (Fin n ⊕ Fin n) Unit))
    (c : Config (Fin n ⊕ Fin n) Cond Loc State) (hrun : exec program.act acts init = some c)
    (hstuck : program.Stuck c) :
    (∀ t, c.loc t = .finished) ∧ c.shared.cargo = 0 ∧ c.shared.output.Perm (ids n) := by
  have h := run_good hrun
  have hcargo := h.no_cargo hstuck
  have hproducers := h.producers_finished hstuck hcargo
  have hvalues : c.shared.values = c.shared.output := by
    rw [State.values, held, if_pos hcargo, List.append_nil]
  have hperm : c.shared.output.Perm (ids n) := by
    have hsubset := h.handed.subset
    have hnodup := h.handed.nodup
    rw [hvalues] at hsubset hnodup
    apply (List.subperm_of_subset hnodup hsubset).antisymm
    apply List.subperm_of_subset ((List.nodup_finRange n).map idOf_injective)
    intro v hv
    obtain ⟨i, -, rfl⟩ := List.mem_map.mp hv
    rw [← hvalues, h.handed.mem]
    exact ⟨i, hproducers i, rfl⟩
  have hlength := hperm.length_eq
  rw [ids, List.length_map, List.length_finRange, h.handed.printed] at hlength
  have hdone : done c .inr = Finset.univ :=
    Finset.eq_univ_of_card _ (hlength.trans (Fintype.card_fin n).symm)
  refine ⟨fun t => ?_, hcargo, hperm⟩
  cases t with
  | inl i => exact hproducers i
  | inr i =>
    have hmem : i ∈ done c .inr := hdone ▸ Finset.mem_univ i
    exact (Finset.mem_filter.mp hmem).2

theorem stuck_finished_sample : ∃ c : Config (Fin 1 ⊕ Fin 1) Cond Loc State,
    exec program.act sample init = some c ∧
      (∀ t, c.loc t = .finished) ∧ c.shared.cargo = 0 ∧ c.shared.output.Perm (ids 1) :=
  ⟨_, rfl, stuck_finished 1 sample _ rfl fun
    | .inl 0, _, _ => rfl
    | .inr 0, _, _ => rfl⟩

/-- Apart from wake-ups without a notification, a run has at most four steps for each pair. -/
theorem run_ends (n : Nat) (acts : List (Move (Fin n ⊕ Fin n) Unit))
    (c : Config (Fin n ⊕ Fin n) Cond Loc State) (hrun : exec program.act acts init = some c) :
    acts.length ≤ 4 * n + 2 * acts.countP Move.isWake := by
  have hle := program_toils.length_le hrun
  have htoil : (init : Config (Fin n ⊕ Fin n) Cond Loc State).toil left = 4 * n := by
    simp [Config.toil, init, Status.toil, left]
    omega
  omega

theorem run_ends_sample : ∃ c, exec program.act sample init = some c ∧
    sample.length ≤ 4 * 1 + 2 * sample.countP Move.isWake :=
  exists_exec rfl fun c hc => run_ends 1 sample c hc

end

end LanguageTest.Cargo
