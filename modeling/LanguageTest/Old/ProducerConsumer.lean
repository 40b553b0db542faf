import LanguageTest.Library.Arithmetic
import LanguageTest.Library.Monitor
import Mathlib.Data.Fintype.Sum

namespace LanguageTest.ProducerConsumer
open Transition Monitor

variable {P C : Type*}

inductive Cond where
  | con
  deriving DecidableEq

def maxSize : Nat := 10

/-- The buffer and the next id. The ids consumed so far are history, which no step reads. -/
structure State where
  q : List Int
  gId : Int
  consumed : List Int

/-- A thread is before the next iteration of its loop, which is one critical section, or behind an
operation without a meaning: `front()` and `pop()` on an empty buffer, `g_id++` beyond `int`. -/
inductive Loc where
  | iteration
  | undefined
  | overflow
  deriving DecidableEq

def mode : Loc → Mode
  | .iteration => .entry
  | .undefined | .overflow => .outside

def producter (s : State) : Effect Cond Loc State :=
  if s.q.length > maxSize then .sleep s .con .iteration
  else if IsInt (s.gId + 1) then
    .notifyAll { s with q := s.q ++ [s.gId], gId := s.gId + 1 } .con .iteration
  else .go s .overflow

def takeFront (s : State) : Effect Cond Loc State :=
  match s.q with
  | [] => .go s .undefined
  | x :: rest => .notifyAll { s with q := rest, consumed := s.consumed ++ [x] } .con .iteration

def customer (s : State) : Effect Cond Loc State :=
  if s.q.isEmpty then .sleep s .con .iteration else takeFront s

def step (t : P ⊕ C) (l : Loc) (_ : Unit) (s : State) : Option (Effect Cond Loc State) :=
  match l, t with
  | .iteration, .inl _ => some (producter s)
  | .iteration, .inr _ => some (customer s)
  | .undefined, _ | .overflow, _ => none

def program : Threads (P ⊕ C) Cond Loc Unit State := ⟨mode, step⟩

def init : Config (P ⊕ C) Cond Loc State := ⟨⟨[], 1, []⟩, none, fun _ => .ready .iteration⟩

/-- The first ids. -/
def ids (n : Nat) : List Int := (List.range n).map fun i : Nat => (i : Int) + 1

/-- What holds in every state of every run. -/
structure Delivers (c : Config (P ⊕ C) Cond Loc State) : Prop where
  defined : ∀ t, c.loc t ≠ .undefined
  order : c.shared.consumed = ids c.shared.consumed.length
  awake : ¬ ∀ t, (c.status t).isAsleep .con

/-- What is promised in every state. -/
structure Sound (c : Config (P ⊕ C) Cond Loc State) : Prop where
  delivers : Delivers c
  bound : c.shared.q.length ≤ maxSize
  numbered : ∀ t, c.loc t ≠ .overflow

/-- No `Producter` tests the size of the buffer while it is `MAX_SIZE`, and the next id is an
`int`. -/
def Room (t : P ⊕ C) (_ : Loc) (s : State) : Prop :=
  match t with
  | .inl _ => s.q.length ≠ maxSize ∧ IsInt (s.gId + 1)
  | .inr _ => True

instance (t : P ⊕ C) (l : Loc) (s : State) : Decidable (Room t l s) := by
  cases t <;> unfold Room <;> infer_instance

/-- The ids from 1 on are consumed or in the buffer, in this order. -/
structure Numbered (s : State) : Prop where
  gId : s.gId = (s.consumed ++ s.q).length + 1
  order : s.consumed ++ s.q = ids (s.consumed ++ s.q).length

/-- What a thread waits for has not come. -/
def Waits (t : P ⊕ C) (s : State) : Prop :=
  match t with
  | .inl _ => maxSize < s.q.length
  | .inr _ => s.q = []

theorem ids_succ (n : Nat) : ids (n + 1) = ids n ++ [(n : Int) + 1] := by
  simp [ids, List.range_succ]

theorem take_ids {m n : Nat} (h : m ≤ n) : (ids n).take m = ids m := by
  rw [ids, ← List.map_take, List.take_range, Nat.min_eq_left h, ids]

section
variable {s : State} {t : P ⊕ C} {l : Loc} {e : Effect Cond Loc State}

theorem Numbered.producter (h : Numbered s) : Numbered (producter s).shared := by
  unfold ProducerConsumer.producter
  split_ifs with hfull hint
  · exact h
  · have hgId := h.gId
    have horder := h.order
    have happend : s.consumed ++ (s.q ++ [s.gId]) = (s.consumed ++ s.q) ++ [s.gId] := by simp
    constructor
    case gId =>
      simp only [Effect.notifyAll, happend, List.length_append, List.length_singleton] at hgId ⊢
      omega
    case order =>
      have hlen : (s.consumed ++ s.q ++ [s.gId]).length = (s.consumed ++ s.q).length + 1 :=
        List.length_append
      simp only [Effect.notifyAll, happend, hlen, ids_succ, ← horder, ← hgId]
  · exact h

theorem Numbered.takeFront (h : Numbered s) : Numbered (takeFront s).shared := by
  unfold ProducerConsumer.takeFront
  cases hq : s.q with
  | nil => exact h
  | cons x rest =>
    have hgId := h.gId
    have horder := h.order
    rw [hq] at hgId horder
    have happend : s.consumed ++ [x] ++ rest = s.consumed ++ x :: rest := by simp
    constructor
    case gId => simpa only [Effect.notifyAll, happend] using hgId
    case order => simpa only [Effect.notifyAll, happend] using horder

theorem Numbered.step (h : Numbered s) (hstep : step t l () s = some e) : Numbered e.shared := by
  cases l with
  | iteration =>
    cases t with
    | inl p =>
      obtain rfl := Option.some.inj hstep
      exact h.producter
    | inr k =>
      obtain rfl := Option.some.inj hstep
      unfold customer
      split_ifs
      · exact h
      · exact h.takeFront
  | undefined => cases hstep
  | overflow => cases hstep

/-- A customer takes from a buffer that it has found to hold something. -/
theorem step_defined (hstep : step t l () s = some e) : e.next.loc ≠ .undefined := by
  cases l with
  | iteration =>
    cases t with
    | inl p =>
      obtain rfl := Option.some.inj hstep
      unfold producter
      split_ifs <;> nofun
    | inr k =>
      obtain rfl := Option.some.inj hstep
      unfold customer takeFront
      cases hq : s.q with
      | nil => nofun
      | cons x rest => nofun
  | undefined => cases hstep
  | overflow => cases hstep

/-- Whoever changes the buffer notifies all. -/
theorem informs : Informs (program (P := P) (C := C)) .con Waits := by
  intro t l a s e hstep
  cases l with
  | iteration =>
    cases t with
    | inl p =>
      obtain rfl := Option.some.inj hstep
      unfold producter
      split_ifs with hfull hint
      · exact Or.inr ⟨fun _ h => h, Or.inr hfull⟩
      · exact Or.inl ⟨rfl, _, rfl⟩
      · exact Or.inr ⟨fun _ h => h, Or.inl ⟨_, rfl⟩⟩
    | inr k =>
      obtain rfl := Option.some.inj hstep
      unfold customer takeFront
      cases hq : s.q with
      | nil => exact Or.inr ⟨fun _ h => h, Or.inr hq⟩
      | cons x rest => exact Or.inl ⟨rfl, _, rfl⟩
  | undefined => cases hstep
  | overflow => cases hstep

/-- An item that is put into a buffer with room, under a number that is an `int`. -/
theorem step_bound (h : s.q.length ≤ maxSize) (hok : Room t l s)
    (hstep : step t l () s = some e) :
    e.shared.q.length ≤ maxSize ∧ e.next.loc ≠ .overflow := by
  cases l with
  | iteration =>
    cases t with
    | inl p =>
      obtain ⟨hroom, hint⟩ := hok
      obtain rfl := Option.some.inj hstep
      rw [producter, if_neg (Nat.not_lt.mpr h), if_pos hint]
      refine ⟨?_, nofun⟩
      simp only [Effect.notifyAll, List.length_append, List.length_singleton]
      omega
    | inr k =>
      obtain rfl := Option.some.inj hstep
      unfold customer takeFront
      cases hq : s.q with
      | nil =>
        exact ⟨h, nofun⟩
      | cons x rest =>
        rw [hq] at h
        exact ⟨Nat.le_of_succ_le h, nofun⟩
  | undefined => cases hstep
  | overflow => cases hstep

theorem outline : Outline (program (P := P) (C := C)) (fun _ _ _ => True) Numbered
    fun _ l _ => l ≠ .undefined where
  shared _ _ _ _ _ _ h _ hstep := h.step hstep
  thread _ _ _ _ _ _ _ _ hstep := step_defined hstep
  others _ _ _ _ _ _ _ _ _ _ _ _ hl := hl

end

theorem bound_outline : Outline (program (P := P) (C := C)) Room
    (fun s => s.q.length ≤ maxSize) fun _ l _ => l ≠ .overflow where
  shared _ _ _ _ _ hok h _ hstep := (step_bound h hok hstep).1
  thread _ _ _ _ _ hok h _ hstep := (step_bound h hok hstep).2
  others _ _ _ _ _ _ _ _ _ _ _ _ hl := hl

/-- What every step of every run keeps. -/
def Valid (c : Config (P ⊕ C) Cond Loc State) : Prop :=
  Holds Numbered (fun _ l _ => l ≠ .undefined) c ∧ Waiting .con Waits c

/-- What the steps keep that meet the condition. -/
def Bounded (c : Config (P ⊕ C) Cond Loc State) : Prop :=
  Holds (fun s => s.q.length ≤ maxSize) (fun _ l _ => l ≠ .overflow) c

section
variable {c : Config (P ⊕ C) Cond Loc State}

theorem valid_init : Valid (init : Config (P ⊕ C) Cond Loc State) :=
  ⟨⟨⟨rfl, rfl⟩, fun _ => nofun⟩, fun _ => nofun⟩

theorem bounded_init : Bounded (init : Config (P ⊕ C) Cond Loc State) :=
  ⟨Nat.zero_le _, fun _ => nofun⟩

theorem Valid.delivers [Nonempty P] [Nonempty C] (h : Valid c) : Delivers c := by
  obtain ⟨⟨hnumbered, hdefined⟩, hwaiting⟩ := h
  constructor
  case defined => exact hdefined
  case order =>
    have horder := congrArg (List.take c.shared.consumed.length) hnumbered.order
    rwa [List.take_left, take_ids (by simp)] at horder
  case awake =>
    intro hall
    -- the buffer would be too full for the one and empty for the other
    have hfull : maxSize < c.shared.q.length := hwaiting (.inl (Classical.arbitrary P)) (hall _)
    have hempty : c.shared.q = [] := hwaiting (.inr (Classical.arbitrary C)) (hall _)
    rw [hempty] at hfull
    cases hfull

theorem Valid.sound [Nonempty P] [Nonempty C] (h : Valid c) (hb : Bounded c) : Sound c :=
  ⟨h.delivers, hb.1, hb.2⟩

end

section Runs
variable [Fintype P] [DecidableEq P] [Fintype C] [DecidableEq C]
variable {c u : Config (P ⊕ C) Cond Loc State} {b : Move (P ⊕ C) Unit}

theorem Valid.act (h : Valid c) (hact : program.act c b = some u) : Valid u :=
  ⟨outline.act h.1 (allows_true c b) hact, informs.act h.2 hact⟩

/-- The test lets a `Producter` push onto a buffer that holds `MAX_SIZE` items. -/
theorem Bounded.exceeded (h : Bounded c) (hno : ¬ Allows Room c b)
    (hact : program.act c b = some u) : ¬ Sound u := by
  intro hsound
  cases b with
  | wake t => exact hno trivial
  | run t a pick =>
    obtain ⟨l, e, he, hran⟩ := Threads.act_ran hact
    have hbound := h.1
    have hnext := hsound.numbered t
    have hlength := hsound.bound
    rw [hran.loc_self] at hnext
    rw [hran.shared] at hlength
    cases t with
    | inr k => exact hno trivial
    | inl p =>
      cases l with
      | undefined => cases he
      | overflow => cases he
      | iteration =>
        obtain rfl := Option.some.inj he
        have htest : ¬ c.shared.q.length > maxSize := Nat.not_lt.mpr hbound
        by_cases hint : IsInt (c.shared.gId + 1)
        · have hfull : c.shared.q.length = maxSize := by
            by_contra hne
            exact hno ⟨hne, hint⟩
          rw [producter, if_neg htest, if_pos hint] at hlength
          simp only [Effect.notifyAll, List.length_append, List.length_singleton, hfull] at hlength
          exact Nat.not_succ_le_self _ hlength
        · rw [producter, if_neg htest, if_neg hint] at hnext
          exact hnext rfl

theorem run_bounded_iff [Nonempty P] [Nonempty C] (acts : List (Move (P ⊕ C) Unit))
    (hrun : exec program.act acts init = some c) :
    Always program.act Delivers acts (init : Config (P ⊕ C) Cond Loc State) ∧
      (Always program.act Sound acts (init : Config (P ⊕ C) Cond Loc State) ↔
        Meets program.act (Allows Room) acts init) := by
  constructor
  · intro bs v _ hv
    exact (exec_preserves (fun _ _ _ h hact => Valid.act h hact) valid_init hv).delivers
  · exact always_iff_meets (I := fun c => Valid c ∧ Bounded c)
      (fun _ _ _ h hok hact => ⟨h.1.act hact, bound_outline.act h.2 hok hact⟩)
      (fun _ h => h.1.sound h.2) (fun _ _ _ h hno hact => h.2.exceeded hno hact)
      ⟨valid_init, bounded_init⟩ hrun

/-- A customer sleeps until a product is there. -/
theorem run_bounded_iff_one : ∃ c, exec program.act
    [.run (.inr 0) () none, .run (.inl 0) () none, .run (.inl 0) () none, .run (.inr 0) () none]
    (init : Config (Fin 1 ⊕ Fin 1) Cond Loc State) = some c ∧
    Always program.act Sound
      [.run (.inr 0) () none, .run (.inl 0) () none, .run (.inl 0) () none, .run (.inr 0) () none]
      (init : Config (Fin 1 ⊕ Fin 1) Cond Loc State) :=
  exists_exec (by decide) fun _ hrun => (run_bounded_iff _ hrun).2.mpr (by decide)

/-- Eleven products before the first is consumed. -/
theorem run_exceeds : ∃ c, exec program.act (List.replicate 11 (.run (.inl 0) () none))
    (init : Config (Fin 1 ⊕ Fin 1) Cond Loc State) = some c ∧ ¬ Sound c :=
  ⟨_, rfl, fun h => absurd h.bound (by decide)⟩

end Runs

end LanguageTest.ProducerConsumer
