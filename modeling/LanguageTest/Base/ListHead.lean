import LanguageTest.Library.Measures
import LanguageTest.Library.SinglyLinked
import Mathlib.Algebra.BigOperators.Ring.Finset
import Mathlib.Data.Fintype.Fin
import Mathlib.Tactic.Ring

namespace LanguageTest.ListHead
open Transition

variable {n : Nat}

structure Node where
  value : Int
  next : Ptr

/-- In `append`: before the load of `list_head`, before `new`, before an exchange, and before the
assignment behind one that has failed. -/
inductive Loc where
  | load
  | create (oldHead : Ptr)
  | exchange (oldHead : Ptr) (newNode : Addr)
  | relink (oldHead : Ptr) (newNode : Addr)
  | finished
  deriving DecidableEq

/-- In `main`: before the join of a thread, at the tests of the two loops, and behind them. -/
inductive Main where
  | join (i : Nat)
  | print (it : Ptr)
  | cleanup
  | finished
  deriving DecidableEq

/-- An access to a node that is not there is noted in `undefined`. The number of deleted nodes is
history. -/
structure State (n : Nat) where
  heap : Heap Node
  listHead : Ptr
  loc : Fin n → Loc
  main : Main
  output : List Int
  deleted : Nat
  undefined : Bool

/-- A step of a thread, in which the exchange may fail for no reason, or one of `main`. -/
inductive Act (n : Nat) where
  | append (i : Fin n) (spurious : Bool)
  | main

/-- `append` is called with the number of the thread. -/
def valueOf (i : Fin n) : Int := (i : Nat)

def State.goto (s : State n) (i : Fin n) (l : Loc) : State n :=
  { s with loc := Function.update s.loc i l }

def State.fault (s : State n) : State n := { s with undefined := true, main := .finished }

def setNext (a : Addr) (p : Ptr) (s : State n) : State n :=
  match s.heap.cells a with
  | some _ => { s with heap := s.heap.modify a fun node => { node with next := p } }
  | none => s.fault

def append (i : Fin n) (spurious : Bool) (s : State n) : Option (State n) :=
  match s.loc i with
  | .load => some (s.goto i (.create s.listHead))
  | .create oldHead =>
    some ({ s with heap := s.heap.alloc ⟨valueOf i, oldHead⟩ }.goto i
      (.exchange oldHead s.heap.next))
  | .exchange oldHead newNode =>
    if s.listHead = oldHead ∧ spurious = false then
      some ({ s with listHead := some newNode }.goto i .finished)
    else some (s.goto i (.relink s.listHead newNode))
  | .relink oldHead newNode => some ((setNext newNode oldHead s).goto i (.exchange oldHead newNode))
  | .finished => none

def main (s : State n) : Option (State n) :=
  match s.main with
  | .join i =>
    if h : i < n then
      if s.loc ⟨i, h⟩ = .finished then some { s with main := .join (i + 1) } else none
    else some { s with main := .print s.listHead }
  | .print none => some { s with main := .cleanup }
  | .print (some it) =>
    match s.heap.cells it with
    | some node => some { s with output := s.output ++ [node.value], main := .print node.next }
    | none => some s.fault
  | .cleanup =>
    match s.listHead with
    | none => some { s with main := .finished }
    | some it =>
      match s.heap.cells it with
      | some node => some { s with
          listHead := node.next, heap := s.heap.release it, deleted := s.deleted + 1 }
      | none => some s.fault
  | .finished => none

def step (s : State n) : Act n → Option (State n)
  | .append i spurious => append i spurious s
  | .main => main s

/-- The program starts ten threads. -/
def init (n : Nat) : State n := ⟨Heap.empty, none, fun _ => .load, .join 0, [], 0, false⟩

/-- The new node of a thread, from `new` to the exchange. -/
def Loc.node : Loc → Ptr
  | .exchange _ newNode | .relink _ newNode => some newNode
  | .load | .create _ | .finished => none

/-- What a thread knows of its new node. -/
def Owns (heap : Heap Node) (i : Fin n) : Loc → Prop
  | .exchange oldHead newNode => heap.cells newNode = some ⟨valueOf i, oldHead⟩
  | .relink _ newNode => ∃ next, heap.cells newNode = some ⟨valueOf i, next⟩
  | .load | .create _ | .finished => True

/-- The list, with the nodes of the threads that have finished. All other nodes are new ones. -/
structure Linked (heap : Heap Node) (listHead : Ptr) (loc : Fin n → Loc)
    (ys : List (Addr × Int)) : Prop where
  chained : Chained Node.mk heap listHead ys
  nodup : (ys.map Prod.snd).Nodup
  mem : ∀ v, v ∈ ys.map Prod.snd ↔ ∃ i, loc i = .finished ∧ valueOf i = v
  owns : ∀ i, Owns heap i (loc i)
  all : ∀ a, heap.cells a ≠ none → a ∈ ys.map Prod.fst ∨ ∃ i, (loc i).node = some a

/-- What the threads append. -/
def values (n : Nat) : List Int := (List.finRange n).map valueOf

/-- What is known in `main`. -/
def Stage (s : State n) : Prop :=
  match s.main with
  | .join k => s.output = [] ∧ s.deleted = 0 ∧ (∀ i : Fin n, i < k → s.loc i = .finished) ∧
      ∃ ys, Linked s.heap s.listHead s.loc ys
  | .print it => (∀ i, s.loc i = .finished) ∧ s.deleted = 0 ∧ ∃ before after,
      Linked s.heap s.listHead s.loc (before ++ after) ∧ s.output = before.map Prod.snd ∧
        Chained Node.mk s.heap it after
  | .cleanup => (∀ i, s.loc i = .finished) ∧ s.output.Perm (values n) ∧ ∃ ys,
      Chained Node.mk s.heap s.listHead ys ∧ (ys.map Prod.fst).Nodup ∧
        (∀ a, s.heap.cells a ≠ none → a ∈ ys.map Prod.fst) ∧ s.deleted + ys.length = n
  | .finished => (∀ i, s.loc i = .finished) ∧ s.output.Perm (values n) ∧ s.listHead = none ∧
      (∀ a, s.heap.cells a = none) ∧ s.deleted = n

structure Good (s : State n) : Prop where
  undefined : s.undefined = false
  stage : Stage s

/-- What a step of `main` does, with what is known before it. -/
inductive MainStep (s : State n) : State n → Prop where
  | join {k : Nat} (hk : k < n) (main : s.main = .join k) (finished : s.loc ⟨k, hk⟩ = .finished) :
    MainStep s { s with main := .join (k + 1) }
  | joined {k : Nat} (main : s.main = .join k) (finished : ∀ i, s.loc i = .finished)
    (output : s.output = []) : MainStep s { s with main := .print s.listHead }
  | print {before after : List (Addr × Int)} {y : Addr × Int} {next : Ptr}
    (main : s.main = .print (some y.1)) (finished : ∀ i, s.loc i = .finished)
    (linked : Linked s.heap s.listHead s.loc (before ++ y :: after))
    (output : s.output = before.map Prod.snd) (rest : Chained Node.mk s.heap next after) :
    MainStep s { s with output := s.output ++ [y.2], main := .print next }
  | printed {ys : List (Addr × Int)} (main : s.main = .print none)
    (finished : ∀ i, s.loc i = .finished) (deleted : s.deleted = 0)
    (linked : Linked s.heap s.listHead s.loc ys) (output : s.output = ys.map Prod.snd) :
    MainStep s { s with main := .cleanup }
  | delete {y : Addr × Int} {ys : List (Addr × Int)} {next : Ptr} (main : s.main = .cleanup)
    (finished : ∀ i, s.loc i = .finished) (rest : Chained Node.mk s.heap next ys)
    (nodup : ((y :: ys).map Prod.fst).Nodup)
    (all : ∀ a, s.heap.cells a ≠ none → a ∈ (y :: ys).map Prod.fst)
    (length : s.deleted + (ys.length + 1) = n) :
    MainStep s { s with
      listHead := next, heap := s.heap.release y.1, deleted := s.deleted + 1, main := .cleanup }
  | deleted (main : s.main = .cleanup) (finished : ∀ i, s.loc i = .finished)
    (all : ∀ a, s.heap.cells a = none) (length : s.deleted = n) :
    MainStep s { s with listHead := none, main := .finished }

section
variable {heap : Heap Node} {listHead : Ptr} {loc : Fin n → Loc} {ys : List (Addr × Int)}
  {i : Fin n} {l : Loc} {a : Addr} {s u : State n}

theorem valueOf_injective : Function.Injective (valueOf (n := n)) := by
  intro i j h
  exact Fin.ext (Int.ofNat_inj.mp h)

theorem Owns.cell (h : Owns heap i l) (ha : l.node = some a) :
    ∃ next, heap.cells a = some ⟨valueOf i, next⟩ := by
  cases l with
  | exchange oldHead newNode =>
    obtain rfl := Option.some.inj ha
    exact ⟨oldHead, h⟩
  | relink oldHead newNode =>
    obtain rfl := Option.some.inj ha
    exact h
  | load | create | finished => cases ha

/-- A write to another node than its own does not concern a thread. -/
theorem Owns.congr {heap' : Heap Node} (h : Owns heap i l)
    (hcells : ∀ a, l.node = some a → heap'.cells a = heap.cells a) : Owns heap' i l := by
  cases l with
  | exchange oldHead newNode => exact (hcells newNode rfl).trans h
  | relink oldHead newNode =>
    obtain ⟨next, hnext⟩ := h
    exact ⟨next, (hcells newNode rfl).trans hnext⟩
  | load | create | finished => trivial

namespace Linked

/-- The new node of a thread is not in the list, which has the nodes of the others. -/
theorem apart (h : Linked heap listHead loc ys) (ha : (loc i).node = some a) :
    ∀ y ∈ ys, y.1 ≠ a := by
  rintro y hy rfl
  obtain ⟨next, hnext⟩ := h.chained.stored y hy
  obtain ⟨next', hnext'⟩ := (h.owns i).cell ha
  have hvalue : y.2 = valueOf i := by
    rw [hnext] at hnext'
    exact congrArg Node.value (Option.some.inj hnext')
  obtain ⟨j, hj, hid⟩ := (h.mem y.2).mp (List.mem_map_of_mem hy)
  obtain rfl := valueOf_injective (hid.trans hvalue)
  rw [hj] at ha
  cases ha

theorem node_injective (h : Linked heap listHead loc ys) {j : Fin n} (hi : (loc i).node = some a)
    (hj : (loc j).node = some a) : i = j := by
  obtain ⟨next, hnext⟩ := (h.owns i).cell hi
  obtain ⟨next', hnext'⟩ := (h.owns j).cell hj
  rw [hnext] at hnext'
  exact valueOf_injective (congrArg Node.value (Option.some.inj hnext'))

theorem value_notMem (h : Linked heap listHead loc ys) (hi : loc i ≠ .finished) :
    valueOf i ∉ ys.map Prod.snd := by
  intro hmem
  obtain ⟨j, hj, hid⟩ := (h.mem _).mp hmem
  exact hi (valueOf_injective hid ▸ hj)

/-- A thread that has not finished goes on, and has written its own new node at most. -/
theorem moved {heap' : Heap Node} (h : Linked heap listHead loc ys) (hi : loc i ≠ .finished)
    (hl : l ≠ .finished) (howns : Owns heap' i l)
    (hcells : ∀ a, l.node ≠ some a → heap'.cells a = heap.cells a)
    (hnode : ∀ a, (loc i).node = some a → l.node = some a)
    (hnew : ∀ a, l.node = some a → (loc i).node = some a ∨ heap.cells a = none) :
    Linked heap' listHead (Function.update loc i l) ys := by
  have hother (j : Fin n) (hj : j ≠ i) : Function.update loc i l j = loc j :=
    Function.update_of_ne hj ..
  constructor
  case chained =>
    refine h.chained.congr fun y hy => hcells y.1 fun hy' => ?_
    rcases hnew y.1 hy' with hold | hfree
    · exact h.apart hold y hy rfl
    · obtain ⟨next, hnext⟩ := h.chained.stored y hy
      rw [hnext] at hfree
      cases hfree
  case nodup => exact h.nodup
  case mem =>
    intro v
    rw [h.mem]
    constructor
    · rintro ⟨j, hj, rfl⟩
      have hji : j ≠ i := fun heq => hi (heq ▸ hj)
      exact ⟨j, (hother j hji).trans hj, rfl⟩
    · rintro ⟨j, hj, rfl⟩
      by_cases hji : j = i
      · rw [hji, Function.update_self] at hj
        exact absurd hj hl
      · exact ⟨j, (hother j hji).symm.trans hj, rfl⟩
  case owns =>
    intro j
    by_cases hji : j = i
    · rw [hji, Function.update_self]
      exact howns
    · rw [hother j hji]
      refine (h.owns j).congr fun a ha => hcells a fun ha' => ?_
      rcases hnew a ha' with hold | hfree
      · exact hji (h.node_injective ha hold)
      · obtain ⟨next, hnext⟩ := (h.owns j).cell ha
        rw [hnext] at hfree
        cases hfree
  case all =>
    intro a ha
    by_cases hal : l.node = some a
    · exact Or.inr ⟨i, by rw [Function.update_self]; exact hal⟩
    · rw [hcells a hal] at ha
      apply (h.all a ha).imp_right
      rintro ⟨j, hj⟩
      have hji : j ≠ i := fun heq => hal (hnode a (heq ▸ hj))
      exact ⟨j, by rw [hother j hji]; exact hj⟩

/-- An exchange that succeeds puts the new node in front of the list. -/
theorem pushed (h : Linked heap listHead loc ys) (hi : loc i = .exchange listHead a) :
    Linked heap (some a) (Function.update loc i .finished) ((a, valueOf i) :: ys) := by
  have hne : loc i ≠ .finished := by rw [hi]; exact nofun
  have hnode : (loc i).node = some a := by rw [hi]; rfl
  have howns := h.owns i
  rw [hi] at howns
  have hother (j : Fin n) (hj : j ≠ i) : Function.update loc i .finished j = loc j :=
    Function.update_of_ne hj ..
  constructor
  case chained => exact ⟨rfl, listHead, howns, h.chained⟩
  case nodup => exact List.nodup_cons.mpr ⟨h.value_notMem hne, h.nodup⟩
  case mem =>
    intro v
    rw [List.map_cons, List.mem_cons, h.mem]
    constructor
    · rintro (rfl | ⟨j, hj, rfl⟩)
      · exact ⟨i, Function.update_self .., rfl⟩
      · have hji : j ≠ i := fun heq => hne (heq ▸ hj)
        exact ⟨j, (hother j hji).trans hj, rfl⟩
    · rintro ⟨j, hj, rfl⟩
      by_cases hji : j = i
      · exact Or.inl (congrArg valueOf hji)
      · exact Or.inr ⟨j, (hother j hji).symm.trans hj, rfl⟩
  case owns =>
    intro j
    by_cases hji : j = i
    · rw [hji, Function.update_self]
      trivial
    · rw [hother j hji]
      exact h.owns j
  case all =>
    intro b hb
    rw [List.map_cons, List.mem_cons]
    rcases h.all b hb with hys | ⟨j, hj⟩
    · exact Or.inl (Or.inr hys)
    · by_cases hji : j = i
      · rw [hji, hnode] at hj
        exact Or.inl (Or.inl (Option.some.inj hj).symm)
      · exact Or.inr ⟨j, by rw [hother j hji]; exact hj⟩

theorem fst_nodup (h : Linked heap listHead loc ys) : (ys.map Prod.fst).Nodup := by
  refine h.nodup.of_map.map_on fun x hx y hy heq => ?_
  obtain ⟨next, hnext⟩ := h.chained.stored x hx
  obtain ⟨next', hnext'⟩ := h.chained.stored y hy
  rw [heq, hnext'] at hnext
  exact Prod.ext heq (congrArg Node.value (Option.some.inj hnext)).symm

/-- In the end the list has what the threads have appended. -/
theorem perm (h : Linked heap listHead loc ys) (hfinished : ∀ i, loc i = .finished) :
    (ys.map Prod.snd).Perm (values n) := by
  apply (List.perm_ext_iff_of_nodup h.nodup
    ((List.nodup_finRange n).map valueOf_injective)).mpr
  intro v
  rw [h.mem, List.mem_map]
  constructor
  · rintro ⟨i, -, rfl⟩
    exact ⟨i, List.mem_finRange i, rfl⟩
  · rintro ⟨i, -, rfl⟩
    exact ⟨i, hfinished i, rfl⟩

theorem length (h : Linked heap listHead loc ys) (hfinished : ∀ i, loc i = .finished) :
    ys.length = n := by
  have hlength := (h.perm hfinished).length_eq
  rwa [List.length_map, values, List.length_map, List.length_finRange] at hlength

end Linked

/-- A step of a thread: the list stays as it is, or gets one more node. -/
theorem append_linked {spurious : Bool} (h : Linked s.heap s.listHead s.loc ys)
    (hu : append i spurious s = some u) :
    (∃ zs, ys <:+ zs ∧ Linked u.heap u.listHead u.loc zs) ∧ s.loc i ≠ .finished ∧
      u = { s with heap := u.heap, listHead := u.listHead, loc := u.loc } ∧
      ∀ j, j ≠ i → u.loc j = s.loc j := by
  have howns := h.owns i
  have hother (l : Loc) (j : Fin n) (hj : j ≠ i) : Function.update s.loc i l j = s.loc j :=
    Function.update_of_ne hj ..
  unfold append at hu
  cases hloc : s.loc i <;> simp only [hloc] at hu howns
  case load =>
    obtain rfl := Option.some.inj hu
    refine ⟨⟨ys, List.suffix_rfl, ?_⟩, nofun, rfl, hother _⟩
    exact h.moved (by rw [hloc]; nofun) nofun trivial (fun _ _ => rfl) (by rw [hloc]; nofun) nofun
  case create oldHead =>
    obtain rfl := Option.some.inj hu
    refine ⟨⟨ys, List.suffix_rfl, ?_⟩, nofun, rfl, hother _⟩
    refine h.moved (by rw [hloc]; nofun) nofun ?_ ?_ (by rw [hloc]; nofun) ?_
    · exact if_pos rfl
    · intro a ha
      exact if_neg fun heq => ha (congrArg some heq.symm)
    · intro a ha
      rw [← Option.some.inj ha]
      exact Or.inr s.heap.next_fresh
  case exchange oldHead newNode =>
    split_ifs at hu with hsame
    · obtain rfl := Option.some.inj hu
      refine ⟨⟨_, List.suffix_cons _ ys, h.pushed ?_⟩, nofun, rfl, hother _⟩
      rw [hloc, hsame.1]
    · obtain rfl := Option.some.inj hu
      refine ⟨⟨ys, List.suffix_rfl, ?_⟩, nofun, rfl, hother _⟩
      exact h.moved (by rw [hloc]; nofun) nofun ⟨oldHead, howns⟩ (fun _ _ => rfl)
        (by rw [hloc]; exact fun _ ha => ha) (by rw [hloc]; exact fun _ ha => Or.inl ha)
  case relink oldHead newNode =>
    obtain ⟨next, hnext⟩ := howns
    rw [setNext, hnext] at hu
    obtain rfl := Option.some.inj hu
    refine ⟨⟨ys, List.suffix_rfl, ?_⟩, nofun, rfl, hother _⟩
    refine h.moved (by rw [hloc]; nofun) nofun ?_ ?_ (by rw [hloc]; exact fun _ ha => ha)
      (by rw [hloc]; exact fun _ ha => Or.inl ha)
    · have hcell : (s.heap.modify newNode fun node => { node with next := oldHead }).cells newNode =
          some ⟨valueOf i, oldHead⟩ := by
        rw [Heap.modify_cells, if_pos rfl, hnext]
        rfl
      exact hcell
    · intro a ha
      exact if_neg fun heq => ha (congrArg some heq.symm)
  case finished => cases hu

theorem append_good {spurious : Bool} (h : Good s) (hu : append i spurious s = some u) :
    Good u := by
  have hstage := h.stage
  unfold Stage at hstage
  cases hmain : s.main <;> simp only [hmain] at hstage
  case join k =>
    obtain ⟨houtput, hdeleted, hjoined, ys, hys⟩ := hstage
    obtain ⟨⟨zs, -, hzs⟩, hi, hsame, hother⟩ := append_linked hys hu
    rw [hsame]
    refine ⟨h.undefined, ?_⟩
    simp only [Stage, hmain]
    refine ⟨houtput, hdeleted, fun j hj => ?_, zs, hzs⟩
    have hji : j ≠ i := fun heq => hi (heq ▸ hjoined j hj)
    exact (hother j hji).trans (hjoined j hj)
  -- later there is no thread left
  all_goals
    rw [append, hstage.1 i] at hu
    cases hu

theorem main_step (h : Good s) (hu : main s = some u) : MainStep s u := by
  have hstage := h.stage
  unfold Stage at hstage
  unfold ListHead.main at hu
  cases hmain : s.main <;> simp only [hmain] at hstage hu
  case join k =>
    obtain ⟨houtput, -, hjoined, -⟩ := hstage
    split_ifs at hu with hk hfinished
    · obtain rfl := Option.some.inj hu
      exact .join hk hmain hfinished
    · obtain rfl := Option.some.inj hu
      exact .joined hmain (fun j => hjoined j (by omega)) houtput
  case print it =>
    obtain ⟨hfinished, hdeleted, before, after, hys, houtput, hafter⟩ := hstage
    cases after with
    | nil =>
      obtain rfl : it = none := hafter
      obtain rfl := Option.some.inj hu
      rw [List.append_nil] at hys
      exact .printed hmain hfinished hdeleted hys houtput
    | cons y after =>
      obtain ⟨rfl, next, hy, hrest⟩ := hafter
      simp only [hy] at hu
      obtain rfl := Option.some.inj hu
      exact .print hmain hfinished hys houtput hrest
  case cleanup =>
    obtain ⟨hfinished, -, ys, hys, hnodup, hall, hlength⟩ := hstage
    cases ys with
    | nil =>
      have hnone : s.listHead = none := hys
      simp only [hnone] at hu
      obtain rfl := Option.some.inj hu
      refine .deleted hmain hfinished (fun a => ?_) hlength
      by_contra ha
      exact absurd (hall a ha) List.not_mem_nil
    | cons y ys =>
      obtain ⟨hhead, next, hy, hrest⟩ := hys
      simp only [hhead, hy] at hu
      obtain rfl := Option.some.inj hu
      exact .delete hmain hfinished hrest hnodup hall hlength
  case finished => cases hu

theorem main_good (h : Good s) (hu : main s = some u) : Good u := by
  have hstage := h.stage
  refine ⟨?_, ?_⟩
  · cases main_step h hu <;> exact h.undefined
  · cases main_step h hu
    case join k hk hmain hfinished =>
      rw [Stage, hmain] at hstage
      obtain ⟨houtput, hdeleted, hjoined, hlinked⟩ := hstage
      refine ⟨houtput, hdeleted, fun j hj => ?_, hlinked⟩
      rcases Nat.lt_succ_iff_lt_or_eq.mp hj with hlt | heq
      · exact hjoined j hlt
      · have hj' : j = ⟨k, hk⟩ := Fin.ext heq
        rw [hj']
        exact hfinished
    case joined k hmain hfinished houtput =>
      rw [Stage, hmain] at hstage
      obtain ⟨-, hdeleted, -, ys, hys⟩ := hstage
      exact ⟨hfinished, hdeleted, [], ys, hys, houtput, hys.chained⟩
    case print before after y next hmain hfinished hlinked houtput hrest =>
      rw [Stage, hmain] at hstage
      refine ⟨hfinished, hstage.2.1, before ++ [y], after, ?_, ?_, hrest⟩
      · rw [List.append_assoc]
        exact hlinked
      · simp [houtput]
    case printed ys hmain hfinished hdeleted hlinked houtput =>
      refine ⟨hfinished, ?_, ys, hlinked.chained, hlinked.fst_nodup, fun a ha => ?_, ?_⟩
      · simp only [houtput]
        exact hlinked.perm hfinished
      · apply (hlinked.all a ha).resolve_right
        rintro ⟨i, hi⟩
        rw [hfinished i] at hi
        cases hi
      · simp only [hdeleted, hlinked.length hfinished, Nat.zero_add]
    case delete y ys next hmain hfinished hrest hnodup hall hlength =>
      rw [Stage, hmain] at hstage
      rw [List.map_cons, List.nodup_cons] at hnodup
      refine ⟨hfinished, hstage.2.1, ys, ?_, hnodup.2, fun a ha => ?_, ?_⟩
      · refine hrest.congr fun z hz => if_neg fun heq => ?_
        exact hnodup.1 (heq ▸ List.mem_map_of_mem hz)
      · simp only [Heap.release_cells, ne_eq] at ha
        split_ifs at ha with hne
        · exact absurd rfl ha
        · exact (List.mem_cons.mp (hall a ha)).resolve_left hne
      · simp only
        omega
    case deleted hmain hfinished hall hlength =>
      rw [Stage, hmain] at hstage
      exact ⟨hfinished, hstage.2.1, rfl, hall, hlength⟩

theorem step_good {act : Act n} (h : Good s) (hu : step s act = some u) : Good u := by
  cases act with
  | append i spurious => exact append_good h hu
  | main => exact main_good h hu

theorem good_init (n : Nat) : Good (init n) := by
  refine ⟨rfl, rfl, rfl, fun i hi => absurd hi (Nat.not_lt_zero _), [], rfl, List.nodup_nil, ?_,
    fun _ => trivial, fun a ha => absurd rfl ha⟩
  simp [init]

theorem run_good {acts : List (Act n)} (hrun : exec step acts (init n) = some s) : Good s :=
  exec_preserves (fun _ _ _ => step_good) (good_init n) hrun

/-- The steps that a thread has left, and two more when the list has changed behind its back. -/
def Loc.rest (listHead : Ptr) : Loc → Nat
  | .load => 3
  | .create oldHead => 2 + if oldHead = listHead then 0 else 2
  | .exchange oldHead _ => 1 + if oldHead = listHead then 0 else 2
  | .relink oldHead _ => 2 + if oldHead = listHead then 0 else 2
  | .finished => 0

def Loc.pending (l : Loc) : Nat := if l = .finished then 0 else 1

/-- What the threads have left. Whoever finishes can make two more steps necessary for each of the
others. -/
def toil (s : State n) : Nat :=
  ∑ i, (s.loc i).rest s.listHead +
    (∑ i, (s.loc i).pending) * ((∑ i, (s.loc i).pending) - 1)

/-- What `main` has left. -/
def mainRest (s : State n) : Nat :=
  match s.main with
  | .join i => n - i + 2 * n + 3
  | .print _ => n - s.output.length + n + 2
  | .cleanup => n - s.deleted + 1
  | .finished => 0

theorem pending_of_ne (h : l ≠ .finished) : l.pending = 1 := if_neg h

/-- A thread that has not finished goes on. -/
theorem toil_goto {k : Nat} (hhead : u.listHead = s.listHead)
    (hloc : u.loc = Function.update s.loc i l) (hi : s.loc i ≠ .finished) (hl : l ≠ .finished)
    (hrest : l.rest s.listHead + 1 ≤ (s.loc i).rest s.listHead + k) :
    toil u + 1 ≤ toil s + k := by
  have hsum := sum_update s.loc (fun _ => Loc.rest s.listHead) i l
  have hpending := sum_update s.loc (fun _ => Loc.pending) i l
  rw [pending_of_ne hi, pending_of_ne hl] at hpending
  simp only [toil, hhead, hloc, Nat.add_right_cancel hpending]
  omega

theorem toil_finished (h : ∀ i, s.loc i = .finished) : toil s = 0 := by
  have hrest (i : Fin n) : (s.loc i).rest s.listHead = 0 := by rw [h]; rfl
  have hpending (i : Fin n) : (s.loc i).pending = 0 := by rw [h]; rfl
  simp only [toil, hrest, hpending, Finset.sum_const_zero, Nat.zero_mul, Nat.add_zero]

/-- An exchange that succeeds. -/
theorem toil_pushed {oldHead : Ptr} (hi : s.loc i = .exchange oldHead a)
    (hold : s.listHead = oldHead) (hloc : u.loc = Function.update s.loc i .finished) :
    toil u + 1 ≤ toil s := by
  have hne : s.loc i ≠ .finished := by rw [hi]; exact nofun
  have hpending := sum_update s.loc (fun _ => Loc.pending) i .finished
  rw [pending_of_ne hne] at hpending
  have hstale (l : Loc) : l.rest u.listHead ≤ l.rest s.listHead + 2 * l.pending := by
    cases l with
    | load | finished => exact Nat.le_add_right ..
    | create | exchange | relink =>
      simp only [Loc.rest, Loc.pending, reduceCtorEq, ↓reduceIte]
      split_ifs <;> omega
  have hsum : ∑ j, (u.loc j).rest u.listHead + 3 ≤
      ∑ j, ((s.loc j).rest s.listHead + 2 * (s.loc j).pending) := by
    apply sum_add_le (i := i)
    · rw [hloc, Function.update_self, hi, hold]
      simp [Loc.rest, Loc.pending]
    · intro j hj
      rw [hloc, Function.update_of_ne hj]
      exact hstale _
  have hsquare (q : Nat) : (q + 1) * q = q * (q - 1) + 2 * q := by
    cases q with
    | zero => rfl
    | succ q =>
      rw [Nat.add_sub_cancel]
      ring
  have hcount : ∑ j, (s.loc j).pending = ∑ j, (u.loc j).pending + 1 := by
    rw [hloc, hpending]
    rfl
  rw [Finset.sum_add_distrib, ← Finset.mul_sum, hcount] at hsum
  simp only [toil, hcount, Nat.add_sub_cancel, hsquare]
  omega

theorem append_toil {spurious : Bool} (h : Linked s.heap s.listHead s.loc ys)
    (hu : append i spurious s = some u) :
    toil u + 1 ≤ toil s + if spurious = true then 2 else 0 := by
  have howns := h.owns i
  unfold append at hu
  cases hloc : s.loc i <;> simp only [hloc] at hu howns
  case load =>
    obtain rfl := Option.some.inj hu
    refine toil_goto rfl rfl (by rw [hloc]; nofun) nofun ?_
    simp [hloc, Loc.rest]
  case create oldHead =>
    obtain rfl := Option.some.inj hu
    refine toil_goto rfl rfl (by rw [hloc]; nofun) nofun ?_
    simp only [hloc, Loc.rest]
    omega
  case exchange oldHead newNode =>
    split_ifs at hu with hsame
    · obtain rfl := Option.some.inj hu
      exact (toil_pushed hloc hsame.1 rfl).trans (Nat.le_add_right ..)
    · obtain rfl := Option.some.inj hu
      refine toil_goto rfl rfl (by rw [hloc]; nofun) nofun ?_
      simp only [hloc, Loc.rest, ↓reduceIte]
      by_cases hold : oldHead = s.listHead
      · have hspurious : spurious = true := by
          by_contra hno
          exact hsame ⟨hold.symm, Bool.eq_false_iff.mpr hno⟩
        rw [if_pos hold, if_pos hspurious]
      · rw [if_neg hold]
        exact Nat.le_add_right ..
  case relink oldHead newNode =>
    obtain ⟨next, hnext⟩ := howns
    rw [setNext, hnext] at hu
    obtain rfl := Option.some.inj hu
    refine toil_goto rfl rfl (by rw [hloc]; nofun) nofun ?_
    simp only [hloc, Loc.rest]
    omega
  case finished => cases hu

theorem main_rest (h : Good s) (hu : main s = some u) :
    toil u = toil s ∧ mainRest u + 1 ≤ mainRest s := by
  constructor
  · cases main_step h hu
    case delete y ys next hmain hfinished hrest hnodup hall hlength =>
      rw [toil_finished (s := s) hfinished]
      exact toil_finished hfinished
    case deleted hmain hfinished hall hlength =>
      rw [toil_finished (s := s) hfinished]
      exact toil_finished hfinished
    all_goals rfl
  · cases main_step h hu <;> simp only [mainRest, *]
    case join => omega
    case joined =>
      rw [List.length_nil]
      omega
    case print hmain hfinished hlinked houtput hrest =>
      have hlength := hlinked.length hfinished
      simp only [List.length_append, List.length_map, List.length_cons] at hlength ⊢
      omega
    case printed => omega
    case delete => omega
    case deleted => omega

def Act.isSpurious : Act n → Bool
  | .append _ spurious => spurious
  | .main => false

theorem step_toil {act : Act n} (h : Good s) (hu : step s act = some u) :
    toil u + mainRest u + 1 ≤ toil s + mainRest s + if act.isSpurious = true then 2 else 0 := by
  cases act with
  | append i spurious =>
    have hstage := h.stage
    unfold Stage at hstage
    cases hmain : s.main <;> simp only [hmain] at hstage
    case join k =>
      obtain ⟨-, -, -, ys, hys⟩ := hstage
      have hle : toil u + 1 ≤ toil s + if (Act.append i spurious).isSpurious = true then 2 else 0 :=
        append_toil hys hu
      obtain ⟨-, -, hsame, -⟩ := append_linked hys hu
      have hrest : mainRest u = mainRest s := by rw [hsame]; rfl
      omega
    all_goals
      rw [step, append, hstage.1 i] at hu
      cases hu
  | main =>
    obtain ⟨hsame, hlt⟩ := main_rest h hu
    simp only [Act.isSpurious]
    omega

/-- `main` waits only for a thread. -/
theorem main_blocked (h : main s = none) :
    s.main = .finished ∨ ∃ i, s.loc i ≠ .finished := by
  unfold main at h
  cases hmain : s.main <;> simp only [hmain] at h
  case join k =>
    split_ifs at h with hk hfinished
    exact Or.inr ⟨⟨k, hk⟩, hfinished⟩
  case print it =>
    cases it with
    | none => cases h
    | some it => cases hcell : s.heap.cells it <;> simp [hcell] at h
  case cleanup =>
    cases hhead : s.listHead with
    | none => simp [hhead] at h
    | some it => cases hcell : s.heap.cells it <;> simp [hhead, hcell] at h
  case finished => exact Or.inl rfl

theorem append_enabled (h : s.loc i ≠ .finished) : ∃ u, append i false s = some u := by
  unfold append
  cases hloc : s.loc i with
  | load | create | relink => exact ⟨_, rfl⟩
  | exchange oldHead newNode => exact ⟨_, (apply_ite some _ _ _).symm⟩
  | finished => exact absurd hloc h

/-- Two threads, of which the first one finds the list changed. -/
def sample : List (Act 2) :=
  [.append 0 false, .append 0 false, .append 1 false, .append 1 false, .append 1 false,
    .append 0 false, .append 0 false, .append 0 false, .main, .main, .main, .main, .main, .main,
    .main, .main, .main]

/-- In every state of every interleaving the list has one node for each of the threads that have
finished, as long as `main` has not joined them all, and no node is used that is not there. -/
theorem appended_once (n : Nat) (acts : List (Act n)) (s : State n)
    (hrun : exec step acts (init n) = some s) :
    s.undefined = false ∧ ∀ k, s.main = .join k → ∃ ys, Chained Node.mk s.heap s.listHead ys ∧
      (ys.map Prod.snd).Nodup ∧
      ∀ v, v ∈ ys.map Prod.snd ↔ ∃ i : Fin n, s.loc i = .finished ∧ valueOf i = v := by
  obtain ⟨hundefined, hstage⟩ := run_good hrun
  refine ⟨hundefined, fun k hmain => ?_⟩
  simp only [Stage, hmain] at hstage
  obtain ⟨-, -, -, ys, hys⟩ := hstage
  exact ⟨ys, hys.chained, hys.nodup, hys.mem⟩

theorem appended_once_sample : ∃ s, exec step sample (init 2) = some s ∧
    s.undefined = false ∧ ∀ k, s.main = .join k → ∃ ys, Chained Node.mk s.heap s.listHead ys ∧
      (ys.map Prod.snd).Nodup ∧
      ∀ v, v ∈ ys.map Prod.snd ↔ ∃ i : Fin 2, s.loc i = .finished ∧ valueOf i = v :=
  exists_exec rfl fun s hs => appended_once 2 sample s hs

/-- When nobody can take a step any more, `main` has come to its end: it has printed every value
once and deleted every node. -/
theorem stuck_cleaned (n : Nat) (acts : List (Act n)) (s : State n)
    (hrun : exec step acts (init n) = some s) (hstuck : ∀ act, step s act = none) :
    s.main = .finished ∧ s.output.Perm (values n) ∧ s.listHead = none ∧
      (∀ a, s.heap.cells a = none) ∧ s.deleted = n ∧ s.undefined = false := by
  obtain ⟨hundefined, hstage⟩ := run_good hrun
  have hmain : s.main = .finished := by
    rcases main_blocked (hstuck .main) with hmain | ⟨i, hi⟩
    · exact hmain
    · obtain ⟨u, hu⟩ := append_enabled hi
      exact nomatch (hstuck (.append i false)).symm.trans hu
  simp only [Stage, hmain] at hstage
  obtain ⟨-, hperm, hhead, hcells, hdeleted⟩ := hstage
  exact ⟨hmain, hperm, hhead, hcells, hdeleted, hundefined⟩

theorem stuck_cleaned_sample : ∃ s : State 2, exec step sample (init 2) = some s ∧
    s.main = .finished ∧ s.output.Perm (values 2) ∧ s.listHead = none ∧
      (∀ a, s.heap.cells a = none) ∧ s.deleted = 2 ∧ s.undefined = false :=
  ⟨_, rfl, stuck_cleaned 2 sample _ rfl fun
    | .append 0 _ => rfl
    | .append 1 _ => rfl
    | .main => rfl⟩

/-- However the threads get into each other's way, a run comes to an end: an exchange fails only
when another one has succeeded, apart from the failures for no reason. -/
theorem run_length_le (n : Nat) (acts : List (Act n)) (s : State n)
    (hrun : exec step acts (init n) = some s) :
    acts.length ≤ n * (n - 1) + 6 * n + 3 + 2 * acts.countP Act.isSpurious := by
  have hle := exec_length_le (fun s => toil s + mainRest s) Act.isSpurious
    (fun _ _ _ h hu => ⟨step_good h hu, step_toil h hu⟩) (good_init n) hrun
  have htoil : toil (init n) = 3 * n + n * (n - 1) := by
    simp [toil, init, Loc.rest, Loc.pending, Nat.mul_comm]
  have hmain : mainRest (init n) = 3 * n + 3 := by
    simp only [mainRest, init]
    omega
  simp only [htoil, hmain] at hle
  omega

theorem run_length_le_sample : ∃ s, exec step sample (init 2) = some s ∧
    sample.length ≤ 2 * (2 - 1) + 6 * 2 + 3 + 2 * sample.countP Act.isSpurious :=
  exists_exec rfl fun s hs => run_length_le 2 sample s hs

end

end LanguageTest.ListHead
