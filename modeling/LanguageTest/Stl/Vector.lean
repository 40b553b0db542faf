import LanguageTest.Library.Arithmetic
import LanguageTest.Library.Cells
import Mathlib.Tactic.ByContra

namespace LanguageTest.Vector

/-- The members. `endAt` is `_end`, which points into an array. -/
structure Fields where
  size : Int
  capacity : Int
  start : Ptr
  endAt : Ptr × Int
  data : Ptr

abbrev State := Machine Fields (Cells Int)

def construct (n : Nat) (value : Int) : Program State Unit := do
  setObject fun o => { o with size := n, capacity := n }
  let data ← newCells n
  setObject fun o => { o with data := data }
  (List.range n).forM fun i => do writeCell (← getObject).data i value
  setObject fun o => { o with start := o.data }
  setObject fun o => { o with endAt := (o.start, n - 1) }

def reMall : Program State Unit := do
  let o ← getObject
  if o.capacity = o.size then
    let temp ← newCells (← int (2 * o.size)).toNat
    (List.range o.size.toNat).forM fun i => do
      let x ← readCell o.data i
      writeCell temp i x
    delete o.data
    let capacity ← int (2 * o.size)
    setObject fun o =>
      { o with data := temp, start := temp, endAt := (temp, o.size - 1), capacity := capacity }

/-- The variable that is passed by reference: one outside the vector, or an element of it. -/
inductive Arg where
  | outside (v : Int)
  | element (index : Nat)
  deriving DecidableEq

/-- A reference, which is read when it is used. -/
inductive Ref where
  | outside (v : Int)
  | cell (p : Ptr) (index : Nat)

def refer (o : Fields) : Arg → Ref
  | .outside v => .outside v
  | .element index => .cell o.data index

def readRef : Ref → Program State Int
  | .outside v => pure v
  | .cell p index => readCell p index

/-- `*++_end = t; _size++`. -/
def store (t : Ref) : Program State Unit := do
  let x ← readRef t
  setObject fun o => { o with endAt := (o.endAt.1, o.endAt.2 + 1) }
  writeCell (← getObject).endAt.1 (← getObject).endAt.2 x
  let size ← int ((← getObject).size + 1)
  setObject fun o => { o with size := size }

def pushBack (arg : Arg) : Program State Unit := do
  let t := refer (← getObject) arg
  reMall
  store t

/-- `operator[]`, read. -/
def element (index : Nat) : Program State Int := do readCell (← getObject).data index

def start : State := ⟨⟨0, 0, none, (none, 0), none⟩, Heap.empty⟩

/-- The value that the argument has at the time of the call. -/
def Arg.value (items : List Int) : Arg → Int
  | .outside v => v
  | .element index => items.getD index 0

def pushed (arg : Arg) (items : List Int) : Unit × List Int := ((), items ++ [arg.value items])

/-- What is promised of a vector with these contents. -/
structure Sound (s : State) (items : List Int) : Prop where
  contents : ∀ i x, items[i]? = some x → Runs (element i) s fun y t => y = x ∧ t = s
  size : s.object.size = items.length
  capacity : s.object.size ≤ s.object.capacity
  last : s.object.endAt = (s.object.data, s.object.size - 1)

/-- There is room for the element, or the vector can grow and does not hold the argument. -/
def Harmless (arg : Arg) (s : State) : Prop :=
  match arg with
  | .outside _ =>
    s.object.size < s.object.capacity ∨ 0 < s.object.size ∧ IsInt (2 * s.object.size)
  | .element index => s.object.size < s.object.capacity ∧ index < s.object.size

instance (arg : Arg) (s : State) : Decidable (Harmless arg s) := by
  cases arg <;> unfold Harmless <;> infer_instance

/-- The elements are at the start of the array, and the other `k` cells have not been written. -/
structure Stored (a : Addr) (k : Nat) (s : State) (items : List Int) : Prop where
  object : s.object =
    ⟨items.length, (items.length + k : Nat), some a, (some a, items.length - 1), some a⟩
  cells : s.heap.cells a = some (written items (List.replicate k none))
  fits : items.length + k < 2147483648

def Valid (s : State) (items : List Int) : Prop := ∃ a k, Stored a k s items

section
variable {n k index : Nat} {value x v : Int} {s : State} {items : List Int} {a : Addr} {arg : Arg}
  {t : Ref}

theorem runs_construct (hn : n < 2147483648) : Runs (construct n value) start fun _ s =>
    Stored 0 0 s (List.replicate n value) := by
  have hlen : (List.replicate n value).length = n := List.length_replicate
  have hwritten : overwrite (List.replicate n none) 0 (List.replicate n value) =
      written (List.replicate n value) [] := by
    rw [overwrite_start, hlen, List.drop_eq_nil_of_le (by simp)]
  simp only [construct, newCells, runs_bind, runs_setObject, runs_new]
  rw [runs_overwrite (d := List.replicate n none) (k := 0) (a := 0) (List.replicate n value) hlen
    (by simp [start, Heap.empty]) (by simp)]
  · constructor
    case object => simp [overwriteAt, start, Heap.empty]
    case cells => simp [overwriteAt, start, Heap.empty, hwritten]
    case fits => simpa using hn
  · intro i x t hx hobject _ _
    have hvalue : x = value := List.eq_of_mem_replicate (List.mem_of_getElem? hx)
    have hget : getObject t = .ok (t.object, t) := rfl
    rw [bind_eq hget, hobject, hvalue, Nat.zero_add]
    rfl

namespace Stored

theorem runs_reMall_room (h : Stored a (k + 1) s items) {Q : Unit → State → Prop} :
    Runs reMall s Q ↔ Q () s := by
  have hroom : ¬ ((items.length + (k + 1) : Nat) : Int) = (items.length : Int) := by omega
  simp only [reMall, runs_bind, runs_getObject, h.object, if_neg hroom, runs_pure]

theorem isInt_iff : IsInt (2 * (items.length : Int)) ↔ 2 * items.length < 2147483648 := by
  unfold IsInt
  omega

/-- The elements are copied into an array of twice the size, and the old array is deleted. -/
theorem runs_reMall (h : Stored a 0 s items) (hint : IsInt (2 * (items.length : Int))) :
    Runs reMall s fun _ t => t.heap.cells a = none ∧ ∃ b, Stored b items.length t items := by
  have hobject := h.object
  have hfits := isInt_iff.mp hint
  have hnext := s.heap.next_fresh
  have hne : a ≠ s.heap.next := by
    intro heq
    rw [← heq, h.cells] at hnext
    cases hnext
  have hlen : (2 * (items.length : Int)).toNat = 2 * items.length := by omega
  simp only [reMall, runs_bind, runs_getObject, hobject, Nat.add_zero, if_true, runs_int hint,
    newCells, runs_new, Int.toNat_natCast, hlen]
  rw [runs_overwrite (d := List.replicate (2 * items.length) none) (k := 0) (a := s.heap.next)
    items rfl (by simp) (by simp; omega)]
  · have hdrop : (List.replicate (2 * items.length) (none : Option Int)).drop items.length =
        List.replicate items.length none := by
      rw [List.drop_replicate]
      congr 1
      omega
    have hcopied : overwrite (List.replicate (2 * items.length) none) 0 items =
        written items (List.replicate items.length none) := by
      rw [overwrite_start, hdrop]
    simp only [overwriteAt, hcopied, runs_delete, runs_setObject]
    refine ⟨by simp [hne, h.cells], by simp, s.heap.next, ?_, ?_, ?_⟩
    · simp only [Fields.mk.injEq, true_and, and_true]
      omega
    · simp [hne.symm]
    · omega
  · intro i x t hx _ hother _
    have hread : (written items (List.replicate 0 none))[i]? = some (some x) := by
      obtain ⟨hi, -⟩ := List.getElem?_eq_some_iff.mp hx
      rw [getElem?_written hi, hx]
    have hcells : t.heap.cells a = some (written items (List.replicate 0 none)) := by
      rw [hother a hne]
      simp [hne, h.cells]
    rw [bind_eq (readCell_eq hcells hread), Nat.zero_add]

theorem fails_reMall (h : Stored a 0 s items) (hint : ¬ IsInt (2 * (items.length : Int))) :
    Fails reMall s .overflow := by
  apply Runs.fails
  simp only [runs_getObject, h.object, Nat.add_zero, if_true]
  exact (fails_int hint).bind

theorem runs_store (h : Stored a (k + 1) s items) (ht : readRef t s = .ok (x, s)) :
    Runs (store t) s fun _ u => Stored a k u (items ++ [x]) := by
  have hobject := h.object
  have hfits := h.fits
  have hint : IsInt ((items.length : Int) + 1) := by
    constructor <;> omega
  have hwrite : items.length < (written items (List.replicate (k + 1) none)).length := by simp
  have hend : (items.length : Int) - 1 + 1 = items.length := by omega
  simp only [store, runs_bind, runs_of_ok ht, runs_setObject, runs_getObject, hobject, hend]
  refine (runs_writeCell (by exact h.cells) hwrite).mpr ?_
  simp only [runs_int hint]
  constructor
  case object =>
    simp
    omega
  case cells => simp [h.cells, List.replicate_succ, set_written_next]
  case fits =>
    rw [List.length_append, List.length_singleton]
    omega

/-- An array of length 0 does not take an element. -/
theorem fails_store (h : Stored a 0 s []) (ht : readRef t s = .ok (x, s)) :
    Fails (store t) s .outOfRange := by
  have hobject := h.object
  apply Runs.fails
  rw [runs_of_ok ht]
  apply Runs.fails
  simp only [runs_setObject, hobject]
  apply Runs.fails
  simp only [runs_getObject]
  apply Runs.fails
  simp only [runs_getObject]
  apply Fails.bind
  refine fails_writeCell_range (d := []) (by exact h.cells) (Or.inr ?_)
  simp

theorem readRef_element (h : Stored a k s items) (hi : index < items.length) :
    readRef (refer s.object (.element index)) s = .ok (items.getD index 0, s) := by
  have hread : (written items (List.replicate k none))[index]? =
      some (some (items.getD index 0)) := by
    rw [getElem?_written hi, List.getD_eq_getElem?_getD, List.getElem?_eq_getElem hi,
      Option.getD_some]
  rw [refer, h.object]
  exact readCell_eq h.cells hread

theorem fails_readRef_element (h : Stored a k s items) (hi : items.length ≤ index) :
    ∃ f, Fails (readRef (refer s.object (.element index))) s f := by
  rw [refer, h.object]
  by_cases hk : index < items.length + k
  · have hread : (written items (List.replicate k (none : Option Int)))[index]? = some none := by
      obtain ⟨j, rfl⟩ := Nat.exists_eq_add_of_le hi
      rw [getElem?_written_rest, List.getElem?_replicate, if_pos (by omega)]
    exact ⟨_, fails_readCell_unwritten h.cells hread⟩
  · refine ⟨_, fails_readCell_range h.cells (Or.inr ?_)⟩
    rw [length_written, List.length_replicate, Int.toNat_natCast]
    omega

end Stored

theorem Stored.sound (h : Stored a k s items) : Sound s items := by
  have hobject := h.object
  constructor
  case contents =>
    intro i x hi
    have hlt : i < items.length := (List.getElem?_eq_some_iff.mp hi).1
    have hread : (written items (List.replicate k none))[i]? = some (some x) := by
      rw [getElem?_written hlt, hi]
    simp only [element, runs_bind, runs_getObject, hobject, runs_readCell h.cells hread]
    exact ⟨trivial, trivial⟩
  case size => rw [hobject]
  case capacity =>
    simp only [hobject]
    omega
  case last => simp only [hobject]

theorem pushBack_valid (h : Valid s items) (hok : Harmless arg s) :
    Runs (pushBack arg) s fun _ t => Valid t (items ++ [arg.value items]) := by
  obtain ⟨a, k, h⟩ := h
  have hobject := h.object
  simp only [pushBack, runs_bind, runs_getObject]
  cases k with
  | succ k =>
    rw [h.runs_reMall_room]
    have hread : readRef (refer s.object arg) s = .ok (arg.value items, s) := by
      cases arg with
      | outside v => rfl
      | element index =>
        apply h.readRef_element
        have hindex := hok.2
        simp only [hobject] at hindex
        omega
    exact (h.runs_store hread).mono fun _ _ ht => ⟨a, k, ht⟩
  | zero =>
    cases arg with
    | element index =>
      have hroom := hok.1
      simp [hobject] at hroom
    | outside v =>
      simp only [Harmless, hobject, Nat.add_zero, Int.lt_irrefl, false_or] at hok
      obtain ⟨hpos, hint⟩ := hok
      refine (h.runs_reMall hint).mono ?_
      intro _ t ht
      obtain ⟨-, b, hb⟩ := ht
      obtain ⟨j, hj⟩ := Nat.exists_eq_succ_of_ne_zero (show items.length ≠ 0 by omega)
      rw [hj] at hb
      exact (hb.runs_store rfl).mono fun _ _ hu => ⟨b, j, hu⟩

theorem harmless_of_runs (h : Valid s items) {Q : Unit → State → Prop}
    (hruns : Runs (pushBack arg) s Q) : Harmless arg s := by
  obtain ⟨a, k, h⟩ := h
  have hobject := h.object
  by_contra hno
  simp only [pushBack, runs_bind, runs_getObject] at hruns
  cases k with
  | succ k =>
    rw [h.runs_reMall_room] at hruns
    cases arg with
    | outside v =>
      apply hno
      left
      simp only [hobject]
      omega
    | element index =>
      have hindex : items.length ≤ index := by
        by_contra hlt
        apply hno
        simp only [Harmless, hobject]
        omega
      obtain ⟨f, hf⟩ := h.fails_readRef_element hindex
      exact hruns.not_fails hf.bind
  | zero =>
    by_cases hint : IsInt (2 * (items.length : Int))
    · obtain ⟨_, t, ht, hstore⟩ := hruns
      obtain ⟨hdeleted, b, hb⟩ := (runs_of_ok ht).mp (h.runs_reMall hint)
      cases arg with
      | outside v =>
        have hnil : items = [] := by
          by_contra hne
          apply hno
          right
          have hpos := List.length_pos_iff.mpr hne
          simp only [hobject]
          exact ⟨by omega, hint⟩
        subst hnil
        exact hstore.not_fails (hb.fails_store rfl)
      | element index =>
        -- the argument was an element of the array that is deleted
        have hread : Fails (readRef (refer s.object (.element index))) t .dangling := by
          rw [refer, hobject]
          exact fails_readCell_dangling hdeleted
        exact hstore.not_fails hread.bind
    · exact absurd (h.fails_reMall hint) hruns.not_fails

/-- A vector holds what was put into it throughout a run exactly when every call is harmless. -/
theorem run_contents_iff (n : Nat) (hn : n < 2147483648) (value : Int) (args : List Arg) :
    Runs (construct n value) start fun _ s =>
      ((∀ pre, pre <+: args → Runs (runAll pushBack pre) s fun _ t =>
        Sound t (traceAll pushed pre (List.replicate n value)).2) ↔
      StepsMeet pushBack Harmless args s) := by
  refine (runs_construct hn).mono ?_
  intro _ s hs
  symm
  refine StepsMeet.iff_prefixes
    (fun pre _ t => Valid t (traceAll pushed pre (List.replicate n value)).2) args ?_ ?_ ?_
    ⟨0, 0, hs⟩
  · intro pre arg post _ t _ ht hok
    rw [traceAll_append]
    exact pushBack_valid ht hok
  · intro pre arg post _ t _ ht hruns
    exact harmless_of_runs ht hruns
  · intro pre _ t ht
    obtain ⟨a, k, hstored⟩ := ht
    exact hstored.sound

/-- The sample run of the program. -/
theorem run_contents_iff_sample : Runs (construct (9 : Nat) 0) start fun _ s =>
    ((∀ pre, pre <+: [.outside 7] → Runs (runAll pushBack pre) s fun _ t =>
      Sound t (traceAll pushed pre (List.replicate 9 0)).2) ↔
    StepsMeet pushBack Harmless [.outside 7] s) :=
  run_contents_iff 9 (by decide) 0 _

/-- The vector of the sample run, when its own first element is pushed. -/
theorem run_deleted : ¬ Runs (construct (9 : Nat) 0) start fun _ s =>
    ∀ pre, pre <+: [.element 0] → Runs (runAll pushBack pre) s fun _ t =>
      Sound t (traceAll pushed pre (List.replicate 9 0)).2 := by
  intro h
  obtain ⟨_, s, hs, hall⟩ := h
  have hstored := (runs_of_ok hs).mp (runs_construct (n := 9) (by decide))
  have hruns := hall _ List.prefix_rfl
  rw [runAll, runs_bind] at hruns
  have hroom := (harmless_of_runs ⟨0, 0, hstored⟩ hruns).1
  rw [hstored.object] at hroom
  exact absurd hroom (by decide)

end

end LanguageTest.Vector
