import LanguageTest.Library.Transition
import Mathlib.Algebra.Order.Ring.Int
import Mathlib.Data.Fintype.Card

namespace LanguageTest.Mmap
open Transition

variable {n : Nat}

/-- A child before `fork`, before and behind the read of the counter, and when it has exited. -/
inductive Child where
  | unborn
  | born
  | loaded (interval : Int)
  | exited
  deriving DecidableEq

/-- The parent in one of its two loops, after an error of `fork`, and when it has printed. -/
inductive Parent where
  | fork (count : Nat)
  | wait (count : Nat)
  | failed
  | printed (v : Int)
  deriving DecidableEq

/-- The counter in the shared mapping and where the processes are. -/
structure State (n : Nat) where
  shm : Int
  parent : Parent
  child : Fin n → Child

/-- The children that have exited. -/
def State.exited (s : State n) : Finset (Fin n) :=
  Finset.univ.filter fun i => s.child i = .exited

def State.set (s : State n) (i : Fin n) (c : Child) : State n :=
  { s with child := Function.update s.child i c }

/-- The parent takes a step, in which `fork` may fail, or a child does. -/
inductive Act (n : Nat) where
  | parent (forked : Bool)
  | child (i : Fin n)

/-- The children read the counter and write it back in two steps. -/
def doChild (s : State n) (i : Fin n) : Option (State n) :=
  match s.child i with
  | .born => some (s.set i (.loaded (s.shm + 1)))
  | .loaded interval => some { s.set i .exited with shm := interval }
  | .unborn | .exited => none

/-- `wait` returns once for each child that has exited. -/
def main (s : State n) (forked : Bool) : Option (State n) :=
  match s.parent with
  | .fork count =>
    if h : count < n then
      if forked then some { s.set ⟨count, h⟩ .born with parent := .fork (count + 1) }
      else some { s with parent := .failed }
    else some { s with parent := .wait 0 }
  | .wait count =>
    if count < n then
      if count < s.exited.card then some { s with parent := .wait (count + 1) } else none
    else some { s with parent := .printed s.shm }
  | .failed | .printed _ => none

def step (s : State n) : Act n → Option (State n)
  | .parent forked => main s forked
  | .child i => doChild s i

/-- The source forks a hundred children. -/
def init (n : Nat) : State n := ⟨0, .fork 0, fun _ => .unborn⟩

/-- Updates may get lost, but never come from nowhere. -/
structure Counted (s : State n) : Prop where
  nonneg : 0 ≤ s.shm
  le : s.shm ≤ s.exited.card
  pos : s.exited.Nonempty → 1 ≤ s.shm
  loaded : ∀ i k, s.child i = .loaded k → 1 ≤ k ∧ k ≤ s.exited.card + 1
  unborn : ∀ k, s.parent = .fork k → ∀ i : Fin n, k ≤ i → s.child i = .unborn
  waited : ∀ k, s.parent = .wait k → k ≤ s.exited.card
  printed : ∀ v, s.parent = .printed v → s.shm = v ∧ s.exited = Finset.univ

/-- Some run leads to the state. -/
def Reached (s : State n) : Prop := ∃ acts, exec step acts (init n) = some s

/-- A state in which the children are where their numbers say. -/
def placed (n : Nat) (shm : Int) (parent : Parent) (f : Nat → Child) : State n :=
  ⟨shm, parent, fun i => f i⟩

section
variable {s u : State n} {i j : Fin n} {c : Child} {a : Act n} {k m : Nat}

theorem mem_exited : i ∈ s.exited ↔ s.child i = .exited := by simp [State.exited]

@[simp] theorem set_parent : (s.set i c).parent = s.parent := rfl

@[simp] theorem set_shm : (s.set i c).shm = s.shm := rfl

@[simp] theorem set_child : (s.set i c).child j = if j = i then c else s.child j :=
  Function.update_apply ..

theorem exited_congr (h : ∀ i, u.child i = .exited ↔ s.child i = .exited) :
    u.exited = s.exited := by
  ext i
  rw [mem_exited, mem_exited, h i]

/-- A child that takes a step has been forked. -/
theorem Counted.unborn_set (h : Counted s) (hi : s.child i ≠ .unborn) (hk : s.parent = .fork k)
    (hj : k ≤ j) : (s.set i c).child j = .unborn := by
  have hborn := h.unborn k hk j hj
  rw [set_child, if_neg]
  · exact hborn
  · rintro rfl
    exact hi hborn

theorem Counted.born (h : Counted s) (hi : s.child i = .born) :
    Counted (s.set i (.loaded (s.shm + 1))) := by
  have hexited : (s.set i (.loaded (s.shm + 1))).exited = s.exited := by
    apply exited_congr
    intro j
    rw [set_child]
    split_ifs with hj <;> simp [hj, hi]
  have hle := h.le
  have hnonneg := h.nonneg
  constructor
  case nonneg => exact hnonneg
  case le => exact hexited ▸ hle
  case pos => exact hexited ▸ h.pos
  case loaded =>
    intro j k hj
    rw [hexited]
    rw [set_child] at hj
    split_ifs at hj with hji
    · obtain rfl := Child.loaded.inj hj
      omega
    · exact h.loaded j k hj
  case unborn =>
    intro k hk j hj
    exact h.unborn_set (by rw [hi]; exact Child.noConfusion) hk hj
  case waited => exact hexited ▸ h.waited
  case printed => exact hexited ▸ h.printed

theorem Counted.stored (h : Counted s) {interval : Int} (hi : s.child i = .loaded interval) :
    Counted { s.set i .exited with shm := interval } := by
  have hnot : i ∉ s.exited := by
    rw [mem_exited, hi]
    nofun
  have hexited : State.exited { s.set i .exited with shm := interval } = insert i s.exited := by
    ext j
    rw [mem_exited, Finset.mem_insert, mem_exited, set_child]
    split_ifs with hj <;> simp [hj]
  have hcard : (insert i s.exited).card = s.exited.card + 1 := Finset.card_insert_of_notMem hnot
  obtain ⟨hpos, hle⟩ := h.loaded i interval hi
  constructor
  case nonneg => exact Int.le_of_lt hpos
  case le =>
    rw [hexited, hcard]
    exact hle
  case pos => exact fun _ => hpos
  case loaded =>
    intro j k hj
    rw [hexited, hcard]
    rw [set_child] at hj
    split_ifs at hj with hji
    have hold := h.loaded j k hj
    push_cast
    omega
  case unborn =>
    intro k hk j hj
    exact h.unborn_set (by rw [hi]; exact Child.noConfusion) hk hj
  case waited =>
    intro k hk
    rw [hexited, hcard]
    exact (h.waited k hk).trans (Nat.le_succ _)
  case printed =>
    intro v hv
    rw [(h.printed v hv).2] at hnot
    exact absurd (Finset.mem_univ i) hnot

/-- A step of the parent, which reads the counter in the end. -/
theorem Counted.moved (h : Counted s) (hshm : u.shm = s.shm)
    (hchild : ∀ i, u.child i = s.child i ∨ u.child i = .born ∧ s.child i = .unborn)
    (hunborn : ∀ k, u.parent = .fork k → ∀ i : Fin n, k ≤ i → u.child i = .unborn)
    (hwaited : ∀ k, u.parent = .wait k → k ≤ s.exited.card)
    (hprinted : ∀ v, u.parent = .printed v → s.shm = v ∧ s.exited = Finset.univ) :
    Counted u := by
  have hexited : u.exited = s.exited := by
    apply exited_congr
    intro i
    rcases hchild i with hsame | ⟨hborn, hold⟩
    · rw [hsame]
    · rw [hborn, hold]
      exact iff_of_false nofun nofun
  constructor
  case nonneg => exact hshm ▸ h.nonneg
  case le => exact hexited ▸ hshm ▸ h.le
  case pos => exact hexited ▸ hshm ▸ h.pos
  case loaded =>
    intro i k hi
    rw [hexited]
    rcases hchild i with hsame | ⟨hborn, -⟩
    · exact h.loaded i k (hsame ▸ hi)
    · rw [hborn] at hi
      cases hi
  case unborn => exact hunborn
  case waited => exact hexited ▸ hwaited
  case printed => exact hexited ▸ hshm ▸ hprinted

theorem Counted.main (h : Counted s) {forked : Bool} (hu : main s forked = some u) :
    Counted u := by
  unfold Mmap.main at hu
  cases hparent : s.parent with
  | failed => simp [hparent] at hu
  | printed v => simp [hparent] at hu
  | fork count =>
    simp only [hparent] at hu
    split_ifs at hu with hlt hforked
    · obtain rfl := Option.some.inj hu
      refine h.moved rfl (fun i => ?_) (fun k hk i hi => ?_) nofun nofun
      · simp only [set_child]
        split_ifs with heq
        · exact Or.inr ⟨rfl, h.unborn count hparent i (by simp [heq])⟩
        · exact Or.inl rfl
      · obtain rfl := Parent.fork.inj hk
        have hne : i ≠ ⟨count, hlt⟩ := by
          rintro rfl
          exact absurd hi (Nat.not_succ_le_self count)
        rw [set_child, if_neg hne]
        exact h.unborn count hparent i (Nat.le_of_succ_le hi)
    · obtain rfl := Option.some.inj hu
      exact h.moved rfl (fun _ => Or.inl rfl) nofun nofun nofun
    · obtain rfl := Option.some.inj hu
      refine h.moved rfl (fun _ => Or.inl rfl) nofun (fun k hk => ?_) nofun
      obtain rfl := Parent.wait.inj hk
      exact Nat.zero_le _
  | wait count =>
    simp only [hparent] at hu
    split_ifs at hu with hlt hexited
    · obtain rfl := Option.some.inj hu
      refine h.moved rfl (fun _ => Or.inl rfl) nofun (fun k hk => ?_) nofun
      obtain rfl := Parent.wait.inj hk
      exact hexited
    · obtain rfl := Option.some.inj hu
      refine h.moved rfl (fun _ => Or.inl rfl) nofun nofun (fun v hv => ?_)
      -- every child has been waited for
      have hall := h.waited count hparent
      refine ⟨Parent.printed.inj hv, Finset.eq_univ_of_card _ (le_antisymm ?_ ?_)⟩
      · exact Finset.card_le_univ _
      · rw [Fintype.card_fin]
        omega

theorem Counted.step (h : Counted s) (hu : step s a = some u) : Counted u := by
  cases a with
  | parent forked => exact h.main hu
  | child i =>
    simp only [Mmap.step, doChild] at hu
    cases hi : s.child i with
    | unborn => simp [hi] at hu
    | exited => simp [hi] at hu
    | born =>
      simp only [hi] at hu
      obtain rfl := Option.some.inj hu
      exact h.born hi
    | loaded interval =>
      simp only [hi] at hu
      obtain rfl := Option.some.inj hu
      exact h.stored hi

theorem counted_init : Counted (init n) := by
  have hnone : (init n).exited = ∅ := by
    simp [State.exited, init]
  constructor
  case nonneg => exact le_rfl
  case le => exact Int.natCast_nonneg _
  case pos =>
    rw [hnone]
    exact fun hne => absurd hne Finset.not_nonempty_empty
  case loaded => exact nofun
  case unborn => exact fun _ _ _ _ => rfl
  case waited => exact nofun
  case printed => exact nofun

theorem run_counted {acts : List (Act n)} (hrun : exec Mmap.step acts (init n) = some s) :
    Counted s :=
  exec_preserves (fun _ _ _ h hu => h.step hu) counted_init hrun

theorem Reached.next (h : Reached s) (a : Act n) (hu : Mmap.step s a = some u) : Reached u := by
  obtain ⟨acts, hacts⟩ := h
  exact ⟨acts ++ [a], exec_append hacts (exec_cons.mpr ⟨u, hu, rfl⟩)⟩

theorem placed_congr {shm : Int} {parent : Parent} {f g : Nat → Child}
    (h : ∀ i < n, f i = g i) : placed n shm parent f = placed n shm parent g := by
  unfold placed
  congr 1
  funext i
  exact h i i.isLt

theorem placed_set (shm : Int) (parent : Parent) {f g : Nat → Child} (hm : m < n)
    (h : ∀ i, i ≠ m → g i = f i) :
    (placed n shm parent f).set ⟨m, hm⟩ (g m) = placed n shm parent g := by
  unfold placed State.set
  congr 1
  funext i
  rw [Function.update_apply]
  split_ifs with hi
  · rw [hi]
  · exact (h i fun heq => hi (Fin.ext heq)).symm

/-- The first children have been forked. -/
theorem reached_forked (hm : m ≤ n) :
    Reached (placed n 0 (.fork m) fun i => if i < m then .born else .unborn) := by
  induction m with
  | zero => exact ⟨[], rfl⟩
  | succ m ih =>
    apply (ih (Nat.le_of_succ_le hm)).next (.parent true)
    have hset := placed_set (n := n) 0 (.fork m)
      (f := fun i => if i < m then .born else .unborn)
      (g := fun i => if i < m + 1 then .born else .unborn) hm
      (fun i hi => by simp only [Nat.lt_succ_iff_lt_or_eq, hi, or_false])
    simp only [Nat.lt_succ_self, ↓reduceIte] at hset
    simp only [Mmap.step, Mmap.main, placed, dif_pos (Nat.lt_of_succ_le hm), ↓reduceIte]
    exact congrArg (fun s => some { s with parent := .fork (m + 1) }) hset

/-- The first children have read the counter before anybody writes it. -/
theorem reached_loaded (hm : m ≤ n) :
    Reached (placed n 0 (.wait 0) fun i => if i < m then .loaded 1 else .born) := by
  induction m with
  | zero =>
    apply (reached_forked (le_refl n)).next (.parent true)
    simp only [Mmap.step, Mmap.main, placed, lt_irrefl, dite_false]
    congr 2
    funext i
    simp [i.isLt]
  | succ m ih =>
    apply (ih (Nat.le_of_succ_le hm)).next (.child ⟨m, hm⟩)
    have hset := placed_set (n := n) 0 (.wait 0)
      (f := fun i => if i < m then .loaded 1 else .born)
      (g := fun i => if i < m + 1 then .loaded 1 else .born) hm
      (fun i hi => by simp only [Nat.lt_succ_iff_lt_or_eq, hi, or_false])
    rw [← hset]
    simp [Mmap.step, doChild, placed]

/-- They write the same value. -/
theorem reached_stored (hk : k ≤ n) (hm : m ≤ k) :
    Reached (placed n (if m = 0 then 0 else 1) (.wait 0) fun i =>
      if i < m then .exited else if i < k then .loaded 1 else .born) := by
  induction m with
  | zero => simpa using reached_loaded hk
  | succ m ih =>
    apply (ih (Nat.le_of_succ_le hm)).next (.child ⟨m, hm.trans hk⟩)
    have hset := placed_set (n := n) (if m = 0 then 0 else 1) (.wait 0)
      (f := fun i => if i < m then .exited else if i < k then .loaded 1 else .born)
      (g := fun i => if i < m + 1 then .exited else if i < k then .loaded 1 else .born)
      (hm.trans hk) (fun i hi => by simp only [Nat.lt_succ_iff_lt_or_eq, hi, or_false])
    simp only [Nat.lt_succ_self, ↓reduceIte] at hset
    have hload : m < k := hm
    simp only [Mmap.step, doChild, placed, lt_irrefl, ↓reduceIte, hload]
    exact congrArg (fun s => some { s with shm := 1 }) hset

/-- The others read what the one before has written. -/
theorem reached_counted (hk : 1 ≤ k) (hm : k + m ≤ n) :
    Reached (placed n (1 + m) (.wait 0) fun i => if i < k + m then .exited else .born) := by
  induction m with
  | zero =>
    have hstored := reached_stored (m := k) (Nat.le_of_add_right_le hm) le_rfl
    rw [if_neg (by omega)] at hstored
    have hplaced : (fun i => if i < k then Child.exited else if i < k then .loaded 1 else .born) =
        fun i => if i < k + 0 then .exited else .born := by
      funext i
      by_cases hi : i < k <;> simp [hi]
    rwa [hplaced] at hstored
  | succ m ih =>
    have hlt : k + m < n := hm
    let f : Nat → Child := fun i => if i < k + m then .exited else .born
    have hbefore : Reached (placed n (1 + m) (.wait 0) f) := ih (Nat.le_of_succ_le hm)
    have hload : Mmap.step (placed n (1 + m) (.wait 0) f) (.child ⟨k + m, hlt⟩) =
        some ((placed n (1 + m) (.wait 0) f).set ⟨k + m, hlt⟩ (.loaded (1 + m + 1))) := by
      simp [Mmap.step, doChild, placed, f]
    have hstore : Mmap.step ((placed n (1 + m) (.wait 0) f).set ⟨k + m, hlt⟩
          (.loaded (1 + m + 1))) (.child ⟨k + m, hlt⟩) =
        some { (placed n (1 + m) (.wait 0) f).set ⟨k + m, hlt⟩ .exited with
          shm := 1 + m + 1 } := by
      simp [Mmap.step, doChild, State.set]
    have hset := placed_set (n := n) (1 + m) (.wait 0) (f := f)
      (g := fun i => if i < k + (m + 1) then .exited else .born) hlt
      (fun i hi => by simp only [f, ← Nat.add_assoc, Nat.lt_succ_iff_lt_or_eq, hi, or_false])
    have hlast : k + m < k + (m + 1) := Nat.lt_succ_self _
    rw [if_pos hlast] at hset
    rw [hset, Int.add_assoc] at hstore
    exact (hbefore.next _ hload).next _ hstore

theorem reached_waited {shm : Int} (h : Reached (placed n shm (.wait 0) fun _ => .exited))
    (hm : m ≤ n) : Reached (placed n shm (.wait m) fun _ => .exited) := by
  induction m with
  | zero => exact h
  | succ m ih =>
    have hall : (placed n shm (.wait m) fun _ => .exited).exited = Finset.univ :=
      Finset.filter_true_of_mem fun _ _ => rfl
    have hlt : m < (placed n shm (.wait m) fun _ => .exited).exited.card := by
      rw [hall, Finset.card_univ, Fintype.card_fin]
      exact hm
    have hwait : Mmap.step (placed n shm (.wait m) fun _ => .exited) (.parent true) =
        some (placed n shm (.wait (m + 1)) fun _ => .exited) :=
      (if_pos (Nat.lt_of_succ_le hm)).trans (if_pos hlt)
    exact (ih (Nat.le_of_succ_le hm)).next _ hwait

/-- All children have exited, and the parent prints the counter. -/
theorem exists_printed {shm : Int} (h : Reached (placed n shm (.wait 0) fun _ => .exited)) :
    ∃ acts s, exec Mmap.step acts (init n) = some s ∧ s.parent = .printed shm := by
  have hwaited := reached_waited h le_rfl
  obtain ⟨acts, hacts⟩ := hwaited.next (u := placed n shm (.printed shm) fun _ => .exited)
    (.parent true) (by simp [Mmap.step, Mmap.main, placed])
  exact ⟨acts, _, hacts, rfl⟩

/-- The updates of the children may get lost, all but one, and no others are counted: the parent may
print any number from one to that of its children, and nothing else. -/
theorem printed_count_iff (n : Nat) (v : Int) :
    (∃ acts s, exec Mmap.step acts (init n) = some s ∧ s.parent = .printed v) ↔
      n = 0 ∧ v = 0 ∨ 1 ≤ v ∧ v ≤ n := by
  constructor
  · rintro ⟨acts, s, hrun, hv⟩
    have h := run_counted hrun
    obtain ⟨hshm, hall⟩ := h.printed v hv
    have hnonneg := h.nonneg
    have hle := h.le
    rw [hshm] at hnonneg hle
    rw [hall, Finset.card_univ, Fintype.card_fin] at hle
    rcases Nat.eq_zero_or_pos n with hzero | hpos
    · left
      omega
    · right
      have hone := h.pos (hall ▸ ⟨⟨0, hpos⟩, Finset.mem_univ _⟩)
      rw [hshm] at hone
      exact ⟨hone, hle⟩
  · rintro (⟨rfl, rfl⟩ | ⟨hone, hle⟩)
    · apply exists_printed
      rw [placed_congr (g := fun i => if i < 0 then .loaded 1 else .born) (fun i hi => by omega)]
      exact reached_loaded le_rfl
    · obtain ⟨m, rfl⟩ : ∃ m : Nat, v = 1 + m := ⟨(v - 1).toNat, by omega⟩
      apply exists_printed
      have hlast := reached_counted (n := n) (k := n - m) (m := m) (by omega) (by omega)
      rwa [placed_congr (g := fun _ => .exited) (fun i hi => if_pos (by omega))] at hlast

end

end LanguageTest.Mmap
