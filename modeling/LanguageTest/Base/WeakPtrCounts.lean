import LanguageTest.Base.WeakPtr

namespace LanguageTest.WeakPtr
open Handles

variable {H W : Type}

/-- The counter of a null SharePtr starts at 0 and not at 1. -/
def offset : Ptr → Int
  | none => 1
  | some _ => 0

/-- The counters and the objects are in order when each counter has `n` SharePtrs and `m`
WeakPtrs. -/
structure Counted (n m : Addr → Int) (s : State H W) : Prop where
  counter : ∀ a c, s.heap.cells a = some c → c.s = n a - offset (s.object.target a) ∧ c.w = m a
  nonneg : ∀ a, 0 ≤ n a ∧ 0 ≤ m a
  bounded : ∀ a, n a ≤ 2147483647 ∧ m a ≤ 2147483647
  alive : ∀ a, (s.heap.cells a).isSome ↔ 0 < n a + m a
  null : ∀ a, s.object.target a = none → n a ≤ 1
  object : ∀ a o, a < s.heap.next → s.object.target a = some o →
    ((s.object.objects.cells o).isSome ↔ 0 < n a)
  distinct : ∀ a b o, a < s.heap.next → b < s.heap.next → s.object.target a = some o →
    s.object.target b = some o → a = b
  covered : ∀ o, o < s.object.objects.next ↔ ∃ a < s.heap.next, s.object.target a = some o

/-- The handles are the same in both states. -/
structure Keeps (s t : State H W) : Prop where
  share : t.object.share = s.object.share
  weak : t.object.weak = s.object.weak
  target : t.object.target = s.object.target

section
variable {s t : State H W} {n m : Addr → Int} {a : Addr} {x : Fields}

theorem Counted.lt_next (hs : Counted n m s) (ha : 0 < n a + m a) : a < s.heap.next := by
  by_contra hge
  have hcell := (hs.alive a).mpr ha
  rw [s.heap.unused a (Nat.le_of_not_lt hge)] at hcell
  cases hcell

/-- The counters do not depend on where the handles are. -/
theorem Counted.setPools (hs : Counted n m s) (share : H → Option Fields)
    (weak : W → Option Fields) :
    Counted n m { s with object := { s.object with share := share, weak := weak } } :=
  ⟨hs.counter, hs.nonneg, hs.bounded, hs.alive, hs.null, hs.object, hs.distinct, hs.covered⟩

/-- One counter gets `k` SharePtrs and `l` WeakPtrs more. It is freed if that leaves it without
handles, and its object is deleted if that leaves it without SharePtrs. -/
theorem Counted.recount (hs : Counted n m s) {k l : Int} (ha : 0 < n a + m a)
    (hk : 0 ≤ n a + k) (hl : 0 ≤ m a + l) (hmax : n a + k ≤ 2147483647 ∧ m a + l ≤ 2147483647)
    (hnull : s.object.target a = none → n a + k ≤ 1) (hnext : t.heap.next = s.heap.next)
    (hkeeps : Keeps s t)
    (hobjects : t.object.objects.next = s.object.objects.next)
    (hcells : ∀ b, b ≠ a → t.heap.cells b = s.heap.cells b)
    (hhere : t.heap.cells a = if n a + k + (m a + l) = 0 then none else
      some ⟨n a + k - offset (s.object.target a), m a + l⟩)
    (hother : ∀ o, s.object.target a ≠ some o →
      t.object.objects.cells o = s.object.objects.cells o)
    (hobject : ∀ o, s.object.target a = some o →
      ((t.object.objects.cells o).isSome ↔ 0 < n a + k)) :
    Counted (shift n (some a) k) (shift m (some a) l) t := by
  have hlt := hs.lt_next ha
  constructor
  case counter =>
    intro b c hc
    rw [hkeeps.target]
    by_cases hb : b = a
    · subst hb
      rw [hhere] at hc
      split at hc
      · cases hc
      · rw [← Option.some.inj hc, shift_self, shift_self]
        exact ⟨rfl, rfl⟩
    · rw [hcells b hb] at hc
      rw [shift_other hb, shift_other hb]
      exact hs.counter b c hc
  case nonneg =>
    intro b
    by_cases hb : b = a
    · subst hb
      rw [shift_self, shift_self]
      exact ⟨hk, hl⟩
    · rw [shift_other hb, shift_other hb]
      exact hs.nonneg b
  case bounded =>
    intro b
    by_cases hb : b = a
    · subst hb
      rwa [shift_self, shift_self]
    · rw [shift_other hb, shift_other hb]
      exact hs.bounded b
  case alive =>
    intro b
    by_cases hb : b = a
    · subst hb
      rw [hhere, shift_self, shift_self]
      split
      · next hzero => simp [hzero]
      · next hzero => exact iff_of_true rfl (by omega)
    · rw [hcells b hb, shift_other hb, shift_other hb]
      exact hs.alive b
  case null =>
    intro b hb
    rw [hkeeps.target] at hb
    by_cases heq : b = a
    · subst heq
      rw [shift_self]
      exact hnull hb
    · rw [shift_other heq]
      exact hs.null b hb
  case object =>
    intro b o hb ho
    rw [hkeeps.target] at ho
    rw [hnext] at hb
    by_cases heq : b = a
    · subst heq
      rw [shift_self]
      exact hobject o ho
    · rw [shift_other heq, hother o fun hao => heq (hs.distinct b a o hb hlt ho hao)]
      exact hs.object b o hb ho
  case distinct =>
    rw [hnext, hkeeps.target]
    exact hs.distinct
  case covered =>
    rw [hnext, hkeeps.target, hobjects]
    exact hs.covered

theorem Counted.exists_cell (hs : Counted n m s) (ha : 0 < n a + m a) :
    s.heap.cells a = some ⟨n a - offset (s.object.target a), m a⟩ := by
  obtain ⟨c, hc⟩ := Option.isSome_iff_exists.mp ((hs.alive a).mpr ha)
  obtain ⟨hshare, hweak⟩ := hs.counter a c hc
  rw [hc, ← hshare, ← hweak]

/-- The counts of a counter that keeps a handle are written. -/
theorem Counted.modify (hs : Counted n m s) {k l : Int} {f : Counter → Counter}
    (ha : 0 < n a + m a) (hk : 0 ≤ n a + k) (hl : 0 ≤ m a + l)
    (hmax : n a + k ≤ 2147483647 ∧ m a + l ≤ 2147483647) (hleft : 0 < n a + k + (m a + l))
    (hnull : s.object.target a = none → n a + k ≤ 1)
    (hf : f ⟨n a - offset (s.object.target a), m a⟩ =
      ⟨n a + k - offset (s.object.target a), m a + l⟩)
    (hheap : t.heap = s.heap.modify a f) (hkeeps : Keeps s t)
    (hobjects : t.object.objects.next = s.object.objects.next)
    (hother : ∀ o, s.object.target a ≠ some o →
      t.object.objects.cells o = s.object.objects.cells o)
    (hobject : ∀ o, s.object.target a = some o →
      ((t.object.objects.cells o).isSome ↔ 0 < n a + k)) :
    Counted (shift n (some a) k) (shift m (some a) l) t := by
  refine hs.recount ha hk hl hmax hnull ?_ hkeeps hobjects ?_ ?_ hother hobject
  · rw [hheap]
    rfl
  · intro b hb
    rw [hheap, Heap.modify_cells, if_neg hb]
  · rw [hheap, Heap.modify_cells, if_pos rfl, if_neg (by omega), hs.exists_cell ha,
      Option.map_some, hf]

/-- The number of WeakPtrs changes, and the object does not depend on it. -/
theorem Counted.modifyWeak (hs : Counted n m s) {l : Int} {f : Counter → Counter}
    (ha : 0 < n a + m a) (hl : 0 ≤ m a + l) (hmax : m a + l ≤ 2147483647)
    (hleft : 0 < n a + (m a + l))
    (hf : ∀ c, f c = { c with w := c.w + l }) :
    Counted n (shift m (some a) l) { s with heap := s.heap.modify a f } := by
  have hpost : Counted (shift n (some a) 0) (shift m (some a) l)
      { s with heap := s.heap.modify a f } := by
    refine hs.modify ha ?_ hl ⟨?_, hmax⟩ ?_ ?_ ?_ rfl ⟨rfl, rfl, rfl⟩ rfl (fun _ _ => rfl) ?_
    · rw [Int.add_zero]
      exact (hs.nonneg a).1
    · rw [Int.add_zero]
      exact (hs.bounded a).1
    · rwa [Int.add_zero]
    · rw [Int.add_zero]
      exact hs.null a
    · rw [hf, Int.add_zero]
    · intro o ho
      rw [Int.add_zero]
      exact hs.object a o (hs.lt_next ha) ho
  rwa [shift_zero] at hpost

theorem offset_range (p : Ptr) : 0 ≤ offset p ∧ offset p ≤ 1 := by
  cases p <;> exact ⟨by simp [offset], by simp [offset]⟩

theorem runs_countShare {c : Counter} {k : Int} {Q : Unit → State H W → Prop}
    (hc : s.heap.cells a = some c) (hint : IsInt (c.s + k)) :
    Runs (countShare (some a) k) s Q ↔
      Q () { s with heap := s.heap.modify a fun c => { c with s := c.s + k } } := by
  simp only [countShare, runs_bind, runs_load, hc, Option.some.injEq, exists_eq_left',
    runs_int hint, runs_modify, Option.isSome_some, true_and]
  rw [Heap.modify_congr (f := fun d : Counter => { d with s := c.s + k })
    (g := fun d => { d with s := d.s + k }) hc rfl]

theorem runs_countWeak {c : Counter} {k : Int} {Q : Unit → State H W → Prop}
    (hc : s.heap.cells a = some c) (hint : IsInt (c.w + k)) :
    Runs (countWeak (some a) k) s Q ↔
      Q () { s with heap := s.heap.modify a fun c => { c with w := c.w + k } } := by
  simp only [countWeak, runs_bind, runs_load, hc, Option.some.injEq, exists_eq_left',
    runs_int hint, runs_modify, Option.isSome_some, true_and]
  rw [Heap.modify_congr (f := fun d : Counter => { d with w := c.w + k })
    (g := fun d => { d with w := d.w + k }) hc rfl]

theorem runs_addShare (hs : Counted n m s) (ha : 0 < n a) (hroom : n a < 2147483647)
    (hfull : s.object.target a ≠ none) :
    Runs (countShare (some a) 1) s fun _ t =>
      Counted (shift n (some a) 1) m t ∧ Keeps s t := by
  have hm := (hs.nonneg a).2
  have hmax := (hs.bounded a).2
  have hcell := hs.exists_cell (a := a) (by omega)
  have hoffset := offset_range (s.object.target a)
  have hpost : Counted (shift n (some a) 1) (shift m (some a) 0)
      { s with heap := s.heap.modify a fun c => { c with s := c.s + 1 } } := by
    refine hs.modify (by omega) (by omega) (by omega) (by omega) (by omega)
      (fun h => absurd h hfull) ?_ rfl ⟨rfl, rfl, rfl⟩ rfl (fun _ _ => rfl) ?_
    · simp only [Counter.mk.injEq]
      omega
    · intro o ho
      have hobject := hs.object a o (hs.lt_next (by omega)) ho
      exact hobject.trans ⟨fun _ => by omega, fun _ => ha⟩
  rw [shift_zero] at hpost
  rw [runs_countShare hcell ⟨by simp only; omega, by simp only; omega⟩]
  exact ⟨hpost, rfl, rfl, rfl⟩

theorem runs_addWeak (hs : Counted n m s) (ha : 0 < n a + m a) (hroom : m a < 2147483647) :
    Runs (countWeak (some a) 1) s fun _ t => Counted n (shift m (some a) 1) t ∧ Keeps s t := by
  have hnonneg := hs.nonneg a
  have hcell := hs.exists_cell ha
  have hpost := hs.modifyWeak (f := fun c => { c with w := c.w + 1 }) ha (by omega) (by omega)
    (by omega) fun _ => rfl
  rw [runs_countWeak hcell ⟨by simp only; omega, by simp only; omega⟩]
  exact ⟨hpost, rfl, rfl, rfl⟩

/-- A WeakPtr that is not the last handle of its counter leaves it. -/
theorem runs_weakRelease (hs : Counted n m s) (hx : ∀ a ∈ x.cnt, 0 < m a ∧ 1 < n a + m a) :
    Runs (weakRelease x) s fun _ t => Counted n (shift m x.cnt (-1)) t ∧ Keeps s t := by
  obtain ⟨p, cnt⟩ := x
  cases cnt with
  | none =>
    simp only [weakRelease, Option.isSome_none, Bool.false_eq_true, if_false, shift_none]
    exact runs_pure.mpr ⟨hs, rfl, rfl, rfl⟩
  | some a =>
    obtain ⟨hm, hmore⟩ := hx a rfl
    have hmax := (hs.bounded a).2
    have hcell := hs.exists_cell (a := a) (by omega)
    have hpost := hs.modifyWeak (l := -1) (f := fun c => { c with w := c.w + -1 }) (a := a)
      (by omega) (by omega) (by omega) (by omega) fun _ => rfl
    rw [weakRelease, if_pos (by rfl), runs_bind,
      runs_countWeak hcell ⟨by simp only; omega, by simp only; omega⟩, runs_bind, runs_load]
    refine ⟨⟨n a - offset (s.object.target a), m a + -1⟩, by simp [hcell], ?_⟩
    split
    all_goals exact runs_pure.mpr ⟨hpost, rfl, rfl, rfl⟩

/-- What `delete _ptr` leaves, which touches no counter. -/
structure ObjectDeleted (p : Ptr) (s t : State H W) : Prop where
  heap : t.heap = s.heap
  keeps : Keeps s t
  next : t.object.objects.next = s.object.objects.next
  other : ∀ o, p ≠ some o → t.object.objects.cells o = s.object.objects.cells o
  deleted : ∀ o, p = some o → t.object.objects.cells o = none

theorem runs_deleteObject {p : Ptr} (hp : ∀ o, p = some o → (s.object.objects.cells o).isSome) :
    Runs (deleteObject p) s fun _ t => ObjectDeleted p s t := by
  cases p with
  | none => exact runs_pure.mpr ⟨rfl, ⟨rfl, rfl, rfl⟩, rfl, fun _ _ => rfl, nofun⟩
  | some o =>
    refine (runs_of_ok (by simp only [deleteObject, hp o rfl, if_true]; rfl)).mpr ?_
    refine ⟨rfl, ⟨rfl, rfl, rfl⟩, rfl, ?_, ?_⟩
    · intro b hb
      simp only [Heap.release_cells]
      rw [if_neg fun heq => hb (by rw [heq])]
    · intro b hb
      cases hb
      simp

/-- A SharePtr that is not the last one leaves the object as it is. -/
theorem Counted.modifyShare (hs : Counted n m s) (ha : 1 < n a) :
    Counted (shift n (some a) (-1)) m
      { s with heap := s.heap.modify a fun c => { c with s := c.s + -1 } } := by
  have hm := (hs.nonneg a).2
  have hmax := hs.bounded a
  have hpost : Counted (shift n (some a) (-1)) (shift m (some a) 0)
      { s with heap := s.heap.modify a fun c => { c with s := c.s + -1 } } := by
    refine hs.modify (by omega) (by omega) (by omega) (by omega) (by omega) (fun hnull => ?_) ?_ rfl
      ⟨rfl, rfl, rfl⟩ rfl (fun _ _ => rfl) ?_
    · have hone := hs.null a hnull
      omega
    · simp only [Counter.mk.injEq]
      omega
    · intro o ho
      have hobject := hs.object a o (hs.lt_next (by omega)) ho
      exact hobject.trans ⟨fun _ => by omega, fun _ => by omega⟩
  rwa [shift_zero] at hpost

/-- The last SharePtr leaves its counter, and the object has been deleted. -/
theorem runs_shareReleaseLast (hs : Counted n m s) (hlast : n a = 1)
    (ht : ObjectDeleted (s.object.target a)
      { s with heap := s.heap.modify a fun c => { c with s := c.s + -1 } } t) :
    Runs (do
      if (← load (some a)).w < 1 then
        delete (some a)
        pure { x with cnt := none }
      else pure x) t fun _ u => Counted (shift n (some a) (-1)) m u ∧ Keeps s u := by
  have hm := (hs.nonneg a).2
  have hmax := hs.bounded a
  have hcell := hs.exists_cell (a := a) (by omega)
  have hkeeps : Keeps s t := ⟨ht.keeps.share, ht.keeps.weak, ht.keeps.target⟩
  have hobject : ∀ o, s.object.target a = some o →
      ((t.object.objects.cells o).isSome ↔ 0 < n a + -1) := by
    intro o ho
    rw [ht.deleted o ho]
    exact iff_of_false (by simp) (by omega)
  simp only [runs_bind, runs_load, ht.heap]
  refine ⟨⟨n a - offset (s.object.target a) + -1, m a⟩, by simp [hcell], ?_⟩
  by_cases hweak : m a < 1
  · rw [if_pos hweak, runs_bind, runs_delete, runs_pure]
    refine ⟨by rw [ht.heap, Heap.modify_isSome, hcell]; rfl, ?_, hkeeps.share, hkeeps.weak,
      hkeeps.target⟩
    have hpost := hs.recount (k := -1) (l := 0) (a := a)
      (t := { t with heap := t.heap.release a }) (by omega) (by omega) (by omega) (by omega)
      (fun _ => by omega) (by rw [ht.heap]; rfl) ⟨hkeeps.share, hkeeps.weak, hkeeps.target⟩
      ht.next ?_ ?_ ht.other hobject
    · rwa [shift_zero] at hpost
    · intro b hb
      rw [Heap.release_cells, if_neg hb, ht.heap, Heap.modify_cells, if_neg hb]
    · rw [Heap.release_cells, if_pos rfl, if_pos (by omega)]
  · rw [if_neg hweak]
    refine runs_pure.mpr ⟨?_, hkeeps⟩
    have hpost := hs.modify (k := -1) (l := 0) (by omega) (by omega) (by omega) (by omega)
      (by omega) (fun _ => by omega) ?_ ht.heap hkeeps ht.next ht.other hobject
    · rwa [shift_zero] at hpost
    · simp only [Counter.mk.injEq]
      omega

/-- A SharePtr leaves its counter. The object goes with the last SharePtr and the counter with the
last handle. -/
theorem runs_shareRelease (hs : Counted n m s) (hx : x.cnt = some a)
    (hptr : s.object.target a = x.ptr) (ha : 0 < n a) :
    Runs (shareRelease x) s fun _ t => Counted (shift n (some a) (-1)) m t ∧ Keeps s t := by
  obtain ⟨p, cnt⟩ := x
  obtain rfl : cnt = some a := hx
  obtain rfl : s.object.target a = p := hptr
  have hm := (hs.nonneg a).2
  have hlt := hs.lt_next (a := a) (by omega)
  have hcell := hs.exists_cell (a := a) (by omega)
  have hmax := (hs.bounded a).1
  have hoffset := offset_range (s.object.target a)
  rw [shareRelease, runs_bind, runs_countShare hcell ⟨by simp only; omega, by simp only; omega⟩,
    runs_bind, runs_load]
  refine ⟨⟨n a - offset (s.object.target a) + -1, m a⟩, by simp [hcell], ?_⟩
  by_cases hlast : n a = 1
  · have hzero : n a - offset (s.object.target a) + -1 < 1 := by
      cases s.object.target a <;> simp only [offset] <;> omega
    rw [if_pos hzero, runs_bind]
    refine (runs_deleteObject ?_).mono ?_
    · exact fun o ho => (hs.object a o hlt ho).mpr ha
    · exact fun _ t ht => runs_shareReleaseLast hs hlast ht
  · have hmore : ¬ n a - offset (s.object.target a) + -1 < 1 := by
      cases htarget : s.object.target a with
      | none =>
        have hone := hs.null a htarget
        omega
      | some o =>
        simp only [offset]
        omega
    rw [if_neg hmore]
    exact runs_pure.mpr ⟨hs.modifyShare (by omega), rfl, rfl, rfl⟩

/-- There is one counter more with one SharePtr on it, for a null pointer or a new object. -/
structure NewCounter (p : Ptr) (s t : State H W) : Prop where
  next : t.heap.next = s.heap.next + 1
  target : t.object.target = Function.update s.object.target s.heap.next p
  cells : ∀ b, b ≠ s.heap.next → t.heap.cells b = s.heap.cells b
  here : t.heap.cells s.heap.next = some ⟨1 - offset p, 0⟩
  objects : p = none ∧ t.object.objects = s.object.objects ∨
    p = some s.object.objects.next ∧ t.object.objects = s.object.objects.alloc ()

theorem NewCounter.lt_or_eq {p : Ptr} (ht : NewCounter p s t) (ha : a < t.heap.next) :
    a < s.heap.next ∨ a = s.heap.next := by
  rw [ht.next] at ha
  exact Nat.lt_or_eq_of_le (Nat.le_of_lt_succ ha)

theorem NewCounter.target_old {p : Ptr} (ht : NewCounter p s t) (ha : a < s.heap.next) :
    t.object.target a = s.object.target a := by
  rw [ht.target, Function.update_of_ne (Nat.ne_of_lt ha)]

theorem NewCounter.target_new {p : Ptr} (ht : NewCounter p s t) :
    t.object.target s.heap.next = p := by
  rw [ht.target, Function.update_self]

theorem NewCounter.object_new {p : Ptr} {o : Addr} (ht : NewCounter p s t) (ho : p = some o) :
    o = s.object.objects.next ∧ t.object.objects = s.object.objects.alloc () := by
  rcases ht.objects with ⟨rfl, -⟩ | ⟨rfl, heq⟩
  · cases ho
  · exact ⟨(Option.some.inj ho).symm, heq⟩

theorem NewCounter.object_old {p : Ptr} {o : Addr} (ht : NewCounter p s t)
    (ho : o < s.object.objects.next) :
    t.object.objects.cells o = s.object.objects.cells o := by
  rcases ht.objects with ⟨-, heq⟩ | ⟨-, heq⟩
  · rw [heq]
  · rw [heq, Heap.alloc_cells, if_neg (Nat.ne_of_lt ho)]

theorem NewCounter.objects_le {p : Ptr} (ht : NewCounter p s t) :
    s.object.objects.next ≤ t.object.objects.next := by
  rcases ht.objects with ⟨-, heq⟩ | ⟨-, heq⟩
  · rw [heq]
  · rw [heq]
    exact Nat.le_succ _

theorem Counted.fresh (hs : Counted n m s) : n s.heap.next = 0 ∧ m s.heap.next = 0 := by
  have hnonneg := hs.nonneg s.heap.next
  have halive := hs.alive s.heap.next
  rw [s.heap.next_fresh] at halive
  have hnot : ¬ 0 < n s.heap.next + m s.heap.next := fun hpos => nomatch halive.mpr hpos
  omega

/-- The objects of the counters that there are have been made. -/
theorem Counted.object_lt (hs : Counted n m s) {o : Addr} (ha : a < s.heap.next)
    (ho : s.object.target a = some o) : o < s.object.objects.next :=
  (hs.covered o).mpr ⟨a, ha, ho⟩

theorem Counted.distinct_new (hs : Counted n m s) {p : Ptr} (ht : NewCounter p s t) {b o : Addr}
    (ha : a < t.heap.next) (hb : b < t.heap.next) (hao : t.object.target a = some o)
    (hbo : t.object.target b = some o) : a = b := by
  rcases ht.lt_or_eq ha with hlta | rfl
  · rw [ht.target_old hlta] at hao
    rcases ht.lt_or_eq hb with hltb | rfl
    · rw [ht.target_old hltb] at hbo
      exact hs.distinct a b o hlta hltb hao hbo
    · rw [ht.target_new] at hbo
      exact absurd (hs.object_lt hlta hao) (ht.object_new hbo).1.not_lt
  · rw [ht.target_new] at hao
    rcases ht.lt_or_eq hb with hltb | rfl
    · rw [ht.target_old hltb] at hbo
      exact absurd (hs.object_lt hltb hbo) (ht.object_new hao).1.not_lt
    · rfl

theorem Counted.covered_new (hs : Counted n m s) {p : Ptr} (ht : NewCounter p s t) (o : Addr) :
    o < t.object.objects.next ↔ ∃ a < t.heap.next, t.object.target a = some o := by
  constructor
  · intro ho
    by_cases hlto : o < s.object.objects.next
    · obtain ⟨a, ha, hao⟩ := (hs.covered o).mp hlto
      refine ⟨a, ?_, (ht.target_old ha).trans hao⟩
      rw [ht.next]
      exact Nat.lt_succ_of_lt ha
    · rcases ht.objects with ⟨-, heq⟩ | ⟨rfl, heq⟩
      · rw [heq] at ho
        exact absurd ho hlto
      · rw [heq] at ho
        have hlast : s.object.objects.next = o :=
          Nat.le_antisymm (Nat.le_of_not_lt hlto) (Nat.le_of_lt_succ ho)
        refine ⟨s.heap.next, ?_, ?_⟩
        · rw [ht.next]
          exact Nat.lt_succ_self _
        · rw [ht.target_new, hlast]
  · intro hex
    obtain ⟨a, ha, hao⟩ := hex
    rcases ht.lt_or_eq ha with hlta | rfl
    · rw [ht.target_old hlta] at hao
      exact Nat.lt_of_lt_of_le (hs.object_lt hlta hao) ht.objects_le
    · rw [ht.target_new] at hao
      obtain ⟨rfl, heq⟩ := ht.object_new hao
      rw [heq]
      exact Nat.lt_succ_self _

theorem Counted.new (hs : Counted n m s) {p : Ptr} (ht : NewCounter p s t) :
    Counted (shift n (some s.heap.next) 1) m t := by
  obtain ⟨hn, hm⟩ := hs.fresh
  constructor
  case counter =>
    intro a c hc
    by_cases ha : a = s.heap.next
    · subst ha
      rw [ht.here] at hc
      rw [← Option.some.inj hc, ht.target_new, shift_self, hn, hm]
      exact ⟨by simp only [Int.zero_add], rfl⟩
    · rw [ht.cells a ha] at hc
      rw [shift_other ha, ht.target, Function.update_of_ne ha]
      exact hs.counter a c hc
  case nonneg =>
    intro a
    have hnonneg := hs.nonneg a
    unfold shift
    split <;> omega
  case bounded =>
    intro a
    by_cases ha : a = s.heap.next
    · subst ha
      rw [shift_self, hn, hm]
      decide
    · rw [shift_other ha]
      exact hs.bounded a
  case alive =>
    intro a
    by_cases ha : a = s.heap.next
    · subst ha
      rw [ht.here, shift_self, hn, hm]
      exact iff_of_true rfl (by omega)
    · rw [ht.cells a ha, shift_other ha]
      exact hs.alive a
  case null =>
    intro a hnull
    by_cases ha : a = s.heap.next
    · subst ha
      rw [shift_self, hn]
      omega
    · rw [ht.target, Function.update_of_ne ha] at hnull
      rw [shift_other ha]
      exact hs.null a hnull
  case object =>
    intro a o ha ho
    rcases ht.lt_or_eq ha with hlt | rfl
    · rw [ht.target_old hlt] at ho
      rw [ht.object_old (hs.object_lt hlt ho), shift_other (Nat.ne_of_lt hlt)]
      exact hs.object a o hlt ho
    · rw [ht.target_new] at ho
      obtain ⟨rfl, heq⟩ := ht.object_new ho
      rw [heq, Heap.alloc_cells, if_pos rfl, shift_self, hn]
      exact iff_of_true rfl (by omega)
  case distinct => exact fun a b o => hs.distinct_new ht
  case covered => exact hs.covered_new ht

end

end LanguageTest.WeakPtr
