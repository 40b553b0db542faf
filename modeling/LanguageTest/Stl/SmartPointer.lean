import LanguageTest.Library.Arithmetic
import LanguageTest.Library.Heap
import LanguageTest.Library.Handles
import Mathlib.Data.Fintype.Option
import Mathlib.Logic.Function.Basic

namespace LanguageTest.SmartPointer
open Handles

variable {H : Type}

structure RefBase where
  mCount : Int

/-- A pool of SmartPointers, each with its `mPointer` while it exists. `owned` is history: the
objects that some SmartPointer has pointed to. -/
structure Pointers (H : Type) where
  mPointer : H → Option Ptr
  owned : List Addr

abbrev State (H : Type) := Machine (Pointers H) RefBase

/-- The pointer of a SmartPointer that exists. -/
def getPointer (h : H) : Program (State H) Ptr := fun s =>
  match s.object.mPointer h with
  | some p => .ok (p, s)
  | none => .error .dangling

/-- `none` ends the SmartPointer's life. -/
def setPointer [DecidableEq H] (h : H) (p : Option Ptr) : Program (State H) Unit :=
  setObject fun o => { o with mPointer := Function.update o.mPointer h p }

def incRefCount (p : Ptr) : Program (State H) Unit := do
  let mCount ← int ((← load p).mCount + 1)
  modify p fun n => { n with mCount := mCount }

def decRefCount (p : Ptr) : Program (State H) Int := do
  let mCount ← int ((← load p).mCount - 1)
  modify p fun n => { n with mCount := mCount }
  pure mCount

/-- `if (p) p->incRefCount()` -/
def retain : Ptr → Program (State H) Unit
  | none => pure ()
  | some a => do
    incRefCount (some a)
    setObject fun o => { o with owned := a :: o.owned }

/-- `if (p && p->decRefCount() == 0) delete p` -/
def release : Ptr → Program (State H) Unit
  | none => pure ()
  | some a => do
    if (← decRefCount (some a)) = 0 then delete (some a)

def construct [DecidableEq H] (h : H) : Program (State H) Unit := setPointer h (some none)

def constructFrom [DecidableEq H] (h : H) (p : Ptr) : Program (State H) Unit := do
  setPointer h (some p)
  retain p

def copy [DecidableEq H] (h other : H) : Program (State H) Unit := do
  let p ← getPointer other
  setPointer h (some p)
  retain p

def assign [DecidableEq H] (h other : H) : Program (State H) Unit := do
  let temp ← getPointer other
  retain temp
  release (← getPointer h)
  setPointer h (some temp)

def destroy [DecidableEq H] (h : H) : Program (State H) Unit := do
  release (← getPointer h)
  setPointer h none

inductive Op (H : Type) where
  | create
  | construct (h : H)
  | constructFrom (h : H) (p : Ptr)
  | copy (h other : H)
  | assign (h other : H)
  | destroy (h : H)

/-- `create` is a `new T`, whose base class starts its count at 0. -/
def step [DecidableEq H] : Op H → Program (State H) Unit
  | .create => do let _ ← new ⟨0⟩
  | .construct h => construct h
  | .constructFrom h p => constructFrom h p
  | .copy h other => copy h other
  | .assign h other => assign h other
  | .destroy h => destroy h

/-- The raw pointer is null or names a live object. -/
def Names (p : Ptr) (s : State H) : Prop := ∀ a ∈ p, (s.heap.cells a).isSome

/-- A program constructs where there is no SmartPointer and uses the ones that exist. -/
def Legal : Op H → State H → Prop
  | .create, _ => True
  | .construct h, s => s.object.mPointer h = none
  | .constructFrom h p, s => s.object.mPointer h = none ∧ Names p s
  | .copy h other, s => s.object.mPointer h = none ∧ (s.object.mPointer other).isSome
  | .assign h other, s => (s.object.mPointer h).isSome ∧ (s.object.mPointer other).isSome
  | .destroy h, s => (s.object.mPointer h).isSome

instance (op : Op H) (s : State H) : Decidable (Legal op s) := by
  cases op <;> unfold Legal <;> (try unfold Names) <;> infer_instance

/-- The object that the call counts up. -/
def Op.retained : Op H → State H → Ptr
  | .constructFrom _ p, _ => p
  | .copy _ other, s | .assign _ other, s => (s.object.mPointer other).join
  | .create, _ | .construct _, _ | .destroy _, _ => none

/-- The object has room for one owner more. -/
def HasRoom (op : Op H) (s : State H) : Prop :=
  ∀ a ∈ op.retained s, ∀ r ∈ s.heap.cells a, r.mCount < 2147483647

instance (op : Op H) (s : State H) : Decidable (HasRoom op s) := by
  unfold HasRoom
  infer_instance

def initial : State H := ⟨⟨fun _ => none, []⟩, Heap.empty⟩

def run [DecidableEq H] (ops : List (Op H)) : Program (State H) (List Unit) := runAll step ops

/-- The objects are in order when each is referred to as often as `n` says. -/
structure Owns (n : Addr → Int) (s : State H) : Prop where
  counts : ∀ a r, s.heap.cells a = some r → r.mCount = n a
  nonneg : ∀ a, 0 ≤ n a
  bounded : ∀ a, n a ≤ 2147483647
  alive : ∀ a, 0 < n a → (s.heap.cells a).isSome
  owned : ∀ a, 0 < n a → a ∈ s.object.owned
  deleted : ∀ a ∈ s.object.owned, n a = 0 → s.heap.cells a = none
  unowned : ∀ a < s.heap.next, a ∉ s.object.owned → (s.heap.cells a).isSome
  below : ∀ a ∈ s.object.owned, a < s.heap.next

section
variable {s t : State H} {n : Addr → Int} {p : Ptr} {a : Addr} {h : H}

theorem runs_getPointer {Q : Ptr → State H → Prop} (hp : s.object.mPointer h = some p) :
    Runs (getPointer h) s Q ↔ Q p s :=
  runs_of_ok (by simp [getPointer, hp])

/-- The objects do not depend on where the SmartPointers are. -/
theorem Owns.setPointer (hs : Owns n s) (mPointer : H → Option Ptr) :
    Owns n { s with object := { s.object with mPointer := mPointer } } :=
  ⟨hs.counts, hs.nonneg, hs.bounded, hs.alive, hs.owned, hs.deleted, hs.unowned, hs.below⟩

theorem Owns.lt_next (ha : (s.heap.cells a).isSome) : a < s.heap.next := by
  by_contra hge
  rw [s.heap.unused a (Nat.le_of_not_lt hge)] at ha
  cases ha

/-- One object is referred to `k` times more, and is deleted if that leaves it without owner. -/
theorem Owns.recount (hs : Owns n s) {k : Int} (hk : 0 ≤ n a + k)
    (hmax : n a + k ≤ 2147483647) (ha : a < s.heap.next)
    (hnext : t.heap.next = s.heap.next)
    (hown : ∀ b, b ∈ t.object.owned ↔ b = a ∨ b ∈ s.object.owned)
    (hother : ∀ b, b ≠ a → t.heap.cells b = s.heap.cells b)
    (hhere : t.heap.cells a = if n a + k = 0 then none else some ⟨n a + k⟩) :
    Owns (shift n (some a) k) t := by
  have hself : shift n (some a) k a = n a + k := shift_self
  have hrest : ∀ b, b ≠ a → shift n (some a) k b = n b := fun b hb => shift_other hb
  constructor
  case counts =>
    intro b r hr
    by_cases hb : b = a
    · subst hb
      rw [hhere] at hr
      split at hr
      · cases hr
      · rw [hself, ← Option.some.inj hr]
    · rw [hother b hb] at hr
      rw [hrest b hb, hs.counts b r hr]
  case nonneg =>
    intro b
    by_cases hb : b = a
    · rwa [hb, hself]
    · rw [hrest b hb]
      exact hs.nonneg b
  case bounded =>
    intro b
    by_cases hb : b = a
    · rwa [hb, hself]
    · rw [hrest b hb]
      exact hs.bounded b
  case alive =>
    intro b hpos
    by_cases hb : b = a
    · subst hb
      rw [hself] at hpos
      rw [hhere, if_neg (by omega)]
      rfl
    · rw [hrest b hb] at hpos
      rw [hother b hb]
      exact hs.alive b hpos
  case owned =>
    intro b hpos
    by_cases hb : b = a
    · exact (hown b).mpr (Or.inl hb)
    · rw [hrest b hb] at hpos
      exact (hown b).mpr (Or.inr (hs.owned b hpos))
  case deleted =>
    intro b hmem hzero
    by_cases hb : b = a
    · subst hb
      rw [hself] at hzero
      rw [hhere, if_pos hzero]
    · rw [hrest b hb] at hzero
      rw [hother b hb]
      exact hs.deleted b (((hown b).mp hmem).resolve_left hb) hzero
  case unowned =>
    intro b hlt hnot
    have hb : b ≠ a := fun hb => hnot ((hown b).mpr (Or.inl hb))
    rw [hother b hb]
    exact hs.unowned b (hnext ▸ hlt) fun hmem => hnot ((hown b).mpr (Or.inr hmem))
  case below =>
    intro b hmem
    rw [hnext]
    rcases (hown b).mp hmem with rfl | hold
    · exact ha
    · exact hs.below b hold

theorem runs_retain (hs : Owns n s) (hp : Names p s) (hroom : ∀ a ∈ p, n a < 2147483647) :
    Runs (retain p) s fun _ t =>
      Owns (shift n p 1) t ∧ t.object.mPointer = s.object.mPointer := by
  cases p with
  | none =>
    rw [shift_none]
    exact runs_pure.mpr ⟨hs, rfl⟩
  | some a =>
    have ha := hp a rfl
    have hlt := hroom a rfl
    obtain ⟨r, hr⟩ := Option.isSome_iff_exists.mp ha
    have hnonneg := hs.nonneg a
    have hcount := hs.counts a r hr
    rw [retain, incRefCount, runs_bind, runs_bind, runs_load]
    refine ⟨r, hr, ?_⟩
    rw [runs_int_bind (by omega) (by omega)]
    simp only [runs_modify, runs_setObject]
    refine ⟨ha, hs.recount (by omega) (by omega) (Owns.lt_next ha) rfl ?_ ?_ ?_, trivial⟩
    · exact fun b => List.mem_cons
    · intro b hb
      rw [Heap.modify_cells, if_neg hb]
    · rw [Heap.modify_cells, if_pos rfl, if_neg (by omega), hr, Option.map_some, hcount]

/-- The count of an object that has all the owners it can have cannot be raised. -/
theorem retain_full (hs : Owns n s) (ha : (s.heap.cells a).isSome) (hfull : n a = 2147483647) :
    Fails (retain (some a)) s .overflow := by
  obtain ⟨r, hr⟩ := Option.isSome_iff_exists.mp ha
  refine Fails.bind (Runs.fails (runs_load.mpr ⟨r, hr, Fails.bind (fails_int ?_)⟩))
  rw [hs.counts a r hr, hfull]
  decide

/-- The object may only be released while somebody owns it. -/
theorem runs_release (hs : Owns n s) (hp : ∀ a ∈ p, 0 < n a) :
    Runs (release p) s fun _ t =>
      Owns (shift n p (-1)) t ∧ t.object.mPointer = s.object.mPointer := by
  cases p with
  | none =>
    rw [shift_none]
    exact runs_pure.mpr ⟨hs, rfl⟩
  | some a =>
    have hpos := hp a rfl
    have ha := hs.alive a hpos
    have hmax := hs.bounded a
    obtain ⟨r, hr⟩ := Option.isSome_iff_exists.mp ha
    have hcount := hs.counts a r hr
    have hown : ∀ b, b ∈ s.object.owned ↔ b = a ∨ b ∈ s.object.owned := by
      intro b
      exact ⟨Or.inr, fun h => h.elim (fun heq => heq ▸ hs.owned a hpos) id⟩
    rw [release, decRefCount, runs_bind, runs_bind, runs_load]
    refine ⟨r, hr, ?_⟩
    rw [runs_int_bind (by omega) (by omega)]
    simp only [runs_bind, runs_modify, runs_pure]
    refine ⟨ha, ?_⟩
    by_cases hlast : r.mCount - 1 = 0
    · rw [if_pos hlast, runs_delete]
      refine ⟨by rw [Heap.modify_isSome]; exact ha, ?_, rfl⟩
      refine hs.recount (by omega) (by omega) (Owns.lt_next ha) rfl hown ?_ ?_
      · intro b hb
        rw [Heap.release_cells, if_neg hb, Heap.modify_cells, if_neg hb]
      · rw [Heap.release_cells, if_pos rfl, if_pos (by omega)]
    · rw [if_neg hlast, runs_pure]
      refine ⟨?_, rfl⟩
      refine hs.recount (by omega) (by omega) (Owns.lt_next ha) rfl hown ?_ ?_
      · intro b hb
        rw [Heap.modify_cells, if_neg hb]
      · rw [Heap.modify_cells, if_pos rfl, if_neg (by omega), hr, Option.map_some, hcount]
        rfl

end

section
variable [DecidableEq H] {s : State H} {n : Addr → Int} {p : Ptr} {a : Addr} {h other : H}

@[simp] theorem runs_setPointer {q : Option Ptr} {Q : Unit → State H → Prop} :
    Runs (setPointer h q) s Q ↔
      Q () { s with object :=
        { s.object with mPointer := Function.update s.object.mPointer h q } } :=
  runs_of_ok rfl

variable [Fintype H]

/-- What is promised in every state. An object that has been owned is there exactly as long as a
SmartPointer points to it, and deleting it again would be a fault. -/
structure Sound (s : State H) : Prop where
  counts : ∀ a r, s.heap.cells a = some r → r.mCount = number s.object.mPointer a
  alive : ∀ h a, s.object.mPointer h = some (some a) → (s.heap.cells a).isSome
  deleted : ∀ a ∈ s.object.owned, s.heap.cells a = none ↔ number s.object.mPointer a = 0
  unowned : ∀ a < s.heap.next, a ∉ s.object.owned → (s.heap.cells a).isSome

def Valid (s : State H) : Prop := Owns (number s.object.mPointer) s

omit [DecidableEq H] in
theorem Valid.sound (hs : Valid s) : Sound s := by
  constructor
  case counts => exact hs.counts
  case alive => exact fun h a hp => hs.alive a (number_pos.mpr ⟨h, hp⟩)
  case deleted =>
    intro a ha
    refine ⟨?_, hs.deleted a ha⟩
    intro hnone
    by_contra hne
    have hnonneg := hs.nonneg a
    have hsome := hs.alive a (by omega)
    rw [hnone] at hsome
    cases hsome
  case unowned => exact hs.unowned

theorem runs_construct (hs : Valid s) (hh : s.object.mPointer h = none) :
    Runs (construct h) s fun _ t => Valid t := by
  have hn := number_update s.object.mPointer h (some none)
  rw [hh] at hn
  simp only [Option.join_none, Option.join_some, shift_none] at hn
  simp only [construct, runs_setPointer]
  unfold Valid
  rw [hn]
  exact hs.setPointer _

omit [DecidableEq H] in
/-- The count is the number of owners. -/
theorem Valid.room (hs : Valid s) (hp : Names p s)
    (hroom : ∀ a ∈ p, ∀ r ∈ s.heap.cells a, r.mCount < 2147483647) :
    ∀ a ∈ p, number s.object.mPointer a < 2147483647 := by
  intro a ha
  obtain ⟨r, hr⟩ := Option.isSome_iff_exists.mp (hp a ha)
  rw [← hs.counts a r hr]
  exact hroom a ha r hr

/-- A new SmartPointer on a pointer to a live object. -/
theorem runs_point (hs : Valid s) (hh : s.object.mPointer h = none) (hp : Names p s)
    (hroom : ∀ a ∈ p, ∀ r ∈ s.heap.cells a, r.mCount < 2147483647) :
    Runs (do setPointer h (some p); retain p) s fun _ t =>
      Valid t ∧ t.object.mPointer = Function.update s.object.mPointer h (some p) := by
  have hn := number_update s.object.mPointer h (some p)
  rw [hh] at hn
  simp only [Option.join_none, Option.join_some, shift_none] at hn
  simp only [runs_bind, runs_setPointer]
  refine (runs_retain (hs.setPointer (Function.update s.object.mPointer h (some p))) hp
    (hs.room hp hroom)).mono ?_
  intro _ t ht
  obtain ⟨howns, hsame⟩ := ht
  have hsame : t.object.mPointer = Function.update s.object.mPointer h (some p) := hsame
  refine ⟨?_, hsame⟩
  unfold Valid
  rwa [hsame, hn]

omit [DecidableEq H] in
theorem Valid.names (hs : Valid s) (hp : s.object.mPointer h = some p) : Names p s := by
  intro a ha
  rw [Option.mem_def.mp ha] at hp
  exact hs.alive a (number_pos.mpr ⟨h, hp⟩)

theorem runs_copy (hs : Valid s) (hh : s.object.mPointer h = none)
    (ho : (s.object.mPointer other).isSome) (hroom : HasRoom (.copy h other) s) :
    Runs (copy h other) s fun _ t => Valid t := by
  obtain ⟨p, hp⟩ := Option.isSome_iff_exists.mp ho
  rw [HasRoom, Op.retained, hp, Option.join_some] at hroom
  rw [copy, runs_bind, runs_getPointer hp]
  exact (runs_point hs hh (hs.names hp) hroom).mono fun _ _ ht => ht.1

theorem runs_assign (hs : Valid s) (hh : (s.object.mPointer h).isSome)
    (ho : (s.object.mPointer other).isSome) (hroom : HasRoom (.assign h other) s) :
    Runs (assign h other) s fun _ t => Valid t := by
  obtain ⟨old, hold⟩ := Option.isSome_iff_exists.mp hh
  obtain ⟨temp, htemp⟩ := Option.isSome_iff_exists.mp ho
  rw [HasRoom, Op.retained, htemp, Option.join_some] at hroom
  have hn := number_update s.object.mPointer h (some temp)
  rw [hold] at hn
  simp only [Option.join_some] at hn
  rw [assign, runs_bind, runs_getPointer htemp, runs_bind]
  refine (runs_retain hs (hs.names htemp) (hs.room (hs.names htemp) hroom)).mono ?_
  intro _ t ht
  obtain ⟨howns, hsame⟩ := ht
  rw [runs_bind, runs_getPointer (hsame ▸ hold), runs_bind]
  -- the new pointer is counted already, so an object assigned to itself is not deleted
  have hpos : ∀ a ∈ old, 0 < shift (number s.object.mPointer) temp 1 a := by
    intro a ha
    have hnum := number_pos.mpr ⟨h, Option.mem_def.mp ha ▸ hold⟩
    unfold shift
    split <;> omega
  refine (runs_release howns hpos).mono ?_
  intro _ u hu
  obtain ⟨howns', hsame'⟩ := hu
  rw [runs_setPointer]
  unfold Valid
  rw [hsame', hsame, hn]
  exact howns'.setPointer _

theorem runs_destroy (hs : Valid s) (hh : (s.object.mPointer h).isSome) :
    Runs (destroy h) s fun _ t => Valid t := by
  obtain ⟨old, hold⟩ := Option.isSome_iff_exists.mp hh
  have hn := number_update s.object.mPointer h none
  rw [hold] at hn
  simp only [Option.join_none, Option.join_some, shift_none] at hn
  rw [destroy, runs_bind, runs_getPointer hold, runs_bind]
  have hpos : ∀ a ∈ old, 0 < number s.object.mPointer a := by
    intro a ha
    exact number_pos.mpr ⟨h, Option.mem_def.mp ha ▸ hold⟩
  refine (runs_release hs hpos).mono ?_
  intro _ t ht
  obtain ⟨howns, hsame⟩ := ht
  rw [runs_setPointer]
  unfold Valid
  rw [hsame, hn]
  exact howns.setPointer _

omit [DecidableEq H] in
/-- A new object, which nobody owns. -/
theorem runs_create (hs : Valid s) :
    Runs (do let _ ← new ⟨0⟩) s fun _ (t : State H) => Valid t := by
  simp only [runs_bind, runs_new, runs_pure]
  have hfresh : number s.object.mPointer s.heap.next = 0 := by
    by_contra hne
    have hnonneg := hs.nonneg s.heap.next
    have hsome := hs.alive s.heap.next (by omega)
    rw [s.heap.next_fresh] at hsome
    cases hsome
  constructor
  case counts =>
    intro a r hr
    rw [Heap.alloc_cells] at hr
    split at hr
    · next ha =>
      rw [ha, hfresh, ← Option.some.inj hr]
    · exact hs.counts a r hr
  case nonneg => exact hs.nonneg
  case bounded => exact hs.bounded
  case alive =>
    intro a ha
    rw [Heap.alloc_cells]
    split
    · rfl
    · exact hs.alive a ha
  case owned => exact hs.owned
  case deleted =>
    intro a ha hzero
    rw [Heap.alloc_cells, if_neg (Nat.ne_of_lt (hs.below a ha))]
    exact hs.deleted a ha hzero
  case unowned =>
    intro a hlt hnot
    rw [Heap.alloc_cells]
    split
    · rfl
    · next ha =>
      have hlt : a < s.heap.next + 1 := hlt
      exact hs.unowned a (Nat.lt_of_le_of_ne (Nat.le_of_lt_succ hlt) ha) hnot
  case below => exact fun a ha => Nat.lt_succ_of_lt (hs.below a ha)

theorem step_valid {op : Op H} (hs : Valid s) (hlegal : Legal op s) (hroom : HasRoom op s) :
    Runs (step op) s fun _ t => Valid t := by
  cases op with
  | create => exact runs_create hs
  | construct h => exact runs_construct hs hlegal
  | constructFrom h p =>
    exact (runs_point hs hlegal.1 hlegal.2 hroom).mono fun _ _ ht => ht.1
  | copy h other => exact runs_copy hs hlegal.1 hlegal.2 hroom
  | assign h other => exact runs_assign hs hlegal.1 hlegal.2 hroom
  | destroy h => exact runs_destroy hs hlegal

omit [DecidableEq H] in
theorem valid_initial : Valid (initial : State H) := by
  have hn : number (initial : State H).object.mPointer = fun _ => 0 := number_empty
  unfold Valid
  rw [hn]
  exact ⟨nofun, fun _ => le_rfl, fun _ => by decide, nofun, nofun, nofun, nofun, nofun⟩

/-- Every object keeps the right count as long as none gets more owners than its count can tell. -/
theorem run_owners (ops : List (Op H)) (hlegal : StepsMeet step Legal ops initial)
    (hroom : StepsMeet step HasRoom ops initial) :
    Runs (run ops) (initial : State H) fun _ s => Sound s := by
  refine (StepsMeet.runs_all (fun _ _ s => Valid s) ops ?_ valid_initial
    (hlegal.and hroom)).mono ?_
  · exact fun _ _ _ _ _ _ hs hop => step_valid hs hop.1 hop.2
  · exact fun _ _ hs => hs.sound

/-- Two SmartPointers share an object, one is assigned to itself, and both are destroyed. -/
theorem run_owners_shared : Runs (run [.create, .constructFrom 0 (some 0), .copy 1 0, .assign 1 1,
      .construct 2, .assign 2 1, .assign 0 2, .destroy 0, .destroy 1, .destroy 2])
    (initial : State (Fin 3)) fun _ s => Sound s :=
  run_owners _ (by decide) (by decide)

/-- These SmartPointers have been made from one object, and there are no others. -/
structure Crowd (hs : List H) (s : State H) : Prop where
  valid : Valid s
  object : (s.heap.cells 0).isSome
  pointers : ∀ h, s.object.mPointer h = if h ∈ hs then some (some 0) else none

theorem Crowd.number_eq {hs : List H} (hc : Crowd hs s) (hn : hs.Nodup) :
    number s.object.mPointer 0 = hs.length := by
  have hfilter : (Finset.univ.filter fun h => s.object.mPointer h = some (some 0)) =
      hs.toFinset := by
    ext h
    rw [Finset.mem_filter, List.mem_toFinset, hc.pointers]
    simp
  rw [number, hfilter, List.toFinset_card_of_nodup hn]

theorem Crowd.legal {hs : List H} (hc : Crowd hs s) (hh : h ∉ hs) :
    Legal (.constructFrom h (some 0)) s := by
  refine ⟨by rw [hc.pointers, if_neg hh], ?_⟩
  rintro a ha
  obtain rfl := Option.some.inj ha
  exact hc.object

theorem Crowd.grow {hs : List H} (hc : Crowd hs s) (hn : hs.Nodup) (hh : h ∉ hs)
    (hroom : hs.length < 2147483647) :
    Runs (step (.constructFrom h (some 0))) s fun _ t => Crowd (hs ++ [h]) t := by
  obtain ⟨hnone, hnames⟩ := hc.legal hh
  refine (runs_point hc.valid hnone hnames ?_).mono ?_
  · rintro a ha r hr
    obtain rfl := Option.some.inj ha
    rw [hc.valid.counts 0 r hr, hc.number_eq hn]
    omega
  · rintro _ t ⟨hvalid, hpointers⟩
    have hnew : t.object.mPointer h = some (some 0) := by rw [hpointers, Function.update_self]
    refine ⟨hvalid, hvalid.names hnew 0 rfl, fun v => ?_⟩
    rw [hpointers, Function.update_apply, hc.pointers]
    by_cases hv : v = h <;> simp [hv]

theorem Crowd.full {hs : List H} (hc : Crowd hs s) (hn : hs.Nodup)
    (hfull : hs.length = 2147483647) :
    Fails (step (.constructFrom h (some 0))) s .overflow := by
  refine Runs.fails (runs_setPointer.mpr ?_)
  refine retain_full (n := number s.object.mPointer) (hc.valid.setPointer _) hc.object ?_
  rw [hc.number_eq hn, hfull]
  rfl

/-- The SmartPointers are made one after the other. -/
def gather (hs : List H) : List (Op H) := hs.map fun h => .constructFrom h (some 0)

theorem Crowd.gather {hs more : List H} (hc : Crowd hs s) (hn : (hs ++ more).Nodup)
    (hroom : (hs ++ more).length ≤ 2147483647) :
    Runs (runAll step (gather more)) s fun _ t => Crowd (hs ++ more) t := by
  induction more generalizing hs s with
  | nil =>
    rw [List.append_nil]
    exact runs_pure.mpr hc
  | cons h more ih =>
    rw [List.append_cons] at hn hroom ⊢
    have hfirst := List.nodup_append.mp (List.nodup_append.mp hn).1
    have hh : h ∉ hs := fun hm => hfirst.2.2 h hm h (List.mem_singleton_self h) rfl
    simp only [SmartPointer.gather, List.map_cons, runAll, runs_bind, runs_pure]
    rw [List.length_append, List.length_append, List.length_singleton] at hroom
    refine (hc.grow hfirst.1 hh (by omega)).mono fun _ t ht => ih ht hn ?_
    rw [List.length_append, List.length_append, List.length_singleton]
    omega

theorem Crowd.gather_legal {hs more : List H} (hc : Crowd hs s) (hn : (hs ++ more).Nodup) :
    StepsMeet step Legal (SmartPointer.gather more) s := by
  induction more generalizing hs s with
  | nil => trivial
  | cons h more ih =>
    rw [List.append_cons] at hn
    have hfirst := List.nodup_append.mp (List.nodup_append.mp hn).1
    have hh : h ∉ hs := fun hm => hfirst.2.2 h hm h (List.mem_singleton_self h) rfl
    refine ⟨hc.legal hh, fun r t hrun => ?_⟩
    have hmax := hc.valid.bounded 0
    rw [hc.number_eq hfirst.1] at hmax
    rcases Nat.lt_or_eq_of_le (show hs.length ≤ 2147483647 by omega) with hroom | hfull
    · exact ih ((hc.grow hfirst.1 hh hroom).ensures r t hrun) hn
    · exact absurd ((hc.full hfirst.1 hfull).symm.trans hrun) nofun

/-- The SmartPointer that is one too many overflows the count. -/
theorem gather_full {hs : List H} (hn : (hs ++ [h]).Nodup) (hfull : hs.length = 2147483647) :
    StepsMeet step Legal (.create :: gather (hs ++ [h])) initial ∧
      ¬ Runs (run (.create :: gather (hs ++ [h]))) initial fun _ s => Sound s := by
  obtain ⟨_, s, hcreate, hvalid⟩ := runs_create (H := H) valid_initial
  have hc : Crowd [] s := by
    cases hcreate
    exact ⟨hvalid, rfl, fun _ => rfl⟩
  constructor
  · refine ⟨trivial, fun r t hrun => ?_⟩
    obtain ⟨-, rfl⟩ := Prod.mk.inj (Except.ok.inj (hcreate.symm.trans hrun))
    exact hc.gather_legal hn
  · intro hsound
    refine hsound.not_fails (f := .overflow) (Runs.fails ⟨_, s, hcreate, Fails.bind ?_⟩)
    rw [gather, List.map_append, List.map_singleton]
    refine fails_runAll ((hc.gather (List.nodup_append.mp hn).1 hfull.le).mono ?_)
    exact fun _ t ht => ht.full (List.nodup_append.mp hn).1 hfull

end

/-- One object, and one SmartPointer more than its count can tell. -/
def crowd : List (Op (Option (Fin 2147483647))) :=
  .create :: gather ((List.finRange 2147483647).map some ++ [none])

theorem run_owners_crowd : StepsMeet step Legal crowd initial ∧
    ¬ Runs (run crowd) initial fun _ s => Sound s := by
  refine gather_full ?_ ?_
  · rw [List.nodup_append]
    refine ⟨(List.nodup_finRange _).map (Option.some_injective _), List.nodup_singleton _, ?_⟩
    simp
  · rw [List.length_map, List.length_finRange]

end LanguageTest.SmartPointer
