import LanguageTest.Library.Monitor
import LanguageTest.Old.CachedTime
import Mathlib.Data.Fintype.Option

namespace LanguageTest.AtomicTimeCache
open Transition Monitor Precision CachedTime

/-- What the kernel reads from a clock, where `time_t` has `W` bits. The kernel counts its clocks
in 64 bits. -/
structure Reading (W : Nat) where
  tvSec : Nat
  tvNsec : Nat
  nsec_lt : tvNsec < 10 ^ 9
  sec_lt : tvSec < 2 ^ (W - 1)
  ns_lt : tvSec * 10 ^ 9 + tvNsec < 2 ^ 64

variable {R : Type*} {W : Nat}

def Reading.ns (tp : Reading W) : Nat := tp.tvSec * 10 ^ 9 + tp.tvNsec

/-- The arithmetic is that of `uint64_t`. -/
def transformTimeToUint64 (tp : Reading W) : Nat := (tp.tvSec * 10 ^ 9 + tp.tvNsec) % 2 ^ 64

/-- The conversion to a signed type of `W` bits. -/
def toTimeT (W n : Nat) : Int := Int.bmod n (2 ^ W)

def transformUint64ToTimespec (W t : Nat) : Timespec := ⟨toTimeT W (t / 10 ^ 9), (t % 10 ^ 9 : Nat)⟩

def transformUint64ToTimeval (W t : Nat) : Timeval :=
  ⟨toTimeT W (t / 10 ^ 9), (t % 10 ^ 9 / 10 ^ 3 : Nat)⟩

def transformUint64ToTimeT (W t : Nat) : Int := toTimeT W (t / 10 ^ 9)

/-- The fields of the cache, what the kernel clocks showed last, and as history the values stored
in the two fields that are read. -/
structure State where
  timeMonotonic : Nat
  timeRealtime : Nat
  preTimeRealtime : Nat
  kernelMonotonic : Nat
  kernelRealtime : Nat
  storedMonotonic : List Nat
  storedRealtime : List Nat

/-- Where the update thread is in `do_update_time`, and where a reader is, with the results that
it has had. In the branch for the monotonic clock the field was loaded and is read again, first
one of its words; `seen` is the whole value of the field at that moment. -/
inductive Loc (W : Nat) where
  | readMonotonic
  | readRealtime (tpMonotonic : Reading W)
  | storeMonotonic (tpMonotonic tpRealtime : Reading W)
  | savePre (tpRealtime : Reading W)
  | storeRealtime (tpRealtime : Reading W)
  | idle (results : List Result)
  | loaded (results : List Result)
  | word (results : List Result) (highFirst : Bool) (seen : Nat)

/-- What a step takes from outside: an answer of the kernel, the next call of a reader, or the
order in which it reads the two words. -/
inductive Act (W : Nat) where
  | next
  | reading (tp : Reading W)
  | call (call : Call)
  | order (highFirst : Bool)

def storeMonotonic (tp : Reading W) (s : State) : State :=
  { s with
    timeMonotonic := transformTimeToUint64 tp
    storedMonotonic := transformTimeToUint64 tp :: s.storedMonotonic }

def savePre (s : State) : State :=
  if s.timeRealtime > 0 then { s with preTimeRealtime := s.timeRealtime } else s

def storeRealtime (tp : Reading W) (s : State) : State :=
  { s with
    timeRealtime := transformTimeToUint64 tp
    storedRealtime := transformTimeToUint64 tp :: s.storedRealtime }

def cachedTime (W : Nat) (s : State) : Result := .time (transformUint64ToTimeT W s.timeRealtime)

def cachedGettimeofday (W : Nat) (s : State) : Result :=
  if 0 = s.timeRealtime then .failed (.wall .gettimeofday)
  else .gettimeofday (transformUint64ToTimeval W s.timeRealtime)

/-- The branch of `cached_clock_gettime` for `CLOCK_REALTIME`. -/
def cachedClockRealtime (W : Nat) (s : State) : Result :=
  if 0 = s.timeRealtime then .failed (.wall .clockRealtime)
  else .clockRealtime (transformUint64ToTimespec W s.timeRealtime)

/-- Each of these calls loads the field once. -/
def cachedWall (W : Nat) (s : State) : WallCall → Result
  | .time => cachedTime W s
  | .gettimeofday => cachedGettimeofday W s
  | .clockRealtime => cachedClockRealtime W s

/-- The first step of a call. -/
def cached (W : Nat) (s : State) (rs : List Result) : Call → Loc W
  | .wall call => .idle (rs ++ [cachedWall W s call])
  | .clockMonotonic =>
    if 0 = s.timeMonotonic then .idle (rs ++ [.failed .clockMonotonic]) else .loaded rs
  | .clockOther => .idle rs

def high (v : Nat) : Nat := v / 2 ^ 32
def low (v : Nat) : Nat := v % 2 ^ 32

/-- The two words of the plain read, of which the first was read when the field held `seen`. -/
def words (highFirst : Bool) (seen now : Nat) : Nat :=
  if highFirst then high seen * 2 ^ 32 + low now else high now * 2 ^ 32 + low seen

/-- Readings of a clock never go back. -/
def step (_ : Option R) (l : Loc W) (a : Act W) (s : State) :
    Option (Effect Empty (Loc W) State) :=
  match l, a with
  | .readMonotonic, .reading tp =>
    if s.kernelMonotonic ≤ tp.ns then
      some (.go { s with kernelMonotonic := tp.ns } (.readRealtime tp))
    else none
  | .readRealtime tpMonotonic, .reading tp =>
    if s.kernelRealtime ≤ tp.ns then
      some (.go { s with kernelRealtime := tp.ns } (.storeMonotonic tpMonotonic tp))
    else none
  | .storeMonotonic tpMonotonic tpRealtime, .next =>
    some (.go (storeMonotonic tpMonotonic s) (.savePre tpRealtime))
  | .savePre tpRealtime, .next => some (.go (savePre s) (.storeRealtime tpRealtime))
  | .storeRealtime tpRealtime, .next => some (.go (storeRealtime tpRealtime s) .readMonotonic)
  | .idle rs, .call call => some (.go s (cached W s rs call))
  | .loaded rs, .order highFirst => some (.go s (.word rs highFirst s.timeMonotonic))
  | .word rs highFirst seen, .next =>
    let tp := transformUint64ToTimespec W (words highFirst seen s.timeMonotonic)
    some (.go s (.idle (rs ++ [.clockMonotonic tp])))
  | _, _ => none

/-- No thread uses a lock. -/
def program : Threads (Option R) Empty (Loc W) (Act W) State := ⟨fun _ => .outside, step⟩

/-- The constructor updates the cache once, with these readings, and starts the update thread. -/
def construct (tpMonotonic tpRealtime : Reading W) : State :=
  storeRealtime tpRealtime (savePre (storeMonotonic tpMonotonic
    ⟨0, 0, 0, tpMonotonic.ns, tpRealtime.ns, [], []⟩))

/-- The update thread is `none` and the others are readers. -/
def init (tpMonotonic tpRealtime : Reading W) : Config (Option R) Empty (Loc W) State :=
  ⟨construct tpMonotonic tpRealtime, none, fun
    | none => .ready .readMonotonic
    | some _ => .ready (.idle [])⟩

/-- The results that a reader has had, the first one first. -/
def Loc.results : Loc W → List Result
  | .idle rs | .loaded rs | .word rs .. => rs
  | .readMonotonic | .readRealtime _ | .storeMonotonic .. | .savePre _ | .storeRealtime _ => []

/-- The step with which a call returns. Calls for the other clocks have no result here. -/
def answers (a : Act W) (after : Loc W) : Bool :=
  match a, after with
  | .call .clockOther, _ => false
  | _, .idle _ => true
  | _, _ => false

/-- A reader returns from a call. -/
def returns [DecidableEq R] (r : R) (_ : Config (Option R) Empty (Loc W) State)
    (b : Move (Option R) (Act W)) (u : Config (Option R) Empty (Loc W) State) : Bool :=
  match b with
  | .run t a _ => decide (t = some r) && answers a (u.loc (some r))
  | .wake _ => false

/-- What is promised about the time of day: no call fails, each result is the truncation of one
stored value, and the results of a reader never go back. -/
structure Wall (stored : List Nat) (rs : List Result) : Prop where
  succeeds : ∀ call, .failed call ∉ rs
  truncated : ∀ r ∈ rs, r.wall.isSome → ∃ call, ∃ v ∈ stored, r = WallCall.tell v call
  forward : (rs.filterMap Result.wall).Pairwise NotEarlier

/-- What is promised about the monotonic clock. -/
structure Monotonic (stored : List Nat) (rs : List Result) : Prop where
  decoded : ∀ tp, .clockMonotonic tp ∈ rs →
    ∃ v ∈ stored, tp = ⟨(v / 10 ^ 9 : Nat), (v % 10 ^ 9 : Nat)⟩
  forward : (rs.filterMap Result.monotonic).Pairwise NotEarlier

def WallSound (c : Config (Option R) Empty (Loc W) State) : Prop :=
  ∀ r, Wall c.shared.storedRealtime (c.loc (some r)).results

def MonotonicSound (c : Config (Option R) Empty (Loc W) State) : Prop :=
  ∀ r, Monotonic c.shared.storedMonotonic (c.loc (some r)).results

/-- Between the two words of a read, the field keeps one of them. -/
def WordKept (_ : Option R) (l : Loc W) (s : State) : Prop :=
  match l with
  | .word _ _ seen => high seen = high s.timeMonotonic ∨ low seen = low s.timeMonotonic
  | _ => True

instance (t : Option R) (l : Loc W) (s : State) : Decidable (WordKept t l s) := by
  cases l <;> unfold WordKept <;> infer_instance

section Conversions

variable {tp : Reading W} {v n : Nat}

theorem transformTimeToUint64_eq (tp : Reading W) : transformTimeToUint64 tp = tp.ns :=
  Nat.mod_eq_of_lt tp.ns_lt

/-- A time whose seconds `time_t` can hold. -/
def Fits (W v : Nat) : Prop := v / 10 ^ 9 < 2 ^ (W - 1)

theorem Reading.fits (tp : Reading W) : Fits W tp.ns := by
  have hsec := tp.sec_lt
  have hnsec := tp.nsec_lt
  have hdiv : tp.ns / 10 ^ 9 = tp.tvSec := by
    unfold ns
    omega
  rwa [Fits, hdiv]

theorem toTimeT_eq (h : n < 2 ^ (W - 1)) : toTimeT W n = n := by
  have htwo : n * 2 < 2 ^ W := by
    cases W with
    | zero =>
      have hzero : n < 1 := h
      rw [Nat.lt_one_iff.mp hzero]
      exact Nat.one_pos
    | succ W =>
      rw [Nat.add_sub_cancel] at h
      rw [Nat.pow_succ]
      omega
  apply Int.bmod_eq_of_le_mul_two <;> omega

theorem transformUint64ToTimespec_eq (h : Fits W v) :
    transformUint64ToTimespec W v = ⟨(v / 10 ^ 9 : Nat), (v % 10 ^ 9 : Nat)⟩ := by
  rw [transformUint64ToTimespec, toTimeT_eq h]

/-- A stored value that is not zero is told as it is. -/
theorem cachedWall_eq {s : State} (h : Fits W s.timeRealtime) (hpos : 0 < s.timeRealtime)
    (call : WallCall) : cachedWall W s call = call.tell s.timeRealtime := by
  cases call with
  | time =>
    rw [cachedWall, cachedTime, transformUint64ToTimeT, toTimeT_eq h]
    rfl
  | gettimeofday =>
    rw [cachedWall, cachedGettimeofday, if_neg (Nat.ne_of_lt hpos), transformUint64ToTimeval,
      toTimeT_eq h]
    rfl
  | clockRealtime =>
    rw [cachedWall, cachedClockRealtime, if_neg (Nat.ne_of_lt hpos), transformUint64ToTimespec_eq h]
    rfl

end Conversions

section Updates

variable {s u : State} {l : Loc W} {a : Act W} {t : Option R}
  {e : Effect Empty (Loc W) State} {first : Nat × Nat}

/-- A field holds the last of the values stored in it, which come from a clock that was at `first`
when the object was made. -/
structure Kept (W first value : Nat) (stored : List Nat) : Prop where
  current : value ∈ stored
  lower : ∀ v ∈ stored, first ≤ v
  upper : ∀ v ∈ stored, v ≤ value
  fits : ∀ v ∈ stored, Fits W v

theorem Kept.store {f value : Nat} {stored : List Nat} (h : Kept W f value stored)
    (tp : Reading W) (hle : value ≤ tp.ns) :
    Kept W f tp.ns (tp.ns :: stored) := by
  constructor
  case current => exact List.mem_cons_self ..
  case lower =>
    refine List.forall_mem_cons.mpr ⟨?_, h.lower⟩
    exact Nat.le_trans (h.lower value h.current) hle
  case upper =>
    refine List.forall_mem_cons.mpr ⟨Nat.le_refl _, ?_⟩
    exact fun v hv => Nat.le_trans (h.upper v hv) hle
  case fits => exact List.forall_mem_cons.mpr ⟨tp.fits, h.fits⟩

/-- The two fields, with the first readings of their clocks. -/
structure Cache (W : Nat) (first : Nat × Nat) (s : State) : Prop where
  monotonic : Kept W first.1 s.timeMonotonic s.storedMonotonic
  realtime : Kept W first.2 s.timeRealtime s.storedRealtime

/-- What the update thread has read is not stored yet and is the last reading of its clock. -/
def Updating (s : State) : Loc W → Prop
  | .readMonotonic =>
    s.timeMonotonic ≤ s.kernelMonotonic ∧ s.timeRealtime ≤ s.kernelRealtime
  | .readRealtime m =>
    (s.timeMonotonic ≤ m.ns ∧ m.ns = s.kernelMonotonic) ∧ s.timeRealtime ≤ s.kernelRealtime
  | .storeMonotonic m r =>
    (s.timeMonotonic ≤ m.ns ∧ m.ns = s.kernelMonotonic) ∧
      s.timeRealtime ≤ r.ns ∧ r.ns = s.kernelRealtime
  | .savePre r | .storeRealtime r =>
    s.timeMonotonic ≤ s.kernelMonotonic ∧ s.timeRealtime ≤ r.ns ∧ r.ns = s.kernelRealtime
  | .idle _ | .loaded _ | .word .. => False

/-- What the readers notice of an update. -/
structure Later (s u : State) : Prop where
  monotonic : ∀ v ∈ s.storedMonotonic, v ∈ u.storedMonotonic
  realtime : ∀ v ∈ s.storedRealtime, v ∈ u.storedRealtime

theorem step_updating (hs : Cache W first s) (hl : Updating s l) (hstep : step t l a s = some e) :
    Cache W first e.shared ∧ Updating e.shared e.next.loc ∧ Later s e.shared := by
  cases l with
  | readMonotonic =>
    cases a with
    | reading tp =>
      obtain ⟨hm, hr⟩ := hl
      obtain ⟨hle, heq⟩ := Option.ite_none_right_eq_some.mp hstep
      obtain rfl := Option.some.inj heq
      refine ⟨⟨hs.monotonic, hs.realtime⟩, ⟨⟨Nat.le_trans hm hle, rfl⟩, hr⟩, ?_⟩
      exact ⟨fun _ hv => hv, fun _ hv => hv⟩
    | _ => cases hstep
  | readRealtime m =>
    cases a with
    | reading tp =>
      obtain ⟨hm, hr⟩ := hl
      obtain ⟨hle, heq⟩ := Option.ite_none_right_eq_some.mp hstep
      obtain rfl := Option.some.inj heq
      refine ⟨⟨hs.monotonic, hs.realtime⟩, ⟨hm, Nat.le_trans hr hle, rfl⟩, ?_⟩
      exact ⟨fun _ hv => hv, fun _ hv => hv⟩
    | _ => cases hstep
  | storeMonotonic m r =>
    cases a with
    | next =>
      obtain ⟨hm, hr⟩ := hl
      obtain rfl := Option.some.inj hstep
      simp only [Effect.go, storeMonotonic, transformTimeToUint64_eq]
      refine ⟨⟨hs.monotonic.store m hm.1, hs.realtime⟩, ⟨Nat.le_of_eq hm.2, hr⟩, ?_⟩
      exact ⟨fun _ hv => List.mem_cons_of_mem _ hv, fun _ hv => hv⟩
    | _ => cases hstep
  | savePre r =>
    cases a with
    | next =>
      obtain rfl := Option.some.inj hstep
      simp only [Effect.go, savePre]
      split
      · exact ⟨⟨hs.monotonic, hs.realtime⟩, hl, ⟨fun _ hv => hv, fun _ hv => hv⟩⟩
      · exact ⟨hs, hl, ⟨fun _ hv => hv, fun _ hv => hv⟩⟩
    | _ => cases hstep
  | storeRealtime r =>
    cases a with
    | next =>
      obtain ⟨hm, hr⟩ := hl
      obtain rfl := Option.some.inj hstep
      simp only [Effect.go, storeRealtime, transformTimeToUint64_eq]
      refine ⟨⟨hs.monotonic, hs.realtime.store r hr.1⟩, ⟨hm, Nat.le_of_eq hr.2⟩, ?_⟩
      exact ⟨fun _ hv => hv, fun _ hv => List.mem_cons_of_mem _ hv⟩
    | _ => cases hstep
  | idle _ | loaded _ | word _ _ _ => exact hl.elim

end Updates

section Results

variable {stored stored' : List Nat} {rs : List Result} {v : Nat}

theorem Wall.grow (h : Wall stored rs) (hgrow : ∀ v ∈ stored, v ∈ stored') : Wall stored' rs := by
  refine ⟨h.succeeds, ?_, h.forward⟩
  intro r hr hsome
  obtain ⟨call, v, hv, heq⟩ := h.truncated r hr hsome
  exact ⟨call, v, hgrow v hv, heq⟩

/-- A further result that tells the latest stored value. -/
theorem Wall.tell (h : Wall stored rs) (hv : v ∈ stored) (hupper : ∀ w ∈ stored, w ≤ v)
    (call : WallCall) : Wall stored (rs ++ [call.tell v]) := by
  constructor
  case succeeds =>
    intro c hc
    rcases List.mem_append.mp hc with hc | hc
    · exact h.succeeds c hc
    · cases call <;> cases List.mem_singleton.mp hc
  case truncated =>
    intro r hr hsome
    rcases List.mem_append.mp hr with hr | hr
    · exact h.truncated r hr hsome
    · exact ⟨call, v, hv, List.mem_singleton.mp hr⟩
  case forward =>
    rw [List.filterMap_append, List.pairwise_append]
    refine ⟨h.forward, ?_, ?_⟩
    · simp [WallCall.wall_tell]
    · intro x hx y hy
      obtain ⟨r, hr, hwall⟩ := List.mem_filterMap.mp hx
      obtain ⟨c, w, hw, rfl⟩ := h.truncated r hr (Option.isSome_of_eq_some hwall)
      rw [WallCall.wall_tell] at hwall
      simp only [List.filterMap_cons, WallCall.wall_tell, List.filterMap_nil,
        List.mem_singleton] at hy
      rw [← Option.some.inj hwall, hy]
      exact WallCall.notEarlier_tell.mpr (Nat.div_le_div_right (hupper w hw))

theorem Wall.monotonic (h : Wall stored rs) (tp : Timespec) :
    Wall stored (rs ++ [.clockMonotonic tp]) := by
  constructor
  case succeeds =>
    intro c hc
    rcases List.mem_append.mp hc with hc | hc
    · exact h.succeeds c hc
    · cases List.mem_singleton.mp hc
  case truncated =>
    intro r hr hsome
    rcases List.mem_append.mp hr with hr | hr
    · exact h.truncated r hr hsome
    · rw [List.mem_singleton.mp hr] at hsome
      cases hsome
  case forward =>
    have hnone : [Result.clockMonotonic tp].filterMap Result.wall = [] := rfl
    rw [List.filterMap_append, hnone, List.append_nil]
    exact h.forward

theorem monotonic_unit {r : Result} {x : Told} (h : r.monotonic = some x) : x.unit = 1 := by
  cases r with
  | clockMonotonic tp =>
    obtain rfl := Option.some.inj h
    rfl
  | _ => cases h

theorem Monotonic.grow (h : Monotonic stored rs) (hgrow : ∀ v ∈ stored, v ∈ stored') :
    Monotonic stored' rs := by
  refine ⟨?_, h.forward⟩
  intro tp htp
  obtain ⟨v, hv, heq⟩ := h.decoded tp htp
  exact ⟨v, hgrow v hv, heq⟩

/-- A further result that tells a stored value, not less than any before. -/
theorem Monotonic.tell (h : Monotonic stored rs) (hv : v ∈ stored)
    (hle : ∀ x ∈ rs.filterMap Result.monotonic, x.time ≤ v) :
    Monotonic stored (rs ++ [.clockMonotonic ⟨(v / 10 ^ 9 : Nat), (v % 10 ^ 9 : Nat)⟩]) := by
  constructor
  case decoded =>
    intro tp htp
    rcases List.mem_append.mp htp with htp | htp
    · exact h.decoded tp htp
    · exact ⟨v, hv, Result.clockMonotonic.inj (List.mem_singleton.mp htp)⟩
  case forward =>
    rw [List.filterMap_append, List.pairwise_append]
    refine ⟨h.forward, List.pairwise_singleton _ _, ?_⟩
    intro x hx y hy
    have hxv := hle x hx
    obtain ⟨r, -, hr⟩ := List.mem_filterMap.mp hx
    obtain rfl := List.mem_singleton.mp hy
    apply (notEarlier_exact (monotonic_unit hr) rfl).mpr
    simp only
    omega

/-- The other calls do not count. -/
theorem Monotonic.other (h : Monotonic stored rs) {r : Result} (hr : r.monotonic = none) :
    Monotonic stored (rs ++ [r]) := by
  constructor
  case decoded =>
    intro tp htp
    rcases List.mem_append.mp htp with htp | htp
    · exact h.decoded tp htp
    · rw [← List.mem_singleton.mp htp] at hr
      cases hr
  case forward =>
    rw [List.filterMap_append, List.filterMap_cons_none hr, List.filterMap_nil, List.append_nil]
    exact h.forward

/-- The results so far are stored values up to a bound. -/
theorem Monotonic.upTo (h : Monotonic stored rs) (hupper : ∀ w ∈ stored, w ≤ v) :
    ∀ x ∈ rs.filterMap Result.monotonic, x.time ≤ v := by
  intro x hx
  obtain ⟨r, hr, htold⟩ := List.mem_filterMap.mp hx
  cases r with
  | clockMonotonic tp =>
    obtain ⟨w, hw, rfl⟩ := h.decoded tp hr
    obtain rfl := Option.some.inj htold
    have hle := hupper w hw
    simp only
    omega
  | _ => cases htold

end Results

section Readers

variable {s u : State} {l : Loc W} {a : Act W} {t : Option R}
  {e : Effect Empty (Loc W) State} {first : Nat × Nat}

def Loc.reads : Loc W → Bool
  | .idle _ | .loaded _ | .word .. => true
  | .readMonotonic | .readRealtime _ | .storeMonotonic .. | .savePre _ | .storeRealtime _ => false

def ReadsWall (s : State) (l : Loc W) : Prop := l.reads ∧ Wall s.storedRealtime l.results

theorem step_readsWall (hfirst : 0 < first.1 ∧ 0 < first.2) (hs : Cache W first s)
    (hl : ReadsWall s l) (hstep : step t l a s = some e) :
    e.shared = s ∧ ReadsWall s e.next.loc := by
  obtain ⟨hreads, hwall⟩ := hl
  cases l with
  | idle rs =>
    cases a with
    | call call =>
      obtain rfl := Option.some.inj hstep
      refine ⟨rfl, ?_⟩
      cases call with
      | wall call =>
        have hcurrent := hs.realtime.current
        have hpos := Nat.lt_of_lt_of_le hfirst.2 (hs.realtime.lower _ hcurrent)
        refine ⟨rfl, ?_⟩
        simp only [Effect.go, Next.loc, cached, Loc.results,
          cachedWall_eq (hs.realtime.fits _ hcurrent) hpos call]
        exact hwall.tell hcurrent hs.realtime.upper call
      | clockMonotonic =>
        have hpos := Nat.lt_of_lt_of_le hfirst.1
          (hs.monotonic.lower _ hs.monotonic.current)
        simp only [Effect.go, Next.loc, cached, if_neg (Nat.ne_of_lt hpos)]
        exact ⟨rfl, hwall⟩
      | clockOther => exact ⟨rfl, hwall⟩
    | _ => cases hstep
  | loaded rs =>
    cases a with
    | order highFirst =>
      obtain rfl := Option.some.inj hstep
      exact ⟨rfl, rfl, hwall⟩
    | _ => cases hstep
  | word rs highFirst seen =>
    cases a with
    | next =>
      obtain rfl := Option.some.inj hstep
      exact ⟨rfl, rfl, hwall.monotonic _⟩
    | _ => cases hstep
  | readMonotonic | readRealtime _ | storeMonotonic _ _ | savePre _ | storeRealtime _ =>
    cases hreads

/-- A reader between the two words has had no result later than the value it has seen. -/
def ReadsMonotonic (s : State) (l : Loc W) : Prop :=
  match l with
  | .idle rs | .loaded rs => Monotonic s.storedMonotonic rs
  | .word rs _ seen =>
    Monotonic s.storedMonotonic rs ∧ seen ∈ s.storedMonotonic ∧
      ∀ x ∈ rs.filterMap Result.monotonic, x.time ≤ seen
  | .readMonotonic | .readRealtime _ | .storeMonotonic .. | .savePre _ | .storeRealtime _ => False

theorem words_eq (highFirst : Bool) {seen now : Nat}
    (h : high seen = high now ∨ low seen = low now) :
    words highFirst seen now = seen ∨ words highFirst seen now = now := by
  unfold words
  unfold high low at h ⊢
  cases highFirst <;> simp only [if_true, if_false, Bool.false_eq_true] <;> omega

theorem cachedWall_monotonic (s : State) (call : WallCall) :
    (cachedWall W s call).monotonic = none := by
  cases call with
  | time => rfl
  | gettimeofday =>
    simp only [cachedWall, cachedGettimeofday]
    split <;> rfl
  | clockRealtime =>
    simp only [cachedWall, cachedClockRealtime]
    split <;> rfl

theorem step_readsMonotonic (hok : WordKept t l s) (hs : Cache W first s)
    (hl : ReadsMonotonic s l) (hstep : step t l a s = some e) :
    e.shared = s ∧ ReadsMonotonic s e.next.loc := by
  cases l with
  | idle rs =>
    cases a with
    | call call =>
      obtain rfl := Option.some.inj hstep
      refine ⟨rfl, ?_⟩
      cases call with
      | wall call => exact hl.other (cachedWall_monotonic s call)
      | clockMonotonic =>
        simp only [Effect.go, Next.loc, cached]
        split
        · exact hl.other rfl
        · exact hl
      | clockOther => exact hl
    | _ => cases hstep
  | loaded rs =>
    cases a with
    | order highFirst =>
      obtain rfl := Option.some.inj hstep
      exact ⟨rfl, hl, hs.monotonic.current, hl.upTo hs.monotonic.upper⟩
    | _ => cases hstep
  | word rs highFirst seen =>
    cases a with
    | next =>
      obtain ⟨hrs, hseen, hle⟩ := hl
      obtain rfl := Option.some.inj hstep
      refine ⟨rfl, ?_⟩
      simp only [Effect.go, Next.loc, ReadsMonotonic]
      rcases words_eq highFirst hok with heq | heq
      · rw [heq, transformUint64ToTimespec_eq (hs.monotonic.fits seen hseen)]
        exact hrs.tell hseen hle
      · have hcurrent := hs.monotonic.current
        rw [heq, transformUint64ToTimespec_eq (hs.monotonic.fits _ hcurrent)]
        exact hrs.tell hcurrent (hrs.upTo hs.monotonic.upper)
    | _ => cases hstep
  | readMonotonic | readRealtime _ | storeMonotonic _ _ | savePre _ | storeRealtime _ =>
    exact hl.elim

theorem ReadsMonotonic.results {s : State} {l : Loc W} (h : ReadsMonotonic s l) :
    Monotonic s.storedMonotonic l.results := by
  cases l with
  | idle rs | loaded rs => exact h
  | word rs highFirst seen => exact h.1
  | readMonotonic | readRealtime _ | storeMonotonic _ _ | savePre _ | storeRealtime _ =>
    exact h.elim

theorem ReadsMonotonic.grow {s u : State} {l : Loc W} (h : ReadsMonotonic s l)
    (hlater : Later s u) : ReadsMonotonic u l := by
  cases l with
  | idle rs | loaded rs => exact Monotonic.grow h hlater.monotonic
  | word rs highFirst seen =>
    exact ⟨h.1.grow hlater.monotonic, hlater.monotonic seen h.2.1, h.2.2⟩
  | readMonotonic | readRealtime _ | storeMonotonic _ _ | savePre _ | storeRealtime _ =>
    exact h.elim

theorem outline_wall (hfirst : 0 < first.1 ∧ 0 < first.2) :
    Outline (program (R := R) (W := W)) (fun _ _ _ => True) (Cache W first)
      (OneWriter Updating ReadsWall) := by
  apply Outline.oneWriter
  · exact fun l a s e hs hl hstep => step_updating (R := R) (t := none) hs hl hstep
  · exact fun r l a s e _ hs hl hstep => step_readsWall (t := some r) hfirst hs hl hstep
  · exact fun s u l _ hlater hl => ⟨hl.1, hl.2.grow hlater.realtime⟩

theorem outline_monotonic :
    Outline (program (R := R) (W := W)) WordKept (Cache W first)
      (OneWriter Updating ReadsMonotonic) := by
  apply Outline.oneWriter
  · exact fun l a s e hs hl hstep => step_updating (R := R) (t := none) hs hl hstep
  · exact fun r l a s e hok hs hl hstep => step_readsMonotonic hok hs hl hstep
  · exact fun s u l _ hlater hl => hl.grow hlater

end Readers

section Answers

variable {s : State} {l : Loc W} {a : Act W} {t : Option R} {e : Effect Empty (Loc W) State}

/-- A call that returns adds one result behind the others, and no other step changes them. -/
theorem step_results (hstep : step t l a s = some e) :
    ∃ rs, e.next.loc.results = l.results ++ rs ∧ rs.length = (answers a e.next.loc).toNat := by
  cases l with
  | readMonotonic | readRealtime _ =>
    cases a with
    | reading tp =>
      obtain ⟨-, heq⟩ := Option.ite_none_right_eq_some.mp hstep
      obtain rfl := Option.some.inj heq
      exact ⟨[], rfl, rfl⟩
    | _ => cases hstep
  | storeMonotonic _ _ | savePre _ | storeRealtime _ =>
    cases a with
    | next =>
      obtain rfl := Option.some.inj hstep
      exact ⟨[], rfl, rfl⟩
    | _ => cases hstep
  | idle rs =>
    cases a with
    | call call =>
      obtain rfl := Option.some.inj hstep
      cases call with
      | wall call => exact ⟨[cachedWall W s call], rfl, rfl⟩
      | clockMonotonic =>
        simp only [Effect.go, Next.loc, cached]
        split_ifs
        · exact ⟨[.failed .clockMonotonic], rfl, rfl⟩
        · exact ⟨[], (List.append_nil rs).symm, rfl⟩
      | clockOther => exact ⟨[], (List.append_nil rs).symm, rfl⟩
    | _ => cases hstep
  | loaded rs =>
    cases a with
    | order highFirst =>
      obtain rfl := Option.some.inj hstep
      exact ⟨[], (List.append_nil rs).symm, rfl⟩
    | _ => cases hstep
  | word rs highFirst seen =>
    cases a with
    | next =>
      obtain rfl := Option.some.inj hstep
      exact ⟨_, rfl, rfl⟩
    | _ => cases hstep

variable [Fintype R] [DecidableEq R] {m r : Reading W} {acts : List (Move (Option R) (Act W))}
  {c u : Config (Option R) Empty (Loc W) State} {b : Move (Option R) (Act W)}

theorem act_results (v : R) (hact : program.act c b = some u) :
    (u.loc (some v)).results.length =
      (c.loc (some v)).results.length + (returns v c b u).toNat := by
  cases b with
  | wake t =>
    rw [(Threads.act_woke hact).loc]
    rfl
  | run t a pick =>
    obtain ⟨l, e, he, hran⟩ := Threads.act_ran hact
    by_cases ht : t = some v
    · subst ht
      obtain ⟨rs, hrs, hlength⟩ := step_results (t := some v) he
      rw [hran.loc_here, hran.loc_self, hrs, List.length_append, hlength]
      simp [returns, hran.loc_self]
    · rw [hran.loc _ (Ne.symm ht)]
      simp [returns, ht]

/-- A reader has as many results as its calls have returned. -/
theorem run_results (hrun : exec program.act acts (init m r) = some c) (v : R) :
    (c.loc (some v)).results.length = countSteps program.act (returns v) acts (init m r) := by
  have hcount := exec_count (fun c => (c.loc (some v)).results.length)
    (fun _ _ _ => act_results v) hrun
  exact hcount.trans (Nat.zero_add _)

end Answers

section Runs

variable {m r : Reading W}

theorem cache_construct (m r : Reading W) : Cache W (m.ns, r.ns) (construct m r) := by
  have hkept : ∀ tp : Reading W, Kept W tp.ns tp.ns [tp.ns] := by
    intro tp
    refine ⟨List.mem_singleton_self _, ?_, ?_, ?_⟩
    · exact fun v hv => Nat.le_of_eq (List.mem_singleton.mp hv).symm
    · exact fun v hv => Nat.le_of_eq (List.mem_singleton.mp hv)
    · intro v hv
      rw [List.mem_singleton.mp hv]
      exact tp.fits
  simp only [construct, storeRealtime, savePre, storeMonotonic, transformTimeToUint64_eq]
  exact ⟨hkept m, hkept r⟩

theorem updating_construct (m r : Reading W) :
    Updating (construct m r) (.readMonotonic : Loc W) := by
  simp only [construct, storeRealtime, savePre, storeMonotonic, transformTimeToUint64_eq]
  exact ⟨Nat.le_refl _, Nat.le_refl _⟩

theorem holds_init {Reads : State → Loc W → Prop} (h : Reads (construct m r) (.idle [])) :
    Holds (Cache W (m.ns, r.ns)) (OneWriter Updating Reads) (init (R := R) m r) := by
  refine ⟨cache_construct m r, ?_⟩
  intro t
  cases t with
  | none => exact updating_construct m r
  | some v => exact h

variable [Fintype R] [DecidableEq R] {c : Config (Option R) Empty (Loc W) State}

theorem run_wall (hm : 0 < m.ns) (hr : 0 < r.ns) (acts : List (Move (Option R) (Act W)))
    (hrun : exec program.act acts (init m r) = some c) : WallSound c := by
  have hholds := (outline_wall ⟨hm, hr⟩).runs
    (holds_init ⟨rfl, nofun, nofun, List.Pairwise.nil⟩) hrun
  exact fun v => (hholds.2 (some v)).2

/-- A second begins while a reader asks for the seconds, and then for the ns. -/
theorem run_wall_second : ∃ c, exec program.act
    [.run (some 0) (.call (.wall .time)) none,
      .run none (.reading ⟨2, 1, by decide, by decide, by decide⟩) none,
      .run none (.reading ⟨2, 0, by decide, by decide, by decide⟩) none,
      .run none .next none, .run none .next none,
      .run (some 0) (.call (.wall .gettimeofday)) none, .run none .next none,
      .run (some 0) (.call (.wall .clockRealtime)) none]
    (init ⟨1, 999999999, by decide, by decide, by decide⟩
      ⟨1, 999999998, by decide, by decide, by decide⟩ :
      Config (Option (Fin 1)) Empty (Loc 32) State) = some c ∧ WallSound c :=
  exists_exec (by decide +kernel) fun _ hrun => run_wall (by decide) (by decide) _ hrun

theorem run_monotonic (acts : List (Move (Option R) (Act W)))
    (hok : Meets program.act (Allows WordKept) acts (init m r))
    (hrun : exec program.act acts (init m r) = some c) : MonotonicSound c := by
  have hholds := exec_invariant (fun _ _ _ hs hok hact => outline_monotonic.act hs hok hact)
    (holds_init ⟨nofun, List.Pairwise.nil⟩) hok hrun
  exact fun v => (hholds.2 (some v)).results

/-- An update that leaves the high word as it is falls between the two words. -/
theorem run_monotonic_low : ∃ c, exec program.act
    [.run (some 0) (.call .clockMonotonic) none, .run (some 0) (.order true) none,
      .run none (.reading ⟨4, 294967295, by decide, by decide, by decide⟩) none,
      .run none (.reading ⟨9, 0, by decide, by decide, by decide⟩) none,
      .run none .next none, .run (some 0) .next none]
    (init ⟨4, 294967290, by decide, by decide, by decide⟩
      ⟨8, 0, by decide, by decide, by decide⟩ :
      Config (Option (Fin 1)) Empty (Loc 32) State) = some c ∧ MonotonicSound c :=
  exists_exec (by decide +kernel) fun _ hrun => run_monotonic _ (by decide +kernel) hrun

/-- The high word is read before the update that carries into it, and the low word after. -/
theorem run_monotonic_torn : ∃ c, exec program.act
    [.run (some 0) (.call .clockMonotonic) none, .run (some 0) (.order true) none,
      .run none (.reading ⟨4, 294967296, by decide, by decide, by decide⟩) none,
      .run none (.reading ⟨9, 0, by decide, by decide, by decide⟩) none,
      .run none .next none, .run (some 0) .next none]
    (init ⟨4, 294967295, by decide, by decide, by decide⟩
      ⟨8, 0, by decide, by decide, by decide⟩ :
      Config (Option (Fin 1)) Empty (Loc 32) State) = some c ∧ ¬ MonotonicSound c := by
  refine ⟨_, rfl, ?_⟩
  intro h
  obtain ⟨v, hv, heq⟩ := (h 0).decoded ⟨0, 0⟩ (by decide +kernel)
  have hstored : v ∈ [4294967296, 4294967295] := hv
  rcases List.mem_cons.mp hstored with rfl | hfirst
  · cases heq
  · obtain rfl := List.mem_singleton.mp hfirst
    cases heq

end Runs

end LanguageTest.AtomicTimeCache
