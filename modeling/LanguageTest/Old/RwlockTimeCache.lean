import LanguageTest.Library.Monitor
import LanguageTest.Old.CachedTime
import Mathlib.Data.Fintype.Option

namespace LanguageTest.RwlockTimeCache
open Transition Monitor Precision CachedTime

variable {R : Type*}

/-- The two fields that hold the time of day. -/
inductive Field where
  | tv
  | tpRealtime
  deriving DecidableEq

/-- A value of such a field as history: how many there were before it, and what the kernel clock
showed, in ns, when it was taken. -/
structure Refresh where
  number : Nat
  reading : Nat

/-- The cached values, and what the kernel clocks showed last. -/
structure State where
  tv : Timeval
  tpRealtime : Timespec
  tpMonotonic : Timespec
  kernelRealtime : Nat
  kernelMonotonic : Nat
  refresh : Field → Refresh

/-- The value behind a result, as history. -/
structure Seen where
  call : WallCall
  refresh : Refresh

/-- Where the update thread is in `do_update_time`, and where a reader is, with the results that
it has had. -/
inductive Loc where
  | updateTv
  | updateRealtime
  | updateMonotonic
  | idle (results : List Result) (seen : List Seen)
  | calling (call : Call) (results : List Result) (seen : List Seen)

inductive Act where
  | next
  | reading (ns : Nat)
  | call (call : Call)

/-- `::gettimeofday`, which tells less than the clock shows. -/
def gettimeofday (ns : Nat) : Timeval := ⟨ns / 10 ^ 9, ns % 10 ^ 9 / 10 ^ 3⟩

def clockGettime (ns : Nat) : Timespec := ⟨ns / 10 ^ 9, ns % 10 ^ 9⟩

def State.refreshed (s : State) (field : Field) (ns : Nat) : Field → Refresh :=
  Function.update s.refresh field ⟨(s.refresh field).number + 1, ns⟩

/-- The section of `do_update_time` under `_tv_rwlock`. -/
def updateTv (ns : Nat) (s : State) : State :=
  { s with
    tv := gettimeofday ns
    kernelRealtime := ns
    refresh := s.refreshed .tv ns }

/-- The section under `_tp_realtime_rwlock`. -/
def updateRealtime (ns : Nat) (s : State) : State :=
  { s with
    tpRealtime := clockGettime ns
    kernelRealtime := ns
    refresh := s.refreshed .tpRealtime ns }

/-- The section under `_tp_monotonic_rwlock`. -/
def updateMonotonic (ns : Nat) (s : State) : State :=
  { s with tpMonotonic := clockGettime ns, kernelMonotonic := ns }

def cachedWall (s : State) : WallCall → Result
  | .time => .time s.tv.tvSec
  | .gettimeofday => .gettimeofday s.tv
  | .clockRealtime => .clockRealtime s.tpRealtime

/-- The field that a call reads. -/
def field : WallCall → Field
  | .time | .gettimeofday => .tv
  | .clockRealtime => .tpRealtime

/-- The section of a call under its read lock. -/
def cached (s : State) (rs : List Result) (seen : List Seen) : Call → Loc
  | .wall call => .idle (rs ++ [cachedWall s call]) (seen ++ [⟨call, s.refresh (field call)⟩])
  | .clockMonotonic => .idle (rs ++ [.clockMonotonic s.tpMonotonic]) seen
  | .clockOther => .idle rs seen

/-- Readings of a clock never go back. -/
def step (_ : Option R) (l : Loc) (a : Act) (s : State) : Option (Effect Empty Loc State) :=
  match l, a with
  | .updateTv, .reading ns =>
    if s.kernelRealtime ≤ ns then some (.go (updateTv ns s) .updateRealtime) else none
  | .updateRealtime, .reading ns =>
    if s.kernelRealtime ≤ ns then some (.go (updateRealtime ns s) .updateMonotonic) else none
  | .updateMonotonic, .reading ns =>
    if s.kernelMonotonic ≤ ns then some (.go (updateMonotonic ns s) .updateTv) else none
  | .idle rs seen, .call call => some (.go s (.calling call rs seen))
  | .calling call rs seen, .next => some (.go s (cached s rs seen call))
  | _, _ => none

/-- Every section under one of the locks is a single step, so that no lock is seen held. -/
def program : Threads (Option R) Empty Loc Act State := ⟨fun _ => .outside, step⟩

/-- The constructor updates the cache once, with these readings. -/
def construct (tv realtime monotonic : Nat) : State :=
  ⟨gettimeofday tv, clockGettime realtime, clockGettime monotonic, realtime, monotonic, fun
    | .tv => ⟨0, tv⟩
    | .tpRealtime => ⟨0, realtime⟩⟩

/-- The update thread is `none` and the others are readers. -/
def init (tv realtime monotonic : Nat) : Config (Option R) Empty Loc State :=
  ⟨construct tv realtime monotonic, none, fun
    | none => .ready .updateTv
    | some _ => .ready (.idle [] [])⟩

def Loc.results : Loc → List Result
  | .idle rs _ | .calling _ rs _ => rs
  | .updateTv | .updateRealtime | .updateMonotonic => []

/-- For no reader the time of day goes back. -/
def Sound (c : Config (Option R) Empty Loc State) : Prop :=
  ∀ r, ((c.loc (some r)).results.filterMap Result.wall).Pairwise NotEarlier

/-- What a call is about to read is not behind a value that the reader has seen and that the other
field still holds, as far as the coarser of the two calls can tell. -/
def Coherent (_ : Option R) (l : Loc) (s : State) : Prop :=
  match l with
  | .calling (.wall call) _ seen =>
    ∀ x ∈ seen, x.refresh.number = (s.refresh (field x.call)).number →
      (s.refresh (field x.call)).reading / max x.call.unit call.unit ≤
        (s.refresh (field call)).reading / max x.call.unit call.unit
  | _ => True

instance (t : Option R) (l : Loc) (s : State) : Decidable (Coherent t l s) := by
  unfold Coherent
  split <;> infer_instance

section Values

/-- The cached values are what the kernel clocks showed. -/
structure Cache (s : State) : Prop where
  tv : s.tv = gettimeofday (s.refresh .tv).reading
  tpRealtime : s.tpRealtime = clockGettime (s.refresh .tpRealtime).reading

/-- This field holds the earliest value, and no value is ahead of the clock. -/
structure Behind (s : State) (w : Field) : Prop where
  earliest : ∀ w', (s.refresh w).reading ≤ (s.refresh w').reading
  clock : ∀ w', (s.refresh w').reading ≤ s.kernelRealtime

/-- The two fields are refreshed in turn. -/
def Updating (s : State) : Loc → Prop
  | .updateTv | .updateMonotonic => Behind s .tv
  | .updateRealtime => Behind s .tpRealtime
  | .idle .. | .calling .. => False

/-- A value that a reader has seen is still there, or both fields have moved on from it. -/
structure Known (s : State) (x : Seen) : Prop where
  number : x.refresh.number ≤ (s.refresh (field x.call)).number
  current : x.refresh.number = (s.refresh (field x.call)).number →
    x.refresh = s.refresh (field x.call)
  past : x.refresh.number ≠ (s.refresh (field x.call)).number →
    ∀ w, x.refresh.reading ≤ (s.refresh w).reading

def Seen.told (x : Seen) : Told := truncate x.call.unit x.refresh.reading

/-- The results of a reader with the values behind them. -/
structure Results (s : State) (rs : List Result) (seen : List Seen) : Prop where
  told : rs.filterMap Result.wall = seen.map Seen.told
  known : ∀ x ∈ seen, Known s x
  forward : (seen.map Seen.told).Pairwise NotEarlier

/-- What a reader has seen stays known. -/
def Later (s u : State) : Prop := ∀ x, Known s x → Known u x

def Reads (s : State) : Loc → Prop
  | .idle rs seen | .calling _ rs seen => Results s rs seen
  | .updateTv | .updateRealtime | .updateMonotonic => False

variable {s u : State} {l : Loc} {a : Act} {t : Option R} {e : Effect Empty Loc State}
  {rs : List Result} {seen : List Seen} {x : Seen} {call : WallCall} {ns : Nat} {w w' : Field}

theorem cachedWall_eq (h : Cache s) (call : WallCall) :
    cachedWall s call = call.tell (s.refresh (field call)).reading := by
  cases call with
  | time => simp only [cachedWall, h.tv]; rfl
  | gettimeofday => simp only [cachedWall, h.tv]; rfl
  | clockRealtime => simp only [cachedWall, h.tpRealtime]; rfl

theorem eq_or_eq (hne : w' ≠ w) (v : Field) : v = w ∨ v = w' := by
  cases v <;> cases w <;> cases w' <;> simp at hne ⊢

theorem Behind.refresh (h : Behind s w) (hle : s.kernelRealtime ≤ ns)
    (hrefresh : u.refresh = s.refreshed w ns) (hclock : u.kernelRealtime = ns) (hne : w' ≠ w) :
    Behind u w' := by
  have hother : (u.refresh w').reading = (s.refresh w').reading := by
    rw [hrefresh, State.refreshed, Function.update_of_ne hne]
  have hself : (u.refresh w).reading = ns := by
    rw [hrefresh, State.refreshed, Function.update_self]
  have hbelow := Nat.le_trans (h.clock w') hle
  constructor
  case earliest =>
    intro v
    rcases eq_or_eq hne v with rfl | rfl
    · rw [hother, hself]
      exact hbelow
    · exact Nat.le_refl _
  case clock =>
    intro v
    rw [hclock]
    rcases eq_or_eq hne v with rfl | rfl
    · exact Nat.le_of_eq hself
    · rw [hother]
      exact hbelow

/-- A value that was seen stays known when the field that is behind is refreshed. -/
theorem Known.refresh (h : Known s x) (hw : Behind s w) (hle : s.kernelRealtime ≤ ns)
    (hrefresh : u.refresh = s.refreshed w ns) : Known u x := by
  have hself : u.refresh w = ⟨(s.refresh w).number + 1, ns⟩ := by
    rw [hrefresh, State.refreshed, Function.update_self]
  have hother : ∀ v, v ≠ w → u.refresh v = s.refresh v := by
    intro v hv
    rw [hrefresh, State.refreshed, Function.update_of_ne hv]
  have hgrow : ∀ v, (s.refresh v).reading ≤ (u.refresh v).reading := by
    intro v
    by_cases hv : v = w
    · rw [hv, hself]
      exact Nat.le_trans (hw.clock w) hle
    · rw [hother v hv]
  by_cases hx : field x.call = w
  · have hnumber := h.number
    rw [hx] at hnumber
    constructor
    case number =>
      rw [hx, hself]
      exact Nat.le_succ_of_le hnumber
    case current =>
      intro heq
      rw [hx, hself] at heq
      have heq : x.refresh.number = (s.refresh w).number + 1 := heq
      omega
    case past =>
      intro _ v
      refine Nat.le_trans ?_ (hgrow v)
      by_cases hcurrent : x.refresh.number = (s.refresh (field x.call)).number
      · rw [h.current hcurrent, hx]
        exact hw.earliest v
      · exact h.past hcurrent v
  · have hsame := hother (field x.call) hx
    constructor
    case number =>
      rw [hsame]
      exact h.number
    case current =>
      rw [hsame]
      exact h.current
    case past =>
      rw [hsame]
      intro hne v
      exact Nat.le_trans (h.past hne v) (hgrow v)

theorem Results.refresh (h : Results s rs seen) (hlater : Later s u) :
    Results u rs seen :=
  ⟨h.told, fun x hx => hlater x (h.known x hx), h.forward⟩

theorem updateTv_updating (hs : Cache s) (h : Behind s .tv) (hle : s.kernelRealtime ≤ ns) :
    Cache (updateTv ns s) ∧ Behind (updateTv ns s) .tpRealtime ∧
      Later s (updateTv ns s) := by
  refine ⟨⟨?_, hs.tpRealtime⟩, ?_, fun x hx => hx.refresh h hle rfl⟩
  · simp [updateTv, State.refreshed]
  · exact h.refresh hle rfl rfl (by simp)

theorem updateRealtime_updating (hs : Cache s) (h : Behind s .tpRealtime)
    (hle : s.kernelRealtime ≤ ns) :
    Cache (updateRealtime ns s) ∧ Behind (updateRealtime ns s) .tv ∧
      Later s (updateRealtime ns s) := by
  refine ⟨⟨hs.tv, ?_⟩, ?_, fun x hx => hx.refresh h hle rfl⟩
  · simp [updateRealtime, State.refreshed]
  · exact h.refresh hle rfl rfl (by simp)

theorem step_updating (hs : Cache s) (hl : Updating s l) (hstep : step t l a s = some e) :
    Cache e.shared ∧ Updating e.shared e.next.loc ∧ Later s e.shared := by
  cases l with
  | updateTv =>
    cases a with
    | reading ns =>
      obtain ⟨hle, heq⟩ := Option.ite_none_right_eq_some.mp hstep
      obtain rfl := Option.some.inj heq
      exact updateTv_updating hs hl hle
    | _ => cases hstep
  | updateRealtime =>
    cases a with
    | reading ns =>
      obtain ⟨hle, heq⟩ := Option.ite_none_right_eq_some.mp hstep
      obtain rfl := Option.some.inj heq
      exact updateRealtime_updating hs hl hle
    | _ => cases hstep
  | updateMonotonic =>
    cases a with
    | reading ns =>
      obtain ⟨-, heq⟩ := Option.ite_none_right_eq_some.mp hstep
      obtain rfl := Option.some.inj heq
      refine ⟨⟨hs.tv, hs.tpRealtime⟩, ⟨hl.earliest, hl.clock⟩, ?_⟩
      exact fun x hx => ⟨hx.number, hx.current, hx.past⟩
    | _ => cases hstep
  | idle _ _ | calling _ _ _ => exact hl.elim

/-- A call that reads the time of day. -/
theorem Results.wall (h : Results s rs seen) (hs : Cache s)
    (hok : ∀ x ∈ seen, NotEarlier x.told (truncate call.unit (s.refresh (field call)).reading)) :
    Results s (rs ++ [cachedWall s call]) (seen ++ [⟨call, s.refresh (field call)⟩]) := by
  constructor
  case told =>
    rw [cachedWall_eq hs, List.filterMap_append, List.map_append, h.told]
    simp [WallCall.wall_tell, Seen.told]
  case known =>
    intro x hx
    rcases List.mem_append.mp hx with hx | hx
    · exact h.known x hx
    · rw [List.mem_singleton.mp hx]
      exact ⟨Nat.le_refl _, fun _ => rfl, fun hne => absurd rfl hne⟩
  case forward =>
    rw [List.map_append, List.pairwise_append]
    refine ⟨h.forward, List.pairwise_singleton _ _, ?_⟩
    intro y hy z hz
    obtain ⟨x, hx, rfl⟩ := List.mem_map.mp hy
    obtain rfl := List.mem_singleton.mp hz
    exact hok x hx

theorem Results.of_forward (h : Results s rs seen) (hs : Cache s)
    (hforward : ((rs ++ [cachedWall s call]).filterMap Result.wall).Pairwise NotEarlier) :
    ∀ x ∈ seen, NotEarlier x.told (truncate call.unit (s.refresh (field call)).reading) := by
  rw [cachedWall_eq hs, List.filterMap_append, h.told, List.pairwise_append] at hforward
  intro x hx
  apply hforward.2.2 x.told (List.mem_map_of_mem hx)
  simp [WallCall.wall_tell]

/-- The condition is what a call needs to be told a time that is not earlier. -/
theorem Results.coherent_iff (h : Results s rs seen) :
    Coherent t (.calling (.wall call) rs seen) s ↔
      ∀ x ∈ seen, NotEarlier x.told (truncate call.unit (s.refresh (field call)).reading) := by
  apply forall₂_congr
  intro x hx
  rw [Seen.told, WallCall.notEarlier_tell]
  have hknown := h.known x hx
  by_cases hcurrent : x.refresh.number = (s.refresh (field x.call)).number
  · rw [hknown.current hcurrent]
    simp
  · simp only [hcurrent, false_implies, true_iff]
    exact Nat.div_le_div_right (hknown.past hcurrent _)

theorem step_reads (hok : Coherent t l s) (hs : Cache s) (hl : Reads s l)
    (hstep : step t l a s = some e) : e.shared = s ∧ Reads s e.next.loc := by
  cases l with
  | idle rs seen =>
    cases a with
    | call call =>
      obtain rfl := Option.some.inj hstep
      exact ⟨rfl, hl⟩
    | _ => cases hstep
  | calling call rs seen =>
    have hresults : Results s rs seen := hl
    cases a with
    | next =>
      obtain rfl := Option.some.inj hstep
      refine ⟨rfl, ?_⟩
      cases call with
      | wall call => exact hresults.wall hs (hresults.coherent_iff.mp hok)
      | clockMonotonic =>
        refine ⟨?_, hresults.known, hresults.forward⟩
        have hnone : [Result.clockMonotonic s.tpMonotonic].filterMap Result.wall = [] := rfl
        rw [List.filterMap_append, hnone, List.append_nil, hresults.told]
      | clockOther => exact hresults
    | _ => cases hstep
  | updateTv | updateRealtime | updateMonotonic => exact hl.elim

theorem Reads.refresh (h : Reads s l) (hlater : Later s u) : Reads u l := by
  cases l with
  | idle rs seen => exact Results.refresh h hlater
  | calling call rs seen => exact Results.refresh h hlater
  | _ => exact h.elim

theorem outline : Outline (program (R := R)) Coherent Cache (OneWriter Updating Reads) := by
  apply Outline.oneWriter
  · exact fun l a s e hs hl hstep => step_updating (R := R) (t := none) hs hl hstep
  · exact fun r l a s e hok hs hl hstep => step_reads hok hs hl hstep
  · exact fun s u l _ hlater hl => Reads.refresh hl hlater

theorem Reads.forward (h : Reads s l) :
    (l.results.filterMap Result.wall).Pairwise NotEarlier := by
  cases l with
  | idle rs seen =>
    have h : Results s rs seen := h
    rw [Loc.results, h.told]
    exact h.forward
  | calling call rs seen =>
    have h : Results s rs seen := h
    rw [Loc.results, h.told]
    exact h.forward
  | _ => exact h.elim

theorem holds_init {tv realtime monotonic : Nat} (hle : tv ≤ realtime) :
    Holds Cache (OneWriter Updating Reads) (init (R := R) tv realtime monotonic) := by
  refine ⟨⟨rfl, rfl⟩, ?_⟩
  intro t
  cases t with
  | some r => exact ⟨rfl, nofun, List.Pairwise.nil⟩
  | none =>
    constructor
    case earliest =>
      intro w
      cases w with
      | tv => exact Nat.le_refl _
      | tpRealtime => exact hle
    case clock =>
      intro w
      cases w with
      | tv => exact hle
      | tpRealtime => exact Nat.le_refl _

end Values

section Runs
variable [Fintype R] [DecidableEq R] {c u : Config (Option R) Empty Loc State}
  {b : Move (Option R) Act} {tv realtime monotonic : Nat}

omit [Fintype R] [DecidableEq R] in
theorem holds_sound (h : Holds Cache (OneWriter Updating Reads) c) : Sound c :=
  fun r => Reads.forward (h.2 (some r))

/-- A call that reads a field which is behind what the reader has seen goes back. -/
theorem incoherent_backward (h : Holds Cache (OneWriter Updating Reads) c)
    (hno : ¬ Allows Coherent c b) (hact : program.act c b = some u) : ¬ Sound u := by
  cases b with
  | wake t => exact absurd trivial hno
  | run t a pick =>
    obtain ⟨l, e, he, hran⟩ := Threads.act_ran hact
    have hcall : ¬ Coherent t (c.loc t) c.shared := hno
    have hl := h.2 t
    rw [hran.loc_here] at hcall hl
    intro hsound
    cases l with
    | calling call rs seen =>
      cases call with
      | wall call =>
        cases t with
        | none => exact hl
        | some r =>
          have hresults : Results c.shared rs seen := hl
          cases a with
          | next =>
            obtain rfl := Option.some.inj he
            have hforward := hsound r
            rw [hran.loc_self] at hforward
            exact hcall (hresults.coherent_iff.mpr (hresults.of_forward h.1 hforward))
          | _ => cases he
      | _ => exact hcall trivial
    | _ => exact hcall trivial

theorem run_forward_iff (hle : tv ≤ realtime) (acts : List (Move (Option R) Act))
    (hrun : exec program.act acts (init tv realtime monotonic) = some c) :
    Always program.act Sound acts (init tv realtime monotonic) ↔
      Meets program.act (Allows Coherent) acts (init tv realtime monotonic) :=
  always_iff_meets (fun _ _ _ hs hok hact => outline.act hs hok hact) (fun _ => holds_sound)
    (fun _ _ _ hs hno hact => incoherent_backward hs hno hact) (holds_init hle) hrun

/-- The reader sees the update from its first field to its second. -/
theorem run_forward_iff_order : ∃ c, exec program.act
    [.run (some 0) (.call (.wall .clockRealtime)) none, .run (some 0) .next none,
      .run none (.reading 1999999999) none,
      .run (some 0) (.call (.wall .gettimeofday)) none, .run (some 0) .next none,
      .run none (.reading 2000000000) none,
      .run (some 0) (.call (.wall .clockRealtime)) none, .run (some 0) .next none]
    (init 1500000000 1500000100 7 : Config (Option (Fin 1)) Empty Loc State) = some c ∧
    Always program.act Sound
      [.run (some 0) (.call (.wall .clockRealtime)) none, .run (some 0) .next none,
        .run none (.reading 1999999999) none,
        .run (some 0) (.call (.wall .gettimeofday)) none, .run (some 0) .next none,
        .run none (.reading 2000000000) none,
        .run (some 0) (.call (.wall .clockRealtime)) none, .run (some 0) .next none]
      (init 1500000000 1500000100 7 : Config (Option (Fin 1)) Empty Loc State) :=
  exists_exec (by decide +kernel) fun _ hrun =>
    (run_forward_iff (by decide) _ hrun).mpr (by decide +kernel)

/-- A second begins between the two readings of the constructor, and the reader asks for the ns
first. -/
theorem run_backward : ∃ c, exec program.act
    [.run (some 0) (.call (.wall .clockRealtime)) none, .run (some 0) .next none,
      .run (some 0) (.call (.wall .time)) none, .run (some 0) .next none]
    (init 999999999 1000000000 0 : Config (Option (Fin 1)) Empty Loc State) = some c ∧
    ¬ Sound c := by
  refine ⟨_, rfl, ?_⟩
  intro h
  have hforward := h 0
  revert hforward
  decide +kernel

end Runs

end LanguageTest.RwlockTimeCache
