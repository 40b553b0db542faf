import LanguageTest.Base.WeakPtrCounts

namespace LanguageTest.WeakPtr
open Handles

variable {H W : Type}

theorem counters_update {K : Type} [DecidableEq K] (pool : K → Option Fields) (k : K)
    (q : Option Fields) : counters (Function.update pool k q) =
      Function.update (counters pool) k (q.map Fields.cnt) := by
  funext j
  unfold counters
  by_cases hj : j = k
  · subst hj
    rw [Function.update_self, Function.update_self]
  · rw [Function.update_of_ne hj, Function.update_of_ne hj]

theorem counters_some {K : Type} {pool : K → Option Fields} {k : K} {a : Addr} :
    counters pool k = some (some a) ↔ ∃ x, pool k = some x ∧ x.cnt = some a :=
  Option.map_eq_some_iff

section
variable {s t : State H W} {h : H} {k : W} {x : Fields}

theorem runs_getShare {Q : Fields → State H W → Prop} (hx : s.object.share h = some x) :
    Runs (getShare h) s Q ↔ Q x s :=
  runs_of_ok (by simp [getShare, hx])

theorem runs_getWeak {Q : Fields → State H W → Prop} (hx : s.object.weak k = some x) :
    Runs (getWeak k) s Q ↔ Q x s :=
  runs_of_ok (by simp [getWeak, hx])

@[simp] theorem runs_setShare [DecidableEq H] {q : Option Fields}
    {Q : Unit → State H W → Prop} : Runs (setShare h q) s Q ↔
      Q () { s with object :=
        { s.object with share := Function.update s.object.share h q } } :=
  runs_of_ok rfl

@[simp] theorem runs_setWeak [DecidableEq W] {q : Option Fields}
    {Q : Unit → State H W → Prop} : Runs (setWeak k q) s Q ↔
      Q () { s with object := { s.object with weak := Function.update s.object.weak k q } } :=
  runs_of_ok rfl

end

variable [Fintype H] [Fintype W]

/-- The counters count the handles, and a handle points where its counter was made for. -/
structure Valid (s : State H W) : Prop where
  counted : Counted (number (counters s.object.share)) (number (counters s.object.weak)) s
  share : ∀ h x, s.object.share h = some x →
    ∃ a, x.cnt = some a ∧ s.object.target a = x.ptr
  weak : ∀ k x a, s.object.weak k = some x → x.cnt = some a → s.object.target a = x.ptr

/-- What is promised in every state. An object is there exactly as long as a SharePtr points to it
and a counter exactly as long as a handle has it; deleting either again would be a fault. -/
structure Sound (s : State H W) : Prop where
  counts : ∀ a c, s.heap.cells a = some c → c.w = number (counters s.object.weak) a ∧
    ∀ o, s.object.target a = some o → c.s = number (counters s.object.share) a
  share : ∀ h x, s.object.share h = some x →
    ∃ a, x.cnt = some a ∧ (s.heap.cells a).isSome ∧ s.object.target a = x.ptr
  weak : ∀ k x a, s.object.weak k = some x → x.cnt = some a →
    (s.heap.cells a).isSome ∧ s.object.target a = x.ptr
  object : ∀ o < s.object.objects.next, (s.object.objects.cells o).isSome ↔
    ∃ h x, s.object.share h = some x ∧ x.ptr = some o
  counter : ∀ a < s.heap.next, (s.heap.cells a).isSome ↔
    (∃ h, counters s.object.share h = some (some a)) ∨
      ∃ k, counters s.object.weak k = some (some a)

section
variable {s t : State H W} {h other : H} {k j : W} {x y : Fields} {a : Addr}

omit [Fintype W] in
theorem share_pos (hx : s.object.share h = some x) (ha : x.cnt = some a) :
    0 < number (counters s.object.share) a :=
  number_pos.mpr ⟨h, counters_some.mpr ⟨x, hx, ha⟩⟩

omit [Fintype H] in
theorem weak_pos (hx : s.object.weak k = some x) (ha : x.cnt = some a) :
    0 < number (counters s.object.weak) a :=
  number_pos.mpr ⟨k, counters_some.mpr ⟨x, hx, ha⟩⟩

theorem Valid.sound (hs : Valid s) : Sound s := by
  have hnonneg := hs.counted.nonneg
  constructor
  case counts =>
    intro a c hc
    obtain ⟨hshare, hweak⟩ := hs.counted.counter a c hc
    refine ⟨hweak, ?_⟩
    intro o ho
    rw [hshare, ho]
    exact Int.sub_zero _
  case share =>
    intro h x hx
    obtain ⟨a, ha, hptr⟩ := hs.share h x hx
    have hpos := share_pos hx ha
    have hweak := (hnonneg a).2
    exact ⟨a, ha, (hs.counted.alive a).mpr (by omega), hptr⟩
  case weak =>
    intro k x a hx ha
    have hpos := weak_pos hx ha
    have hshare := (hnonneg a).1
    exact ⟨(hs.counted.alive a).mpr (by omega), hs.weak k x a hx ha⟩
  case object =>
    intro o ho
    obtain ⟨a, ha, hao⟩ := (hs.counted.covered o).mp ho
    rw [hs.counted.object a o ha hao, number_pos]
    constructor
    · intro hex
      obtain ⟨h, hh⟩ := hex
      obtain ⟨x, hx, hcnt⟩ := counters_some.mp hh
      obtain ⟨b, hb, hptr⟩ := hs.share h x hx
      obtain rfl : a = b := Option.some.inj (hcnt.symm.trans hb)
      exact ⟨h, x, hx, hptr.symm.trans hao⟩
    · intro hex
      obtain ⟨h, x, hx, hptr⟩ := hex
      obtain ⟨b, hb, htarget⟩ := hs.share h x hx
      have hpos := share_pos hx hb
      have hlt := hs.counted.lt_next (a := b) (by have := hnonneg b; omega)
      obtain rfl := hs.counted.distinct a b o ha hlt hao (htarget.trans hptr)
      exact ⟨h, counters_some.mpr ⟨x, hx, hb⟩⟩
  case counter =>
    intro a _
    rw [hs.counted.alive a, ← number_pos, ← number_pos]
    have hn := hnonneg a
    omega

/-- `expired()` changes nothing and is the test it is meant to be. -/
theorem runs_expired (hs : Valid s) (hx : s.object.weak k = some x) :
    Runs (expired k) s fun b t => t = s ∧ (b = false ↔ Unexpired k s) := by
  rw [expired, runs_bind, runs_getWeak hx]
  cases hcnt : x.cnt with
  | none =>
    simp only [Option.isSome_none, Bool.false_eq_true, if_false, runs_pure]
    refine ⟨trivial, by simp, ?_⟩
    intro hex
    obtain ⟨y, hy, a, ha, -⟩ := hex
    obtain rfl := Option.some.inj (hx.symm.trans hy)
    rw [hcnt] at ha
    cases ha
  | some a =>
    have hpos := weak_pos hx hcnt
    have hnonneg := (hs.counted.nonneg a).1
    have hcell := hs.counted.exists_cell (a := a) (by omega)
    simp only [Option.isSome_some, if_true, runs_bind, runs_load, runs_pure]
    refine ⟨_, hcell, trivial, ?_⟩
    simp only [Bool.not_eq_false', decide_eq_true_eq]
    constructor
    · exact fun h => ⟨x, hx, a, hcnt, _, hcell, h⟩
    · intro hex
      obtain ⟨y, hy, b, hb, c, hc, h⟩ := hex
      obtain rfl := Option.some.inj (hx.symm.trans hy)
      obtain rfl := Option.some.inj (hcnt.symm.trans hb)
      obtain rfl := Option.some.inj (hcell.symm.trans hc)
      exact h

/-- The state after one SharePtr has changed. -/
theorem Valid.setShare [DecidableEq H] (hs : Valid s) {q : Option Fields}
    (hcounted : Counted (shift (shift (number (counters s.object.share)) (q.bind Fields.cnt) 1)
      ((s.object.share h).bind Fields.cnt) (-1)) (number (counters s.object.weak)) t)
    (hshare : t.object.share = Function.update s.object.share h q)
    (hweak : t.object.weak = s.object.weak) (htarget : t.object.target = s.object.target)
    (hq : ∀ x ∈ q, ∃ a, x.cnt = some a ∧ s.object.target a = x.ptr) : Valid t := by
  have hn : number (counters t.object.share) =
      shift (shift (number (counters s.object.share)) (q.bind Fields.cnt) 1)
        ((s.object.share h).bind Fields.cnt) (-1) := by
    rw [hshare, counters_update, number_update]
    congr 1
    · cases q <;> rfl
    · unfold counters
      cases s.object.share h <;> rfl
  constructor
  case counted =>
    rw [hweak, hn]
    exact hcounted
  case share =>
    intro v x hx
    rw [hshare] at hx
    rw [htarget]
    by_cases hv : v = h
    · subst hv
      rw [Function.update_self] at hx
      exact hq x hx
    · rw [Function.update_of_ne hv] at hx
      exact hs.share v x hx
  case weak =>
    rw [hweak, htarget]
    exact hs.weak

/-- The state after one WeakPtr has changed. -/
theorem Valid.setWeak [DecidableEq W] (hs : Valid s) {q : Option Fields}
    (hcounted : Counted (number (counters s.object.share))
      (shift (shift (number (counters s.object.weak)) (q.bind Fields.cnt) 1)
        ((s.object.weak k).bind Fields.cnt) (-1)) t)
    (hshare : t.object.share = s.object.share)
    (hweak : t.object.weak = Function.update s.object.weak k q)
    (htarget : t.object.target = s.object.target)
    (hq : ∀ x ∈ q, ∀ a, x.cnt = some a → s.object.target a = x.ptr) : Valid t := by
  have hn : number (counters t.object.weak) =
      shift (shift (number (counters s.object.weak)) (q.bind Fields.cnt) 1)
        ((s.object.weak k).bind Fields.cnt) (-1) := by
    rw [hweak, counters_update, number_update]
    congr 1
    · cases q <;> rfl
    · unfold counters
      cases s.object.weak k <;> rfl
  constructor
  case counted =>
    rw [hshare, hn]
    exact hcounted
  case share =>
    rw [hshare, htarget]
    exact hs.share
  case weak =>
    intro v x a hx ha
    rw [hweak] at hx
    rw [htarget]
    by_cases hv : v = k
    · subst hv
      rw [Function.update_self] at hx
      exact hq x hx a ha
    · rw [Function.update_of_ne hv] at hx
      exact hs.weak v x a hx ha

end

section
variable [DecidableEq H] {s t : State H W} {h other : H} {k : W} {x y : Fields} {a : Addr}

/-- A new SharePtr, for a null pointer or for an object that has just been made. -/
theorem runs_construct (hs : Valid s) (hh : s.object.share h = none) {p : Ptr}
    (hheap : t.heap = s.heap) (hkeeps : Keeps s t)
    (hobjects : p = none ∧ t.object.objects = s.object.objects ∨
      p = some s.object.objects.next ∧ t.object.objects = s.object.objects.alloc ()) :
    Runs (construct h p) t fun _ u => Valid u := by
  have hpost : ∀ u : State H W, u.heap.next = s.heap.next + 1 →
      (∀ b, b ≠ s.heap.next → u.heap.cells b = s.heap.cells b) →
      u.heap.cells s.heap.next = some ⟨1 - offset p, 0⟩ →
      u.object = { t.object with
        target := Function.update s.object.target s.heap.next p
        share := Function.update s.object.share h (some ⟨p, some s.heap.next⟩) } → Valid u := by
    intro u hnext hcells hhere hobject
    have hnew : NewCounter p s u := by
      refine ⟨hnext, ?_, hcells, hhere, ?_⟩
      · rw [hobject]
      · rw [hobject]
        exact hobjects
    have hcounted := hs.counted.new hnew
    have hold : ∀ b, 0 < number (counters s.object.share) b + number (counters s.object.weak) b →
        u.object.target b = s.object.target b := by
      intro b hb
      rw [hobject]
      exact Function.update_of_ne (Nat.ne_of_lt (hs.counted.lt_next hb)) ..
    have hshare : u.object.share =
        Function.update s.object.share h (some ⟨p, some s.heap.next⟩) := by rw [hobject]
    have hweak : u.object.weak = s.object.weak := by rw [hobject]; exact hkeeps.weak
    have hn : number (counters u.object.share) =
        shift (number (counters s.object.share)) (some s.heap.next) 1 := by
      rw [hshare, counters_update, number_update]
      simp [counters, hh]
    constructor
    case counted =>
      rw [hn, hweak]
      exact hcounted
    case share =>
      intro v x hx
      rw [hshare] at hx
      by_cases hv : v = h
      · subst hv
        rw [Function.update_self] at hx
        obtain rfl := Option.some.inj hx
        exact ⟨s.heap.next, rfl, by rw [hobject]; exact Function.update_self ..⟩
      · rw [Function.update_of_ne hv] at hx
        obtain ⟨a, ha, hptr⟩ := hs.share v x hx
        have hpos := share_pos hx ha
        have hnonneg := (hs.counted.nonneg a).2
        exact ⟨a, ha, (hold a (by omega)).trans hptr⟩
    case weak =>
      intro v x a hx ha
      rw [hweak] at hx
      have hpos := weak_pos hx ha
      have hnonneg := (hs.counted.nonneg a).1
      exact (hold a (by omega)).trans (hs.weak v x a hx ha)
  simp only [construct, newCounter, runs_bind, runs_new, hheap]
  cases p with
  | none =>
    simp only [runs_setObject, runs_pure, Option.isSome_none, Bool.false_eq_true, if_false,
      runs_setShare]
    refine hpost _ rfl ?_ ?_ ?_
    · intro b hb
      rw [Heap.alloc_cells, if_neg hb]
    · rw [Heap.alloc_cells, if_pos rfl]
      rfl
    · simp only [hkeeps.share, hkeeps.target]
  | some o =>
    simp only [runs_bind, runs_setObject, runs_pure, Option.isSome_some, if_true, runs_modify,
      runs_setShare]
    refine ⟨by simp, hpost _ rfl ?_ ?_ ?_⟩
    · intro b hb
      rw [Heap.modify_cells, if_neg hb, Heap.alloc_cells, if_neg hb]
    · rw [Heap.modify_cells, if_pos rfl, Heap.alloc_cells, if_pos rfl]
      rfl
    · simp only [hkeeps.share, hkeeps.target]

/-- A SharePtr made from the fields of another handle of an object with a SharePtr. -/
theorem runs_join (hs : Valid s) (hh : s.object.share h = none) (ha : x.cnt = some a)
    (hptr : s.object.target a = x.ptr) (hfull : x.ptr ≠ none)
    (hpos : 0 < number (counters s.object.share) a)
    (hroom : number (counters s.object.share) a < 2147483647) :
    Runs (do countShare x.cnt 1; setShare h (some x)) s fun _ t => Valid t := by
  rw [runs_bind, ha]
  refine (runs_addShare hs.counted hpos hroom (hptr ▸ hfull)).mono ?_
  intro _ t ht
  obtain ⟨hcounted, hkeeps⟩ := ht
  rw [runs_setShare]
  refine hs.setShare (h := h) (q := some x) ?_ ?_ hkeeps.weak hkeeps.target ?_
  · rw [hh]
    simp only [Option.bind_some, Option.bind_none, shift_none, ha]
    exact hcounted.setPools _ _
  · simp only [hkeeps.share]
  · intro y hy
    obtain rfl := Option.some.inj hy
    exact ⟨a, ha, hptr⟩

omit [DecidableEq H] in
/-- The count of a SharePtr that is not null is the number of SharePtrs. -/
theorem Valid.shareRoom (hs : Valid s) (ha : 0 < number (counters s.object.share) a)
    (hfull : s.object.target a ≠ none) {cnt : Option Ptr} (hcnt : cnt = some (some a))
    (hroom : ShareRoom cnt s) : number (counters s.object.share) a < 2147483647 := by
  have hnonneg := (hs.counted.nonneg a).2
  have hcell := hs.counted.exists_cell (a := a) (by omega)
  have hlt := hroom a (by rw [hcnt]; rfl) _ hcell
  obtain ⟨o, ho⟩ := Option.ne_none_iff_exists'.mp hfull
  simp only [ho, offset] at hlt
  omega

omit [DecidableEq H] in
theorem Valid.weakRoom (hs : Valid s)
    (ha : 0 < number (counters s.object.share) a + number (counters s.object.weak) a)
    {cnt : Option Ptr} (hcnt : cnt = some (some a)) (hroom : WeakRoom cnt s) :
    number (counters s.object.weak) a < 2147483647 := by
  have hlt := hroom a (by rw [hcnt]; rfl) _ (hs.counted.exists_cell ha)
  simpa only using hlt

theorem runs_copy (hs : Valid s) (hh : s.object.share h = none)
    (hother : (s.object.share other).isSome) (hfull : Full other s)
    (hroom : ShareRoom (counters s.object.share other) s) :
    Runs (copy h other) s fun _ t => Valid t := by
  obtain ⟨x, hx⟩ := Option.isSome_iff_exists.mp hother
  obtain ⟨a, ha, hptr⟩ := hs.share other x hx
  have hpos := share_pos hx ha
  rw [copy, runs_bind, runs_getShare hx]
  exact runs_join hs hh ha hptr (hfull x hx) hpos
    (hs.shareRoom hpos (hptr ▸ hfull x hx) (counters_some.mpr ⟨x, hx, ha⟩) hroom)

theorem runs_lock (hs : Valid s) (hh : s.object.share h = none) (hk : Unexpired k s)
    (hroom : ShareRoom (counters s.object.weak k) s) :
    Runs (lock h k) s fun _ t => Valid t := by
  obtain ⟨x, hx, a, ha, c, hc, hcpos⟩ := hk
  have hptr := hs.weak k x a hx ha
  obtain ⟨hshare, -⟩ := hs.counted.counter a c hc
  -- the counter of a null SharePtr stays below 1
  have hfull : x.ptr ≠ none := by
    intro hnull
    rw [hnull] at hptr
    have hone := hs.counted.null a hptr
    rw [hptr] at hshare
    simp only [offset] at hshare
    omega
  have hpos : 0 < number (counters s.object.share) a := by
    obtain ⟨o, ho⟩ := Option.ne_none_iff_exists'.mp hfull
    rw [hptr, ho] at hshare
    simp only [offset] at hshare
    omega
  rw [lock, runs_bind, runs_getWeak hx]
  exact runs_join hs hh ha hptr hfull hpos
    (hs.shareRoom hpos (hptr ▸ hfull) (counters_some.mpr ⟨x, hx, ha⟩) hroom)

theorem runs_destroy (hs : Valid s) (hh : (s.object.share h).isSome) :
    Runs (destroy h) s fun _ t => Valid t := by
  obtain ⟨x, hx⟩ := Option.isSome_iff_exists.mp hh
  obtain ⟨a, ha, hptr⟩ := hs.share h x hx
  rw [destroy, runs_bind, runs_getShare hx, runs_bind]
  refine (runs_shareRelease hs.counted ha hptr (share_pos hx ha)).mono ?_
  intro _ t ht
  obtain ⟨hcounted, hkeeps⟩ := ht
  rw [runs_setShare]
  refine hs.setShare (h := h) (q := none) ?_ ?_ hkeeps.weak hkeeps.target nofun
  · rw [hx]
    simp only [Option.bind_some, Option.bind_none, shift_none, ha]
    exact hcounted.setPools _ _
  · simp only [hkeeps.share]

theorem runs_assign (hs : Valid s) (hh : (s.object.share h).isSome)
    (hother : (s.object.share other).isSome) (hok : h = other ∨ Full other s ∧
      (counters s.object.share h = counters s.object.share other ∨
        ShareRoom (counters s.object.share other) s)) :
    Runs (assign h other) s fun _ t => Valid t := by
  by_cases hsame : h = other
  · simp only [assign, hsame, ne_eq, not_true, if_false]
    exact runs_pure.mpr hs
  obtain ⟨x, hx⟩ := Option.isSome_iff_exists.mp hh
  obtain ⟨y, hy⟩ := Option.isSome_iff_exists.mp hother
  obtain ⟨a, ha, hptr⟩ := hs.share h x hx
  obtain ⟨b, hb, hptr'⟩ := hs.share other y hy
  obtain ⟨hfull, hroom⟩ := hok.resolve_left hsame
  have hyfull := hfull y hy
  simp only [assign, ne_eq, hsame, not_false_eq_true, if_true, runs_bind]
  rw [runs_getShare hx]
  refine (runs_shareRelease hs.counted ha hptr (share_pos hx ha)).mono ?_
  intro x' t ht
  obtain ⟨hcounted, hkeeps⟩ := ht
  rw [runs_setShare]
  have hy' : Function.update t.object.share h (some x') other = some y := by
    rw [Function.update_of_ne (Ne.symm hsame), hkeeps.share]
    exact hy
  rw [runs_getShare hy', hb]
  -- the other SharePtr is still counted, and if it has the same counter there is room now
  have hx0 := counters_some.mpr ⟨x, hx, ha⟩
  have hy0 := counters_some.mpr ⟨y, hy, hb⟩
  have hpos : 0 < shift (number (counters s.object.share)) (some a) (-1) b := by
    have hone := share_pos hy hb
    by_cases hab : b = a
    · subst hab
      have htwo := number_two hsame hx0 hy0
      rw [shift_self]
      omega
    · rwa [shift_other hab]
  have hlt : shift (number (counters s.object.share)) (some a) (-1) b < 2147483647 := by
    by_cases hab : b = a
    · subst hab
      have hmax := (hs.counted.bounded b).1
      rw [shift_self]
      omega
    · rw [shift_other hab]
      refine hs.shareRoom (share_pos hy hb) (hptr' ▸ hyfull) hy0 (hroom.resolve_left fun heq => ?_)
      rw [hx0, hy0] at heq
      exact hab (Option.some.inj (Option.some.inj heq)).symm
  refine (runs_addShare (hcounted.setPools (Function.update t.object.share h (some x')) _) hpos hlt
    (by simp only [hkeeps.target, hptr']; exact hyfull)).mono ?_
  intro _ u hu
  obtain ⟨hcounted', hkeeps'⟩ := hu
  rw [runs_setShare]
  refine hs.setShare (h := h) (q := some y) ?_ ?_ (hkeeps'.weak.trans hkeeps.weak)
    (hkeeps'.target.trans hkeeps.target) ?_
  · rw [hx]
    simp only [Option.bind_some, ha, hb]
    rw [shift_comm]
    exact hcounted'.setPools _ _
  · simp only [hkeeps'.share, hkeeps.share, Function.update_idem]
  · intro z hz
    obtain rfl := Option.some.inj hz
    exact ⟨b, hb, hptr'⟩

end

section
variable [DecidableEq W] {s t : State H W} {h : H} {k j : W} {x y : Fields} {a b : Addr}

omit [DecidableEq W] in
/-- A WeakPtr that is not the last handle may go. -/
theorem Shared.more (hs : Valid s) (hx : s.object.weak k = some x) (hk : Shared k s) :
    ∀ a ∈ x.cnt, 0 < number (counters s.object.weak) a ∧
      1 < number (counters s.object.share) a + number (counters s.object.weak) a := by
  intro a ha
  have hone := weak_pos hx ha
  refine ⟨hone, ?_⟩
  rcases hk x hx a ha with hshare | ⟨j, hj, hweak⟩
  · have hpos := number_pos.mpr hshare
    omega
  · have htwo := number_two hj hweak (counters_some.mpr ⟨x, hx, ha⟩)
    have hnonneg := (hs.counted.nonneg a).1
    omega

theorem runs_weakConstruct (hs : Valid s) (hk : s.object.weak k = none) :
    Runs (weakConstruct k) s fun _ t => Valid t := by
  rw [weakConstruct, runs_setWeak]
  refine hs.setWeak (k := k) (q := some ⟨none, none⟩) ?_ rfl rfl rfl ?_
  · rw [hk]
    simp only [Option.bind_some, Option.bind_none, shift_none]
    exact hs.counted.setPools _ _
  · intro y hy a ha
    obtain rfl := Option.some.inj hy
    cases ha

/-- A WeakPtr made from the fields of another handle. -/
theorem runs_attach (hs : Valid s) (hk : s.object.weak k = none) (ha : x.cnt = some a)
    (hptr : s.object.target a = x.ptr)
    (hpos : 0 < number (counters s.object.share) a + number (counters s.object.weak) a)
    (hroom : number (counters s.object.weak) a < 2147483647) :
    Runs (do setWeak k (some x); countWeak x.cnt 1) s fun _ t => Valid t := by
  rw [runs_bind, runs_setWeak, ha]
  refine (runs_addWeak (hs.counted.setPools _ (Function.update s.object.weak k (some x)))
    hpos hroom).mono ?_
  intro _ t ht
  obtain ⟨hcounted, hkeeps⟩ := ht
  refine hs.setWeak (k := k) (q := some x) ?_ hkeeps.share hkeeps.weak hkeeps.target ?_
  · rw [hk]
    simp only [Option.bind_some, Option.bind_none, shift_none, ha]
    exact hcounted
  · intro y hy b hb
    obtain rfl := Option.some.inj hy
    obtain rfl := Option.some.inj (ha.symm.trans hb)
    exact hptr

theorem runs_weakFrom (hs : Valid s) (hk : s.object.weak k = none)
    (hh : (s.object.share h).isSome) (hroom : WeakRoom (counters s.object.share h) s) :
    Runs (weakFrom k h) s fun _ t => Valid t := by
  obtain ⟨x, hx⟩ := Option.isSome_iff_exists.mp hh
  obtain ⟨a, ha, hptr⟩ := hs.share h x hx
  have hpos := share_pos hx ha
  have hnonneg := (hs.counted.nonneg a).2
  rw [weakFrom, runs_bind, runs_getShare hx]
  exact runs_attach hs hk ha hptr (by omega)
    (hs.weakRoom (by omega) (counters_some.mpr ⟨x, hx, ha⟩) hroom)

theorem runs_weakCopy (hs : Valid s) (hk : s.object.weak k = none)
    (hj : (s.object.weak j).isSome) (hattached : Attached j s)
    (hroom : WeakRoom (counters s.object.weak j) s) :
    Runs (weakCopy k j) s fun _ t => Valid t := by
  obtain ⟨x, hx⟩ := Option.isSome_iff_exists.mp hj
  obtain ⟨a, ha⟩ := Option.ne_none_iff_exists'.mp (hattached x hx)
  have hpos := weak_pos hx ha
  have hnonneg := (hs.counted.nonneg a).1
  rw [weakCopy, runs_bind, runs_getWeak hx]
  exact runs_attach hs hk ha (hs.weak j x a hx ha) (by omega)
    (hs.weakRoom (by omega) (counters_some.mpr ⟨x, hx, ha⟩) hroom)

theorem runs_weakDestroy (hs : Valid s) (hk : (s.object.weak k).isSome) (hshared : Shared k s) :
    Runs (weakDestroy k) s fun _ t => Valid t := by
  obtain ⟨x, hx⟩ := Option.isSome_iff_exists.mp hk
  rw [weakDestroy, runs_bind, runs_getWeak hx, runs_bind]
  refine (runs_weakRelease hs.counted (hshared.more hs hx)).mono ?_
  intro _ t ht
  obtain ⟨hcounted, hkeeps⟩ := ht
  rw [runs_setWeak]
  refine hs.setWeak (k := k) (q := none) ?_ hkeeps.share ?_ hkeeps.target nofun
  · rw [hx]
    simp only [Option.bind_some, Option.bind_none, shift_none]
    exact hcounted.setPools _ _
  · simp only [hkeeps.weak]

/-- A WeakPtr that has been released takes the fields of another handle. -/
theorem runs_switch (hs : Valid s) (hx : s.object.weak k = some x) (hb : y.cnt = some b)
    (hptr : s.object.target b = y.ptr)
    (hcounted : Counted (number (counters s.object.share))
      (shift (number (counters s.object.weak)) x.cnt (-1)) t)
    (hshare : t.object.share = s.object.share) {q : Option Fields}
    (hweak : t.object.weak = Function.update s.object.weak k q)
    (htarget : t.object.target = s.object.target)
    (hpos : 0 < number (counters s.object.share) b +
      shift (number (counters s.object.weak)) x.cnt (-1) b)
    (hroom : x.cnt ≠ some b → number (counters s.object.weak) b < 2147483647) :
    Runs (do countWeak y.cnt 1; setWeak k (some y)) t fun _ u => Valid u := by
  have hlt : shift (number (counters s.object.weak)) x.cnt (-1) b < 2147483647 := by
    have hmax := (hs.counted.bounded b).2
    by_cases hcnt : x.cnt = some b
    · rw [shift, if_pos hcnt]
      omega
    · rw [shift, if_neg hcnt]
      exact hroom hcnt
  rw [runs_bind, hb]
  refine (runs_addWeak hcounted hpos hlt).mono ?_
  intro _ u hu
  obtain ⟨hcounted', hkeeps⟩ := hu
  rw [runs_setWeak]
  refine hs.setWeak (k := k) (q := some y) ?_ (hkeeps.share.trans hshare) ?_
    (hkeeps.target.trans htarget) ?_
  · rw [hx]
    simp only [Option.bind_some, hb]
    rw [shift_comm]
    exact hcounted'.setPools _ _
  · simp only [hkeeps.weak, hweak, Function.update_idem]
  · intro z hz c hc
    obtain rfl := Option.some.inj hz
    obtain rfl := Option.some.inj (hb.symm.trans hc)
    exact hptr

theorem runs_weakAssign (hs : Valid s) (hk : (s.object.weak k).isSome)
    (hj : (s.object.weak j).isSome) (hok : k = j ∨ Attached j s ∧ Shared k s ∧
      (counters s.object.weak k = counters s.object.weak j ∨
        WeakRoom (counters s.object.weak j) s)) :
    Runs (weakAssign k j) s fun _ t => Valid t := by
  by_cases hsame : k = j
  · simp only [weakAssign, hsame, ne_eq, not_true, if_false]
    exact runs_pure.mpr hs
  obtain ⟨hattached, hshared, hroom⟩ := hok.resolve_left hsame
  obtain ⟨x, hx⟩ := Option.isSome_iff_exists.mp hk
  obtain ⟨y, hy⟩ := Option.isSome_iff_exists.mp hj
  obtain ⟨b, hb⟩ := Option.ne_none_iff_exists'.mp (hattached y hy)
  simp only [weakAssign, ne_eq, hsame, not_false_eq_true, if_true, runs_bind]
  rw [runs_getWeak hx]
  refine (runs_weakRelease hs.counted (hshared.more hs hx)).mono ?_
  intro x' t ht
  obtain ⟨hcounted, hkeeps⟩ := ht
  rw [runs_setWeak]
  have hy' : Function.update t.object.weak k (some x') j = some y := by
    rw [Function.update_of_ne (Ne.symm hsame), hkeeps.weak]
    exact hy
  have hone := weak_pos hy hb
  have hnonneg := (hs.counted.nonneg b).1
  have hy0 := counters_some.mpr ⟨y, hy, hb⟩
  rw [runs_getWeak hy', ← runs_bind]
  refine runs_switch hs hx hb (hs.weak j y b hy hb) (hcounted.setPools _ _) hkeeps.share
    (q := some x') (by simp only [hkeeps.weak]) hkeeps.target ?_ ?_
  · -- the other WeakPtr is still counted
    by_cases hcnt : x.cnt = some b
    · have htwo := number_two hsame (counters_some.mpr ⟨x, hx, hcnt⟩) hy0
      simp only [shift, hcnt, if_true]
      omega
    · simp only [shift, hcnt, if_false]
      omega
  · intro hcnt
    refine hs.weakRoom (by omega) hy0 (hroom.resolve_left fun heq => hcnt ?_)
    obtain ⟨z, hz, hzb⟩ := counters_some.mp (heq.trans hy0)
    rwa [← Option.some.inj (hx.symm.trans hz)] at hzb

theorem runs_weakAssignShare (hs : Valid s) (hk : (s.object.weak k).isSome)
    (hh : (s.object.share h).isSome) (hok : Shared k s ∧
      (counters s.object.weak k = counters s.object.share h ∨
        WeakRoom (counters s.object.share h) s)) :
    Runs (weakAssignShare k h) s fun _ t => Valid t := by
  obtain ⟨hshared, hroom⟩ := hok
  obtain ⟨x, hx⟩ := Option.isSome_iff_exists.mp hk
  obtain ⟨y, hy⟩ := Option.isSome_iff_exists.mp hh
  obtain ⟨b, hb, hptr⟩ := hs.share h y hy
  simp only [weakAssignShare, runs_bind]
  rw [runs_getWeak hx]
  refine (runs_weakRelease hs.counted (hshared.more hs hx)).mono ?_
  intro x' t ht
  obtain ⟨hcounted, hkeeps⟩ := ht
  have hone := share_pos hy hb
  have hy0 := counters_some.mpr ⟨y, hy, hb⟩
  rw [runs_setWeak, runs_getShare (by simp only [hkeeps.share]; exact hy), ← runs_bind]
  refine runs_switch hs hx hb hptr (hcounted.setPools _ _) hkeeps.share
    (q := some x') (by simp only [hkeeps.weak]) hkeeps.target ?_ ?_
  · have hnonneg := (hcounted.nonneg b).2
    omega
  · intro hcnt
    have hnonneg := (hs.counted.nonneg b).2
    refine hs.weakRoom (by omega) hy0 (hroom.resolve_left fun heq => hcnt ?_)
    obtain ⟨z, hz, hzb⟩ := counters_some.mp (heq.trans hy0)
    rwa [← Option.some.inj (hx.symm.trans hz)] at hzb

end

section
variable [DecidableEq H] [DecidableEq W] {s : State H W}

theorem step_valid {op : Op H W} (hs : Valid s) (hlegal : Legal op s) (hok : Guarded op s) :
    Runs (step op) s fun _ t => Valid t := by
  cases op with
  | constructNew h =>
    rw [step, runs_bind]
    refine (runs_of_ok rfl).mpr ?_
    exact runs_construct hs hlegal rfl ⟨rfl, rfl, rfl⟩ (Or.inr ⟨rfl, rfl⟩)
  | constructNull h => exact runs_construct hs hlegal rfl ⟨rfl, rfl, rfl⟩ (Or.inl ⟨rfl, rfl⟩)
  | copy h other => exact runs_copy hs hlegal.1 hlegal.2 hok.1 hok.2
  | lock h k => exact runs_lock hs hlegal.1 hok.1 hok.2
  | assign h other => exact runs_assign hs hlegal.1 hlegal.2 hok
  | destroy h => exact runs_destroy hs hlegal
  | weakConstruct k => exact runs_weakConstruct hs hlegal
  | weakFrom k h => exact runs_weakFrom hs hlegal.1 hlegal.2 hok
  | weakCopy k j => exact runs_weakCopy hs hlegal.1 hlegal.2 hok.1 hok.2
  | weakAssign k j => exact runs_weakAssign hs hlegal.1 hlegal.2 hok
  | weakAssignShare k h => exact runs_weakAssignShare hs hlegal.1 hlegal.2 hok
  | weakDestroy k => exact runs_weakDestroy hs hlegal hok

omit [DecidableEq H] [DecidableEq W] in
theorem valid_initial : Valid (initial : State H W) := by
  have hn : number (counters (initial : State H W).object.share) = fun _ => 0 := number_empty
  have hm : number (counters (initial : State H W).object.weak) = fun _ => 0 := number_empty
  refine ⟨?_, nofun, nofun⟩
  rw [hn, hm]
  constructor
  case counter => exact nofun
  case nonneg => exact fun _ => ⟨le_rfl, le_rfl⟩
  case bounded => exact fun _ => by decide
  case alive => exact fun _ => iff_of_false nofun (by decide)
  case null => exact fun _ _ => Int.one_nonneg
  case object => exact nofun
  case distinct => exact nofun
  case covered =>
    intro o
    apply iff_of_false
    · exact Nat.not_lt_zero o
    · intro hex
      obtain ⟨a, ha, -⟩ := hex
      exact Nat.not_lt_zero a ha

theorem run_owned (ops : List (Op H W)) (hlegal : StepsMeet step Legal ops initial)
    (hok : StepsMeet step Guarded ops initial) :
    Runs (run ops) (initial : State H W) fun _ s => Sound s := by
  refine (StepsMeet.runs_all (fun _ _ s => Valid s) ops ?_ valid_initial (hlegal.and hok)).mono ?_
  · exact fun _ _ _ _ _ _ hs hop => step_valid hs hop.1 hop.2
  · exact fun _ _ hs => hs.sound

/-- Two SharePtrs and a WeakPtr of one object, which is locked and goes before the last two
SharePtrs. -/
theorem run_owned_lock : Runs (run [.constructNew 0, .copy 1 0, .weakFrom 0 0, .destroy 0,
      .lock 2 0, .weakConstruct 1, .weakAssign 1 0, .constructNull 0, .weakDestroy 0,
      .weakDestroy 1, .assign 0 1, .destroy 1, .destroy 2, .destroy 0])
    (initial : State (Fin 3) (Fin 2)) fun _ s => Sound s :=
  run_owned _ (by decide) (by decide)

/-- The object of an expired WeakPtr is given out again. -/
theorem run_revived :
    StepsMeet step Legal [.constructNew 0, .weakFrom 0 0, .destroy 0, .lock 1 0]
        (initial : State (Fin 2) (Fin 1)) ∧
      ¬ Runs (run [.constructNew 0, .weakFrom 0 0, .destroy 0, .lock 1 0])
        (initial : State (Fin 2) (Fin 1)) fun _ s => Sound s := by
  refine ⟨by decide, ?_⟩
  intro h
  obtain ⟨_, s, hs, hsound⟩ := h
  cases hs
  have hobject := (hsound.object 0 (by decide)).mpr ⟨1, _, rfl, rfl⟩
  cases hobject

end

end LanguageTest.WeakPtr
