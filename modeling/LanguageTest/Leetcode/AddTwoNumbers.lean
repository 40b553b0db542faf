import LanguageTest.Library.Arithmetic
import LanguageTest.Library.Carry
import LanguageTest.Library.SinglyLinked

namespace LanguageTest.AddTwoNumbers
open Nat

structure ListNode where
  val : Int
  next : Ptr

abbrev State := Machine Unit ListNode

/-- The variables of the loops. -/
structure Cursors where
  cur : Ptr
  cur1 : Ptr
  cur2 : Ptr
  flag : Int

/-- `p->val = v`. -/
def assignVal (p : Ptr) (v : Int) : Program State Unit := modify p fun n => { n with val := v }

/-- `if (flag) { temp->val += flag; flag = 0; }`, with the value of `flag` after it. -/
def addFlag (temp : Ptr) (flag : Int) : Program State Int := do
  if flag ≠ 0 then
    assignVal temp (← int ((← load temp).val + flag))
    pure 0
  else pure flag

/-- `if (temp->val >= 10) { temp->val %= 10; flag = 1; }`, with the value of `flag` after it. -/
def takeTen (temp : Ptr) (flag : Int) : Program State Int := do
  if (← load temp).val ≥ 10 then
    assignVal temp (← rem (← load temp).val 10)
    pure 1
  else pure flag

/-- `cur->next = temp; cur = cur->next;`, with the value of `cur` after it. -/
def link (cur temp : Ptr) : Program State Ptr := do
  modify cur fun n => { n with next := temp }
  pure (← load cur).next

/-- The first loop. -/
def addBoth (fuel : Nat) (w : Cursors) : Program State Cursors :=
  loop (fun w => do
    if w.cur1.isSome ∧ w.cur2.isSome then
      let temp ← new ⟨← int ((← load w.cur1).val + (← load w.cur2).val), none⟩
      let flag ← addFlag temp w.flag
      let flag ← takeTen temp flag
      let cur ← link w.cur temp
      pure (.again ⟨cur, (← load w.cur1).next, (← load w.cur2).next, flag⟩)
    else pure (.done w)) fuel w

/-- The loop over what is left of one list, with the values of `cur` and `flag` after it. -/
def addRest (fuel : Nat) (cur rest : Ptr) (flag : Int) : Program State (Ptr × Int) := do
  let w ← loop (fun w : Cursors => do
    if w.cur1.isSome then
      let temp ← new ⟨← int ((← load w.cur1).val + w.flag), none⟩
      let flag ← takeTen temp 0
      let cur ← link w.cur temp
      pure (.again { w with cur := cur, cur1 := (← load w.cur1).next, flag := flag })
    else pure (.done w)) fuel ⟨cur, rest, none, flag⟩
  pure (w.cur, w.flag)

def addTwoNumbers (fuel : Nat) (l1 l2 : Ptr) : Program State Ptr := do
  if l1.isNone ∨ l2.isNone then pure none
  else
    let res ← new ⟨-1, none⟩
    let w ← addBoth fuel ⟨res, l1, l2, 0⟩
    let (cur, flag) ← addRest fuel w.cur w.cur1 w.flag
    let (cur, flag) ← addRest fuel cur w.cur2 flag
    if flag ≠ 0 then
      let temp ← new ⟨flag, none⟩
      let _ ← link cur temp
      pure (← load res).next
    else pure (← load res).next

/-- The assignment to the field `next`. -/
def setNext (q : Ptr) (n : ListNode) : ListNode := { n with next := q }

/-- The heap stores a list with these digits. -/
structure Number (h : Heap ListNode) (p : Ptr) (ds : List Nat) : Prop where
  stored : Strung ListNode.mk h p (ds.map fun d : Nat => (d : Int))
  digit : ∀ d ∈ ds, d < 10

/-- The new nodes after some passes: one in front, whose value is not used, and the digits so far.
The nodes that were there before are unchanged. -/
structure Built (old : Heap ListNode) (cur : Ptr) (out : List Nat) (h : Heap ListNode) : Prop where
  row : Row ListNode.mk h old.next (-1) (out.map fun d : Nat => (d : Int))
  next : h.next = old.next + out.length + 1
  cur : cur = some (old.next + out.length)
  kept : old.Extends h

/-- The digits so far and the sum of those that are left are all digits of the sum. -/
def Adding (old : Heap ListNode) (total : List Nat) (cur : Ptr) (flag : Int)
    (rest1 rest2 : List Nat) (t : State) : Prop :=
  ∃ (out : List Nat) (c : Nat), Built old cur out t.heap ∧ flag = c ∧ c ≤ 1 ∧
    out ++ ripple 10 c rest1 rest2 = total

/-- The state after a node with this value was allocated. -/
def fresh (t : State) (v : Int) : State := { t with heap := t.heap.alloc ⟨v, none⟩ }

/-- The state after the last node was made to name that node. -/
def linked (t : State) (a : Addr) (v : Int) : State :=
  { t with heap := (t.heap.alloc ⟨v, none⟩).modify a fun n => { n with next := some t.heap.next } }

section
variable {old : Heap ListNode} {s t : State} {p p1 p2 cur : Ptr} {a : Addr} {n : ListNode}
  {v w flag : Int} {c d x fuel : Nat} {ds ds1 ds2 out rest1 rest2 other total : List Nat}

theorem Number.cons (h : Number old p (d :: ds)) :
    ∃ a next, p = some a ∧ old.cells a = some ⟨d, next⟩ ∧ Number old next ds := by
  obtain ⟨a, next, hp, ha, hrest⟩ := h.stored
  exact ⟨a, next, hp, ha, hrest, fun e he => h.digit e (List.mem_cons_of_mem d he)⟩

theorem runs_load_fresh {Q : ListNode → State → Prop} :
    Runs (load (some t.heap.next)) (fresh t v) Q ↔ Q ⟨v, none⟩ (fresh t v) := by
  rw [runs_load]
  simp [fresh]

theorem runs_assignVal {Q : Unit → State → Prop} :
    Runs (assignVal (some t.heap.next) w) (fresh t v) Q ↔ Q () (fresh t w) := by
  rw [assignVal, runs_modify]
  simp [fresh, Heap.alloc_modify]

theorem addFlag_spec (hx : x ≤ 18) (hc : c ≤ 1) :
    Runs (addFlag (some t.heap.next) c) (fresh t (x : Nat)) fun f u =>
      f = 0 ∧ u = fresh t (x + c : Nat) := by
  rw [addFlag]
  obtain rfl | rfl : c = 0 ∨ c = 1 := by omega
  · rw [if_neg (by omega), runs_pure]
    exact ⟨rfl, rfl⟩
  · rw [if_pos (by omega), runs_bind, runs_load_fresh, runs_int_bind (by dsimp only; omega)
      (by dsimp only; omega), runs_bind, runs_assignVal, runs_pure]
    exact ⟨rfl, rfl⟩

theorem takeTen_spec (hx : x ≤ 19) :
    Runs (takeTen (some t.heap.next) 0) (fresh t (x : Nat)) fun f u =>
      f = (x / 10 : Nat) ∧ u = fresh t (x % 10 : Nat) := by
  rw [takeTen, runs_bind, runs_load_fresh]
  by_cases hten : 10 ≤ x
  · rw [if_pos (by dsimp only; omega), runs_bind, runs_load_fresh, runs_bind]
    refine (runs_rem_natCast (a := x) (b := 10) (by decide) (by omega)).mpr ?_
    rw [runs_bind, runs_assignVal, runs_pure]
    exact ⟨by omega, rfl⟩
  · rw [if_neg (by dsimp only; omega), runs_pure]
    exact ⟨by omega, by rw [Nat.mod_eq_of_lt (by omega)]⟩

theorem link_spec (ha : t.heap.cells a = some n) :
    Runs (link (some a) (some t.heap.next)) (fresh t v) fun q u =>
      q = some t.heap.next ∧ u = linked t a v := by
  have hne := Heap.ne_next ha
  have hcell : (fresh t v).heap.cells a = some n := by simp [fresh, hne, ha]
  rw [link, runs_bind, runs_modify, hcell]
  refine ⟨rfl, ?_⟩
  rw [runs_bind, runs_load]
  refine ⟨{ n with next := some t.heap.next }, ?_, runs_pure.mpr ⟨rfl, rfl⟩⟩
  simp [hcell]

/-- A digit and the carry, and the digit goes to the end of the list. -/
theorem runs_takeTen_link {α : Type} {k : Int → Ptr → Program State α} {Q : α → State → Prop}
    (hx : x ≤ 19) (ha : t.heap.cells a = some n)
    (h : Runs (k (x / 10 : Nat) (some t.heap.next)) (linked t a (x % 10 : Nat)) Q) :
    Runs (do
      let flag ← takeTen (some t.heap.next) 0
      let cur ← link (some a) (some t.heap.next)
      k flag cur) (fresh t (x : Nat)) Q := by
  rw [runs_bind]
  refine (takeTen_spec hx).mono ?_
  rintro _ _ ⟨rfl, rfl⟩
  rw [runs_bind]
  refine (link_spec ha).mono ?_
  rintro _ _ ⟨rfl, rfl⟩
  exact h

theorem setNext_mk (x : Int) (p q : Ptr) : setNext q ⟨x, p⟩ = ⟨x, q⟩ := rfl

theorem Built.linked (h : Built old cur out t.heap) :
    ∃ a n, cur = some a ∧ t.heap.cells a = some n ∧
      Built old (some t.heap.next) (out ++ [d]) (linked t a (d : Nat)).heap := by
  obtain ⟨y, hy⟩ := h.row.last
  rw [List.length_map] at hy
  refine ⟨old.next + out.length, _, h.cur, hy, ?_, ?_, ?_, ?_⟩
  · have hrow := h.row.append (v := (d : Int)) setNext_mk (by rw [List.length_map]; exact h.next)
    rw [List.length_map] at hrow
    rw [List.map_append]
    exact hrow
  · change t.heap.next + 1 = _
    rw [h.next, List.length_append, List.length_singleton, Nat.add_assoc old.next]
  · rw [h.next, List.length_append, List.length_singleton, Nat.add_assoc]
  · exact (h.kept.trans Heap.extends_alloc).modify (Nat.le_add_right _ _)

theorem Adding.kept (h : Adding old total cur flag rest1 rest2 t) : old.Extends t.heap := by
  obtain ⟨out, c, hbuilt, -⟩ := h
  exact hbuilt.kept

theorem Adding.symm (h : Adding old total cur flag rest1 rest2 t) :
    Adding old total cur flag rest2 rest1 t := by
  obtain ⟨out, c, hbuilt, hflag, hc, htotal⟩ := h
  exact ⟨out, c, hbuilt, hflag, hc, by rw [ripple_comm, htotal]⟩

/-- The next digit of the sum goes to a new node. -/
theorem Adding.step (h : Adding old total cur flag rest1 rest2 t)
    (hne : ¬ (rest1 = [] ∧ rest2 = [])) (h1 : ∀ d ∈ rest1, d < 10) (h2 : ∀ d ∈ rest2, d < 10) :
    ∃ c a n, flag = (c : Nat) ∧ c ≤ 1 ∧ cur = some a ∧ t.heap.cells a = some n ∧
      Adding old total (some t.heap.next) ((rest1.headD 0 + rest2.headD 0 + c) / 10 : Nat)
        rest1.tail rest2.tail
        (linked t a ((rest1.headD 0 + rest2.headD 0 + c) % 10 : Nat)) := by
  obtain ⟨out, c, hbuilt, hflag, hc, htotal⟩ := h
  obtain ⟨a, n, hcur, hn, hnext⟩ :=
    hbuilt.linked (d := (rest1.headD 0 + rest2.headD 0 + c) % 10)
  have hcarry := carry_le (headD_lt (by decide) h1) (headD_lt (by decide) h2) hc
  refine ⟨c, a, n, hflag, hc, hcur, hn, _, _, hnext, rfl, hcarry, ?_⟩
  rw [List.append_assoc, List.singleton_append, ← ripple_step hne]
  exact htotal

/-- The first loop ends when one of the lists does. -/
theorem addBoth_spec (h1 : Number old p1 ds1) (h2 : Number old p2 ds2)
    (h : Adding old total cur flag ds1 ds2 t) (hf : ds1.length < fuel) :
    Runs (addBoth fuel ⟨cur, p1, p2, flag⟩) t fun w u => ∃ rest1 rest2,
      Number old w.cur1 rest1 ∧ Number old w.cur2 rest2 ∧ rest1.length ≤ ds1.length ∧
      rest2.length ≤ ds2.length ∧ (rest1 = [] ∨ rest2 = []) ∧
      Adding old total w.cur w.flag rest1 rest2 u := by
  refine runs_loop (k := ds1.length) (fun k w u => ∃ rest1 rest2, k = rest1.length ∧
    Number old w.cur1 rest1 ∧ Number old w.cur2 rest2 ∧ rest1.length ≤ ds1.length ∧
    rest2.length ≤ ds2.length ∧ Adding old total w.cur w.flag rest1 rest2 u) ?_
    ⟨ds1, ds2, rfl, h1, h2, le_rfl, le_rfl, h⟩ hf
  rintro _ ⟨cur, p1, p2, flag⟩ t ⟨rest1, rest2, rfl, h1, h2, hle1, hle2, h⟩
  dsimp only at h1 h2 h ⊢
  cases rest1 with
  | nil =>
    have hp1 : p1 = none := h1.stored
    rw [if_neg (by simp [hp1]), runs_pure]
    exact ⟨[], rest2, h1, h2, hle1, hle2, Or.inl rfl, h⟩
  | cons x xs =>
    cases rest2 with
    | nil =>
      have hp2 : p2 = none := h2.stored
      rw [if_neg (by simp [hp2]), runs_pure]
      exact ⟨x :: xs, [], h1, h2, hle1, hle2, Or.inr rfl, h⟩
    | cons y ys =>
      obtain ⟨a1, next1, rfl, hx, hxs⟩ := h1.cons
      obtain ⟨a2, next2, rfl, hy, hys⟩ := h2.cons
      obtain ⟨c, a, n, rfl, hc, rfl, hn, hstep⟩ := h.step (by simp) h1.digit h2.digit
      have hltx := h1.digit x List.mem_cons_self
      have hlty := h2.digit y List.mem_cons_self
      have hkept := h.kept
      have hsum : (x : Int) + y = (x + y : Nat) := by push_cast; rfl
      rw [if_pos ⟨rfl, rfl⟩, runs_bind, runs_load]
      refine ⟨_, hkept _ _ hx, ?_⟩
      rw [runs_bind, runs_load]
      refine ⟨_, hkept _ _ hy, ?_⟩
      dsimp only
      rw [hsum, runs_int_bind (by omega) (by omega), runs_bind, runs_new, runs_bind]
      refine (addFlag_spec (t := t) (x := x + y) (by omega) hc).mono ?_
      rintro _ _ ⟨rfl, rfl⟩
      refine runs_takeTen_link (t := t) (x := x + y + c) (by omega) hn ?_
      rw [runs_bind, runs_load]
      refine ⟨_, hstep.kept _ _ hx, ?_⟩
      rw [runs_bind, runs_load]
      refine ⟨_, hstep.kept _ _ hy, ?_⟩
      rw [runs_pure]
      rw [List.length_cons] at hle1 hle2
      exact ⟨xs.length, Nat.lt_succ_self _, xs, ys, rfl, hxs, hys, by omega, by omega, hstep⟩

/-- One of the other loops, when the other list has ended or has this one to follow. -/
theorem addRest_spec (hp : Number old p ds) (hend : ds = [] ∨ other = [])
    (h : Adding old total cur flag ds other t) (hf : ds.length < fuel) :
    Runs (addRest fuel cur p flag) t fun r u => Adding old total r.1 r.2 [] other u := by
  rw [addRest, runs_bind]
  refine (runs_loop (k := ds.length) (Q := fun w u => Adding old total w.cur w.flag [] other u)
    (fun k w u => ∃ rest, k = rest.length ∧ Number old w.cur1 rest ∧ (rest = [] ∨ other = []) ∧
      Adding old total w.cur w.flag rest other u) ?_ ⟨ds, rfl, hp, hend, h⟩ hf).mono ?_
  · rintro _ ⟨cur, p, q, flag⟩ t ⟨rest, rfl, hp, hend, h⟩
    dsimp only at hp h ⊢
    cases rest with
    | nil =>
      have hnone : p = none := hp.stored
      rw [if_neg (by simp [hnone]), runs_pure]
      exact h
    | cons x xs =>
      obtain rfl : other = [] := hend.resolve_left (List.cons_ne_nil x xs)
      obtain ⟨a1, next, rfl, hx, hxs⟩ := hp.cons
      obtain ⟨c, a, n, rfl, hc, rfl, hn, hstep⟩ := h.step (by simp) hp.digit nofun
      have hltx := hp.digit x List.mem_cons_self
      have hsum : (x : Int) + c = (x + c : Nat) := by push_cast; rfl
      rw [if_pos Option.isSome_some, runs_bind, runs_load]
      refine ⟨_, h.kept _ _ hx, ?_⟩
      dsimp only
      rw [hsum, runs_int_bind (by omega) (by omega), runs_bind, runs_new]
      refine runs_takeTen_link (t := t) (x := x + c) (by omega) hn ?_
      rw [runs_bind, runs_load]
      refine ⟨_, hstep.kept _ _ hx, ?_⟩
      rw [runs_pure]
      exact ⟨xs.length, Nat.lt_succ_self _, xs, rfl, hxs, Or.inr rfl, hstep⟩
  · rintro w u hu
    rw [runs_pure]
    exact hu

theorem adding_start :
    Adding s.heap (ripple 10 0 ds1 ds2) (some s.heap.next) 0 ds1 ds2 (fresh s (-1)) := by
  refine ⟨[], 0, ⟨?_, rfl, rfl, Heap.extends_alloc⟩, rfl, Nat.zero_le 1, rfl⟩
  change (s.heap.alloc ⟨-1, none⟩).cells s.heap.next = some ⟨-1, none⟩
  rw [Heap.alloc_cells, if_pos rfl]

/-- The list behind the node in front. -/
theorem Built.result (h : Built old cur out t.heap) (hdigit : ∀ d ∈ out, d < 10) :
    ∃ n, t.heap.cells old.next = some n ∧ Number t.heap n.next out := by
  obtain ⟨next, hcell, hstrung⟩ := h.row.strung
  exact ⟨_, hcell, hstrung, hdigit⟩

/-- A carry that remains is the last digit. -/
theorem finish_spec (h : Adding old total cur flag [] [] t) (hdigit : ∀ d ∈ total, d < 10) :
    Runs (do
      if flag ≠ 0 then
        let temp ← new ⟨flag, none⟩
        let _ ← link cur temp
        pure (← load (some old.next)).next
      else pure (← load (some old.next)).next) t fun r u =>
        Number u.heap r total ∧ old.Extends u.heap := by
  obtain ⟨out, c, hbuilt, rfl, hc, htotal⟩ := h
  rw [ripple_nil] at htotal
  obtain rfl | rfl : c = 0 ∨ c = 1 := by omega
  · rw [if_pos rfl, List.append_nil] at htotal
    subst htotal
    obtain ⟨n, hcell, hresult⟩ := hbuilt.result hdigit
    rw [if_neg (by omega), runs_bind, runs_load]
    exact ⟨n, hcell, runs_pure.mpr ⟨hresult, hbuilt.kept⟩⟩
  · rw [if_neg Nat.one_ne_zero] at htotal
    subst htotal
    obtain ⟨a, n, rfl, hn, hnext⟩ := hbuilt.linked (d := 1)
    obtain ⟨m, hcell, hresult⟩ := hnext.result hdigit
    rw [if_pos (by omega), runs_bind, runs_new, runs_bind]
    refine (link_spec (v := (1 : Nat)) hn).mono ?_
    rintro _ _ ⟨rfl, rfl⟩
    rw [runs_bind, runs_load]
    exact ⟨m, hcell, runs_pure.mpr ⟨hresult, hnext.kept⟩⟩

theorem Number.mono {h h' : Heap ListNode} (hp : Number h p ds) (hh : h.Extends h') :
    Number h' p ds :=
  ⟨hp.stored.mono hh, hp.digit⟩

end

/-- The digits of the sum, and the two lists as they were. -/
theorem addTwoNumbers_sum (s : State) (l1 l2 : Ptr) (ds1 ds2 : List Nat)
    (h1 : Number s.heap l1 ds1) (h2 : Number s.heap l2 ds2) (hne1 : ds1 ≠ []) (hne2 : ds2 ≠ [])
    (fuel : Nat) (hf : ds1.length + ds2.length < fuel) :
    Runs (addTwoNumbers fuel l1 l2) s fun r t =>
      (∃ ds, Number t.heap r ds ∧ ofDigits 10 ds = ofDigits 10 ds1 + ofDigits 10 ds2 ∧
        ds.length = max ds1.length ds2.length +
          if 10 ^ max ds1.length ds2.length ≤ ofDigits 10 ds1 + ofDigits 10 ds2 then 1 else 0) ∧
      Number t.heap l1 ds1 ∧ Number t.heap l2 ds2 ∧
      ∀ a n, s.heap.cells a = some n → t.heap.cells a = some n := by
  have hdigit := ripple_lt (b := 10) (c := 0) (by decide) h1.digit h2.digit (Nat.zero_le 1)
  have hsome1 : ¬ l1.isNone := by
    obtain ⟨x, xs, rfl⟩ := List.exists_cons_of_ne_nil hne1
    obtain ⟨a, next, rfl, -⟩ := h1.cons
    exact Bool.false_ne_true
  have hsome2 : ¬ l2.isNone := by
    obtain ⟨x, xs, rfl⟩ := List.exists_cons_of_ne_nil hne2
    obtain ⟨a, next, rfl, -⟩ := h2.cons
    exact Bool.false_ne_true
  rw [addTwoNumbers, if_neg (not_or.mpr ⟨hsome1, hsome2⟩), runs_bind, runs_new, runs_bind]
  refine (addBoth_spec h1 h2 adding_start (by omega)).mono ?_
  rintro w t ⟨rest1, rest2, hw1, hw2, hle1, hle2, hend, ht⟩
  rw [runs_bind]
  refine (addRest_spec hw1 hend ht (by omega)).mono ?_
  rintro ⟨cur, flag⟩ u hu
  rw [runs_bind]
  refine (addRest_spec hw2 (Or.inr rfl) hu.symm (by omega)).mono ?_
  rintro ⟨cur, flag⟩ v hv
  refine (finish_spec hv hdigit).mono ?_
  rintro r t ⟨hr, hkept⟩
  refine ⟨⟨_, hr, ofDigits_ripple, ?_⟩, h1.mono hkept, h2.mono hkept, hkept⟩
  rw [length_ripple (by decide), Nat.add_zero]

/-- The lists of 25 and 975, one behind the other. -/
def sampleState : State :=
  ⟨(), ((((Heap.empty.alloc ⟨5, some 1⟩).alloc ⟨2, none⟩).alloc ⟨5, some 3⟩).alloc
    ⟨7, some 4⟩).alloc ⟨9, none⟩⟩

theorem addTwoNumbers_sum_sample :
    Runs (addTwoNumbers 6 (some 0) (some 2)) sampleState fun r t =>
      (∃ ds, Number t.heap r ds ∧ ofDigits 10 ds = ofDigits 10 [5, 2] + ofDigits 10 [5, 7, 9] ∧
        ds.length = max [5, 2].length [5, 7, 9].length +
          if 10 ^ max [5, 2].length [5, 7, 9].length ≤ ofDigits 10 [5, 2] + ofDigits 10 [5, 7, 9]
          then 1 else 0) ∧
      Number t.heap (some 0) [5, 2] ∧ Number t.heap (some 2) [5, 7, 9] ∧
      ∀ a n, sampleState.heap.cells a = some n → t.heap.cells a = some n :=
  addTwoNumbers_sum sampleState (some 0) (some 2) [5, 2] [5, 7, 9]
    ⟨⟨0, _, rfl, rfl, 1, _, rfl, rfl, rfl⟩, by decide⟩
    ⟨⟨2, _, rfl, rfl, 3, _, rfl, rfl, 4, _, rfl, rfl, rfl⟩, by decide⟩ (by decide) (by decide) 6
    (by decide)

end LanguageTest.AddTwoNumbers
