import LanguageTest.String.MyString
import Mathlib.Data.List.GetD
import Mathlib.Tactic.ByContra

namespace LanguageTest.MyString

/-- `end() == begin()`. -/
def Fields.Bare (o : Fields) : Prop := o.endAt = (o.begin, 0)

instance (o : Fields) : Decidable o.Bare := inferInstanceAs (Decidable (_ = _))

def fieldsAt (s : State) (this : Nat) : Fields := s.object.getD this ⟨none, (none, 0), 0⟩

/-- A string is assigned from another one, and a slice lies inside the string. -/
def Legal : Op → State → Prop
  | .fromCString _, _ => True
  | .fromChar _, _ => True
  | .fromChars _ _, _ => True
  | .assign this str, s => this ≠ str ∧ this < s.object.length ∧ str < s.object.length
  | .append this str, s => this < s.object.length ∧ str < s.object.length
  | .substr this pos len, s => this < s.object.length ∧ pos + len ≤ (fieldsAt s this).size

instance (op : Op) (s : State) : Decidable (Legal op s) := by
  cases op <;> unfold Legal <;> infer_instance

/-- The constructors from characters are harmless for no characters only. An operand on the right
has been given a string before. One on the left has not, or it was given the empty string and has
no room for the other one. -/
def Harmless : Op → State → Prop
  | .fromCString _, _ => True
  | .fromChar _, _ => False
  | .fromChars _ n, _ => n = 0
  | .assign _ str, s => ¬ (fieldsAt s str).Bare
  | .append this str, s => ¬ (fieldsAt s str).Bare ∧
      ((fieldsAt s this).Bare ∨ (fieldsAt s this).size = 0 ∧
        (fieldsAt s this).capacity < (fieldsAt s str).size + 2)
  | .substr _ _ _, _ => True

/-- What is promised of an object that is to hold this string. -/
structure Shows (s : State) (this : Nat) (str : List UInt8) : Prop where
  size : Runs (size this) s fun n t => n = str.length ∧ t = s
  contents : ∀ i x, str[i]? = some x → Runs (element this i) s fun y t => y = x ∧ t = s
  capacity : Runs (capacity this) s fun n t => str.length < n ∧ t = s

def Sound (s : State) (strs : List (List UInt8)) : Prop :=
  ∀ i str, strs[i]? = some str → Shows s i str

def start : State := ⟨[], Heap.empty⟩

/-- The text of an object that was given this string, or no string yet. -/
def Spells (text str : List UInt8) : Prop := text = [] ∧ str = [] ∨ text = str ++ [0] ∧ 0 ∉ str

/-- Every object has an array of its own, with the text of its string. -/
structure Valid (s : State) (strs : List (List UInt8)) : Prop where
  count : s.object.length = strs.length
  holds : ∀ i str, strs[i]? = some str → ∃ a text k, Holds s i a text k ∧ Spells text str
  apart : ∀ (i j : Nat) (o o' : Fields), s.object[i]? = some o → s.object[j]? = some o' →
    o.begin = o'.begin → i = j

section
variable {this n len pos : Nat} {s t u : State} {a b : Addr} {k i : Nat} {p : Ptr}
  {text xs str : List UInt8} {o : Fields} {d : Cells UInt8} {strs strs' : List (List UInt8)}

theorem Spells.length (h : Spells text str) : text.length - 1 = str.length := by
  rcases h with ⟨rfl, rfl⟩ | ⟨rfl, -⟩
  · rfl
  · rw [List.length_append, List.length_singleton, Nat.add_sub_cancel]

theorem Holds.size (h : Holds s this a text k) : (fieldsAt s this).size = text.length - 1 := by
  rw [fieldsAt, List.getD_eq_getElem?_getD, h.object, Option.getD_some, Fields.size]
  split_ifs with he
  · have hzero : text.length = 0 := congrArg Prod.snd he
    rw [hzero]
  · rfl

theorem Holds.capacity (h : Holds s this a text k) :
    (fieldsAt s this).capacity = text.length + k := by
  rw [fieldsAt, List.getD_eq_getElem?_getD, h.object, Option.getD_some]

theorem Holds.bare_iff (h : Holds s this a text k) : (fieldsAt s this).Bare ↔ text = [] := by
  rw [fieldsAt, List.getD_eq_getElem?_getD, h.object, Option.getD_some, Fields.Bare]
  simp [List.length_eq_zero_iff]

theorem Holds.shows (h : Holds s this a text k) (hspell : Spells text str) : Shows s this str := by
  have hlength := hspell.length
  have hroom := h.room
  have hfields : fieldsAt s this = ⟨some a, (some a, text.length), text.length + k⟩ := by
    rw [fieldsAt, List.getD_eq_getElem?_getD, h.object, Option.getD_some]
  have hsize := h.size
  rw [hfields, hlength] at hsize
  constructor
  case size =>
    simp only [MyString.size, runs_bind, runs_getFields, h.object, Option.some.injEq,
      exists_eq_left', hsize, runs_pure]
    exact ⟨trivial, trivial⟩
  case contents =>
    intro i x hx
    obtain ⟨hi, -⟩ := List.getElem?_eq_some_iff.mp hx
    have htext : text[i]? = some x := by
      rcases hspell with ⟨-, rfl⟩ | ⟨rfl, -⟩
      · cases hx
      · rw [List.getElem?_append_left hi, hx]
    have hread : (written text (List.replicate k none))[i]? = some (some x) := by
      rw [getElem?_written (by omega), htext]
    simp only [element, runs_bind, runs_getFields, h.object, Option.some.injEq, exists_eq_left',
      hsize, if_pos hi, runs_readCell h.cells hread]
    exact ⟨trivial, trivial⟩
  case capacity =>
    simp only [MyString.capacity, runs_bind, runs_getFields, h.object, Option.some.injEq,
      exists_eq_left', runs_pure]
    rw [stringInitSize] at hroom
    exact ⟨by omega, trivial⟩

/-- The size that an object shows. -/
theorem Holds.length_of_shows (h : Holds s this a text k) (hshows : Shows s this str) :
    text.length - 1 = str.length := by
  have hsize := hshows.size
  simp only [MyString.size, runs_bind, runs_getFields, h.object, Option.some.injEq,
    exists_eq_left', runs_pure] at hsize
  rw [← hsize.1, ← h.size, fieldsAt, List.getD_eq_getElem?_getD, h.object, Option.getD_some]

theorem Valid.sound (h : Valid s strs) : Sound s strs := by
  intro i str hi
  obtain ⟨a, text, k, hholds, hspell⟩ := h.holds i str hi
  exact hholds.shows hspell

/-- Two objects that hold arrays are the same when the arrays are. -/
theorem Valid.eq_of_holds {j m : Nat} {ys : List UInt8} (h : Valid s strs)
    (hi : Holds s i a text k) (hj : Holds s j a ys m) : i = j :=
  h.apart i j _ _ hi.object hj.object rfl

/-- A new text for one object, which is to hold this string. -/
theorem Valid.filled {s₀ : State} (hv : Valid s strs) (hheap : s₀.heap = s.heap)
    (hobject : ∀ i, i ≠ this → s₀.object[i]? = s.object[i]?)
    (hp : ∀ i o, i ≠ this → s.object[i]? = some o → o.begin ≠ p)
    (hf : Filled this p text s₀ t) (hspell : Spells text str)
    (hcount : s₀.object.length = strs'.length) (hthis : strs'[this]? = some str)
    (hothers : ∀ i, i ≠ this → strs'[i]? = strs[i]?) : Valid t strs' := by
  obtain ⟨hkept, a, k, hholds, ha⟩ := hf
  have hsame : ∀ i, i ≠ this → t.object[i]? = s.object[i]? :=
    fun i hi => (hkept.others i hi).trans (hobject i hi)
  have hold : ∀ i o, i ≠ this → t.object[i]? = some o →
      ∃ b text k, o.begin = some b ∧ Holds s i b text k := by
    intro i o hi ho
    rw [hsame i hi] at ho
    obtain ⟨hlt, -⟩ := List.getElem?_eq_some_iff.mp ho
    obtain ⟨b, text, k, hb, -⟩ := hv.holds i _ (List.getElem?_eq_getElem (hv.count ▸ hlt))
    refine ⟨b, text, k, ?_, hb⟩
    rw [Option.some.inj (ho.symm.trans hb.object)]
  -- The new array is not the one of another object.
  have hfresh : ∀ i o, i ≠ this → t.object[i]? = some o → o.begin ≠ some a := by
    intro i o hi ho heq
    obtain ⟨b, _, _, hb, hholds'⟩ := hold i o hi ho
    rcases ha with hpa | hnone
    · exact hp i o hi (by rw [← hsame i hi, ho]) (heq.trans hpa.symm)
    · cases heq.symm.trans hb
      rw [hheap] at hnone
      cases hnone.symm.trans hholds'.cells
  constructor
  case count => exact hkept.count.trans hcount
  case holds =>
    intro i str' hi
    by_cases hit : i = this
    · subst hit
      cases hthis.symm.trans hi
      exact ⟨a, text, k, hholds, hspell⟩
    · rw [hothers i hit] at hi
      obtain ⟨b, text', k', hb, hspell'⟩ := hv.holds i str' hi
      refine ⟨b, text', k', ⟨?_, ?_, hb.room⟩, hspell'⟩
      · rw [hsame i hit, hb.object]
      · exact hkept.cells b _ (hp i _ hit hb.object).symm (hheap ▸ hb.cells)
  case apart =>
    intro i j o o' hi hj heq
    have hmine : ∀ o, t.object[this]? = some o → o.begin = some a := by
      intro o ho
      rw [Option.some.inj (ho.symm.trans hholds.object)]
    by_cases hit : i = this
    · by_cases hjt : j = this
      · exact hit.trans hjt.symm
      · subst hit
        exact absurd (heq.symm.trans (hmine o hi)) (hfresh j o' hjt hj)
    · by_cases hjt : j = this
      · subst hjt
        exact absurd (heq.trans (hmine o' hj)) (hfresh i o hit hi)
      · rw [hsame i hit] at hi
        rw [hsame j hjt] at hj
        exact hv.apart i j o o' hi hj heq

/-- The state in which a constructor starts. -/
def declared (s : State) : State := { s with object := s.object ++ [⟨none, (none, 0), 0⟩] }

theorem runs_declare {Q : Nat → State → Prop} :
    Runs declare s Q ↔ Q s.object.length (declared s) := by
  simp only [declare, runs_bind, runs_getObject, runs_setObject, runs_pure]
  rfl

theorem declared_object : (declared s).object[s.object.length]? = some ⟨none, (none, 0), 0⟩ := by
  simp [declared]

theorem Valid.constructed (hv : Valid s strs)
    (hf : Filled s.object.length none text (declared s) t) (hspell : Spells text str) :
    Valid t (strs ++ [str]) := by
  have hcount := hv.count
  refine hv.filled (show (declared s).heap = s.heap from rfl) ?_ ?_ hf hspell ?_ ?_ ?_
  · intro i hi
    rw [declared, List.getElem?_append, List.getElem?_singleton]
    by_cases hlt : i < s.object.length
    · rw [if_pos hlt]
    · rw [if_neg hlt, if_neg (by omega), List.getElem?_eq_none (Nat.not_lt.mp hlt)]
  · intro i o _ ho
    obtain ⟨hlt, -⟩ := List.getElem?_eq_some_iff.mp ho
    obtain ⟨b, text, k, hb, -⟩ := hv.holds i _ (List.getElem?_eq_getElem (hcount ▸ hlt))
    rw [Option.some.inj (ho.symm.trans hb.object)]
    exact Option.some_ne_none b
  · simp [declared, hcount]
  · simp [hcount]
  · intro i hi
    rw [List.getElem?_append, List.getElem?_singleton]
    by_cases hlt : i < strs.length
    · rw [if_pos hlt]
    · rw [if_neg hlt, if_neg (by omega), List.getElem?_eq_none (Nat.not_lt.mp hlt)]

theorem Valid.updated {ys : List UInt8} (hv : Valid s strs) (hh : Holds s this a ys k)
    (hf : Filled this (some a) text s t) (hspell : Spells text str) :
    Valid t (strs.set this str) := by
  obtain ⟨hlt, -⟩ := List.getElem?_eq_some_iff.mp hh.object
  refine hv.filled rfl (fun _ _ => rfl) ?_ hf hspell ?_ ?_ ?_
  · intro i o hi ho heq
    exact hi (hv.apart i this o _ ho hh.object heq)
  · rw [List.length_set, hv.count]
  · rw [List.getElem?_set_self (hv.count ▸ hlt)]
  · exact fun i hi => List.getElem?_set_ne (Ne.symm hi)

/-- The caller's array is none of the arrays of the objects. -/
theorem Valid.alloc (hv : Valid s strs) : Valid { s with heap := s.heap.alloc d } strs := by
  refine ⟨hv.count, fun i str hi => ?_, hv.apart⟩
  obtain ⟨a, text, k, hholds, hspell⟩ := hv.holds i str hi
  have hkept : Kept i none s { s with heap := s.heap.alloc d } := kept_alloc
  have hcells := hkept.cells a _ (Option.some_ne_none a).symm hholds.cells
  exact ⟨a, text, k, ⟨hholds.object, hcells, hholds.room⟩, hspell⟩

theorem Valid.at (hv : Valid s strs) (hi : i < s.object.length) :
    ∃ a text k, Holds s i a text k ∧ Spells text (strs.getD i []) := by
  rw [hv.count] at hi
  rw [List.getD_eq_getElem _ _ hi]
  exact hv.holds i _ (List.getElem?_eq_getElem hi)

theorem runs_realloc_declared : Runs (realloc s.object.length len) (declared s) fun _ t =>
    Filled s.object.length none [] (declared s) t :=
  runs_realloc declared_object fun a ha => absurd ha.symm (Option.some_ne_none a)

theorem runs_constructChars {x : UInt8} (hv : Valid s strs) :
    Runs (constructChars x n) s fun r t => r = strs.length ∧ Valid t (strs ++ [[]]) := by
  rw [constructChars, runs_bind, runs_declare, runs_bind]
  refine runs_realloc_declared.mono ?_
  intro _ t ht
  rw [runs_pure]
  exact ⟨hv.count, hv.constructed ht (Or.inl ⟨rfl, rfl⟩)⟩

/-- The text of a C string. -/
theorem written_chars {k : Nat} {x : UInt8} (h : xs[k]? = some x) (rest : Cells UInt8) :
    (written (xs ++ [0]) rest)[0 + k]? = some (some x) := by
  obtain ⟨hk, -⟩ := List.getElem?_eq_some_iff.mp h
  rw [Nat.zero_add, getElem?_written (by rw [List.length_append]; omega),
    List.getElem?_append_left hk, h]

theorem runs_fromCString {input : CString} (hv : Valid s strs) :
    Runs (step (.fromCString input)) s fun r t =>
      r = strs.length ∧ Valid t (strs ++ [input.chars]) := by
  let passed : State := { s with heap := s.heap.alloc ((input.chars ++ [0]).map some) }
  have hv' : Valid passed strs := hv.alloc
  have hinput : (declared passed).heap.cells s.heap.next =
      some (written (input.chars ++ [0]) []) := by simp [declared, passed, written]
  simp only [step, constructFrom, runs_bind, runs_new]
  refine runs_declare.mpr (runs_realloc_declared.mono ?_)
  rintro _ t ⟨hkept, a, k, hholds, ha⟩
  have hother : none ≠ some s.heap.next := (Option.some_ne_none _).symm
  have hsource := hkept.cells _ _ hother hinput
  refine runs_getFields.mpr ⟨_, hholds.object, ?_⟩
  refine (hkept.runs_appendData hholds ha hinput hother (fun j x hx => written_chars hx [])
    (dataLength_npos hsource input.nonzero)).mono ?_
  intro _ u hu
  rw [runs_pure]
  exact ⟨hv'.count, hv'.constructed hu (Or.inr ⟨rfl, input.nonzero⟩)⟩

theorem runs_assign {str : Nat} (hv : Valid s strs) (hne : this ≠ str)
    (hthis : this < s.object.length) (hstr : str < s.object.length)
    (hbare : ¬ (fieldsAt s str).Bare) :
    Runs (assign this str) s fun r t => r = this ∧
      Valid t (strs.set this (strs.getD str [])) := by
  obtain ⟨a₀, text₀, k₀, hh, -⟩ := hv.at hthis
  obtain ⟨b, text, m, hb, hspell⟩ := hv.at hstr
  obtain ⟨rfl, hnul⟩ := hspell.resolve_left fun h => hbare (hb.bare_iff.mpr h.1)
  have hba : some a₀ ≠ some b := by
    rintro ⟨⟩
    exact hne (hv.eq_of_holds hh hb)
  rw [assign, runs_bind]
  refine (runs_realloc hh.object ?_).mono ?_
  · rintro _ ⟨⟩
    rw [hh.cells]
    rfl
  rintro _ t ⟨hkept, a, k, hholds, ha⟩
  have hsource := hkept.cells b _ hba hb.cells
  simp only [runs_bind, runs_getFields, hkept.others str hne.symm, hb.object, hholds.object,
    Option.some.injEq, exists_eq_left']
  refine (hkept.runs_appendData hholds ha hb.cells hba (fun j x hx => written_chars hx _)
    (dataLength_npos hsource hnul)).mono ?_
  intro _ u hu
  rw [runs_pure]
  exact ⟨rfl, hv.updated hh hu (Or.inr ⟨rfl, hnul⟩)⟩

theorem runs_append_iff {str : Nat} {Q : Nat → State → Prop} {m : Nat} {ys : List UInt8}
    (hh : Holds s this a text k) (hb : Holds s str b ys m) : Runs (append this str) s Q ↔
      Runs (appendData this (some b, 0) (some a, text.length) npos) s fun _ => Q this := by
  simp only [append, runs_bind, runs_getFields, hh.object, hb.object, Option.some.injEq,
    exists_eq_left', runs_pure]

theorem runs_append {str : Nat} (hv : Valid s strs) (hthis : this < s.object.length)
    (hstr : str < s.object.length) (hok : Harmless (.append this str) s) :
    Runs (append this str) s fun r t => r = this ∧
      Valid t (strs.set this (strs.getD this [] ++ strs.getD str [])) := by
  obtain ⟨hbare, hleft⟩ := hok
  obtain ⟨a, text, k, hh, hspell⟩ := hv.at hthis
  obtain ⟨b, text', m, hb, hspell'⟩ := hv.at hstr
  obtain ⟨rfl, hnul⟩ := hspell'.resolve_left fun h => hbare (hb.bare_iff.mpr h.1)
  have hroom := hh.room
  rw [stringInitSize] at hroom
  rw [hh.bare_iff, hh.size, hh.capacity, hb.size, hspell'.length] at hleft
  have hlen := dataLength_npos hb.cells hnul
  have hempty : strs.getD this [] = [] := by
    apply List.eq_nil_of_length_eq_zero
    rw [← hspell.length]
    rcases hleft with rfl | hleft
    · rfl
    · exact hleft.1
  have hba : b ≠ a := by
    rintro rfl
    obtain rfl := hv.eq_of_holds hh hb
    rw [hempty] at hb hleft
    have hlength := congrArg (fun o => o.map fun f : Fields => f.endAt.2)
      (hh.object.symm.trans hb.object)
    have hone : text.length = 1 := by simpa using hlength
    rcases hleft with rfl | hleft
    · cases hone
    · have hnone := hleft.2
      rw [List.length_nil] at hnone
      omega
  have hfill : Runs (appendData this (some b, 0) (some a, text.length) npos) s fun _ t =>
      Filled this (some a) (strs.getD str [] ++ [0]) s t := by
    have hchars : ∀ (j : Nat) (x : UInt8), (strs.getD str [])[j]? = some x →
        (written (strs.getD str [] ++ [0]) (List.replicate m none))[0 + j]? = some (some x) :=
      fun j x hx => written_chars hx _
    by_cases hnil : text = []
    · subst hnil
      have hold : some a ≠ some b := fun he => hba (Option.some.inj he).symm
      exact Kept.refl.runs_appendData hh (Or.inl rfl) hb.cells hold hchars hlen
    · have hpos := List.length_pos_iff.mpr hnil
      have hfull := hleft.resolve_left hnil
      exact runs_appendData_realloc hh hb.cells hchars hlen (by omega) hba
  rw [hempty, List.nil_append, runs_append_iff hh hb]
  exact hfill.mono fun _ _ ht => ⟨rfl, hv.updated hh ht (Or.inr ⟨rfl, hnul⟩)⟩

theorem runs_substr (hv : Valid s strs) (hthis : this < s.object.length)
    (hrange : pos + len ≤ (fieldsAt s this).size) :
    Runs (substr this pos (some len)) s fun r t => r = strs.length ∧
      Valid t (strs ++ [((strs.getD this []).drop pos).take len]) := by
  obtain ⟨b, text, k, hb, hspell⟩ := hv.at hthis
  generalize strs.getD this [] = str at hspell ⊢
  rw [hb.size, hspell.length] at hrange
  have hslice : ((str.drop pos).take len).length = len := by
    rw [List.length_take, List.length_drop]
    omega
  have hchars : ∀ (j : Nat) (x : UInt8), ((str.drop pos).take len)[j]? = some x →
      (written text (List.replicate k none))[pos + j]? = some (some x) := by
    intro j x hx
    obtain ⟨hj, -⟩ := List.getElem?_eq_some_iff.mp hx
    rw [List.getElem?_take, if_pos (hslice ▸ hj), List.getElem?_drop] at hx
    obtain ⟨hlt, -⟩ := List.getElem?_eq_some_iff.mp hx
    rcases hspell with ⟨-, rfl⟩ | ⟨rfl, -⟩
    · cases hx
    · rw [getElem?_written (by rw [List.length_append]; omega), List.getElem?_append_left hlt, hx]
  have hnul : 0 ∉ (str.drop pos).take len := by
    intro hmem
    have hmem' := List.mem_of_mem_drop (List.mem_of_mem_take hmem)
    rcases hspell with ⟨-, rfl⟩ | ⟨-, hnul⟩
    · cases hmem'
    · exact hnul hmem'
  simp only [substr, construct, runs_bind, runs_pure]
  refine runs_declare.mpr (runs_realloc_declared.mono ?_)
  rintro _ t ⟨hkept₀, a₀, m₀, hholds₀, ha₀⟩
  refine (runs_realloc hholds₀.object ?_).mono ?_
  · rintro _ ⟨⟩
    rw [hholds₀.cells]
    rfl
  intro _ u hu
  obtain ⟨hkept, a, m, hholds, ha⟩ := hkept₀.filled ha₀ hu
  have hobject : u.object[this]? = some ⟨some b, (some b, text.length), text.length + k⟩ := by
    rw [hkept.others this (Nat.ne_of_lt hthis), declared, List.getElem?_append_left hthis,
      hb.object]
  have hlen : dataLength (some b, pos) (some len) u =
      .ok (((str.drop pos).take len).length, u) := by
    rw [hslice]
    rfl
  simp only [runs_getFields, hobject, hholds.object, Option.some.injEq, exists_eq_left']
  refine (hkept.runs_appendData hholds ha (show (declared s).heap.cells b = _ from hb.cells)
    (Option.some_ne_none b).symm hchars hlen).mono ?_
  intro _ v hv'
  exact ⟨hv.count, hv.constructed hv' (Or.inr ⟨rfl, hnul⟩)⟩

/-- An operand on the right without a string is read up to a null character that it lacks. -/
theorem not_bare_of_runs {m : Nat} {ys : List UInt8} {start : Ptr × Nat}
    (hb : Holds s n b ys m) {Q : Unit → State → Prop} {s' : State}
    (hcells : s'.heap.cells b = s.heap.cells b)
    (hruns : Runs (appendData this (some b, 0) start npos) s' Q) : ¬ (fieldsAt s n).Bare := by
  rw [hb.bare_iff]
  rintro rfl
  have hroom := hb.room
  rw [List.length_nil, Nat.zero_add, stringInitSize] at hroom
  obtain ⟨j, rfl⟩ := Nat.exists_eq_add_of_le' (show 1 ≤ m by omega)
  refine not_runs_appendData (hcells.trans hb.cells) hruns

/-- What a call is to return and to leave behind. -/
theorem step_valid {op : Op} (hv : Valid s strs) (hlegal : Legal op s) (hok : Harmless op s) :
    Runs (step op) s fun r t => r = (stepped op strs).1 ∧ Valid t (stepped op strs).2 := by
  cases op with
  | fromCString input => exact runs_fromCString hv
  | fromChar x => exact hok.elim
  | fromChars x n =>
    obtain rfl : n = 0 := hok
    exact runs_constructChars (x := x) hv
  | assign this str => exact runs_assign hv hlegal.1 hlegal.2.1 hlegal.2.2 hok
  | append this str => exact runs_append hv hlegal.1 hlegal.2 hok
  | substr this pos len => exact runs_substr hv hlegal.1 hlegal.2

/-- The size that a filled object shows is the one of its text. -/
theorem Filled.length_of_sound (h : Filled this p text s t) (hs : Sound t strs)
    (hthis : strs[this]? = some str) : text.length - 1 = str.length := by
  obtain ⟨-, a, k, hholds, -⟩ := h
  exact hholds.length_of_shows (hs this str hthis)

theorem chars_harmless {x : UInt8} {Q : Nat → State → Prop} (hv : Valid s strs)
    (hruns : Runs (constructChars x n) s fun r t =>
      Q r t ∧ Sound t (strs ++ [List.replicate n x])) : n = 0 := by
  rw [constructChars, runs_bind, runs_declare, runs_bind] at hruns
  obtain ⟨_, t, ht, hpure⟩ := hruns
  have hfill := (runs_of_ok ht).mp runs_realloc_declared
  have hsound := (runs_pure.mp hpure).2
  have hlast : (strs ++ [List.replicate n x])[s.object.length]? = some (List.replicate n x) := by
    rw [hv.count, List.getElem?_concat_length]
  have hlength := hfill.length_of_sound hsound hlast
  rw [List.length_nil, List.length_replicate] at hlength
  exact hlength.symm

theorem assign_harmless {str : Nat} {Q : Nat → State → Prop} (hv : Valid s strs)
    (hlegal : Legal (.assign this str) s) (hruns : Runs (assign this str) s Q) :
    Harmless (.assign this str) s := by
  obtain ⟨hne, hthis, hstr⟩ := hlegal
  obtain ⟨a₀, text₀, k₀, hh, -⟩ := hv.at hthis
  obtain ⟨b, text, m, hb, hspell⟩ := hv.at hstr
  have hba : some a₀ ≠ some b := by
    rintro ⟨⟩
    exact hne (hv.eq_of_holds hh hb)
  rw [assign, runs_bind] at hruns
  obtain ⟨_, t, ht, hruns⟩ := hruns
  obtain ⟨hkept, a, k, hholds, -⟩ := (runs_of_ok ht).mp (runs_realloc hh.object (by
    rintro _ ⟨⟩
    rw [hh.cells]
    rfl))
  simp only [runs_bind, runs_getFields, hkept.others str hne.symm, hb.object, hholds.object,
    Option.some.injEq, exists_eq_left'] at hruns
  exact not_bare_of_runs hb ((hkept.cells b _ hba hb.cells).trans hb.cells.symm) hruns

theorem append_harmless {str : Nat} {Q : Nat → State → Prop} (hv : Valid s strs)
    (hlegal : Legal (.append this str) s) (hruns : Runs (append this str) s fun r t =>
      Q r t ∧ Sound t (strs.set this (strs.getD this [] ++ strs.getD str []))) :
    Harmless (.append this str) s := by
  obtain ⟨hthis, hstr⟩ := hlegal
  obtain ⟨a, text, k, hh, hspell⟩ := hv.at hthis
  obtain ⟨b, text', m, hb, hspell'⟩ := hv.at hstr
  rw [runs_append_iff hh hb] at hruns
  have hbare := not_bare_of_runs hb rfl hruns
  obtain ⟨rfl, hnul⟩ := hspell'.resolve_left fun h => hbare (hb.bare_iff.mpr h.1)
  refine ⟨hbare, ?_⟩
  rw [hh.bare_iff, hh.size, hh.capacity, hb.size, hspell'.length]
  by_contra hno
  obtain ⟨htext, hleft⟩ := not_or.mp hno
  obtain ⟨rfl, -⟩ := hspell.resolve_left fun h => htext h.1
  rw [hspell.length, List.length_append, List.length_singleton] at hleft
  have hlen := dataLength_npos hb.cells hnul
  have hchars : ∀ (j : Nat) (x : UInt8), (strs.getD str [])[j]? = some x →
      (written (strs.getD str [] ++ [0]) (List.replicate m none))[0 + j]? = some (some x) :=
    fun j x hx => written_chars hx _
  have hset : (strs.set this (strs.getD this [] ++ strs.getD str []))[this]? =
      some (strs.getD this [] ++ strs.getD str []) := by
    rw [List.getElem?_set_self (hv.count ▸ hthis)]
  have hsame : b = a → str = this := by
    rintro rfl
    exact hv.eq_of_holds hb hh
  by_cases hfits : (strs.getD str []).length + 1 ≤ k
  · -- The other string is written after the null character.
    have hapart : b ≠ a ∨ 0 + (strs.getD str []).length ≤ (strs.getD this [] ++ [0]).length := by
      by_cases hba : b = a
      · rw [hsame hba, List.length_append]
        exact Or.inr (by omega)
      · exact Or.inl hba
    obtain ⟨_, t, -, hfill, -, hsound⟩ :=
      (runs_appendData_place hh hb.cells hchars hlen hfits hapart).and hruns
    have hlength := hfill.length_of_sound hsound hset
    simp only [List.length_append, List.length_singleton] at hlength
    omega
  · by_cases hba : b = a
    · -- The array of the string itself is released before it is read.
      obtain rfl := hsame hba
      subst hba
      exact not_runs_appendData_self hh hlen (by omega) (by omega) hruns
    · -- The text on the left is not copied.
      obtain ⟨_, t, -, hfill, -, hsound⟩ :=
        (runs_appendData_realloc hh hb.cells hchars hlen (by omega) hba).and hruns
      have hlength := hfill.length_of_sound hsound hset
      simp only [List.length_append, List.length_singleton] at hlength
      omega

/-- No other call keeps the promise. -/
theorem step_harmless {op : Op} (hv : Valid s strs) (hlegal : Legal op s)
    (hruns : Runs (step op) s fun r t =>
      r = (stepped op strs).1 ∧ Sound t (stepped op strs).2) : Harmless op s := by
  cases op with
  | fromCString input => trivial
  | fromChar x => exact Nat.one_ne_zero (chars_harmless hv hruns)
  | fromChars x n => exact chars_harmless hv hruns
  | assign this str => exact assign_harmless hv hlegal hruns
  | append this str => exact append_harmless hv hlegal hruns
  | substr this pos len => trivial

end

theorem valid_start : Valid start [] :=
  ⟨rfl, fun _ _ h => absurd h (by simp), fun _ _ _ _ h => absurd h (by simp [start])⟩

/-- Every object shows its string after every call of a run exactly when every call is harmless. -/
theorem run_strings_iff (ops : List Op) (hlegal : StepsMeet step Legal ops start) :
    (∀ pre, pre <+: ops → Runs (runAll step pre) start fun rs t =>
      Follows stepped Sound [] pre rs t) ↔ StepsMeet step Harmless ops start := by
  symm
  refine StepsMeet.iff_prefixes_legal (Follows stepped Valid []) ops ?_ ?_ ?_ ⟨rfl, valid_start⟩
    hlegal
  · intro pre op post rs s _ hs hlegal hok
    exact (step_valid hs.2 hlegal hok).mono fun _ _ ht => hs.next ht.1 ht.2
  · intro pre op post rs s _ hs hlegal hruns
    refine step_harmless hs.2 hlegal (hruns.mono fun r t ht => ?_)
    rw [Follows, traceAll_append] at ht
    have hresult := (List.append_inj ht.1 (congrArg List.length hs.1)).2
    exact ⟨List.singleton_inj.mp hresult, ht.2⟩
  · exact fun _ _ _ hs => ⟨hs.1, hs.2.sound⟩

/-- Two C strings, the assignment of the second to the first, and a slice of the result. -/
def sample : List Op :=
  [.fromCString ⟨[104, 105], by decide⟩, .fromCString ⟨[98, 121, 101], by decide⟩, .assign 0 1,
    .substr 0 1 2]

theorem run_strings_iff_sample :
    (∀ pre, pre <+: sample → Runs (runAll step pre) start fun rs t =>
      Follows stepped Sound [] pre rs t) ↔ StepsMeet step Harmless sample start :=
  run_strings_iff sample (by decide +kernel)

/-- A string that is constructed from one character stays empty. -/
theorem run_char : ¬ ∀ pre, pre <+: [.fromChar 98] → Runs (runAll step pre) start fun rs t =>
    Follows stepped Sound [] pre rs t := by
  intro h
  have hruns := h _ List.prefix_rfl
  simp only [runAll, runs_bind, runs_pure] at hruns
  have hlegal : Legal (.fromChar 98) start := trivial
  refine step_harmless valid_start hlegal (hruns.mono fun r t ht => ?_)
  exact ⟨List.singleton_inj.mp ht.1, ht.2⟩

end LanguageTest.MyString
