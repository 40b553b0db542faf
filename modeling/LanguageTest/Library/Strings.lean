import LanguageTest.Library.Elements

namespace LanguageTest

/-- `s[i]`. The terminating null character stands after the others. -/
def getChar {σ : Type} (s : List UInt8) (i : Int) : Program σ UInt8 :=
  if 0 ≤ i ∧ i ≤ s.length then pure (s.getD i.toNat 0) else fail .outOfRange

/-- The characters of a buffer up to the first null character, which a buffer without one has not. -/
def cString {σ : Type} : List UInt8 → Program σ (List UInt8)
  | [] => fail .outOfRange
  | c :: rest => do
    if c = 0 then pure []
    else pure (c :: (← cString rest))

/-- An access to a character. -/
inductive Access where
  | read (i : Int)
  | write (i : Int)
  deriving DecidableEq

/-- Every entry of a history meets a condition on what came before it. -/
def EachMeets {α : Type*} (P : List α → α → Prop) (log : List α) : Prop :=
  ∀ before x after, log = before ++ x :: after → P before x

section
variable {σ α : Type*} {P : List α → α → Prop} {log : List α} {x : α}

theorem eachMeets_nil : EachMeets P [] := by
  intro before x after h
  simp at h

theorem eachMeets_concat : EachMeets P (log ++ [x]) ↔ EachMeets P log ∧ P log x := by
  constructor
  · intro h
    refine ⟨fun before y after he => ?_, h log x [] rfl⟩
    apply h before y (after ++ [x])
    rw [he, List.append_assoc, List.cons_append]
  · intro h before y after he
    obtain ⟨hlog, hx⟩ := h
    rcases List.eq_nil_or_concat after with rfl | ⟨rest, z, rfl⟩
    · obtain ⟨rfl, hxy⟩ := List.append_inj' he rfl
      obtain rfl := List.singleton_inj.mp hxy
      exact hx
    · rw [List.concat_eq_append, ← List.cons_append, ← List.append_assoc] at he
      exact hlog before y rest (List.append_inj' he rfl).1

end

section
variable {σ : Type} {s : List UInt8} {t : σ} {i : Nat} {j : Int}

theorem runs_getChar {Q : UInt8 → σ → Prop} (hi : i ≤ s.length) :
    Runs (getChar s i) t Q ↔ Q s[i]! t := by
  rw [getChar, if_pos ⟨by omega, by omega⟩, runs_pure, Int.toNat_natCast,
    List.getElem!_eq_getElem?_getD, List.getD_eq_getElem?_getD]
  exact Iff.rfl

theorem fails_getChar (hj : s.length < j) : Fails (getChar s j) t .outOfRange := by
  rw [getChar, if_neg (by omega)]
  exact fails_fail

theorem ensures_getChar :
    Ensures (getChar s j) t fun c u => u = t ∧ ∃ i : Nat, j = i ∧ i ≤ s.length ∧ c = s[i]! := by
  by_cases hj : 0 ≤ j ∧ j ≤ s.length
  · obtain ⟨i, rfl⟩ := Int.eq_ofNat_of_zero_le hj.1
    have hi : i ≤ s.length := by omega
    exact ((runs_getChar hi).mpr ⟨rfl, i, rfl, hi, rfl⟩).ensures
  · rw [getChar, if_neg hj]
    exact fails_fail.ensures

end

section
variable {σ α β : Type} {buf : List UInt8} {t : σ} {l : List α} {f g : α → List β}

theorem runs_cString {Q : List UInt8 → σ → Prop} :
    Runs (cString buf) t Q ↔ 0 ∈ buf ∧ Q (buf.takeWhile (· ≠ 0)) t := by
  induction buf generalizing Q with
  | nil => exact iff_of_false (fun h => h.not_fails fails_fail) fun h => List.not_mem_nil h.1
  | cons c rest ih =>
    rw [cString]
    by_cases hc : c = 0
    · rw [if_pos hc, runs_pure, hc, List.takeWhile_cons_of_neg (by simp),
        and_iff_right List.mem_cons_self]
    · rw [if_neg hc, runs_bind, ih, List.takeWhile_cons_of_pos (by simpa using hc), List.mem_cons,
        or_iff_right (Ne.symm hc), runs_pure]

/-- Parts that are not longer than others, and are as long together, are the others. -/
theorem flatMap_eq_flatMap_iff (h : ∀ x ∈ l, f x <+: g x) :
    l.flatMap f = l.flatMap g ↔ ∀ x ∈ l, f x = g x := by
  have hle : ∀ r : List α, (∀ x ∈ r, f x <+: g x) →
      (r.flatMap f).length ≤ (r.flatMap g).length := by
    intro r hr
    induction r with
    | nil => exact Nat.le_refl 0
    | cons x r ih =>
      rw [List.forall_mem_cons] at hr
      rw [List.flatMap_cons, List.flatMap_cons, List.length_append, List.length_append]
      exact Nat.add_le_add hr.1.length_le (ih hr.2)
  induction l with
  | nil => simp
  | cons x l ih =>
    rw [List.forall_mem_cons] at h ⊢
    rw [List.flatMap_cons, List.flatMap_cons]
    constructor
    · intro heq
      have hlength := congrArg List.length heq
      rw [List.length_append, List.length_append] at hlength
      have hhead := h.1.length_le
      have htail := hle l h.2
      obtain ⟨hfirst, hrest⟩ := List.append_inj heq (by omega)
      exact ⟨hfirst, (ih h.2).mp hrest⟩
    · intro hboth
      rw [hboth.1, (ih h.2).mpr hboth.2]

end

section
variable {α : Type} {l r m : List α} {x y : α} {k : Nat}

theorem set_append : (l ++ r).set (l.length + k) x = l ++ r.set k x := by
  rw [List.set_append_right _ _ (Nat.le_add_right _ _), Nat.add_sub_cancel_left]

theorem getElem!_append [Inhabited α] : (l ++ r)[l.length + k]! = r[k]! := by
  rw [List.getElem!_eq_getElem?_getD, List.getElem!_eq_getElem?_getD,
    List.getElem?_append_right (Nat.le_add_right _ _), Nat.add_sub_cancel_left]

/-- The first and the last element of a part are swapped. -/
theorem swapped_append [Inhabited α] :
    swapped (l ++ x :: (m ++ y :: r)) l.length (l.length + (m.length + 1)) =
      l ++ y :: (m ++ x :: r) := by
  have hfirst : (l ++ x :: (m ++ y :: r))[l.length]! = x := getElem!_append (k := 0)
  have hlast : (l ++ x :: (m ++ y :: r))[l.length + (m.length + 1)]! = y := by
    rw [getElem!_append]
    exact getElem!_append (l := m) (k := 0)
  have hset : (l ++ x :: (m ++ y :: r)).set l.length y = l ++ y :: (m ++ y :: r) :=
    set_append (k := 0)
  rw [swapped, hfirst, hlast, hset, set_append, List.set_cons_succ]
  exact congrArg (fun r => l ++ y :: r) (set_append (l := m) (k := 0))

end

end LanguageTest
