import Mathlib.Data.List.Nodup
import Mathlib.Logic.Function.Basic

namespace LanguageTest.FreeList

variable {α : Type*}

/-- The list from a pointer to null through the links of its elements. -/
inductive Chain (next : α → Option α) : Option α → List α → Prop where
  | nil : Chain next none []
  | cons (a : α) (l : List α) (tail : Chain next (next a) l) : Chain next (some a) (a :: l)

variable {next : α → Option α} {p : Option α} {l l' : List α} {a : α}

theorem Chain.none_eq (h : Chain next none l) : l = [] := by
  cases h
  rfl

theorem Chain.exists_tail (h : Chain next (some a) l) :
    ∃ l', l = a :: l' ∧ Chain next (next a) l' := by
  cases h with
  | cons _ l' tail => exact ⟨l', rfl, tail⟩

theorem Chain.head_eq (h : Chain next p l) : p = l.head? := by
  cases h <;> rfl

theorem Chain.unique (h : Chain next p l) (h' : Chain next p l') : l = l' := by
  induction h generalizing l' with
  | nil => exact h'.none_eq.symm
  | cons a l tail ih =>
    obtain ⟨k, rfl, hk⟩ := h'.exists_tail
    rw [ih hk]

/-- What follows an element is the list from that element. -/
theorem Chain.from_append {xs ys : List α} (h : Chain next p (xs ++ a :: ys)) :
    Chain next (some a) (a :: ys) := by
  induction xs generalizing p with
  | nil =>
    cases h with
    | cons _ _ tail => exact .cons a ys tail
  | cons x xs ih =>
    cases h with
    | cons _ _ tail => exact ih tail

/-- A list that ends has no cycle. -/
theorem Chain.nodup (h : Chain next p l) : l.Nodup := by
  induction h with
  | nil => exact List.nodup_nil
  | cons a l tail ih =>
    refine List.nodup_cons.mpr ⟨?_, ih⟩
    intro hmem
    obtain ⟨xs, ys, rfl⟩ := List.append_of_mem hmem
    have hsame := (Chain.cons a (xs ++ a :: ys) tail).unique tail.from_append
    have hlength := congrArg List.length hsame
    simp only [List.length_cons, List.length_append] at hlength
    omega

theorem Chain.congr {next' : α → Option α} (h : Chain next p l)
    (hsame : ∀ a ∈ l, next' a = next a) : Chain next' p l := by
  induction h with
  | nil => exact .nil
  | cons a l tail ih =>
    refine .cons a l ?_
    rw [hsame a (List.mem_cons_self ..)]
    exact ih fun b hb => hsame b (List.mem_cons_of_mem _ hb)

variable [DecidableEq α]

/-- Writing the link of an element that is not on the list. -/
theorem Chain.update (h : Chain next p l) (ha : a ∉ l) (q : Option α) :
    Chain (Function.update next a q) p l := by
  apply h.congr
  intro b hb
  apply Function.update_of_ne
  intro heq
  exact ha (heq ▸ hb)

theorem Chain.push (h : Chain next p l) (ha : a ∉ l) :
    Chain (Function.update next a p) (some a) (a :: l) := by
  refine .cons a l ?_
  rw [Function.update_self]
  exact h.update ha p

omit [DecidableEq α] in
/-- Elements that are linked in the order of their indices, up to `n`. -/
theorem Chain.indexed {f : Nat → α} {n : Nat}
    (hlink : ∀ i < n, next (f i) = if i + 1 < n then some (f (i + 1)) else none) :
    ∀ m k, k + m = n → Chain next (if k < n then some (f k) else none)
      ((List.range' k m).map f) := by
  intro m
  induction m with
  | zero =>
    intro k hk
    rw [if_neg (by omega)]
    exact .nil
  | succ m ih =>
    intro k hk
    have hlt : k < n := by omega
    rw [if_pos hlt, List.range'_succ, List.map_cons]
    refine .cons (f k) _ ?_
    rw [hlink k hlt]
    exact ih (k + 1) (by omega)

end LanguageTest.FreeList
