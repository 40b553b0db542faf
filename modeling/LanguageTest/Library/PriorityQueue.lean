import Mathlib.Data.List.Sort

namespace LanguageTest.PriorityQueue

variable {α : Type*} (r : α → α → Prop)

/-- The top of a priority queue, an element to which every element is related. -/
def top? [DecidableRel r] (q : List α) : Option α := q.find? fun x => q.all fun y => r y x

/-- Every element of the first queue is related to every element of the second. -/
def Separated (s t : List α) : Prop := ∀ a ∈ s, ∀ b ∈ t, r a b

variable {r} {q s t : List α} {x y : α}

theorem top?_spec [DecidableRel r] (h : top? r q = some x) : x ∈ q ∧ ∀ y ∈ q, r y x := by
  refine ⟨List.mem_of_find?_eq_some h, ?_⟩
  have hall := List.find?_some h
  simpa using hall

theorem exists_top (htotal : ∀ a b, r a b ∨ r b a) (htrans : ∀ a b c, r a b → r b c → r a c)
    (hq : q ≠ []) : ∃ x ∈ q, ∀ y ∈ q, r y x := by
  induction q with
  | nil => exact absurd rfl hq
  | cons a q ih =>
    have hself : r a a := (htotal a a).elim id id
    by_cases hnil : q = []
    · subst hnil
      exact ⟨a, List.mem_cons_self .., by simpa using hself⟩
    · obtain ⟨x, hx, hmax⟩ := ih hnil
      rcases htotal a x with hax | hxa
      · refine ⟨x, List.mem_cons_of_mem a hx, ?_⟩
        intro y hy
        rcases List.mem_cons.mp hy with rfl | hy
        · exact hax
        · exact hmax y hy
      · refine ⟨a, List.mem_cons_self .., ?_⟩
        intro y hy
        rcases List.mem_cons.mp hy with rfl | hy
        · exact hself
        · exact htrans y x a (hmax y hy) hxa

theorem exists_top? [DecidableRel r] (htotal : ∀ a b, r a b ∨ r b a)
    (htrans : ∀ a b c, r a b → r b c → r a c) (hq : q ≠ []) : ∃ x, top? r q = some x := by
  obtain ⟨x, hx, hmax⟩ := exists_top htotal htrans hq
  apply Option.isSome_iff_exists.mp
  apply List.find?_isSome.mpr
  exact ⟨x, hx, by simpa using hmax⟩

/-- A new element passes through the first queue: the top that leaves it separates what stays
from the second queue. -/
theorem Separated.pass [DecidableEq α] (htrans : ∀ a b c, r a b → r b c → r a c)
    (h : Separated r s t) (hx : x ∈ y :: s) (hmax : ∀ a ∈ y :: s, r a x) :
    Separated r ((y :: s).erase x) (x :: t) := by
  intro a ha b hb
  have hay : a ∈ y :: s := List.mem_of_mem_erase ha
  rcases List.mem_cons.mp hb with rfl | hbt
  · exact hmax a hay
  · by_cases hxy : y = x
    · subst hxy
      rw [List.erase_cons_head] at ha
      exact h a ha b hbt
    · have hxs : x ∈ s := (List.mem_cons.mp hx).resolve_left (Ne.symm hxy)
      exact htrans a x b (hmax a hay) (h x hxs b hbt)

theorem pass_perm [DecidableEq α] (hx : x ∈ y :: s) :
    ((y :: s).erase x ++ x :: t).Perm (y :: (s ++ t)) := by
  have h1 := (List.perm_cons_erase hx).symm
  have h2 : ((y :: s).erase x ++ x :: t).Perm (x :: ((y :: s).erase x ++ t)) := List.perm_middle
  exact h2.trans (h1.append_right t)

section
variable [LinearOrder α] {l : List α}

/-- Two separated queues are the two parts of a sorted list of their elements. -/
theorem sorted_append (h : Separated (· ≤ ·) s t) (hl : l.Pairwise (· ≤ ·))
    (hp : l.Perm (s ++ t)) :
    ∃ l₁ l₂, l = l₁ ++ l₂ ∧ l₁.Perm s ∧ l₂.Perm t := by
  have hs := List.mergeSort_perm s (· ≤ ·)
  have ht := List.mergeSort_perm t (· ≤ ·)
  refine ⟨_, _, ?_, hs, ht⟩
  have hst : (s.mergeSort (· ≤ ·) ++ t.mergeSort (· ≤ ·)).Pairwise (· ≤ ·) := by
    apply List.pairwise_append.mpr
    refine ⟨?_, ?_, fun a ha b hb => h a (hs.mem_iff.mp ha) b (ht.mem_iff.mp hb)⟩
    · simpa using List.pairwise_mergeSort' (· ≤ ·) s
    · simpa using List.pairwise_mergeSort' (· ≤ ·) t
  exact List.Perm.eq_of_pairwise' hl hst (hp.trans (hs.append ht).symm)

/-- The greatest element of the first part stands last in it. -/
theorem getElem?_last (h : Separated (· ≤ ·) s t) (hl : l.Pairwise (· ≤ ·))
    (hp : l.Perm (s ++ t)) (hx : x ∈ s) (hmax : ∀ a ∈ s, a ≤ x) :
    l[s.length - 1]? = some x := by
  obtain ⟨l₁, l₂, rfl, h1, -⟩ := sorted_append h hl hp
  rcases List.eq_nil_or_concat l₁ with rfl | ⟨m, z, rfl⟩
  · rw [List.nil_perm.mp h1] at hx
    cases hx
  · rw [List.concat_eq_append] at h1 hl ⊢
    have hz : z ∈ s := h1.mem_iff.mp (by simp)
    have hxz : x ≤ z := by
      have hxm : x ∈ m ++ [z] := h1.mem_iff.mpr hx
      rcases List.mem_append.mp hxm with hxm | hxz
      · exact (List.pairwise_append.mp (List.pairwise_append.mp hl).1).2.2 x hxm z (by simp)
      · exact (List.mem_singleton.mp hxz).le
    obtain rfl : z = x := le_antisymm (hmax z hz) hxz
    rw [← h1.length_eq]
    simp

/-- The least element of the second part stands first in it. -/
theorem getElem?_first (h : Separated (· ≤ ·) s t) (hl : l.Pairwise (· ≤ ·))
    (hp : l.Perm (s ++ t)) (hx : x ∈ t) (hmin : ∀ a ∈ t, x ≤ a) :
    l[s.length]? = some x := by
  obtain ⟨l₁, l₂, rfl, h1, h2⟩ := sorted_append h hl hp
  cases l₂ with
  | nil =>
    rw [List.nil_perm.mp h2] at hx
    cases hx
  | cons z m =>
    have hz : z ∈ t := h2.mem_iff.mp (List.mem_cons_self ..)
    have hzx : z ≤ x := by
      rcases List.mem_cons.mp (h2.mem_iff.mpr hx) with rfl | hxm
      · exact le_rfl
      · exact (List.pairwise_cons.mp (List.pairwise_append.mp hl).2.1).1 x hxm
    obtain rfl : z = x := le_antisymm hzx (hmin z hz)
    rw [← h1.length_eq]
    simp

end

end LanguageTest.PriorityQueue
