import Mathlib.Data.List.Nodup
import Mathlib.Order.Bounds.Basic

namespace LanguageTest

variable {α : Type*} {xs t : List α} {x y : α} {c k m : Nat}

/-- The blocks at the end whose elements are different are those of at most `c` elements. -/
def DistinctEnd (xs : List α) (c : Nat) : Prop :=
  c ≤ xs.length ∧ ∀ t, t <:+ xs → (t.Nodup ↔ t.length ≤ c)

/-- The lengths of the blocks whose elements are different. -/
def distinctBlocks (xs : List α) : Set Nat := { n | ∃ t, t <:+: xs ∧ t.Nodup ∧ t.length = n }

/-- `k` elements come before the last occurrence of `x`. -/
def LastAt (x : α) (xs : List α) (k : Nat) : Prop :=
  ∃ u v, xs = u ++ x :: v ∧ x ∉ v ∧ u.length = k

theorem distinctEnd_nil : DistinctEnd ([] : List α) 0 := by
  refine ⟨Nat.le_refl 0, fun t ht => ?_⟩
  rw [List.suffix_nil.mp ht]
  exact iff_of_true List.nodup_nil (Nat.le_refl 0)

theorem isGreatest_distinctBlocks_nil : IsGreatest (distinctBlocks ([] : List α)) 0 := by
  refine ⟨⟨[], List.infix_rfl, List.nodup_nil, rfl⟩, ?_⟩
  rintro n ⟨t, ht, -, rfl⟩
  rw [List.infix_nil.mp ht]
  exact Nat.le_refl 0

theorem LastAt.mem (h : LastAt x xs k) : x ∈ xs := by
  obtain ⟨u, v, rfl, -, -⟩ := h
  exact List.mem_append_right _ List.mem_cons_self

theorem LastAt.lt (h : LastAt x xs k) : k < xs.length := by
  obtain ⟨u, v, rfl, -, rfl⟩ := h
  rw [List.length_append, List.length_cons]
  omega

theorem lastAt_concat (x : α) (xs : List α) : LastAt x (xs ++ [x]) xs.length :=
  ⟨xs, [], rfl, List.not_mem_nil, rfl⟩

theorem LastAt.concat (h : LastAt x xs k) (hne : x ≠ y) : LastAt x (xs ++ [y]) k := by
  obtain ⟨u, v, rfl, hv, hu⟩ := h
  refine ⟨u, v ++ [y], by rw [List.append_assoc, List.cons_append], ?_, hu⟩
  rw [List.mem_append, List.mem_singleton]
  exact not_or.mpr ⟨hv, hne⟩

/-- The blocks at the end that the last occurrence is in. -/
theorem LastAt.mem_suffix_iff (h : LastAt x xs k) (ht : t <:+ xs) :
    x ∈ t ↔ xs.length ≤ t.length + k := by
  obtain ⟨u, v, rfl, hv, rfl⟩ := h
  rw [List.length_append, List.length_cons]
  rcases List.suffix_or_suffix_of_suffix ht (List.suffix_append u (x :: v)) with hin | hin
  · rcases List.suffix_cons_iff.mp hin with rfl | hin
    · exact iff_of_true List.mem_cons_self (by rw [List.length_cons]; omega)
    · have hle := hin.length_le
      exact iff_of_false (fun hmem => hv (hin.subset hmem)) (by omega)
  · have hle := hin.length_le
    rw [List.length_cons] at hle
    exact iff_of_true (hin.subset List.mem_cons_self) (by omega)

theorem nodup_concat_iff : (t ++ [x]).Nodup ↔ t.Nodup ∧ x ∉ t := by
  rw [List.nodup_append_comm, List.singleton_append, List.nodup_cons, and_comm]

/-- A new element prolongs the longest block. -/
theorem DistinctEnd.concat_new (h : DistinctEnd xs c) (hx : x ∉ xs) :
    DistinctEnd (xs ++ [x]) (c + 1) := by
  obtain ⟨hle, hall⟩ := h
  refine ⟨by rw [List.length_append, List.length_singleton]; omega, fun t ht => ?_⟩
  rcases List.suffix_concat_iff.mp ht with rfl | ⟨t, rfl, hbefore⟩
  · exact iff_of_true List.nodup_nil (Nat.zero_le _)
  · rw [nodup_concat_iff, hall t hbefore, List.length_append, List.length_singleton,
      and_iff_left fun hmem => hx (hbefore.subset hmem)]
    omega

/-- An element that occurs cuts the longest block off behind its last occurrence. -/
theorem DistinctEnd.concat_last (h : DistinctEnd xs c) (hx : LastAt x xs k) :
    DistinctEnd (xs ++ [x]) (min (c + 1) (xs.length - k)) := by
  have hlt := hx.lt
  obtain ⟨hle, hall⟩ := h
  refine ⟨by rw [List.length_append, List.length_singleton]; omega, fun t ht => ?_⟩
  rcases List.suffix_concat_iff.mp ht with rfl | ⟨t, rfl, hbefore⟩
  · exact iff_of_true List.nodup_nil (Nat.zero_le _)
  · rw [nodup_concat_iff, hall t hbefore, hx.mem_suffix_iff hbefore, List.length_append,
      List.length_singleton]
    omega

/-- A longest block is one of those before, or the longest one at the end. -/
theorem DistinctEnd.isGreatest (h : DistinctEnd (xs ++ [x]) c)
    (hm : IsGreatest (distinctBlocks xs) m) :
    IsGreatest (distinctBlocks (xs ++ [x])) (max m c) := by
  obtain ⟨⟨t, ht, hnodup, rfl⟩, hall⟩ := hm
  constructor
  · rcases Nat.le_total c t.length with hle | hle
    · rw [Nat.max_eq_left hle]
      exact ⟨t, List.infix_concat_iff.mpr (Or.inr ht), hnodup, rfl⟩
    · have hend : (xs ++ [x]).drop ((xs ++ [x]).length - c) <:+ xs ++ [x] := List.drop_suffix _ _
      have hlength : ((xs ++ [x]).drop ((xs ++ [x]).length - c)).length = c := by
        have hc := h.1
        rw [List.length_drop]
        omega
      rw [Nat.max_eq_right hle]
      exact ⟨_, hend.isInfix, (h.2 _ hend).mpr (Nat.le_of_eq hlength), hlength⟩
  · rintro n ⟨r, hr, hdistinct, rfl⟩
    rcases List.infix_concat_iff.mp hr with hend | hbefore
    · exact Nat.le_trans ((h.2 r hend).mp hdistinct) (Nat.le_max_right _ c)
    · exact Nat.le_trans (hall ⟨r, hbefore, hdistinct, rfl⟩) (Nat.le_max_left _ c)

end LanguageTest
