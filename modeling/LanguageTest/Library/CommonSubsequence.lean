import LanguageTest.Library.Elements
import Mathlib.Data.List.Basic

namespace LanguageTest

variable {α : Type} {xs ys zs : List α} {a b : α} {k p q : Nat}

/-- Some common subsequence has `k` elements, and none has more. -/
def LongestCommon (k : Nat) (xs ys : List α) : Prop :=
  (∃ zs : List α, zs.Sublist xs ∧ zs.Sublist ys ∧ zs.length = k) ∧
    ∀ zs : List α, zs.Sublist xs → zs.Sublist ys → zs.length ≤ k

theorem LongestCommon.unique (hp : LongestCommon p xs ys) (hq : LongestCommon q xs ys) : p = q := by
  obtain ⟨⟨us, hux, huy, rfl⟩, hple⟩ := hp
  obtain ⟨⟨vs, hvx, hvy, rfl⟩, hqle⟩ := hq
  exact Nat.le_antisymm (hqle us hux huy) (hple vs hvx hvy)

theorem LongestCommon.le_length (h : LongestCommon k xs ys) : k ≤ xs.length := by
  obtain ⟨⟨zs, hx, -, rfl⟩, -⟩ := h
  exact hx.length_le

theorem longestCommon_nil_left : LongestCommon 0 [] ys := by
  refine ⟨⟨[], List.Sublist.refl _, List.nil_sublist _, rfl⟩, fun zs hzs _ => ?_⟩
  exact Nat.le_of_eq (congrArg List.length (List.sublist_nil.mp hzs))

theorem longestCommon_nil_right : LongestCommon 0 xs [] := by
  refine ⟨⟨[], List.nil_sublist _, List.Sublist.refl _, rfl⟩, fun zs _ hzs => ?_⟩
  exact Nat.le_of_eq (congrArg List.length (List.sublist_nil.mp hzs))

/-- A subsequence either ends with the last element or leaves it out. -/
theorem sublist_concat_iff :
    zs.Sublist (xs ++ [a]) ↔ zs.Sublist xs ∨ ∃ ws : List α, zs = ws ++ [a] ∧ ws.Sublist xs := by
  rw [List.sublist_append_iff]
  constructor
  · rintro ⟨us, vs, rfl, hus, hvs⟩
    rcases List.sublist_singleton.mp hvs with rfl | rfl
    · exact Or.inl (by rwa [List.append_nil])
    · exact Or.inr ⟨us, rfl, hus⟩
  · rintro (h | ⟨ws, rfl, h⟩)
    · exact ⟨zs, [], (List.append_nil _).symm, h, List.nil_sublist _⟩
    · exact ⟨ws, [a], rfl, h, List.Sublist.refl _⟩

theorem dropLast_sublist_of_concat (h : zs.Sublist (xs ++ [a])) : zs.dropLast.Sublist xs := by
  rcases sublist_concat_iff.mp h with h | ⟨ws, rfl, h⟩
  · exact (List.dropLast_sublist zs).trans h
  · rwa [List.dropLast_concat]

/-- A common last element adds one to the length. -/
theorem LongestCommon.concat_eq (h : LongestCommon k xs ys) :
    LongestCommon (k + 1) (xs ++ [a]) (ys ++ [a]) := by
  obtain ⟨⟨zs, hx, hy, hlength⟩, hle⟩ := h
  refine ⟨⟨zs ++ [a], hx.append_right _, hy.append_right _, by simp [hlength]⟩, ?_⟩
  intro ws hwx hwy
  have hdrop := hle ws.dropLast (dropLast_sublist_of_concat hwx) (dropLast_sublist_of_concat hwy)
  rw [List.length_dropLast] at hdrop
  exact Nat.sub_le_iff_le_add.mp hdrop

/-- Of two different last elements, one is left out. -/
theorem LongestCommon.concat_ne (hab : a ≠ b) (hp : LongestCommon p xs (ys ++ [b]))
    (hq : LongestCommon q (xs ++ [a]) ys) :
    LongestCommon (max p q) (xs ++ [a]) (ys ++ [b]) := by
  obtain ⟨⟨us, hux, huy, rfl⟩, hp⟩ := hp
  obtain ⟨⟨vs, hvx, hvy, rfl⟩, hq⟩ := hq
  constructor
  · rcases Nat.le_total us.length vs.length with hle | hle
    · exact ⟨vs, hvx, hvy.trans (List.sublist_append_left ys [b]), (Nat.max_eq_right hle).symm⟩
    · exact ⟨us, hux.trans (List.sublist_append_left xs [a]), huy, (Nat.max_eq_left hle).symm⟩
  · intro zs hx hy
    rcases sublist_concat_iff.mp hx with hx | ⟨ws, rfl, hws⟩
    · exact Nat.le_trans (hp zs hx hy) (Nat.le_max_left _ _)
    · refine Nat.le_trans (hq _ hx ?_) (Nat.le_max_right _ _)
      rcases sublist_concat_iff.mp hy with hy | ⟨ts, hts, -⟩
      · exact hy
      · exact absurd (List.append_inj_right' hts rfl) (by simpa using hab)

end LanguageTest
