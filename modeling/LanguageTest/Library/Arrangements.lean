import LanguageTest.Library.Rearranged
import Mathlib.Data.List.Permutation

namespace LanguageTest.Sorting

variable {α : Type} {xs ys : List α} {yss zss : List (List α)} {i k start : Nat}

/-- A permutation that leaves the elements before `start` in their places. -/
structure Arranged (xs : List α) (start : Nat) (ys : List α) : Prop where
  perm : ys.Perm xs
  front : ys.take start = xs.take start

/-- These permutations, each of them once. -/
structure Arrangements (xs : List α) (start : Nat) (yss : List (List α)) : Prop where
  nodup : yss.Nodup
  mem : ∀ ys, ys ∈ yss ↔ Arranged xs start ys

theorem arranged_length : Arranged xs xs.length ys ↔ ys = xs := by
  constructor
  · intro h
    have hfront := h.front
    have hlength := h.perm.length_eq
    rwa [List.take_length, ← hlength, List.take_length] at hfront
  · rintro rfl
    exact ⟨List.Perm.refl ys, rfl⟩

theorem arrangements_length : Arrangements xs xs.length [xs] where
  nodup := List.nodup_singleton xs
  mem _ := List.mem_singleton.trans arranged_length.symm

theorem Arrangements.perm_permutations (h : Arrangements xs 0 yss) (hxs : xs.Nodup) :
    yss.Perm xs.permutations := by
  refine (List.perm_ext_iff_of_nodup h.nodup (List.nodup_permutations xs hxs)).mpr fun ys => ?_
  rw [h.mem, List.mem_permutations]
  exact ⟨fun harr => harr.perm, fun hperm => ⟨hperm, rfl⟩⟩

variable [Inhabited α]

/-- The next element is one that was not placed yet. -/
theorem Arranged.next (h : Arranged xs start ys) (hstart : start < xs.length) :
    ∃ k, start ≤ k ∧ k < xs.length ∧ ys[start]! = xs[k]! := by
  have hlength := h.perm.length_eq
  have hperm := h.perm
  rw [← List.take_append_drop start xs, ← List.take_append_drop start ys, h.front,
    List.perm_append_left_iff] at hperm
  have hmem : ys[start]! ∈ ys.drop start :=
    mem_drop_iff.mpr ⟨start, le_rfl, by omega, rfl⟩
  obtain ⟨k, hle, hk, heq⟩ := mem_drop_iff.mp (hperm.subset hmem)
  exact ⟨k, hle, hk, heq.symm⟩

/-- A swap places the next element. -/
theorem arranged_swapped (hle : start ≤ i) (hi : i < xs.length) :
    Arranged (swapped xs i start) (start + 1) ys ↔ Arranged xs start ys ∧ ys[start]! = xs[i]! := by
  have hstart : start < xs.length := by omega
  have hrearranged : Rearranged start xs.length xs (swapped xs i start) :=
    Rearranged.swap hi hstart hle hi le_rfl hstart
  have htake : (swapped xs i start).take (start + 1) = xs.take start ++ [xs[i]!] := by
    rw [take_succ_eq (by rwa [length_swapped]), hrearranged.take_eq,
      getElem!_swapped hi hstart, if_pos rfl]
  constructor
  · rintro ⟨hperm, hfront⟩
    have hperm := hperm.trans (perm_swapped hi hstart)
    have hlength := hperm.length_eq
    rw [htake, take_succ_eq (by omega)] at hfront
    obtain ⟨htake, hlast⟩ := List.append_inj' hfront rfl
    exact ⟨⟨hperm, htake⟩, List.singleton_inj.mp hlast⟩
  · rintro ⟨⟨hperm, hfront⟩, hnext⟩
    have hlength := hperm.length_eq
    refine ⟨hperm.trans (perm_swapped hi hstart).symm, ?_⟩
    rw [htake, take_succ_eq (by omega), hfront, hnext]

/-- The arrangements with each of the elements from `start` up to `i` at that place. -/
structure Placed (xs : List α) (start i : Nat) (yss : List (List α)) : Prop where
  nodup : yss.Nodup
  mem : ∀ ys, ys ∈ yss ↔ Arranged xs start ys ∧ ∃ k, start ≤ k ∧ k < i ∧ ys[start]! = xs[k]!

theorem placed_start : Placed xs start start [] where
  nodup := List.nodup_nil
  mem ys := by
    refine iff_of_false List.not_mem_nil ?_
    rintro ⟨-, k, hle, hlt, -⟩
    omega

/-- The arrangements with another element at the place are new ones. -/
theorem Placed.append (h : Placed xs start i yss) (hxs : xs.Nodup) (hle : start ≤ i)
    (hi : i < xs.length) (hz : Arrangements (swapped xs i start) (start + 1) zss) :
    Placed xs start (i + 1) (yss ++ zss) where
  nodup := by
    refine List.nodup_append'.mpr ⟨h.nodup, hz.nodup, fun ys hy hyz => ?_⟩
    obtain ⟨-, k, -, hk, hold⟩ := (h.mem ys).mp hy
    obtain ⟨-, hnew⟩ := (arranged_swapped hle hi).mp ((hz.mem ys).mp hyz)
    rw [hold, getElem!_pos xs i hi, getElem!_pos xs k (by omega)] at hnew
    have hsame := hxs.getElem_inj_iff.mp hnew
    omega
  mem ys := by
    rw [List.mem_append, h.mem, hz.mem, arranged_swapped hle hi, ← and_or_left]
    refine and_congr_right fun _ => ?_
    constructor
    · rintro (⟨k, hk, hki, heq⟩ | heq)
      · exact ⟨k, hk, by omega, heq⟩
      · exact ⟨i, hle, by omega, heq⟩
    · rintro ⟨k, hk, hki, heq⟩
      rcases Nat.lt_succ_iff_lt_or_eq.mp hki with hlt | rfl
      · exact Or.inl ⟨k, hk, hlt, heq⟩
      · exact Or.inr heq

theorem Placed.arrangements (h : Placed xs start xs.length yss) (hstart : start < xs.length) :
    Arrangements xs start yss where
  nodup := h.nodup
  mem ys := (h.mem ys).trans (and_iff_left_of_imp fun harr => harr.next hstart)

end LanguageTest.Sorting
