import LanguageTest.Library.Cells
import Mathlib.Data.Nat.ModEq

namespace LanguageTest.RingBuffer

/-- The place that lies `i` places after `front` in a ring of `m` places. -/
def place (m front i : Nat) : Nat := (front + i) % m

variable {m front i j : Nat}

theorem place_lt (front i : Nat) (hm : 0 < m) : place m front i < m := Nat.mod_lt _ hm

theorem place_zero (h : front < m) : place m front 0 = front := Nat.mod_eq_of_lt h

theorem place_place : place m (place m front i) j = place m front (i + j) := by
  rw [place, place, place, Nat.mod_add_mod, Nat.add_assoc]

/-- Less than one round, a place is only reached once. -/
theorem place_inj (front : Nat) (hi : i < m) (hj : j < m) :
    place m front i = place m front j ↔ i = j := by
  constructor
  · intro h
    have hmod : i % m = j % m := Nat.ModEq.add_left_cancel' front h
    rwa [Nat.mod_eq_of_lt hi, Nat.mod_eq_of_lt hj] at hmod
  · exact fun h => h ▸ rfl

theorem place_eq_front (hfront : front < m) (hi : i < m) : place m front i = front ↔ i = 0 := by
  have h := place_inj front hi (Nat.zero_lt_of_lt hi)
  rwa [place_zero hfront] at h

/-- The place after the last one of a full round is the first. -/
theorem place_succ_eq_front (hfront : front < m) (hi : i < m) :
    place m front (i + 1) = front ↔ i + 1 = m := by
  by_cases hround : i + 1 = m
  · have hback : place m front (i + 1) = front := by
      rw [hround, place, Nat.add_mod_right, Nat.mod_eq_of_lt hfront]
    exact iff_of_true hback hround
  · rw [place_eq_front hfront (by omega)]
    omega

variable {α : Type} {d : Cells α} {x : α} {xs : List α}

/-- The ring holds these elements from `front` on. -/
def Holds (d : Cells α) (front : Nat) (xs : List α) : Prop :=
  ∀ i x, xs[i]? = some x → d[place d.length front i]? = some (some x)

theorem holds_nil : Holds d front [] := by
  intro i x hx
  cases hx

theorem Holds.head (h : Holds d front (x :: xs)) (hfront : front < d.length) :
    d[front]? = some (some x) := by
  have hfirst := h 0 x rfl
  rwa [place_zero hfront] at hfirst

theorem Holds.pop (h : Holds d front (x :: xs)) : Holds d (place d.length front 1) xs := by
  intro i y hy
  rw [place_place, Nat.add_comm]
  exact h (i + 1) y hy

theorem Holds.push (h : Holds d front xs) (hroom : xs.length < d.length) (x : α) :
    Holds (d.set (place d.length front xs.length) (some x)) front (xs ++ [x]) := by
  intro i y hy
  rw [List.length_set]
  by_cases hi : i = xs.length
  · subst hi
    rw [List.getElem?_set_self (place_lt front _ (Nat.zero_lt_of_lt hroom))]
    simp at hy
    rw [hy]
  · have hlt : i < xs.length := by
      have hbound := (List.getElem?_eq_some_iff.mp hy).1
      rw [List.length_append, List.length_singleton] at hbound
      omega
    rw [List.getElem?_append_left hlt] at hy
    rw [List.getElem?_set_ne]
    · exact h i y hy
    · intro heq
      exact hi ((place_inj front (by omega) (by omega)).mp heq.symm)

end LanguageTest.RingBuffer
