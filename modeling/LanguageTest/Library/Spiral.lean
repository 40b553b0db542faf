import Mathlib.Data.List.Nodup
import Mathlib.Data.List.Range

namespace LanguageTest

variable {α β : Type*}

/-- The entries of a matrix of `m` rows and `n` columns, clockwise and inwards: the first row, and
then the spiral of the other rows, turned counter-clockwise. -/
def spiral : Nat → Nat → (Nat → Nat → α) → List α
  | 0, _, _ => []
  | m + 1, n, f => (List.range n).map (f 0) ++ spiral n m fun i j => f (j + 1) (n - 1 - i)
termination_by m n => m + n

section
variable {m n : Nat} {f g : Nat → Nat → α} {x : α}

@[simp] theorem spiral_zero_rows : spiral 0 n f = [] := by
  rw [spiral]

theorem spiral_succ :
    spiral (m + 1) n f =
      (List.range n).map (f 0) ++ spiral n m fun i j => f (j + 1) (n - 1 - i) := by
  rw [spiral]

@[simp] theorem spiral_zero_columns : spiral m 0 f = [] := by
  cases m <;> simp [spiral_succ]

/-- Only the entries matter. -/
theorem spiral_congr (h : ∀ i < m, ∀ j < n, f i j = g i j) : spiral m n f = spiral m n g := by
  induction m, n, f using spiral.induct generalizing g with
  | case1 n f => simp
  | case2 m n f ih =>
    rw [spiral_succ, spiral_succ]
    congr 1
    · apply List.map_congr_left
      intro j hj
      exact h 0 (Nat.succ_pos m) j (List.mem_range.mp hj)
    · apply ih
      intro i hi j hj
      exact h (j + 1) (by omega) (n - 1 - i) (by omega)

theorem map_spiral (u : α → β) : (spiral m n f).map u = spiral m n fun i j => u (f i j) := by
  induction m, n, f using spiral.induct with
  | case1 n f => simp
  | case2 m n f ih => simp [spiral_succ, ih, Function.comp_def]

theorem length_spiral : (spiral m n f).length = m * n := by
  induction m, n, f using spiral.induct with
  | case1 n f => simp
  | case2 m n f ih =>
    rw [spiral_succ, List.length_append, ih, List.length_map, List.length_range, Nat.succ_mul,
      Nat.mul_comm n m, Nat.add_comm]

theorem mem_spiral : x ∈ spiral m n f ↔ ∃ i < m, ∃ j < n, f i j = x := by
  induction m, n, f using spiral.induct with
  | case1 n f => simp
  | case2 m n f ih =>
    rw [spiral_succ, List.mem_append, ih, List.mem_map]
    constructor
    · rintro (⟨j, hj, rfl⟩ | ⟨i, hi, j, hj, rfl⟩)
      · exact ⟨0, Nat.succ_pos m, j, List.mem_range.mp hj, rfl⟩
      · exact ⟨j + 1, by omega, n - 1 - i, by omega, rfl⟩
    · intro h
      obtain ⟨i, hi, j, hj, rfl⟩ := h
      cases i with
      | zero => exact .inl ⟨j, List.mem_range.mpr hj, rfl⟩
      | succ i =>
        refine .inr ⟨n - 1 - j, by omega, i, by omega, ?_⟩
        have hturn : n - 1 - (n - 1 - j) = j := by omega
        simp only [hturn]

/-- Different cells are passed at different places. -/
theorem nodup_spiral
    (h : ∀ i < m, ∀ j < n, ∀ i' < m, ∀ j' < n, f i j = f i' j' → i = i' ∧ j = j') :
    (spiral m n f).Nodup := by
  induction m, n, f using spiral.induct with
  | case1 n f => simp
  | case2 m n f ih =>
    rw [spiral_succ, List.nodup_append']
    refine ⟨?_, ?_, ?_⟩
    · apply List.Nodup.map_on _ List.nodup_range
      intro j hj j' hj' he
      exact (h 0 (Nat.succ_pos m) j (List.mem_range.mp hj) 0 (Nat.succ_pos m) j'
        (List.mem_range.mp hj') he).2
    · apply ih
      intro i hi j hj i' hi' j' hj' he
      have := h (j + 1) (by omega) (n - 1 - i) (by omega) (j' + 1) (by omega) (n - 1 - i')
        (by omega) he
      omega
    · intro x hx hx'
      obtain ⟨j, hj, rfl⟩ := List.mem_map.mp hx
      obtain ⟨i', hi', j', hj', he⟩ := mem_spiral.mp hx'
      have := h (j' + 1) (by omega) (n - 1 - i') (by omega) 0 (Nat.succ_pos m) j
        (List.mem_range.mp hj) he
      omega

/-- The outermost ring, side by side, and what it encloses. -/
theorem spiral_ring (hm : 0 < m) (hn : 0 < n) :
    spiral m n f =
      (List.range n).map (f 0) ++ ((List.range (m - 2)).map (fun i => f (1 + i) (n - 1)) ++
        ((List.range (if m = 1 then 0 else n)).map (fun j => f (m - 1) (n - 1 - j)) ++
          ((List.range (if n = 1 then 0 else m - 2)).map (fun i => f (m - 2 - i) 0) ++
            spiral (m - 2) (n - 2) fun i j => f (1 + i) (1 + j)))) := by
  obtain ⟨m, rfl⟩ : ∃ k, m = k + 1 := ⟨m - 1, by omega⟩
  obtain ⟨n, rfl⟩ : ∃ k, n = k + 1 := ⟨n - 1, by omega⟩
  cases m with
  | zero => simp [spiral_succ]
  | succ m =>
    cases n with
    | zero =>
      -- A single column ends in its last cell, which is the last side.
      rw [spiral_succ, spiral_succ, spiral_zero_columns]
      simp [List.range_succ, Nat.add_comm 1]
    | succ n =>
      rw [spiral_succ, spiral_succ, spiral_succ, spiral_succ]
      have hm1 : ¬ m + 1 + 1 = 1 := by omega
      have hn1 : ¬ n + 1 + 1 = 1 := by omega
      have hright : (List.range (m + 1)).map (fun j => f (j + 1) (n + 1 + 1 - 1 - 0)) =
          (List.range m).map (fun i => f (1 + i) (n + 1)) ++ [f (m + 1) (n + 1)] := by
        simp [List.range_succ, Nat.add_comm]
      have hbottom : (List.range (n + 1 + 1)).map (fun j => f (m + 1) (n + 1 - j)) =
          f (m + 1) (n + 1) :: (List.range (n + 1)).map (fun j => f (m + 1) (n - j)) := by
        rw [List.range_succ_eq_map]
        simp [Function.comp_def, Nat.add_sub_add_right]
      rw [hright, if_neg hm1, if_neg hn1]
      change _ = _ ++ (_ ++ ((List.range (n + 1 + 1)).map (fun j => f (m + 1) (n + 1 - j)) ++ _))
      rw [hbottom, List.append_assoc, List.singleton_append, List.cons_append]
      congr 4
      · apply List.map_congr_left
        intro j hj
        congr 1
        omega
      congr 1
      · apply List.map_congr_left
        intro j hj
        have hj := List.mem_range.mp hj
        congr 1 <;> omega
      · apply spiral_congr
        intro i hi j hj
        congr 1 <;> omega

end

end LanguageTest
