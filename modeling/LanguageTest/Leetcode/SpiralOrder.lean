import LanguageTest.Library.Spiral
import LanguageTest.Library.Tables

namespace LanguageTest.SpiralOrder

/-- The vector `res`. The history has the cells that were read. -/
structure State where
  res : List Int
  visited : List (Int × Int)

/-- The four bounds of what remains of the matrix. -/
structure Bounds where
  top : Int
  bot : Int
  left : Int
  right : Int

/-- `res.push_back(matrix[i][j])`. -/
def pushEntry (matrix : List (List Int)) (cell : Int × Int) : Program State Unit := do
  let x ← readEntry matrix cell.1 cell.2
  let s ← get
  set (⟨s.res ++ [x], s.visited ++ [cell]⟩ : State)

/-- A loop whose variable moves by `gap` as long as the guard holds. -/
def side (fuel : Nat) (matrix : List (List Int)) (guard : Int → Bool) (gap : Int)
    (cell : Int → Int × Int) (first : Int) : Program State Unit :=
  loop (fun k => do
    if guard k then
      pushEntry matrix (cell k)
      pure (.again (← int (k + gap)))
    else pure (.done ())) fuel first

/-- The four sides of a ring, and the bounds of what it encloses. The guards of the loops are what
the two sources do not share. -/
def readRing (fuel : Nat) (matrix : List (List Int))
    (topGuard rightGuard botGuard leftGuard : Int → Bool) (b : Bounds) : Program State Bounds := do
  side fuel matrix topGuard 1 (fun j => (b.top, j)) b.left
  side fuel matrix rightGuard 1 (fun i => (i, b.right)) (← int (b.top + 1))
  side fuel matrix botGuard (-1) (fun j => (b.bot, j)) b.right
  side fuel matrix leftGuard (-1) (fun i => (i, b.left)) (← int (b.bot - 1))
  pure ⟨← int (b.top + 1), ← int (b.bot - 1), ← int (b.left + 1), ← int (b.right - 1)⟩

/-- One pass of the loop of the first source. -/
def spiralRing (fuel : Nat) (matrix : List (List Int)) (b : Bounds) : Program State Bounds :=
  readRing fuel matrix (fun j => j ≤ b.right) (fun i => i < b.bot)
    (fun j => j ≥ 0 && j ≥ b.left && b.top != b.bot)
    (fun i => i ≥ 0 && i > b.top && b.left != b.right) b

/-- `spiralOrder` of the first source, which counts the rings down. -/
def spiralOrder (fuel : Nat) (matrix : List (List Int)) : Program State (List Int) := do
  set (⟨[], []⟩ : State)
  let row := toInt matrix.length
  let col := toInt (← itemAt matrix 0).length
  let round := (← int (min row col + 1)) >>> (1 : Nat)
  let b : Bounds := ⟨0, ← int (row - 1), 0, ← int (col - 1)⟩
  loop (fun v : Int × Bounds => do
    if v.1 ≠ 0 then
      let round ← int (v.1 - 1)
      pure (.again (round, ← spiralRing fuel matrix v.2))
    else pure (.done ())) fuel (round, b)
  pure (← get).res

namespace Clockwise

/-- One pass of the loop of the second source, which has `col` rows of `row` entries. -/
def spiralRing (fuel : Nat) (matrix : List (List Int)) (row col : Int) (b : Bounds) :
    Program State Bounds :=
  readRing fuel matrix (fun j => j ≤ b.right && j < row) (fun i => i < b.bot && i < col)
    (fun j => j ≥ b.left && j ≥ 0 && b.top != b.bot)
    (fun i => i > b.top && i ≥ 0 && b.left != b.right) b

/-- `spiralOrder` of the second source, which counts the rings up. -/
def spiralOrder (fuel : Nat) (matrix : List (List Int)) : Program State (List Int) := do
  set (⟨[], []⟩ : State)
  let col := toInt matrix.length
  if col = 0 then pure []
  else
    let row := toInt (← itemAt matrix 0).length
    let b : Bounds := ⟨0, ← int (col - 1), 0, ← int (row - 1)⟩
    let round := (← int (min col row + 1)) >>> (1 : Nat)
    loop (fun v : Int × Bounds => do
      if v.1 < round then
        let b ← spiralRing fuel matrix row col v.2
        pure (.again (← int (v.1 + 1), b))
      else pure (.done ())) fuel (0, b)
    pure (← get).res

end Clockwise

/-- The state after these cells were read. -/
def extended (t : List (List Int)) (ps : List (Nat × Nat)) (s : State) : State :=
  ⟨s.res ++ ps.map fun p => (t[p.1]!)[p.2]!, s.visited ++ ps.map fun p => ((p.1 : Int), (p.2 : Int))⟩

/-- The bounds after `k` rings. -/
def bounds (m n k : Nat) : Bounds := ⟨k, (m : Int) - 1 - k, k, (n : Int) - 1 - k⟩

/-- The four sides of the outermost ring of `h` rows and `w` columns that start at `(k, k)`. -/
def ringCells (k h w : Nat) : List (Nat × Nat) :=
  (List.range w).map (fun j => (k, k + j)) ++
    ((List.range (h - 2)).map (fun i => (k + (1 + i), k + (w - 1))) ++
      ((List.range (if h = 1 then 0 else w)).map (fun j => (k + (h - 1), k + (w - 1 - j))) ++
        (List.range (if w = 1 then 0 else h - 2)).map fun i => (k + (h - 2 - i), k)))

/-- What was read in `k` rings, and the spiral of what they enclose, are the whole spiral. -/
def Peeled (t : List (List Int)) (m n k : Nat) (s : State) : Prop :=
  ∃ ps, s = extended t ps ⟨[], []⟩ ∧
    ps ++ spiral (m - 2 * k) (n - 2 * k) (fun i j => (k + i, k + j)) = spiral m n Prod.mk

/-- The result is the spiral of the matrix, and the cells that were read are those of the matrix,
each of them once. -/
def IsSpiral (t : List (List Int)) (m n : Nat) (r : List Int) (s : State) : Prop :=
  r = spiral m n (fun i j => (t[i]!)[j]!) ∧ r.length = m * n ∧ s.visited.Nodup ∧
    ∀ p, p ∈ s.visited ↔ ∃ i < m, ∃ j < n, ((i : Int), (j : Int)) = p

section
variable {t : List (List Int)} {s : State} {m n k fuel : Nat} {ps qs : List (Nat × Nat)}
  {g₁ g₂ g₃ g₄ : Int → Bool}

@[simp] theorem extended_nil : extended t [] s = s := by
  simp [extended]

@[simp] theorem extended_extended : extended t qs (extended t ps s) = extended t (ps ++ qs) s := by
  simp [extended]

theorem runs_pushEntry {p : Nat × Nat} {Q : Unit → State → Prop} (ht : HasShape m n t)
    (hi : p.1 < m) (hj : p.2 < n) :
    Runs (pushEntry t (p.1, p.2)) s Q ↔ Q () (extended t [p] s) := by
  rw [pushEntry, runs_bind, runs_readEntry ht hi hj, runs_bind, runs_get, runs_set]
  rfl

/-- A side reads the cells whose guards hold. -/
theorem side_spec {guard : Int → Bool} {gap first : Int} {cell : Int → Int × Int} {c : Nat}
    (ht : HasShape m n t) (place : Nat → Nat × Nat)
    (hguard : ∀ i : Nat, i ≤ c → (guard (first + gap * i) = true ↔ i < c))
    (hcell : ∀ i < c, cell (first + gap * i) = (((place i).1 : Int), ((place i).2 : Int)) ∧
      (place i).1 < m ∧ (place i).2 < n ∧ IsInt (first + gap * (i + 1)))
    (hf : c < fuel) :
    Runs (side fuel t guard gap cell first) s fun _ u =>
      u = extended t ((List.range c).map place) s := by
  refine runs_loop (k := c) (fun r (v : Int) u => ∃ i : Nat, i + r = c ∧ v = first + gap * i ∧
    u = extended t ((List.range i).map place) s) ?_ ⟨0, by omega, by simp, by simp⟩ hf
  intro r v u hinv
  obtain ⟨i, hr, rfl, rfl⟩ := hinv
  by_cases hi : i < c
  · obtain ⟨hp, hrow, hcol, hint⟩ := hcell i hi
    have hnext : first + gap * i + gap = first + gap * (i + 1) := by
      rw [Int.mul_add, Int.mul_one, Int.add_assoc]
    rw [if_pos ((hguard i (by omega)).mpr hi), runs_bind, hp, runs_pushEntry ht hrow hcol,
      runs_bind, hnext, runs_int hint, runs_pure]
    exact ⟨r - 1, by omega, i + 1, by omega, by push_cast; rfl, by simp [List.range_succ]⟩
  · obtain rfl : i = c := by omega
    rw [if_neg fun h => hi ((hguard i le_rfl).mp h), runs_pure]

/-- The sides of a ring, when the guards say no more than where they end. -/
theorem readRing_spec (ht : HasShape m n t) (hm : 2 * k < m) (hn : 2 * k < n)
    (hmax : m ≤ 2147483647 ∧ n ≤ 2147483647)
    (h₁ : ∀ j : Int, g₁ j = true ↔ j ≤ n - 1 - k) (h₂ : ∀ i : Int, g₂ i = true ↔ i < m - 1 - k)
    (h₃ : ∀ j : Int, g₃ j = true ↔ k ≤ j ∧ (k : Int) ≠ m - 1 - k)
    (h₄ : ∀ i : Int, g₄ i = true ↔ k < i ∧ (k : Int) ≠ n - 1 - k) (hf : m + n < fuel) :
    Runs (readRing fuel t g₁ g₂ g₃ g₄ (bounds m n k)) s fun b u =>
      b = bounds m n (k + 1) ∧ u = extended t (ringCells k (m - 2 * k) (n - 2 * k)) s := by
  obtain ⟨h, hh⟩ : ∃ h, h = m - 2 * k := ⟨_, rfl⟩
  obtain ⟨w, hw⟩ : ∃ w, w = n - 2 * k := ⟨_, rfl⟩
  rw [← hh, ← hw, readRing, bounds, runs_bind]
  refine (side_spec (c := w) ht (fun j => (k, k + j)) ?_ ?_ (by omega)).mono ?_
  · intro j hj
    dsimp only
    rw [h₁]
    omega
  · intro j hj
    dsimp only
    exact ⟨Prod.ext rfl (by dsimp only; omega), by omega, by omega, by unfold IsInt; omega⟩
  intro _ _ hu
  subst hu
  dsimp only
  rw [runs_int_bind (by omega) (by omega), runs_bind]
  refine (side_spec (c := h - 2) ht (fun i => (k + (1 + i), k + (w - 1))) ?_ ?_ (by omega)).mono ?_
  · intro i hi
    rw [h₂]
    omega
  · intro i hi
    dsimp only
    exact ⟨Prod.ext (by dsimp only; omega) (by dsimp only; omega), by omega, by omega,
      by unfold IsInt; omega⟩
  intro _ _ hu
  subst hu
  rw [runs_bind]
  refine (side_spec (c := if h = 1 then 0 else w) ht
    (fun j => (k + (h - 1), k + (w - 1 - j))) ?_ ?_ (by split_ifs <;> omega)).mono ?_
  · intro j hj
    rw [h₃]
    split_ifs at hj ⊢ <;> omega
  · intro j hj
    dsimp only
    split_ifs at hj
    · omega
    · exact ⟨Prod.ext (by dsimp only; omega) (by dsimp only; omega), by omega, by omega,
        by unfold IsInt; omega⟩
  intro _ _ hu
  subst hu
  rw [runs_int_bind (by omega) (by omega), runs_bind]
  refine (side_spec (c := if w = 1 then 0 else h - 2) ht
    (fun i => (k + (h - 2 - i), k)) ?_ ?_ (by split_ifs <;> omega)).mono ?_
  · intro i hi
    rw [h₄]
    split_ifs at hi ⊢ <;> omega
  · intro i hi
    dsimp only
    split_ifs at hi
    · omega
    · exact ⟨Prod.ext (by dsimp only; omega) rfl, by omega, by omega, by unfold IsInt; omega⟩
  intro _ _ hu
  subst hu
  rw [runs_int_bind (by omega) (by omega), runs_int_bind (by omega) (by omega),
    runs_int_bind (by omega) (by omega), runs_int_bind (by omega) (by omega), runs_pure]
  refine ⟨?_, by simp [ringCells]⟩
  simp only [bounds, Bounds.mk.injEq]
  omega

theorem peeled_start : Peeled t m n 0 ⟨[], []⟩ := ⟨[], by simp, by simp⟩

theorem Peeled.next (h : Peeled t m n k s) (hm : 2 * k < m) (hn : 2 * k < n) :
    Peeled t m n (k + 1) (extended t (ringCells k (m - 2 * k) (n - 2 * k)) s) := by
  obtain ⟨ps, rfl, hps⟩ := h
  refine ⟨ps ++ ringCells k (m - 2 * k) (n - 2 * k), extended_extended, ?_⟩
  rw [← hps, spiral_ring (m := m - 2 * k) (by omega) (by omega), List.append_assoc]
  have hrest : spiral (m - 2 * (k + 1)) (n - 2 * (k + 1)) (fun i j => (k + 1 + i, k + 1 + j)) =
      spiral (m - 2 * k - 2) (n - 2 * k - 2) fun i j => (k + (1 + i), k + (1 + j)) := by
    simp [Nat.mul_add, Nat.sub_add_eq, Nat.add_assoc]
  rw [hrest]
  simp [ringCells]

theorem Peeled.isSpiral (h : Peeled t m n k s) (hk : m ≤ 2 * k ∨ n ≤ 2 * k) :
    IsSpiral t m n s.res s := by
  obtain ⟨ps, rfl, hps⟩ := h
  obtain rfl : ps = spiral m n Prod.mk := by
    rw [← hps]
    rcases hk with hm | hn
    · simp [Nat.sub_eq_zero_of_le hm]
    · simp [Nat.sub_eq_zero_of_le hn]
  refine ⟨?_, ?_, ?_, fun p => ?_⟩
  · simp [extended, map_spiral]
  · simp [extended, length_spiral]
  · simp only [extended, List.nil_append, map_spiral]
    apply nodup_spiral
    intro i _ j _ i' _ j' _ he
    obtain ⟨hi, hj⟩ := Prod.ext_iff.mp he
    exact ⟨Int.ofNat.inj hi, Int.ofNat.inj hj⟩
  · simp only [extended, List.nil_append, map_spiral]
    exact mem_spiral

/-- The number of rings. -/
theorem round_eq : (min (m : Int) n + 1) >>> (1 : Nat) = ((min m n + 1) / 2 : Nat) := by
  rw [Int.shiftRight_eq_div_pow]
  omega

theorem head_length (ht : HasShape m n t) (hm : 0 < m) : t[0]!.length = n := ht.length_row hm

theorem spiralRing_spec (ht : HasShape m n t) (hm : 2 * k < m) (hn : 2 * k < n)
    (hmax : m ≤ 2147483647 ∧ n ≤ 2147483647) (hs : Peeled t m n k s) (hf : m + n < fuel) :
    Runs (spiralRing fuel t (bounds m n k)) s fun b u =>
      b = bounds m n (k + 1) ∧ Peeled t m n (k + 1) u := by
  refine (readRing_spec ht hm hn hmax ?_ ?_ ?_ ?_ hf).mono ?_
  · exact fun j => decide_eq_true_iff
  · exact fun i => decide_eq_true_iff
  · intro j
    simp only [bounds, ge_iff_le, Bool.and_eq_true, decide_eq_true_eq, bne_iff_ne]
    omega
  · intro i
    simp only [bounds, ge_iff_le, gt_iff_lt, Bool.and_eq_true, decide_eq_true_eq, bne_iff_ne]
    omega
  · intro b u hbu
    exact ⟨hbu.1, hbu.2 ▸ hs.next hm hn⟩

theorem Clockwise.spiralRing_spec (ht : HasShape m n t) (hm : 2 * k < m) (hn : 2 * k < n)
    (hmax : m ≤ 2147483647 ∧ n ≤ 2147483647) (hs : Peeled t m n k s) (hf : m + n < fuel) :
    Runs (Clockwise.spiralRing fuel t n m (bounds m n k)) s fun b u =>
      b = bounds m n (k + 1) ∧ Peeled t m n (k + 1) u := by
  refine (readRing_spec ht hm hn hmax ?_ ?_ ?_ ?_ hf).mono ?_
  · intro j
    rw [Bool.and_eq_true, decide_eq_true_iff, decide_eq_true_iff]
    dsimp only [bounds]
    omega
  · intro i
    rw [Bool.and_eq_true, decide_eq_true_iff, decide_eq_true_iff]
    dsimp only [bounds]
    omega
  · intro j
    simp only [bounds, ge_iff_le, Bool.and_eq_true, decide_eq_true_eq, bne_iff_ne]
    omega
  · intro i
    simp only [bounds, ge_iff_le, gt_iff_lt, Bool.and_eq_true, decide_eq_true_eq, bne_iff_ne]
    omega
  · intro b u hbu
    exact ⟨hbu.1, hbu.2 ▸ hs.next hm hn⟩

/-- The whole loop of the first source. -/
theorem spiralOrder_spec (ht : HasShape m n t) (hm : 0 < m) (hmax : m ≤ 2147483647 ∧ n ≤ 2147483647)
    (hn : 0 < n) (hmin : min m n < 2147483647) (hf : m + n < fuel) :
    Runs (spiralOrder fuel t) s (IsSpiral t m n) := by
  have hrow : 0 < t.length := ht.1.symm ▸ hm
  rw [spiralOrder, runs_bind, runs_set, runs_bind]
  refine (runs_itemAt (i := 0) hrow).mpr ?_
  rw [head_length ht hm, ht.1, toInt_of_lt (by omega), toInt_of_lt (by omega),
    runs_int_bind (by omega) (by omega), round_eq, runs_int_bind (by omega) (by omega),
    runs_int_bind (by omega) (by omega), runs_bind]
  refine (runs_loop (k := (min m n + 1) / 2) (Q := fun _ u => Peeled t m n ((min m n + 1) / 2) u)
    (fun r v u => ∃ k, k + r = (min m n + 1) / 2 ∧ v = ((r : Int), bounds m n k) ∧
      Peeled t m n k u) ?_ ⟨0, by omega, by simp [bounds], peeled_start⟩ (by omega)).mono ?_
  · intro r v u hv
    obtain ⟨k, hr, rfl, hu⟩ := hv
    by_cases hzero : r = 0
    · subst hzero
      rw [if_neg (by simp), runs_pure]
      exact hr ▸ hu
    · have hprev : (r : Int) - 1 = (r - 1 : Nat) := by omega
      dsimp only
      rw [if_pos (by omega), hprev, runs_int_bind (by omega) (by omega), runs_bind]
      refine (spiralRing_spec ht (by omega) (by omega) hmax hu hf).mono ?_
      intro b w hw
      obtain ⟨rfl, hw⟩ := hw
      exact runs_pure.mpr ⟨r - 1, by omega, k + 1, by omega, rfl, hw⟩
  · intro _ u hu
    rw [runs_bind, runs_get, runs_pure]
    exact hu.isSpiral (by omega)

/-- The whole loop of the second source. -/
theorem Clockwise.spiralOrder_spec (ht : HasShape m n t) (hm : 0 < m)
    (hmax : m ≤ 2147483647 ∧ n ≤ 2147483647) (hn : 0 < n) (hmin : min m n < 2147483647)
    (hf : m + n < fuel) : Runs (Clockwise.spiralOrder fuel t) s (IsSpiral t m n) := by
  have hrow : 0 < t.length := ht.1.symm ▸ hm
  rw [Clockwise.spiralOrder, runs_bind, runs_set, ht.1, toInt_of_lt (by omega), if_neg (by omega),
    runs_bind]
  refine (runs_itemAt (i := 0) hrow).mpr ?_
  rw [head_length ht hm, toInt_of_lt (by omega), runs_int_bind (by omega) (by omega),
    runs_int_bind (by omega) (by omega), runs_int_bind (by omega) (by omega), round_eq, runs_bind]
  refine (runs_loop (k := (min m n + 1) / 2) (Q := fun _ u => Peeled t m n ((min m n + 1) / 2) u)
    (fun r v u => ∃ k : Nat, k + r = (min m n + 1) / 2 ∧ v = ((k : Int), bounds m n k) ∧
      Peeled t m n k u) ?_ ⟨0, by omega, by simp [bounds], peeled_start⟩ (by omega)).mono ?_
  · intro r v u hv
    obtain ⟨k, hr, rfl, hu⟩ := hv
    dsimp only
    by_cases hzero : r = 0
    · subst hzero
      rw [if_neg (by omega), runs_pure]
      exact hr ▸ hu
    · rw [if_pos (by omega), runs_bind]
      refine (Clockwise.spiralRing_spec ht (by omega) (by omega) hmax hu hf).mono ?_
      intro b w hw
      obtain ⟨rfl, hw⟩ := hw
      rw [runs_int_bind (by omega) (by omega), runs_pure]
      exact ⟨r - 1, by omega, k + 1, by omega, rfl, hw⟩
  · intro _ u hu
    rw [runs_bind, runs_get, runs_pure]
    exact hu.isSpiral (by omega)

end

/-- Both sources return the spiral of the matrix. -/
theorem spiralOrder_spiral (m n : Nat) (t : List (List Int)) (ht : HasShape m n t) (hm : 1 ≤ m)
    (hn : 1 ≤ n) (hmax : m ≤ 2147483647 ∧ n ≤ 2147483647) (hmin : min m n < 2147483647) (s : State)
    (fuel : Nat) (hf : m + n < fuel) :
    Runs (spiralOrder fuel t) s (IsSpiral t m n) ∧
      Runs (Clockwise.spiralOrder fuel t) s (IsSpiral t m n) :=
  ⟨spiralOrder_spec ht hm hmax hn hmin hf, Clockwise.spiralOrder_spec ht hm hmax hn hmin hf⟩

theorem spiralOrder_spiral_sample :
    Runs (spiralOrder 8 [[1, 2, 3, 4], [5, 6, 7, 8], [9, 10, 11, 12]]) ⟨[], []⟩
        (IsSpiral [[1, 2, 3, 4], [5, 6, 7, 8], [9, 10, 11, 12]] 3 4) ∧
      Runs (Clockwise.spiralOrder 8 [[1, 2, 3, 4], [5, 6, 7, 8], [9, 10, 11, 12]]) ⟨[], []⟩
        (IsSpiral [[1, 2, 3, 4], [5, 6, 7, 8], [9, 10, 11, 12]] 3 4) :=
  spiralOrder_spiral 3 4 _ (by simp [HasShape]) (by decide) (by decide) (by decide) (by decide) _ 8
    (by decide)

/-- A column of one entry more than an `int` can index. -/
def column : List (List Int) := List.replicate 2147483648 [0]

/-- The index of its last row overflows in both sources. -/
theorem spiralOrder_column : HasShape 2147483648 1 column ∧ ∀ (fuel : Nat) (s : State),
    ¬ Runs (spiralOrder fuel column) s (IsSpiral column 2147483648 1) ∧
      ¬ Runs (Clockwise.spiralOrder fuel column) s (IsSpiral column 2147483648 1) := by
  have hlength : column.length = 2147483648 := List.length_replicate
  have hfirst : 0 < column.length := by omega
  have hover : ¬ IsInt (toInt column.length - 1) := by
    rw [hlength]
    decide
  have hmin : IsInt (min (toInt column.length) (toInt column[0]!.length) + 1) := by
    rw [hlength, column, getElem!_replicate (by decide)]
    decide
  refine ⟨⟨hlength, ?_⟩, fun fuel s => ⟨fun h => ?_, fun h => ?_⟩⟩
  · intro row hrow
    rw [List.eq_of_mem_replicate hrow]
    rfl
  · rw [spiralOrder, runs_bind, runs_set, runs_bind] at h
    have h := (runs_itemAt (i := 0) hfirst).mp h
    rw [runs_bind, runs_int hmin] at h
    exact h.not_fails (fails_int hover).bind
  · rw [Clockwise.spiralOrder, runs_bind, runs_set, if_neg (by rw [hlength]; decide),
      runs_bind] at h
    have h := (runs_itemAt (i := 0) hfirst).mp h
    exact h.not_fails (fails_int hover).bind

end LanguageTest.SpiralOrder
