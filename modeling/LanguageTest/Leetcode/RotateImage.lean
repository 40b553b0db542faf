import LanguageTest.Library.Counting
import LanguageTest.Library.Exchanges
import LanguageTest.Library.Tables

namespace LanguageTest.RotateImage

/-- The matrix. -/
abbrev State := List (List Int)

/-- `swap(matrix[a.1][a.2], matrix[b.1][b.2])`. -/
def swapEntries (a b : Int × Int) : Program State Unit := do
  let x ← readEntry (← get) a.1 a.2
  let y ← readEntry (← get) b.1 b.2
  set (← writeEntry (← get) a.1 a.2 y)
  set (← writeEntry (← get) b.1 b.2 x)

/-- The body of the inner loop. -/
def turn (n r i : Int) : Program State Unit := do
  let q ← int (n - 1 - r)
  let k ← int (n - 1 - i)
  swapEntries (r, i) (i, q)
  swapEntries (q, k) (r, k)
  swapEntries (r, i) (q, k)

def rotate (fuel : Nat) : Program State Unit := do
  let n := toInt (← get).length
  if n ≤ 1 then pure ()
  else
    let round := (← int (n + 1)) >>> (1 : Nat)
    loop (fun r => do
      if r < round then
        let r ← int (r + 1)
        countUp fuel 0 (int (n - 1)) (turn n r)
        pure (.again r)
      else pure (.done ())) fuel 0

abbrev Cell := Nat × Nat

def entry (t : List (List Int)) (p : Cell) : Int := (t[p.1]!)[p.2]!

/-- The exchanges of one call of `turn`. -/
def turnMoves (n r i : Nat) : List (Cell × Cell) :=
  [((r, i), (i, n - 1 - r)), ((n - 1 - r, n - 1 - i), (r, n - 1 - i)),
    ((r, i), (n - 1 - r, n - 1 - i))]

def ringMoves (n r k : Nat) : List (Cell × Cell) := (List.range k).flatMap (turnMoves n r)

/-- The exchanges for an `int` of this value, as far as the ring `c`. -/
def movesTo (n c : Nat) : List (Cell × Cell) :=
  (List.range c).flatMap fun r => ringMoves n (r + 1) (n - 1)

def moves (n : Nat) : List (Cell × Cell) := if n ≤ 1 then [] else movesTo n ((n + 1) / 2)

/-- The cell whose entry the swaps bring to this one, in a matrix of `n` rows. -/
def source (n : Nat) (p : Cell) : Cell := origin (moves (toInt n).toNat) p

/-- The matrix `t`, turned clockwise. -/
def IsQuarterTurn (n : Nat) (t : List (List Int)) (u : State) : Prop :=
  HasShape n n u ∧ ∀ i < n, ∀ j < n, entry u (i, j) = entry t (n - 1 - j, i)

/-- The entries after these exchanges. -/
def Moved (n : Nat) (t : List (List Int)) (ps : List (Cell × Cell)) (u : State) : Prop :=
  HasShape n n u ∧ entry u = fun p => entry t (origin ps p)

section
variable {t u : State} {ps qs : List (Cell × Cell)} {a b p : Cell} {n m r i k fuel : Nat}

theorem moved_nil (ht : HasShape n n t) : Moved n t [] t := ⟨ht, rfl⟩

theorem entry_set {x : Int} (h : HasShape n n u) (ha : a.1 < n ∧ a.2 < n) :
    entry (u.set a.1 (u[a.1]!.set a.2 x)) p = if p = a then x else entry u p := by
  rw [entry, getElem!_setEntry h ha.1 ha.2]
  simp only [Prod.ext_iff, entry]

theorem swapEntries_spec (hu : Moved n t ps u) (ha : a.1 < n ∧ a.2 < n) (hb : b.1 < n ∧ b.2 < n) :
    Runs (swapEntries (a.1, a.2) (b.1, b.2)) u fun _ v => Moved n t (ps ++ [(a, b)]) v := by
  obtain ⟨hshape, hentry⟩ := hu
  have hset := hshape.set (j := a.2) (x := (u[b.1]!)[b.2]!) ha.1
  simp only [swapEntries, runs_bind, runs_get, runs_readEntry hshape ha.1 ha.2,
    runs_readEntry hshape hb.1 hb.2, runs_writeEntry hshape ha.1 ha.2, runs_set,
    runs_writeEntry hset hb.1 hb.2]
  refine ⟨hset.set hb.1, ?_⟩
  have hmoved : (fun p => entry t (origin (ps ++ [(a, b)]) p)) = exchangeAt (entry u) (a, b) := by
    rw [hentry]
    funext p
    rw [origin_append]
    rfl
  rw [hmoved]
  funext p
  rw [exchangeAt_eq, entry_set hset hb, entry_set hshape ha]
  by_cases hpb : p = b
  · subst hpb
    by_cases hpa : p = a <;> simp [hpa, entry]
  · by_cases hpa : p = a
    · subst hpa
      simp [hpb, entry]
    · simp [hpa, hpb]

theorem turn_spec (hu : Moved n t ps u) (hm : m ≤ n) (hr : r < m) (hi : i + 1 < m)
    (hmax : m ≤ 2147483647) :
    Runs (turn m r i) u fun _ v => Moved n t (ps ++ turnMoves m r i) v := by
  have hq : (m : Int) - 1 - r = (m - 1 - r : Nat) := by omega
  have hk : (m : Int) - 1 - i = (m - 1 - i : Nat) := by omega
  rw [turn, hq, hk, runs_int_bind (by omega) (by omega), runs_int_bind (by omega) (by omega),
    runs_bind]
  refine (swapEntries_spec (a := (r, i)) (b := (i, m - 1 - r)) hu ?_ ?_).mono ?_
  · exact ⟨by dsimp only; omega, by dsimp only; omega⟩
  · exact ⟨by dsimp only; omega, by dsimp only; omega⟩
  intro _ v hv
  rw [runs_bind]
  refine (swapEntries_spec (a := (m - 1 - r, m - 1 - i)) (b := (r, m - 1 - i)) hv ?_ ?_).mono ?_
  · exact ⟨by dsimp only; omega, by dsimp only; omega⟩
  · exact ⟨by dsimp only; omega, by dsimp only; omega⟩
  intro _ w hw
  refine (swapEntries_spec (a := (r, i)) (b := (m - 1 - r, m - 1 - i)) hw ?_ ?_).mono ?_
  · exact ⟨by dsimp only; omega, by dsimp only; omega⟩
  · exact ⟨by dsimp only; omega, by dsimp only; omega⟩
  intro _ w hw
  simpa [turnMoves] using hw

theorem ring_spec (hu : Moved n t ps u) (hm : m ≤ n) (hr : r < m) (hpos : 2 ≤ m)
    (hmax : m ≤ 2147483647) (hf : m < fuel) :
    Runs (countUp fuel 0 (int ((m : Int) - 1)) (turn m r)) u fun _ v =>
      Moved n t (ps ++ ringMoves m r (m - 1)) v := by
  refine (runs_countUp (l := 0) (n := m - 1) (fun k v => Moved n t (ps ++ ringMoves m r k) v)
    ?_ (by omega) ?_ (by simpa [ringMoves] using hu) (by omega)).mono ?_
  · intro k v _
    rw [runs_int ⟨by omega, by omega⟩]
    exact ⟨by omega, rfl⟩
  · intro k _ hk v hv
    refine (turn_spec hv hm hr (by omega) hmax).mono ?_
    intro _ w hw
    simpa [ringMoves, List.range_succ] using hw
  · intro _ v hv
    rwa [Nat.max_eq_right (Nat.zero_le _)] at hv

/-- A call makes these exchanges. -/
theorem rotate_spec (ht : HasShape n n t) (hn : toInt n < 2147483647) (hf : n < fuel) :
    Runs (rotate fuel) t fun _ u => Moved n t (moves (toInt n).toNat) u := by
  have hle : toInt n ≤ n := toInt_le
  obtain ⟨m, hm⟩ : ∃ m, m = (toInt n).toNat := ⟨_, rfl⟩
  rw [← hm, rotate, runs_bind, runs_get, ht.1]
  by_cases hone : toInt n ≤ 1
  · rw [if_pos hone, runs_pure, moves, if_pos (by omega)]
    exact moved_nil ht
  · have hcast : toInt n = m := by omega
    have hround : ((m : Int) + 1) >>> (1 : Nat) = ((m + 1) / 2 : Nat) := by
      rw [Int.shiftRight_eq_div_pow]
      omega
    rw [hcast, if_neg (by omega), runs_int_bind (by omega) (by omega), hround, moves,
      if_neg (by omega)]
    refine runs_loop (k := (m + 1) / 2) (fun c (v : Int) u => ∃ r : Nat, r + c = (m + 1) / 2 ∧
      v = r ∧ Moved n t (movesTo m r) u) ?_ ⟨0, by omega, rfl, moved_nil ht⟩ (by omega)
    intro c v u hv
    obtain ⟨r, hr, rfl, hu⟩ := hv
    by_cases hzero : c = 0
    · rw [if_neg (by omega), runs_pure]
      obtain rfl : r = (m + 1) / 2 := by omega
      exact hu
    · have hnext : (r : Int) + 1 = (r + 1 : Nat) := by omega
      rw [if_pos (by omega), hnext, runs_int_bind (by omega) (by omega), runs_bind]
      refine (ring_spec hu (by omega) (by omega) (by omega) (by omega) (by omega)).mono ?_
      intro _ w hw
      refine runs_pure.mpr ⟨c - 1, by omega, r + 1, by omega, rfl, ?_⟩
      simpa [movesTo, List.range_succ] using hw

/-- The size has no successor. -/
theorem not_runs_rotate {Q : Unit → State → Prop} (ht : HasShape n n t)
    (hn : toInt n = 2147483647) : ¬ Runs (rotate fuel) t Q := by
  intro h
  have hover : ¬ IsInt ((2147483647 : Int) + 1) := by decide
  rw [rotate, runs_bind, runs_get, ht.1, hn, if_neg (by decide)] at h
  exact h.not_fails (fails_int hover).bind

/-- The matrices on which the exchanges act like a quarter turn. -/
theorem rotate_iff_source (ht : HasShape n n t) (hf : n < fuel) :
    Runs (rotate fuel) t (fun _ u => IsQuarterTurn n t u) ↔ toInt n < 2147483647 ∧
      ∀ i < n, ∀ j < n, entry t (source n (i, j)) = entry t (n - 1 - j, i) := by
  obtain hn | hn : toInt n = 2147483647 ∨ toInt n < 2147483647 := by
    have hint := (isInt_toInt (n := n)).2
    omega
  · refine iff_of_false (not_runs_rotate ht hn) ?_
    omega
  · obtain ⟨_, u, hu, hshape, hentry⟩ := rotate_spec ht hn hf
    rw [runs_of_ok hu, IsQuarterTurn, hentry]
    simp [hshape, hn, source]

/-- The last row takes part in no exchange when there are four rows or more. -/
theorem source_last (hn : 4 ≤ n) : source n (n - 1, k) = (n - 1, k) := by
  have hle : toInt n ≤ n := toInt_le
  apply origin_untouched
  intro p hp
  rw [moves] at hp
  split_ifs at hp with hone
  · simp at hp
  · simp only [movesTo, ringMoves, turnMoves, List.mem_flatMap, List.mem_range, List.mem_cons,
      List.not_mem_nil, or_false] at hp
    obtain ⟨r, hr, i, hi, hp⟩ := hp
    have hrows : p.1.1 < n - 1 ∧ p.2.1 < n - 1 := by
      rcases hp with rfl | rfl | rfl
      · exact ⟨by dsimp only; omega, by dsimp only; omega⟩
      · exact ⟨by dsimp only; omega, by dsimp only; omega⟩
      · exact ⟨by dsimp only; omega, by dsimp only; omega⟩
    exact ⟨fun he => Nat.ne_of_gt hrows.1 (congrArg Prod.fst he),
      fun he => Nat.ne_of_gt hrows.2 (congrArg Prod.fst he)⟩

/-- Up to three rows the exchanges are the quarter turn. -/
theorem source_small (hn : n ≤ 3) (hi : i < n) (hk : k < n) :
    source n (i, k) = (n - 1 - k, i) := by
  have htwo : ∀ i < 2, ∀ k < 2, source 2 (i, k) = (1 - k, i) := by decide
  have hthree : ∀ i < 3, ∀ k < 3, source 3 (i, k) = (2 - k, i) := by decide
  obtain rfl | rfl | rfl : n = 1 ∨ n = 2 ∨ n = 3 := by omega
  · obtain ⟨rfl, rfl⟩ : i = 0 ∧ k = 0 := by omega
    rfl
  · exact htwo i hi k hk
  · exact hthree i hi k hk

end

/-- A square matrix with different entries in its last row. -/
def numbered (n : Nat) : List (List Int) :=
  List.replicate n ((List.range n).map fun k : Nat => (k : Int))

theorem hasShape_numbered (n : Nat) : HasShape n n (numbered n) := by
  refine ⟨List.length_replicate, fun row hrow => ?_⟩
  rw [List.eq_of_mem_replicate hrow, List.length_map, List.length_range]

theorem entry_numbered {n i j : Nat} (hi : i < n) (hj : j < n) :
    entry (numbered n) (i, j) = j := by
  rw [entry, numbered, getElem!_replicate hi, getElem!_pos _ j (by simpa using hj)]
  simp

/-- All matrices of `n` rows come out right exactly when there are at most three rows. Beyond, a
matrix does when its entries are the same wherever the exchanges and the quarter turn differ. -/
theorem rotate_iff (n fuel : Nat) (hf : n < fuel) :
    ((∀ t, HasShape n n t → Runs (rotate fuel) t fun _ u => IsQuarterTurn n t u) ↔ n ≤ 3) ∧
      ∀ t, HasShape n n t → ((Runs (rotate fuel) t fun _ u => IsQuarterTurn n t u) ↔
        n ≤ 3 ∨ toInt n < 2147483647 ∧
          ∀ i < n, ∀ j < n, entry t (source n (i, j)) = entry t (n - 1 - j, i)) := by
  have hsmall (hn : n ≤ 3) (t : List (List Int)) : toInt n < 2147483647 ∧
      ∀ i < n, ∀ j < n, entry t (source n (i, j)) = entry t (n - 1 - j, i) := by
    refine ⟨?_, fun i hi j hj => by rw [source_small hn hi hj]⟩
    rw [toInt_of_lt (by omega)]
    omega
  constructor
  · constructor
    · intro hall
      by_contra hlarge
      have hshape := hasShape_numbered n
      have hlast := ((rotate_iff_source hshape hf).mp (hall _ hshape)).2 (n - 1) (by omega) 0
        (by omega)
      rw [source_last (by omega), entry_numbered (by omega) (by omega),
        entry_numbered (by omega) (by omega)] at hlast
      omega
    · intro hn t ht
      exact (rotate_iff_source ht hf).mpr (hsmall hn t)
  · intro t ht
    rw [rotate_iff_source ht hf]
    exact ⟨.inr, fun h => h.elim (fun hn => hsmall hn t) id⟩

theorem rotate_iff_three :
    ((∀ t, HasShape 3 3 t → Runs (rotate 4) t fun _ u => IsQuarterTurn 3 t u) ↔ 3 ≤ 3) ∧
      ∀ t, HasShape 3 3 t → ((Runs (rotate 4) t fun _ u => IsQuarterTurn 3 t u) ↔
        3 ≤ 3 ∨ toInt 3 < 2147483647 ∧
          ∀ i < 3, ∀ j < 3, entry t (source 3 (i, j)) = entry t (3 - 1 - j, i)) :=
  rotate_iff 3 4 (by decide)

/-- The second example of the source. -/
def second : List (List Int) := [[5, 1, 9, 11], [2, 4, 8, 10], [13, 3, 6, 7], [15, 14, 12, 16]]

/-- Its corner stays where it is. -/
theorem rotate_example : HasShape 4 4 second ∧
    ¬ ∃ fuel, 4 < fuel ∧ Runs (rotate fuel) second fun _ u => IsQuarterTurn 4 second u := by
  have hshape : HasShape 4 4 second := by simp [HasShape, second]
  refine ⟨hshape, ?_⟩
  intro h
  obtain ⟨fuel, hf, hruns⟩ := h
  have hlast := ((rotate_iff_source hshape hf).mp hruns).2 3 (by decide) 0 (by decide)
  rw [source_last (n := 4) (by decide)] at hlast
  exact absurd hlast (by decide)

end LanguageTest.RotateImage
