import LanguageTest.Library.Arrangements
import LanguageTest.Library.Counting

namespace LanguageTest.Permute
open Sorting Nat

/-- The vector `nums`, beside the vector `res`. -/
abbrev State := Vec (List (List Int)) Int

/-- `BT`. The first argument bounds the depth of the recursion and the passes of a loop. -/
def bt : Nat → Int → Program State Unit
  | 0, _ => fail .outOfFuel
  | fuel + 1, start => do
    let s ← get
    if toSize start = s.items.length then set { s with other := s.other ++ [s.items] }
    else
      countUp (fuel + 1) start sizeBound fun i => do
        swapElements i start
        bt fuel (← int (start + 1))
        swapElements i start

def permute (fuel : Nat) : Program State (List (List Int)) := do
  let s ← get
  set ({ s with other := [] } : State)
  bt fuel 0
  pure (← get).other

section
variable {s t : State} {xs : List Int} {fuel start i : Nat} {old : List (List Int)}

/-- The vector is as it was, and these arrangements were appended to the result. -/
def Appended (P : List (List Int) → Prop) (xs : List Int) (old : List (List Int)) (t : State) :
    Prop :=
  t.items = xs ∧ ∃ yss, t.other = old ++ yss ∧ P yss

/-- The body of the loop, when the call in it is right. -/
theorem bt_body (hxs : xs.Nodup) (hle : start ≤ i) (hi : i < xs.length)
    (hn : xs.length ≤ 2147483647)
    (hcall : ∀ t : State, t.items = swapped xs i start →
      Runs (bt fuel (start + 1 : Nat)) t fun _ u => Appended
        (Arrangements (swapped xs i start) (start + 1)) (swapped xs i start) t.other u)
    (h : Appended (Placed xs start i) xs old t) :
    Runs (do
      swapElements i start
      bt fuel (← int (start + 1))
      swapElements i start) t fun _ u => Appended (Placed xs start (i + 1)) xs old u := by
  obtain ⟨hitems, yss, hother, hplaced⟩ := h
  have hstart : start < xs.length := by omega
  have hlength : t.items.length = xs.length := by rw [hitems]
  have hcast : (start : Int) + 1 = (start + 1 : Nat) := by omega
  rw [runs_bind, runs_swapElements (by omega) (by omega), hcast,
    runs_int_bind (by omega) (by omega), runs_bind]
  have hswap : (t.swap i start).items = swapped xs i start := by rw [Vec.swap_items, hitems]
  refine (hcall _ hswap).mono ?_
  rintro _ u ⟨hu, zss, huother, hz⟩
  have hlength : u.items.length = xs.length := by rw [hu, length_swapped]
  rw [runs_swapElements (by omega) (by omega)]
  refine ⟨?_, yss ++ zss, ?_, hplaced.append hxs hle hi hz⟩
  · rw [Vec.swap_items, hu, swapped_swapped hi hstart]
  · rw [Vec.swap_other, huother, Vec.swap_other, hother, List.append_assoc]

theorem bt_spec (hxs : s.items.Nodup) (hstart : start ≤ s.items.length)
    (hn : s.items.length ≤ 2147483647) (hf : s.items.length - start < fuel) :
    Runs (bt fuel start) s fun _ t =>
      Appended (Arrangements s.items start) s.items s.other t := by
  induction fuel generalizing start s with
  | zero => omega
  | succ fuel ih =>
    rw [bt, runs_bind, runs_get, toSize_natCast (by omega)]
    rcases Nat.eq_or_lt_of_le hstart with rfl | hlt
    · rw [if_pos rfl, runs_set]
      exact ⟨rfl, [s.items], rfl, arrangements_length⟩
    · rw [if_neg (by omega)]
      refine (runs_countUp (l := start) (n := s.items.length)
        (fun i t => Appended (Placed s.items start i) s.items s.other t) ?_ (by omega) ?_ ?_
        (by omega)).mono ?_
      · rintro i t ⟨hitems, -⟩
        rw [runs_sizeBound, hitems]
        exact ⟨Int.toNat_natCast _, rfl⟩
      · intro i hle hi t ht
        refine bt_body hxs hle hi hn (fun u hu => ?_) ht
        have hlength : u.items.length = s.items.length := by rw [hu, length_swapped]
        have hnodup : u.items.Nodup := by
          rw [hu]
          exact (perm_swapped hi hlt).nodup_iff.mpr hxs
        rw [← hu]
        exact ih hnodup (by omega) (by omega) (by omega)
      · exact ⟨rfl, [], (List.append_nil _).symm, placed_start⟩
      · rintro _ t ⟨hitems, yss, hother, hplaced⟩
        rw [Nat.max_eq_right hstart] at hplaced
        exact ⟨hitems, yss, hother, hplaced.arrangements hlt⟩

end

/-- Every permutation once, and the vector as it was. -/
theorem permute_permutations (s : State) (hdistinct : s.items.Nodup)
    (hn : s.items.length ≤ 2147483647) (fuel : Nat) (hf : s.items.length < fuel) :
    Runs (permute fuel) s fun r t => r.length = s.items.length ! ∧
      (∀ ys, ys.Perm s.items → r.count ys = 1) ∧ t.items = s.items := by
  rw [permute, runs_bind, runs_get, runs_bind, runs_set, runs_bind]
  refine (bt_spec (s := { s with other := [] }) hdistinct (Nat.zero_le _) hn hf).mono ?_
  rintro _ t ⟨hitems, yss, hother, hyss⟩
  rw [runs_bind, runs_get, runs_pure, hother, List.nil_append]
  have hperm := hyss.perm_permutations hdistinct
  refine ⟨?_, fun ys hys => ?_, hitems⟩
  · rw [hperm.length_eq, List.length_permutations]
  · exact List.count_eq_one_of_mem hyss.nodup ((hyss.mem ys).mpr ⟨hys, rfl⟩)

theorem permute_permutations_sample :
    Runs (permute 4) ⟨[], [1, 2, 3], []⟩ fun r t => r.length = [(1 : Int), 2, 3].length ! ∧
      (∀ ys : List Int, ys.Perm [1, 2, 3] → r.count ys = 1) ∧ t.items = [1, 2, 3] :=
  permute_permutations ⟨[], [1, 2, 3], []⟩ (by decide) (by decide) 4 (by decide)

/-- More distinct numbers than an `int` can index. -/
def many : List Int := (List.range 2147483648).map fun k : Nat => (k : Int)

section
variable {s : State} {xs : List Int} {res : List (List Int)} {fuel start : Nat}

theorem not_runs_bt {Q : Unit → State → Prop}
    (hn : s.items.length = 2147483648) (hstart : start < 2147483648) :
    ¬ Runs (bt fuel start) s Q := by
  induction fuel generalizing start s Q with
  | zero => exact fun h => h.not_fails fails_fail
  | succ fuel ih =>
    intro h
    rw [bt, runs_bind, runs_get, toSize_natCast (by omega), if_neg (by omega), countUp, loop,
      runs_bind, runs_bind, runs_sizeBound, if_pos (by omega), runs_bind, runs_bind,
      runs_swapElements (by omega) (by omega), runs_bind] at h
    rcases Nat.lt_or_ge start 2147483647 with hlt | hge
    · have hcast : (start : Int) + 1 = (start + 1 : Nat) := by omega
      rw [hcast, runs_int ⟨by omega, by omega⟩, runs_bind] at h
      exact ih (by rwa [Vec.swap_items, length_swapped]) (by omega) h
    · have hover : ¬ IsInt ((start : Int) + 1) := by
        unfold IsInt
        omega
      exact h.not_fails (fails_int hover)

theorem not_runs_permute {Q : List (List Int) → State → Prop} {log : List Int}
    (hn : xs.length = 2147483648) : ¬ Runs (permute fuel) ⟨res, xs, log⟩ Q := by
  intro h
  rw [permute, runs_bind, runs_get, runs_bind, runs_set, runs_bind] at h
  exact not_runs_bt (s := ⟨[], xs, log⟩) hn (show 0 < 2147483648 by decide) h

end

/-- The first descent never reaches the end of the vector. -/
theorem permute_many : many.Nodup ∧ ∀ (fuel : Nat) (res : List (List Int)) (log : List Int),
    ¬ Runs (permute fuel) ⟨res, many, log⟩ fun r t => r.length = many.length ! ∧
      (∀ ys, ys.Perm many → r.count ys = 1) ∧ t.items = many := by
  have hlength : many.length = 2147483648 := by rw [many, List.length_map, List.length_range]
  have hnodup : many.Nodup := by
    rw [many]
    exact List.Nodup.map (fun i j hij => Int.ofNat.inj hij) List.nodup_range
  exact ⟨hnodup, fun fuel res log => not_runs_permute hlength⟩

end LanguageTest.Permute
