import LanguageTest.Library.Arithmetic
import Mathlib.Algebra.Order.Group.Unbundled.Int
import Mathlib.Algebra.Order.Ring.Int
import Mathlib.Algebra.Ring.Divisibility.Basic

namespace LanguageTest.Gcd

variable {σ : Type}

/-- `if (small > big) swap(big, small)`. -/
def ordered (big small : Int) : Int × Int := if small > big then (small, big) else (big, small)

def gcd (fuel : Nat) (big small : Int) : Program σ Int :=
  loop (fun v : Int × Int => do
    if v.2 ≠ 0 then
      let v := ordered v.1 v.2
      let temp ← rem v.1 v.2
      pure (.again (v.2, temp))
    else pure (.done v.1)) fuel (ordered big small)

/-- A common divisor that every common divisor divides. -/
def Greatest (g a b : Int) : Prop := g ∣ a ∧ g ∣ b ∧ ∀ d, d ∣ a → d ∣ b → d ∣ g

section
variable {a b d g : Int} {s : σ} {Q : Int → σ → Prop} {fuel : Nat}

theorem ordered_eq (a b : Int) : ordered a b = (max a b, min a b) := by
  unfold ordered
  split_ifs with h
  · rw [max_eq_right h.le, min_eq_left h.le]
  · rw [max_eq_left (not_lt.mp h), min_eq_right (not_lt.mp h)]

/-- An `int` whose negation is one too, so that no quotient of it overflows. -/
def Symmetric (v : Int) : Prop := v.natAbs < 2147483648

theorem Symmetric.isInt_tdiv (ha : Symmetric a) (b : Int) : IsInt (a.tdiv b) := by
  unfold Symmetric at ha
  exact LanguageTest.isInt_tdiv ⟨by omega, by omega⟩ (Or.inl (by omega))

theorem Symmetric.tmod (ha : Symmetric a) (b : Int) : Symmetric (a.tmod b) := by
  unfold Symmetric at *
  rw [Int.natAbs_tmod]
  exact (Nat.mod_le _ _).trans_lt ha

theorem Symmetric.max (ha : Symmetric a) (hb : Symmetric b) : Symmetric (max a b) := by
  rcases max_choice a b with h | h
  · rwa [h]
  · rwa [h]

theorem Symmetric.min (ha : Symmetric a) (hb : Symmetric b) : Symmetric (min a b) := by
  rcases min_choice a b with h | h
  · rwa [h]
  · rwa [h]

theorem Greatest.symm (h : Greatest g a b) : Greatest g b a :=
  ⟨h.2.1, h.1, fun d hb ha => h.2.2 d ha hb⟩

theorem Greatest.of_max_min (h : Greatest g (max a b) (min a b)) : Greatest g a b := by
  rcases le_total a b with hle | hle
  · rw [max_eq_right hle, min_eq_left hle] at h
    exact h.symm
  · rwa [max_eq_left hle, min_eq_right hle] at h

/-- The common divisors of a dividend and a divisor are those of the divisor and the remainder. -/
theorem Greatest.of_rem (h : Greatest g b (a.tmod b)) : Greatest g a b := by
  obtain ⟨hb, hrem, hall⟩ := h
  have hsplit := Int.mul_tdiv_add_tmod a b
  refine ⟨?_, hb, fun d ha hd => hall d hd ?_⟩
  · rw [← hsplit]
    exact dvd_add (hb.mul_right _) hrem
  · rw [← hsplit] at ha
    exact (dvd_add_right (hd.mul_right _)).mp ha

theorem greatest_zero (a : Int) : Greatest a a 0 := ⟨dvd_rfl, Int.dvd_zero a, fun _ h _ => h⟩

/-- A pass of the loop, for a divisor that is not zero. -/
theorem runs_pass {v : Int × Int} {Q : Step (Int × Int) Int → σ → Prop} (hv : v.2 ≠ 0)
    (hmin : min v.1 v.2 ≠ 0) (h1 : Symmetric v.1) (h2 : Symmetric v.2) :
    Runs (do
      if v.2 ≠ 0 then
        let v := ordered v.1 v.2
        let temp ← rem v.1 v.2
        pure (.again (v.2, temp))
      else pure (.done v.1)) s Q ↔
    Q (.again (min v.1 v.2, (max v.1 v.2).tmod (min v.1 v.2))) s := by
  rw [if_pos hv, ordered_eq]
  dsimp only
  rw [runs_bind, runs_rem hmin ((h1.max h2).isInt_tdiv _), runs_pure]

theorem gcd_of_nonneg (ha : Symmetric a) (hb : Symmetric b) (hmin : 0 ≤ min a b)
    (hf : (min a b).natAbs < fuel) :
    Runs (gcd fuel a b) s fun g t => t = s ∧ Greatest g a b := by
  rw [gcd, ordered_eq]
  refine runs_loop (fun k (v : Int × Int) t => t = s ∧ 0 ≤ v.2 ∧ v.2 ≤ v.1 ∧ Symmetric v.1 ∧
    Symmetric v.2 ∧ k = v.2.natAbs ∧ ∀ g, Greatest g v.1 v.2 → Greatest g a b) ?_
    ⟨rfl, hmin, min_le_max, ha.max hb, ha.min hb, rfl, fun g h => h.of_max_min⟩ hf
  rintro k ⟨big, small⟩ _ ⟨rfl, hpos, hle, hbig, hsmall, rfl, hall⟩
  dsimp only at hpos hle hbig hsmall hall
  by_cases hzero : small = 0
  · subst hzero
    rw [if_neg (not_not.mpr rfl), runs_pure]
    exact ⟨rfl, hall big (greatest_zero big)⟩
  · have hrem := Int.tmod_lt_of_pos big (show 0 < small by omega)
    have hnonneg := Int.tmod_nonneg small (hpos.trans hle)
    rw [runs_pass hzero (by rwa [min_eq_right hle]) hbig hsmall]
    dsimp only
    rw [min_eq_right hle, max_eq_left hle]
    exact ⟨(big.tmod small).natAbs, by omega, rfl, hnonneg, hrem.le, hsmall, hbig.tmod small, rfl,
      fun g h => hall g h.of_rem⟩

/-- The first remainder is zero. -/
theorem gcd_of_dvd (ha : Symmetric a) (hb : Symmetric b) (hneg : min a b < 0)
    (hdvd : min a b ∣ max a b) (hf : 1 < fuel) :
    Runs (gcd fuel a b) s fun g t => t = s ∧ Greatest g a b := by
  obtain ⟨fuel, rfl⟩ : ∃ n, fuel = n + 2 := ⟨fuel - 2, by omega⟩
  have hlow : min (max a b) (min a b) = min a b := min_eq_right min_le_max
  have hhigh : max (max a b) (min a b) = max a b := max_eq_left min_le_max
  have hrem := Int.tmod_eq_zero_of_dvd hdvd
  have hg : Greatest (min a b) a b := by
    refine Greatest.of_max_min (Greatest.of_rem ?_)
    rw [hrem]
    exact greatest_zero _
  rw [gcd, ordered_eq, loop, runs_bind,
    runs_pass hneg.ne (by rw [hlow]; exact hneg.ne) (ha.max hb) (ha.min hb)]
  dsimp only
  rw [hlow, hhigh, hrem, loop, runs_bind, if_neg (not_not.mpr rfl), runs_pure]
  exact runs_pure.mpr ⟨rfl, hg⟩

/-- A remainder lies above a negative divisor, and is as little divisible by it. -/
theorem rem_of_neg (hneg : a < 0) (h : ¬ a ∣ b) : a < b.tmod a ∧ ¬ a ∣ b.tmod a := by
  constructor
  · have hlt : (b.tmod a).natAbs < a.natAbs := by
      rw [Int.natAbs_tmod]
      exact Nat.mod_lt _ (by omega)
    omega
  · intro hdvd
    have hsplit := Int.mul_tdiv_add_tmod b a
    rw [← hsplit] at h
    exact h (dvd_add (dvd_mul_right _ _) hdvd)

/-- No remainder is zero. The smaller value stays, and the two change places in every pass. -/
theorem gcd_of_not_dvd (ha : Symmetric a) (hb : Symmetric b) (hneg : min a b < 0)
    (hdvd : ¬ min a b ∣ max a b) : Fails (gcd fuel a b) s .outOfFuel := by
  rw [gcd, ordered_eq]
  refine fails_loop (fun (v : Int × Int) t => v.2 ≠ 0 ∧ min v.1 v.2 < 0 ∧
    ¬ min v.1 v.2 ∣ max v.1 v.2 ∧ Symmetric v.1 ∧ Symmetric v.2) ?_ fuel ?_
  · rintro ⟨big, small⟩ t ⟨hzero, hneg, hdvd, hbig, hsmall⟩
    obtain ⟨hlt, hnext⟩ := rem_of_neg hneg hdvd
    rw [runs_pass hzero hneg.ne hbig hsmall]
    refine ⟨_, rfl, ?_, ?_, ?_, hbig.min hsmall, (hbig.max hsmall).tmod _⟩
    · intro hrem
      exact hdvd (Int.dvd_of_tmod_eq_zero hrem)
    · rwa [min_eq_left hlt.le]
    · rwa [min_eq_left hlt.le, max_eq_right hlt.le]
  · refine ⟨hneg.ne, ?_, ?_, ha.max hb, ha.min hb⟩
    · rwa [min_eq_right min_le_max]
    · rwa [min_eq_right min_le_max, max_eq_left min_le_max]

end

/-- The call ends, in a greatest common divisor, exactly when no argument is negative or the
smaller one divides the other. -/
theorem gcd_iff {σ : Type} (s : σ) (big small : Int) (hbig : IsInt big) (hsmall : IsInt small)
    (hb : big ≠ -2147483648) (hs : small ≠ -2147483648) (fuel : Nat)
    (hf : (min big small).natAbs + 1 < fuel) :
    (Runs (gcd fuel big small) s fun g t => t = s ∧ Greatest g big small) ↔
    0 ≤ min big small ∨ min big small ∣ max big small := by
  have hbig' : Symmetric big := by
    unfold IsInt at hbig
    unfold Symmetric
    omega
  have hsmall' : Symmetric small := by
    unfold IsInt at hsmall
    unfold Symmetric
    omega
  constructor
  · intro hruns
    by_contra hcond
    rw [not_or, not_le] at hcond
    exact hruns.not_fails (gcd_of_not_dvd hbig' hsmall' hcond.1 hcond.2)
  · intro hcond
    rcases lt_or_ge (min big small) 0 with hneg | hpos
    · exact gcd_of_dvd hbig' hsmall' hneg (hcond.resolve_left (not_le.mpr hneg)) (by omega)
    · exact gcd_of_nonneg hbig' hsmall' hpos (by omega)

theorem gcd_iff_sample :
    (Runs (gcd 9 12 (-4)) () fun g t => t = () ∧ Greatest g 12 (-4)) ↔
    0 ≤ min 12 (-4 : Int) ∨ min 12 (-4 : Int) ∣ max 12 (-4) :=
  gcd_iff () 12 (-4) (by decide) (by decide) (by decide) (by decide) 9 (by decide)

/-- The remainder of 5 by -3 is 2, and that of 2 by -3 is 2 again. -/
theorem gcd_five : (∀ fuel, Fails (gcd fuel 5 (-3)) () .outOfFuel) ∧
    ∀ fuel, ¬ Runs (gcd fuel 5 (-3)) () fun g t => t = () ∧ Greatest g 5 (-3) := by
  have hfails : ∀ fuel, Fails (gcd fuel 5 (-3)) () .outOfFuel := fun fuel =>
    gcd_of_not_dvd (by unfold Symmetric; decide) (by unfold Symmetric; decide) (by decide)
      (by decide)
  exact ⟨hfails, fun fuel hruns => hruns.not_fails (hfails fuel)⟩

end LanguageTest.Gcd
