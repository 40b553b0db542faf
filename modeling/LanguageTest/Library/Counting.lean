import LanguageTest.Library.Arithmetic
import Mathlib.Tactic.SplitIfs

namespace LanguageTest

variable {σ : Type}

/-- `for (int i = first; i < bound; i++)`. The bound is evaluated before every pass. -/
def countUp (fuel : Nat) (first : Int) (bound : Program σ Int) (body : Int → Program σ Unit) :
    Program σ Unit :=
  loop (fun i => do
    if i < (← bound) then
      body i
      pure (.again (← int (i + 1)))
    else pure (.done ())) fuel first

/-- `for (int i = first; i >= last; i -= gap)`. -/
def countDown (fuel : Nat) (first last gap : Int) (body : Int → Program σ Unit) :
    Program σ Unit :=
  loop (fun i => do
    if last ≤ i then
      body i
      pure (.again (i - gap))
    else pure (.done ())) fuel first

section
variable {bound : Program σ Int} {body : Int → Program σ Unit} {fuel : Nat} {s : σ}

/-- The rule for a loop that counts up. `Inv i` holds before the pass for `i`. -/
theorem runs_countUp {l n : Nat} (Inv : Nat → σ → Prop)
    (hbound : ∀ i s, Inv i s → Runs bound s fun b t => b.toNat = n ∧ t = s) (hn : n < 2147483648)
    (hbody : ∀ i, l ≤ i → i < n → ∀ s, Inv i s → Runs (body i) s fun _ t => Inv (i + 1) t)
    (hs : Inv l s) (hf : n - l < fuel) :
    Runs (countUp fuel l bound body) s fun _ t => Inv (max l n) t := by
  refine runs_loop (k := n - l) (fun k (p : Int) t => ∃ i : Nat, p = i ∧ l ≤ i ∧
    i ≤ max l n ∧ k = n - i ∧ Inv i t) ?_
    ⟨l, rfl, Nat.le_refl _, Nat.le_max_left _ _, rfl, hs⟩ hf
  rintro k _ s ⟨i, rfl, hli, hmax, rfl, hi⟩
  rw [runs_bind]
  refine (hbound i s hi).mono ?_
  rintro b s ⟨hb, rfl⟩
  by_cases hlt : i < n
  · have hint : IsInt ((i : Int) + 1) := by
      unfold IsInt
      omega
    rw [if_pos (by omega), runs_bind]
    refine (hbody i hli hlt s hi).mono ?_
    intro _ t ht
    rw [runs_bind, runs_int hint, runs_pure]
    exact ⟨n - (i + 1), by omega, i + 1, by omega, by omega, by omega, rfl, ht⟩
  · have hend : i = max l n := by omega
    rw [if_neg (by omega), runs_pure]
    exact hend ▸ hi

/-- What every pass keeps, whether the loop ends or not. -/
theorem ensures_countUp {first : Int} (Inv : σ → Prop)
    (hbound : ∀ s, Inv s → Ensures bound s fun _ t => Inv t)
    (hbody : ∀ i s, Inv s → Ensures (body i) s fun _ t => Inv t) (hs : Inv s) :
    Ensures (countUp fuel first bound body) s fun _ t => Inv t := by
  refine ensures_loop (fun _ t => Inv t) ?_ hs
  intro i t ht
  refine Ensures.bind ((hbound t ht).mono fun b u hu => ?_)
  split_ifs
  · refine Ensures.bind ((hbody i u hu).mono fun _ v hv => Ensures.bind (ensures_int.mono ?_))
    rintro _ _ ⟨rfl, -, rfl⟩
    exact ensures_pure hv
  · exact ensures_pure hu

/-- The partial rule for an invariant that may speak about the variable. -/
theorem ensures_counted {l n : Nat} (Inv : Nat → σ → Prop)
    (hbound : ∀ i s, Inv i s → Ensures bound s fun b t => b.toNat = n ∧ t = s)
    (hbody : ∀ i, l ≤ i → i < n → ∀ s, Inv i s → Ensures (body i) s fun _ t => Inv (i + 1) t)
    (hs : Inv l s) :
    Ensures (countUp fuel l bound body) s fun _ t => Inv (max l n) t := by
  refine ensures_loop (fun (p : Int) t => ∃ i : Nat, p = i ∧ l ≤ i ∧ i ≤ max l n ∧ Inv i t) ?_
    ⟨l, rfl, Nat.le_refl _, Nat.le_max_left _ _, hs⟩
  rintro _ s ⟨i, rfl, hli, hmax, hi⟩
  refine Ensures.bind ((hbound i s hi).mono ?_)
  rintro b s ⟨hb, rfl⟩
  by_cases hlt : i < n
  · rw [if_pos (by omega)]
    refine Ensures.bind ((hbody i hli hlt s hi).mono fun _ t ht =>
      Ensures.bind (ensures_int.mono ?_))
    rintro _ _ ⟨rfl, -, rfl⟩
    exact ensures_pure ⟨i + 1, rfl, by omega, by omega, ht⟩
  · have hend : i = max l n := by omega
    rw [if_neg (by omega)]
    exact ensures_pure (hend ▸ hi)

theorem fails_countUp {first : Int} {f : Fault}
    (hbound : Runs bound s fun b t => first < b ∧ t = s) (hbody : Fails (body first) s f) :
    Fails (countUp (fuel + 1) first bound body) s f := by
  refine Fails.bind (hbound.mono ?_).fails
  rintro b _ ⟨hlt, rfl⟩
  rw [if_pos hlt]
  exact hbody.bind

/-- The loop does not end when no `int` reaches the bound. -/
theorem not_runs_countUp {first : Int} (Inv : σ → Prop)
    (hbound : ∀ s, Inv s → Ensures bound s fun b t => 2147483648 ≤ b ∧ Inv t)
    (hbody : ∀ i s, Inv s → Ensures (body i) s fun _ t => Inv t) (hs : Inv s)
    (hfirst : IsInt first) {Q : Unit → σ → Prop} : ¬ Runs (countUp fuel first bound body) s Q := by
  induction fuel generalizing first s with
  | zero => exact fun h => h.not_fails fails_fail
  | succ fuel ih =>
    intro h
    have hlt := hfirst.2
    simp only [countUp, loop, runs_bind] at h
    obtain ⟨b, t, hb, h⟩ := h
    obtain ⟨hlarge, ht⟩ := hbound s hs b t hb
    rw [if_pos (by omega), runs_bind] at h
    obtain ⟨_, u, hu, h⟩ := h
    rw [runs_bind] at h
    by_cases hint : IsInt (first + 1)
    · rw [runs_int hint, runs_pure] at h
      exact ih (hbody first t ht _ u hu) hint h
    · exact h.not_fails (fails_int hint)

/-- The rule for a loop that counts down. `Inv p` holds before the pass for `p - gap`. -/
theorem runs_countDown {f l g : Nat} (hg : 0 < g) (Inv : Nat → σ → Prop)
    (hbody : ∀ p, l + g ≤ p → p ≤ f → ∀ s, Inv p s →
      Runs (body (p - g : Nat)) s fun _ t => Inv (p - g) t)
    (hs : Inv f s) (hf : f < fuel) :
    Runs (countDown fuel (f - g) l g body) s fun _ t => ∃ p, p < l + g ∧ Inv p t := by
  refine runs_loop (k := f) (fun k (i : Int) t => i = (k : Int) - g ∧ k ≤ f ∧ Inv k t) ?_
    ⟨rfl, Nat.le_refl _, hs⟩ hf
  rintro k _ s ⟨rfl, hkf, hk⟩
  by_cases hle : l + g ≤ k
  · have hcast : (k : Int) - g = (k - g : Nat) := by omega
    rw [if_pos (by omega), runs_bind, hcast]
    refine (hbody k hle hkf s hk).mono ?_
    intro _ t ht
    rw [runs_pure]
    exact ⟨k - g, by omega, rfl, by omega, ht⟩
  · rw [if_neg (by omega), runs_pure]
    exact ⟨k, Nat.not_le.mp hle, hk⟩

end

end LanguageTest
