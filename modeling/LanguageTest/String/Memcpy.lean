import LanguageTest.Library.Arithmetic
import LanguageTest.Library.Copying
import Mathlib.Tactic.SplitIfs

namespace LanguageTest.Memcpy

/-- The bytes at the addresses. -/
abbrev Memory := Nat → UInt8

/-- `*(p++) = *(q++)`, or the same with `--`, when the pointers move by `d`. -/
def copyLoop (fuel : Nat) (d : Int) (p q n : Nat) : Program Memory Unit :=
  loop (fun v : Nat × Nat × Nat => do
    let (p, q, n) := v
    if n ≠ 0 then
      let m ← get
      set (Function.update m p (m q))
      pure (.again (toSize (p + d), toSize (q + d), n - 1))
    else pure (.done ())) fuel (p, q, n)

/-- A pointer is an address, or `nullptr`, with which the assertions fail. -/
def myMemcpy (fuel : Nat) (dest src : Option Nat) (n : Nat) : Program Memory (Option Nat) := do
  match dest, src with
  | some p, some q =>
    if p ≤ q ∨ toSize ((q : Int) + n) ≤ p then copyLoop fuel 1 p q n
    else copyLoop fuel (-1) (toSize ((p : Int) + n - 1)) (toSize ((q : Int) + n - 1)) n
    pure dest
  | _, _ => fail .nullPointer

section
variable {m u : Memory} {p q n fuel : Nat}

/-- Upwards, no byte of the source is written before it has been read. -/
theorem copyUp_spec (h : p ≤ q ∨ q + n ≤ p) (hp : p + n ≤ 18446744073709551616)
    (hq : q + n ≤ 18446744073709551616) (hf : n < fuel) :
    Runs (copyLoop fuel 1 p q n) m fun _ u => Copied m u p q 0 n := by
  refine runs_loop (k := n) (fun r (v : Nat × Nat × Nat) u => ∃ k, k + r = n ∧
    Copied m u p q 0 k ∧ v.2.2 = r ∧ (r ≠ 0 → v.1 = p + k ∧ v.2.1 = q + k)) ?_
    ⟨0, Nat.zero_add n, copied_empty, rfl, fun _ => ⟨rfl, rfl⟩⟩ hf
  intro r v u hv
  obtain ⟨a, b, c⟩ := v
  obtain ⟨k, hk, hcopied, rfl, hv⟩ := hv
  dsimp only at hk hv ⊢
  split_ifs with hzero
  · obtain ⟨rfl, rfl⟩ := hv hzero
    rw [runs_bind, runs_get, runs_bind, runs_set, runs_pure]
    refine ⟨c - 1, by omega, k + 1, by omega, hcopied.up (Nat.zero_le k) (by omega), rfl, ?_⟩
    intro hmore
    exact ⟨toSize_natCast (n := p + k + 1) (by omega), toSize_natCast (n := q + k + 1) (by omega)⟩
  · obtain rfl : k = n := by omega
    rw [runs_pure]
    exact hcopied

/-- Downwards, the same when the destination begins within the source. -/
theorem copyDown_spec (h : q < p) (hp : p + n ≤ 18446744073709551616) (hf : n < fuel) :
    Runs (copyLoop fuel (-1) (toSize ((p : Int) + n - 1)) (toSize ((q : Int) + n - 1)) n) m
      fun _ u => Copied m u p q 0 n := by
  refine runs_loop (k := n) (fun r (v : Nat × Nat × Nat) u => r ≤ n ∧
    Copied m u p q r n ∧ v = (toSize ((p : Int) + r - 1), toSize ((q : Int) + r - 1), r)) ?_
    ⟨Nat.le_refl n, copied_empty, rfl⟩ hf
  intro r v u hv
  obtain ⟨hr, hcopied, rfl⟩ := hv
  dsimp only
  cases r with
  | zero =>
    rw [if_neg (by simp), runs_pure]
    exact hcopied
  | succ r =>
    have hto : (p : Int) + (r + 1 : Nat) - 1 = (p + r : Nat) := by omega
    have hfrom : (q : Int) + (r + 1 : Nat) - 1 = (q + r : Nat) := by omega
    rw [if_pos (by omega), hto, hfrom, toSize_natCast (by omega), toSize_natCast (by omega),
      runs_bind, runs_get, runs_bind, runs_set, runs_pure]
    exact ⟨r, by omega, by omega, hcopied.down (by omega) (by omega), rfl⟩

/-- The destination holds what the source held, and nothing else has changed. -/
theorem myMemcpy_copies (hp : p + n ≤ 18446744073709551616) (hq : q + n ≤ 18446744073709551616)
    (hf : n < fuel) :
    Runs (myMemcpy fuel (some p) (some q) n) m fun r u => r = some p ∧
      (∀ i < n, u (p + i) = m (q + i)) ∧ ∀ a, ¬ (p ≤ a ∧ a < p + n) → u a = m a := by
  have hdone (u : Memory) (hu : Copied m u p q 0 n) : some p = some p ∧
      (∀ i < n, u (p + i) = m (q + i)) ∧ ∀ a, ¬ (p ≤ a ∧ a < p + n) → u a = m a :=
    ⟨rfl, fun i hi => hu.copied i (Nat.zero_le i) hi, fun a ha => hu.frame a ha⟩
  simp only [myMemcpy]
  split_ifs with hdirection
  · have hranges : p ≤ q ∨ q + n ≤ p := by
      rcases Nat.eq_or_lt_of_le hq with heq | hlt
      · -- the end of the source wraps around
        exact .inl (by omega)
      · rw [← Int.natCast_add, toSize_natCast hlt] at hdirection
        exact hdirection
    rw [runs_bind]
    exact (copyUp_spec hranges hp hq hf).mono fun _ u hu => runs_pure.mpr (hdone u hu)
  · rw [runs_bind]
    exact (copyDown_spec (by omega) hp hf).mono fun _ u hu => runs_pure.mpr (hdone u hu)

theorem myMemcpy_copies_sample :
    Runs (myMemcpy 14 (some 1) (some 0) 13) (fun a => UInt8.ofNat a) fun r u => r = some 1 ∧
      (∀ i < 13, u (1 + i) = UInt8.ofNat (0 + i)) ∧
        ∀ a, ¬ (1 ≤ a ∧ a < 1 + 13) → u a = UInt8.ofNat a :=
  myMemcpy_copies (by decide) (by decide) (by decide)

end

end LanguageTest.Memcpy
