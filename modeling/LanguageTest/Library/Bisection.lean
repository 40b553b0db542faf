import LanguageTest.Library.Elements

namespace LanguageTest

/-- One pass of a loop that ends, and the rest of it. -/
theorem Runs.pass {σ α ι : Type} {body : ι → Program σ (Step ι α)} {Q : α → σ → Prop}
    {fuel : Nat} {i : ι} {s : σ} (h : Runs (loop body fuel i) s Q) :
    Runs (body i) s fun r t =>
      match r with
      | .again j => ∃ fuel, Runs (loop body fuel j) t Q
      | .done a => Q a t := by
  cases fuel with
  | zero => exact absurd fails_fail h.not_fails
  | succ fuel =>
    refine (runs_loop_succ.mp h).mono fun r t hr => ?_
    cases r with
    | again j => exact ⟨fuel, hr⟩
    | done a => exact hr

namespace Bisection

/-- The middle of the numbers from `l` up to, but not at, `r`. -/
def middle (l r : Nat) : Nat := (l + r - 1) / 2

/-- The two ends as variables. The second is the last number, not the one behind it. -/
def ends (l r : Nat) : Int × Int := ((l : Int), (r : Int) - 1)

/-- The ranges that a bisection of the first `n` numbers comes to, when it goes on above the
middles of `up` and below those of `down`. -/
inductive Reached (up down : Nat → Prop) (n : Nat) : Nat → Nat → Prop
  | start : Reached up down n 0 n
  | right {l r : Nat} (h : Reached up down n l r) (hlt : l < r) (hm : up (middle l r)) :
      Reached up down n (middle l r + 1) r
  | left {l r : Nat} (h : Reached up down n l r) (hlt : l < r) (hm : down (middle l r)) :
      Reached up down n l (middle l r)

section
variable {l r n : Nat} {up down : Nat → Prop}

theorem le_middle (h : l < r) : l ≤ middle l r := by
  unfold middle
  omega

theorem middle_lt (h : l < r) : middle l r < r := by
  unfold middle
  omega

theorem Reached.mono {up' down' : Nat → Prop} (h : Reached up down n l r)
    (hup : ∀ m, up m → up' m) (hdown : ∀ m, down m → down' m) : Reached up' down' n l r := by
  induction h with
  | start => exact .start
  | right _ hlt hm ih => exact ih.right hlt (hup _ hm)
  | left _ hlt hm ih => exact ih.left hlt (hdown _ hm)

theorem Reached.bounds (h : Reached up down n l r) : l ≤ r ∧ r ≤ n := by
  induction h with
  | start => exact ⟨Nat.zero_le n, Nat.le_refl n⟩
  | right h hlt _ ih => exact ⟨middle_lt hlt, ih.2⟩
  | left h hlt _ ih => exact ⟨le_middle hlt, Nat.le_trans (Nat.le_of_lt (middle_lt hlt)) ih.2⟩

end

section
variable {σ α : Type} {body : Int × Int → Program σ (Step (Int × Int) α)} {Q : α → σ → Prop}
  {up down : Nat → Prop} {fuel l r n c : Nat} {s : σ}

/-- The pass from here is the last one. -/
def LastPass (body : Int × Int → Program σ (Step (Int × Int) α)) (Q : α → σ → Prop)
    (i : Int × Int) (s : σ) : Prop :=
  Runs (body i) s fun v t =>
    match v with
    | .again _ => False
    | .done a => Q a t

theorem LastPass.mono {i : Int × Int} {R : Step (Int × Int) α → σ → Prop}
    (h : LastPass body Q i s) (hr : ∀ a t, Q a t → R (.done a) t) : Runs (body i) s R := by
  refine Runs.mono h fun v t hv => ?_
  rcases v with j | a
  · exact hv.elim
  · exact hr a t hv

/-- The rule for a bisection. Every pass over a range that is not empty ends the loop in the
postcondition, or is followed by the last one, or leaves out the middle and the numbers on the
side of it where `c` is not. -/
theorem runs_bisect (Inv : Nat → Nat → σ → Prop)
    (hpass : ∀ l r s, l ≤ c → c ≤ r → r ≤ n → l < r → Inv l r s →
      Runs (body (ends l r)) s fun v t =>
        match v with
        | .again j =>
          middle l r < c ∧ j = ends (middle l r + 1) r ∧ Inv (middle l r + 1) r t ∨
            c ≤ middle l r ∧ j = ends l (middle l r) ∧ Inv l (middle l r) t ∨
              LastPass body Q j t
        | .done a => Q a t)
    (hend : ∀ s, Inv c c s → LastPass body Q (ends c c) s)
    (hc : c ≤ n) (hs : Inv 0 n s) (hf : n < fuel) : Runs (loop body fuel (ends 0 n)) s Q := by
  refine runs_loop (fun k v t => (∃ l r, k = r - l ∧ v = ends l r ∧ l ≤ c ∧ c ≤ r ∧ r ≤ n ∧
    Inv l r t) ∨ LastPass body Q v t) ?_
    (Or.inl ⟨0, n, rfl, rfl, Nat.zero_le c, hc, Nat.le_refl n, hs⟩) hf
  rintro _ _ t (⟨l, r, rfl, rfl, hl, hr, hn, hi⟩ | h)
  · by_cases hlt : l < r
    · have hlow := le_middle hlt
      have hhigh := middle_lt hlt
      refine (hpass l r t hl hr hn hlt hi).mono fun v u hv => ?_
      rcases v with j | a
      · rcases hv with ⟨hm, rfl, hu⟩ | ⟨hm, rfl, hu⟩ | hu
        · exact ⟨r - (middle l r + 1), by omega,
            Or.inl ⟨middle l r + 1, r, rfl, rfl, hm, hr, hn, hu⟩⟩
        · exact ⟨middle l r - l, by omega, Or.inl ⟨l, middle l r, rfl, rfl, hl, hm, by omega, hu⟩⟩
        · exact ⟨0, by omega, Or.inr hu⟩
      · exact hv
    · obtain rfl : l = c := by omega
      obtain rfl : r = l := by omega
      exact (hend t hi).mono fun _ _ hq => hq
  · exact h.mono fun _ _ hq => hq

/-- When every pass goes on only as it should, a loop that ends ends from every range reached. -/
theorem Reached.runs (h : Reached up down n l r)
    (habove : ∀ l r s, l < r → r ≤ n → up (middle l r) →
      Ensures (body (ends l r)) s fun v t => v = .again (ends (middle l r + 1) r) ∧ t = s)
    (hbelow : ∀ l r s, l < r → r ≤ n → down (middle l r) →
      Ensures (body (ends l r)) s fun v t => v = .again (ends l (middle l r)) ∧ t = s)
    (hruns : Runs (loop body fuel (ends 0 n)) s Q) :
    ∃ fuel, Runs (loop body fuel (ends l r)) s Q := by
  induction h with
  | start => exact ⟨fuel, hruns⟩
  | right h hlt hm ih =>
    obtain ⟨_, hr⟩ := ih
    obtain ⟨_, _, -, hnext, rfl, rfl⟩ := (habove _ _ s hlt h.bounds.2 hm).runs hr.pass
    exact hnext
  | left h hlt hm ih =>
    obtain ⟨_, hr⟩ := ih
    obtain ⟨_, _, -, hnext, rfl, rfl⟩ := (hbelow _ _ s hlt h.bounds.2 hm).runs hr.pass
    exact hnext

end

end Bisection

end LanguageTest
