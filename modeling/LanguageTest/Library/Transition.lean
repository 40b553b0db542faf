import Mathlib.Data.List.Infix
import Mathlib.Data.Nat.Notation
import Mathlib.Logic.Relation

namespace LanguageTest.Transition

variable {σ α : Type*} (step : σ → α → Option σ)

/-- A run: the actions are taken one after the other, each of them enabled. -/
def exec : List α → σ → Option σ
  | [], s => some s
  | a :: as, s => (step s a).bind (exec as)

/-- Every action of the run is taken in a state that meets the condition. -/
def Meets (ok : σ → α → Prop) : List α → σ → Prop
  | [], _ => True
  | a :: as, s => ok s a ∧ ∀ u, step s a = some u → Meets ok as u

/-- The property holds in every state of the run. -/
def Always (P : σ → Prop) (as : List α) (s : σ) : Prop :=
  ∀ bs u, bs <+: as → exec step bs s = some u → P u

/-- How many steps of a run are of a kind, told by the states before and after the step. -/
def countSteps (kind : σ → α → σ → Bool) : List α → σ → Nat
  | [], _ => 0
  | a :: as, s =>
    match step s a with
    | none => 0
    | some u => (kind s a u).toNat + countSteps kind as u

variable {step} {ok : σ → α → Prop} {P I : σ → Prop} {as : List α} {s u : σ} {a : α}

theorem exec_cons : exec step (a :: as) s = some u ↔
    ∃ v, step s a = some v ∧ exec step as v = some u :=
  Option.bind_eq_some_iff

/-- A run that continues another one. -/
theorem exec_append {bs : List α} {v : σ} (has : exec step as s = some u)
    (hbs : exec step bs u = some v) : exec step (as ++ bs) s = some v := by
  induction as generalizing s with
  | nil => exact Option.some.inj has ▸ hbs
  | cons a as ih =>
    obtain ⟨w, hw, hu⟩ := exec_cons.mp has
    exact exec_cons.mpr ⟨w, hw, ih hu⟩

/-- A path of steps with allowed actions is a run. -/
theorem exists_exec_of_reflTransGen {allowed : α → Prop}
    (h : Relation.ReflTransGen (fun s u => ∃ a, allowed a ∧ step s a = some u) s u) :
    ∃ as, (∀ a ∈ as, allowed a) ∧ exec step as s = some u := by
  induction h with
  | refl => exact ⟨[], by simp, rfl⟩
  | tail _ hlast ih =>
    obtain ⟨as, has, hrun⟩ := ih
    obtain ⟨a, ha, hu⟩ := hlast
    refine ⟨as ++ [a], ?_, exec_append hrun (exec_cons.mpr ⟨_, hu, rfl⟩)⟩
    intro b hb
    rcases List.mem_append.mp hb with hold | hnew
    · exact has b hold
    · exact List.mem_singleton.mp hnew ▸ ha

/-- A condition on the actions alone. -/
theorem meets_of_forall {allowed : α → Prop} (h : ∀ a ∈ as, allowed a) :
    Meets step (fun _ a => allowed a) as s := by
  induction as generalizing s with
  | nil => trivial
  | cons a as ih =>
    obtain ⟨ha, has⟩ := List.forall_mem_cons.mp h
    exact ⟨ha, fun _ _ => ih has⟩

instance decidableMeets [∀ s a, Decidable (ok s a)] (as : List α) (s : σ) :
    Decidable (Meets step ok as s) :=
  match as with
  | [] => .isTrue trivial
  | a :: as =>
    have : Decidable (∀ u, step s a = some u → Meets step ok as u) :=
      match h : step s a with
      | none => .isTrue (by simp)
      | some v =>
        match decidableMeets as v with
        | .isTrue hv => .isTrue (by simpa using hv)
        | .isFalse hv => .isFalse (by simpa using hv)
    inferInstanceAs (Decidable (_ ∧ _))

/-- A run that can be computed, for facts about the state it ends in. -/
theorem exists_exec (hrun : (exec step as s).isSome) (h : ∀ u, exec step as s = some u → P u) :
    ∃ u, exec step as s = some u ∧ P u := by
  obtain ⟨u, hu⟩ := Option.isSome_iff_exists.mp hrun
  exact ⟨u, hu, h u hu⟩

/-- What every step that meets the condition preserves, a run of such steps preserves. -/
theorem exec_invariant (hstep : ∀ s a u, I s → ok s a → step s a = some u → I u) (hs : I s)
    (hok : Meets step ok as s) (hrun : exec step as s = some u) : I u := by
  induction as generalizing s with
  | nil => exact Option.some.inj hrun ▸ hs
  | cons a as ih =>
    obtain ⟨v, hv, hu⟩ := exec_cons.mp hrun
    exact ih (hstep s a v hs hok.1 hv) (hok.2 v hv) hu

/-- What every step preserves, every run preserves. -/
theorem exec_preserves (hstep : ∀ s a u, I s → step s a = some u → I u) (hs : I s)
    (hrun : exec step as s = some u) : I u := by
  induction as generalizing s with
  | nil => exact Option.some.inj hrun ▸ hs
  | cons a as ih =>
    obtain ⟨v, hv, hu⟩ := exec_cons.mp hrun
    exact ih (hstep s a v hs hv) hu

/-- A number that steps of one kind raise by one. -/
theorem exec_count {kind : σ → α → σ → Bool} (m : σ → Nat)
    (hstep : ∀ s a u, step s a = some u → m u = m s + (kind s a u).toNat)
    (hrun : exec step as s = some u) : m u = m s + countSteps step kind as s := by
  induction as generalizing s with
  | nil =>
    obtain rfl := Option.some.inj hrun
    rfl
  | cons a as ih =>
    obtain ⟨v, hv, hu⟩ := exec_cons.mp hrun
    have hfirst := hstep s a v hv
    have hrest := ih hu
    simp only [countSteps, hv]
    omega

/-- A number that steps of one kind raise by one and steps of another lower by one. -/
theorem exec_balance {up down : σ → α → σ → Bool} (m : σ → Int)
    (hstep : ∀ s a u, step s a = some u → m u = m s + (up s a u).toNat - (down s a u).toNat)
    (hrun : exec step as s = some u) :
    m u = m s + countSteps step up as s - countSteps step down as s := by
  induction as generalizing s with
  | nil =>
    obtain rfl := Option.some.inj hrun
    simp [countSteps]
  | cons a as ih =>
    obtain ⟨v, hv, hu⟩ := exec_cons.mp hrun
    have hfirst := hstep s a v hv
    have hrest := ih hu
    simp only [countSteps, hv]
    omega

/-- A run in which a number grows by at most one in a step passes through all values between. -/
theorem exists_passing (m : σ → Nat) (hstep : ∀ s a u, step s a = some u → m u ≤ m s + 1)
    (hrun : exec step as s = some u) {k : Nat} (hk : m s ≤ k) (hku : k ≤ m u) :
    ∃ bs v, bs <+: as ∧ exec step bs s = some v ∧ m v = k := by
  induction as generalizing s with
  | nil =>
    rw [← Option.some.inj hrun] at hku
    exact ⟨[], s, List.prefix_rfl, rfl, Nat.le_antisymm hk hku⟩
  | cons a as ih =>
    by_cases heq : m s = k
    · exact ⟨[], s, List.nil_prefix, rfl, heq⟩
    · obtain ⟨v, hv, hu⟩ := exec_cons.mp hrun
      have hnext := hstep s a v hv
      obtain ⟨bs, w, hbs, hw, hm⟩ := ih hu (by omega)
      exact ⟨a :: bs, w, List.cons_prefix_cons.mpr ⟨rfl, hbs⟩, exec_cons.mpr ⟨v, hv, hw⟩, hm⟩

/-- Where each state has an action that brings the run nearer to its end, there is a run to the
end. -/
theorem exists_completion {Final : σ → Prop} {allowed : α → Prop} (m : σ → Nat)
    (hstep : ∀ s, I s → ¬ Final s → ∃ a u, allowed a ∧ step s a = some u ∧ I u ∧ m u < m s)
    (hs : I s) : ∃ as u, (∀ a ∈ as, allowed a) ∧ exec step as s = some u ∧ I u ∧ Final u := by
  induction hm : m s using Nat.strong_induction_on generalizing s with
  | _ k ih =>
    by_cases hfinal : Final s
    · exact ⟨[], s, by simp, rfl, hs, hfinal⟩
    · obtain ⟨a, v, ha, hv, hI, hlt⟩ := hstep s hs hfinal
      obtain ⟨as, u, has, hu, hIu, hend⟩ := ih (m v) (hm ▸ hlt) hI rfl
      exact ⟨a :: as, u, List.forall_mem_cons.mpr ⟨ha, has⟩, exec_cons.mpr ⟨v, hv, hu⟩, hIu, hend⟩

/-- A condition that exactly the steps into a bad state violate decides a run. -/
theorem always_iff_meets (hstep : ∀ s a u, I s → ok s a → step s a = some u → I u)
    (hgood : ∀ s, I s → P s) (hbad : ∀ s a u, I s → ¬ ok s a → step s a = some u → ¬ P u)
    (hs : I s) (hrun : exec step as s = some u) :
    Always step P as s ↔ Meets step ok as s := by
  induction as generalizing s with
  | nil =>
    constructor
    · exact fun _ => trivial
    · intro _ bs v hbs hv
      rw [List.prefix_nil.mp hbs] at hv
      exact Option.some.inj hv ▸ hgood s hs
  | cons a as ih =>
    obtain ⟨v, hv, hu⟩ := exec_cons.mp hrun
    constructor
    · intro h
      have hok : ok s a := by
        by_contra hno
        apply hbad s a v hs hno hv
        apply h [a] v
        · exact List.prefix_cons_inj a |>.mpr (List.nil_prefix)
        · simp [exec, hv]
      refine ⟨hok, ?_⟩
      intro w hw
      rw [hv] at hw
      obtain rfl := Option.some.inj hw
      apply (ih (hstep s a v hs hok hv) hu).mp
      intro bs w hbs hw
      apply h (a :: bs) w
      · exact List.prefix_cons_inj a |>.mpr hbs
      · exact exec_cons.mpr ⟨v, hv, hw⟩
    · intro hok bs w hbs hw
      cases bs with
      | nil => exact Option.some.inj hw ▸ hgood s hs
      | cons b bs =>
        obtain ⟨rfl, hprefix⟩ := List.cons_prefix_cons.mp hbs
        obtain ⟨x, hx, hw⟩ := exec_cons.mp hw
        rw [hv] at hx
        obtain rfl := Option.some.inj hx
        exact (ih (hstep s b v hs hok.1 hv) hu).mpr (hok.2 v hv) bs w hprefix hw

end LanguageTest.Transition
