import Mathlib.Data.Finset.Card
import Mathlib.Data.Nat.Find
import Mathlib.Logic.Function.Iterate
import Mathlib.Logic.Relation

namespace LanguageTest.Forest

variable {α : Type*} {f : α → α} {rep : α → α} {x y z r : α} {k : ℕ}

/-- Following `k` parent links from `x` leads to `r`, which is its own parent. -/
def RootAt (f : α → α) (k : ℕ) (x r : α) : Prop := f^[k] x = r ∧ f r = r

/-- The root of the tree of `x`. -/
def RootOf (f : α → α) (x r : α) : Prop := ∃ k, RootAt f k x r

/-- The parent links form a forest, and `rep` names the root of every element. -/
def Roots (f rep : α → α) : Prop := ∀ x, RootOf f x (rep x)

theorem RootAt.iterate (h : RootAt f k x r) (n : ℕ) : f^[n + k] x = r := by
  rw [Function.iterate_add_apply, h.1]
  exact Function.iterate_fixed h.2 n

theorem RootOf.unique (h : RootOf f x r) (h' : RootOf f x y) : r = y := by
  obtain ⟨k, hk⟩ := h
  obtain ⟨j, hj⟩ := h'
  rw [← hk.iterate j, ← hj.iterate k, Nat.add_comm]

theorem rootAt_zero : RootAt f 0 x r ↔ x = r ∧ f x = x := by
  constructor
  · intro hcase
    obtain ⟨rfl, h⟩ := hcase
    exact ⟨rfl, h⟩
  · intro hcase
    obtain ⟨rfl, h⟩ := hcase
    exact ⟨rfl, h⟩

theorem rootAt_succ : RootAt f (k + 1) x r ↔ RootAt f k (f x) r := Iff.rfl

theorem RootOf.parent (h : RootOf f (f x) r) : RootOf f x r := by
  obtain ⟨k, hk⟩ := h
  exact ⟨k + 1, hk⟩

theorem Roots.fixed (h : Roots f rep) (x : α) : f (rep x) = rep x := (h x).choose_spec.2

theorem Roots.eq_of_fixed (h : Roots f rep) (hx : f x = x) : rep x = x :=
  (h x).unique ⟨0, rfl, hx⟩

theorem Roots.parent (h : Roots f rep) (x : α) : rep (f x) = rep x :=
  (h (f x)).parent.unique (h x)

theorem Roots.rootOf_iff (h : Roots f rep) : RootOf f x r ↔ rep x = r :=
  ⟨fun hr => (h x).unique hr, fun he => he ▸ h x⟩

/-- The only cycles of a forest are the self-loops at its roots. -/
theorem Roots.cycle (h : Roots f rep) (hk : 0 < k) (hc : f^[k] x = x) : f x = x := by
  obtain ⟨j, hj⟩ := h x
  have hx : f^[k * j] x = x := by
    rw [Function.iterate_mul]
    exact Function.iterate_fixed hc j
  have hle : k * j - j + j = k * j := Nat.sub_add_cancel (Nat.le_mul_of_pos_left j hk)
  have hr := hj.iterate (k * j - j)
  rw [hle, hx] at hr
  rw [hr]
  exact hj.2

/-- Within a finite set that parent links do not leave, the root is fewer links away than the
set has elements. -/
theorem RootOf.exists_lt_card {S : Finset α} (hS : ∀ y ∈ S, f y ∈ S) (hx : x ∈ S)
    (h : RootOf f x r) : ∃ k < S.card, RootAt f k x r := by
  classical
  have hmin := Nat.find_spec h
  have hlt := fun m (hm : m < Nat.find h) => Nat.find_min h hm
  refine ⟨Nat.find h, ?_, hmin⟩
  have hmem : ∀ m, f^[m] x ∈ S := by
    intro m
    induction m with
    | zero => exact hx
    | succ m ih =>
      rw [Function.iterate_succ_apply']
      exact hS _ ih
  -- Two equal elements on the way would give a shorter way.
  have hinj : Set.InjOn (fun m => f^[m] x) (Finset.range (Nat.find h + 1) : Set ℕ) := by
    intro i hi j hj hij
    simp only [Finset.coe_range, Set.mem_Iio] at hi hj
    by_contra hne
    have hshort : ∀ {i j : ℕ}, i < j → j < Nat.find h + 1 → f^[i] x = f^[j] x → False := by
      intro i j hlt' hj he
      refine hlt (Nat.find h - j + i) (by omega) ⟨?_, hmin.2⟩
      rw [Function.iterate_add_apply, he, ← Function.iterate_add_apply,
        Nat.sub_add_cancel (by omega)]
      exact hmin.1
    rcases lt_or_gt_of_ne hne with hlt' | hlt'
    · exact hshort hlt' hj hij
    · exact hshort hlt' hi hij.symm
  have hcard := Finset.card_le_card_of_injOn (s := Finset.range (Nat.find h + 1)) (t := S) _
    (fun m _ => hmem m) hinj
  rw [Finset.card_range] at hcard
  omega

section
variable [DecidableEq α]

/-- Pointing an element straight at its root makes no way longer. -/
theorem RootAt.compress (h : RootAt f k y r) (hx : RootOf f x z) :
    ∃ j ≤ k, RootAt (Function.update f x z) j y r := by
  induction k generalizing y with
  | zero =>
    obtain ⟨rfl, hy⟩ := rootAt_zero.mp h
    refine ⟨0, le_rfl, rfl, ?_⟩
    by_cases he : y = x
    · subst he
      rw [Function.update_self]
      exact hx.unique ⟨0, rfl, hy⟩
    · rw [Function.update_of_ne he, hy]
  | succ k ih =>
    by_cases he : y = x
    · subst he
      obtain rfl := hx.unique ⟨k + 1, h⟩
      have hfix := h.2
      by_cases hz : z = y
      · subst hz
        exact ⟨0, Nat.zero_le _, rfl, Function.update_self ..⟩
      · refine ⟨1, by omega, Function.update_self .., ?_⟩
        rw [Function.update_of_ne hz, hfix]
    · obtain ⟨j, hj, hr⟩ := ih (rootAt_succ.mp h)
      refine ⟨j + 1, by omega, rootAt_succ.mpr ?_⟩
      rwa [Function.update_of_ne he]

/-- Path compression changes no root. -/
theorem Roots.compress (h : Roots f rep) (x : α) : Roots (Function.update f x (rep x)) rep := by
  intro y
  obtain ⟨k, hk⟩ := h y
  obtain ⟨j, -, hj⟩ := hk.compress (h x)
  exact ⟨j, hj⟩

/-- The roots after the trees of `x` and `y` have been made one. -/
def unite (rep : α → α) (x y : α) : α → α := fun z => if rep z = rep x then rep y else rep z

/-- Hanging the root of one tree below the root of another. -/
theorem Roots.link (h : Roots f rep) (x y : α) :
    Roots (Function.update f (rep x) (rep y)) (unite rep x y) := by
  -- The two roots first: the first one leads to the second, which stays a root.
  have hb : Function.update f (rep x) (rep y) (rep y) = rep y := by
    by_cases he : rep y = rep x
    · rw [he, Function.update_self]
    · rw [Function.update_of_ne he, h.fixed]
  have hroot : ∀ z, f z = z → RootOf (Function.update f (rep x) (rep y)) z
      (if z = rep x then rep y else z) := by
    intro z hz
    split_ifs with he
    · exact ⟨1, by rw [he]; exact Function.update_self .., hb⟩
    · exact ⟨0, rfl, by rw [Function.update_of_ne he, hz]⟩
  intro z
  obtain ⟨k, hk⟩ := h z
  induction k generalizing z with
  | zero =>
    obtain ⟨he, hz⟩ := rootAt_zero.mp hk
    rw [unite, ← he]
    exact hroot z hz
  | succ k ih =>
    by_cases hz : f z = z
    · rw [unite, h.eq_of_fixed hz]
      exact hroot z hz
    · have hne : z ≠ rep x := by
        intro heq
        subst heq
        exact hz (h.fixed x)
      have hk' := ih (f z) (by rw [h.parent]; exact rootAt_succ.mp hk)
      rw [unite, h.parent] at hk'
      refine RootOf.parent ?_
      rwa [Function.update_of_ne hne]

/-- The equivalence closure of the united pairs. -/
def Joined (ps : List (α × α)) : α → α → Prop := Relation.EqvGen fun x y => (x, y) ∈ ps

omit [DecidableEq α] in
theorem joined_nil : Joined ([] : List (α × α)) x y ↔ x = y := by
  constructor
  · intro h
    induction h with
    | rel x y h => cases h
    | refl x => rfl
    | symm x y _ ih => exact ih.symm
    | trans x y z _ _ ih ih' => exact ih.trans ih'
  · intro heq
    subst heq
    exact .refl x

/-- Uniting two trees adds one pair to the equivalence. -/
theorem joined_unite {ps : List (α × α)} (h : ∀ u v, rep u = rep v ↔ Joined ps u v) (x y u v : α) :
    unite rep x y u = unite rep x y v ↔ Joined (ps ++ [(x, y)]) u v := by
  have hold : ∀ {u v}, rep u = rep v → Joined (ps ++ [(x, y)]) u v := fun he =>
    Relation.EqvGen.mono (fun _ _ hm => List.mem_append_left _ hm) _ _ ((h _ _).mp he)
  have hnew : Joined (ps ++ [(x, y)]) x y := .rel _ _ (by simp)
  constructor
  · intro he
    simp only [unite] at he
    split_ifs at he with hu hv hv
    · exact hold (hu.trans hv.symm)
    · exact ((hold hu).trans _ _ _ hnew).trans _ _ _ (hold he)
    · exact ((hold he).trans _ _ _ hnew.symm).trans _ _ _ (hold hv.symm)
    · exact hold he
  · intro hj
    induction hj with
    | rel a b hm =>
      rcases List.mem_append.mp hm with hm | hm
      · have hab : rep a = rep b := (h a b).mpr (.rel _ _ hm)
        simp [unite, hab]
      · obtain ⟨rfl, rfl⟩ := Prod.mk.inj (List.mem_singleton.mp hm)
        simp [unite]
    | refl a => rfl
    | symm a b _ ih => exact ih.symm
    | trans a b c _ _ ih ih' => exact ih.trans ih'

end

end LanguageTest.Forest
