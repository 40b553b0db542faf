import Mathlib.Algebra.BigOperators.Group.Finset.Basic
import Mathlib.Data.Set.Insert

namespace LanguageTest.Locks

variable {T L : Type*} {owner : L → Option T} {claims claims' : T → Set L} {t v : T} {l : L}

/-- The locks that a thread claims at its place in the code are those that it owns. -/
def Owned (owner : L → Option T) (claims : T → Set L) : Prop :=
  ∀ t l, l ∈ claims t ↔ owner l = some t

theorem Owned.apart (h : Owned owner claims) (ht : l ∈ claims t) (hv : l ∈ claims v) : t = v :=
  Option.some.inj (((h t l).mp ht).symm.trans ((h v l).mp hv))

/-- A lock that nobody claims is free. -/
theorem Owned.free (h : Owned owner claims) (hl : ∀ t, l ∉ claims t) : owner l = none := by
  cases howner : owner l with
  | none => rfl
  | some t => exact absurd ((h t l).mpr howner) (hl t)

/-- A thread that moves on with the locks that it has. -/
theorem Owned.keep (h : Owned owner claims) (hclaims : ∀ v, claims' v = claims v) :
    Owned owner claims' := by
  intro v k
  rw [hclaims]
  exact h v k

variable [DecidableEq L]

theorem Owned.acquire (h : Owned owner claims) (hfree : owner l = none)
    (hself : claims' t = insert l (claims t)) (hother : ∀ v, v ≠ t → claims' v = claims v) :
    Owned (Function.update owner l (some t)) claims' := by
  intro v k
  by_cases hk : k = l
  · subst hk
    have hnot (v : T) : k ∉ claims v := fun hmem => nomatch hfree.symm.trans ((h v k).mp hmem)
    rw [Function.update_self]
    by_cases hv : v = t
    · subst hv
      rw [hself]
      exact iff_of_true (Set.mem_insert ..) rfl
    · rw [hother v hv]
      exact iff_of_false (hnot v) fun heq => hv (Option.some.inj heq).symm
  · rw [Function.update_of_ne hk]
    by_cases hv : v = t
    · subst hv
      rw [hself, Set.mem_insert_iff, or_iff_right hk]
      exact h v k
    · rw [hother v hv]
      exact h v k

theorem Owned.release (h : Owned owner claims) (hl : l ∈ claims t)
    (hself : claims' t = claims t \ {l}) (hother : ∀ v, v ≠ t → claims' v = claims v) :
    Owned (Function.update owner l none) claims' := by
  intro v k
  by_cases hk : k = l
  · subst hk
    rw [Function.update_self]
    refine iff_of_false ?_ nofun
    by_cases hv : v = t
    · subst hv
      rw [hself]
      exact fun hmem => hmem.2 rfl
    · rw [hother v hv]
      exact fun hmem => hv (h.apart hmem hl)
  · rw [Function.update_of_ne hk]
    by_cases hv : v = t
    · subst hv
      have hnot : k ∉ ({l} : Set L) := hk
      rw [hself, Set.mem_sdiff, and_iff_left hnot]
      exact h v k
    · rw [hother v hv]
      exact h v k

end LanguageTest.Locks
