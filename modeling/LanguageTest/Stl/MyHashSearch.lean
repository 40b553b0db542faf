import LanguageTest.Library.Probing
import LanguageTest.Stl.MyHash

namespace LanguageTest.MyHash
open Probing

/-- The key has a slot in a table of `m` slots: the product does not overflow, and the remainder
is not negative. -/
def Hashes (key : Int) (m : Nat) : Prop := FitsInt (3 * key) ∧ 0 ≤ (3 * key).tmod m

def home (m : Nat) (key : Int) : Nat := ((3 * key).tmod m).toNat

def HashTable.slot (H : HashTable) (i : Nat) : Slot Int :=
  if H.tag[i]? = some 1 then .used (H.rcd[i]?.join.getD 0)
  else if H.tag[i]? = some (-1) then .deleted
  else .free

/-- What the two arrays hold for a slot. -/
inductive Reads (H : HashTable) (i : Nat) : Slot Int → Prop where
  | free (tag : H.tag[i]? = some 0) : Reads H i .free
  | deleted (tag : H.tag[i]? = some (-1)) : Reads H i .deleted
  | used (key : Int) (tag : H.tag[i]? = some 1) (rcd : H.rcd[i]? = some (some key)) :
    Reads H i (.used key)

/-- The arrays have `size` elements, and slots of tag 1 have a key. -/
structure Shaped (H : HashTable) : Prop where
  pos : 0 < H.size
  rcd_length : H.rcd.length = H.size
  tag_length : H.tag.length = H.size
  reads : ∀ i < H.size, Reads H i (H.slot i)

variable {s : State} {H : HashTable} {key : Int} {i c m : Nat}

@[simp] theorem runs_table {Q : HashTable → State → Prop} : Runs table s Q ↔ Q s.H s :=
  runs_of_ok rfl

@[simp] theorem runs_setTable {Q : Unit → State → Prop} :
    Runs (setTable H) s Q ↔ Q () { s with H := H } :=
  runs_of_ok rfl

theorem runs_element {α : Type} {xs : List α} {x : α} {Q : α → State → Prop}
    (h : xs[i]? = some x) : Runs (element xs (i : Int)) s Q ↔ Q x s :=
  runs_of_ok (by simp [element, h])

theorem fails_element {α : Type} {xs : List α} {p : Int} (hp : p < 0) :
    Fails (element xs p) s .outOfRange := by
  cases p with
  | ofNat p => exact absurd hp (by simp)
  | negSucc p => rfl

@[simp] theorem runs_initialized {Q : Int → State → Prop} :
    Runs (initialized (some key)) s Q ↔ Q key s :=
  runs_pure

theorem runs_hash {Q : Int → State → Prop} (h : Hashes key m) :
    Runs (hash key m) s Q ↔ Q (home m key) s := by
  rw [hash, if_pos h.1, runs_pure, home, Int.toNat_of_nonneg h.2]

theorem collision_probe {n h : Nat} : collision (probe n h c) n = (probe n h (c + 1) : Nat) := by
  rw [collision, ← probe_succ]
  exact (Int.ofNat_tmod _ _).symm

theorem home_lt (h : 0 < m) : home m key < m := by
  have := Int.tmod_lt_of_pos (3 * key) (b := m) (by omega)
  rw [home]
  omega

/-- The condition of the `while` is that the probe goes on. -/
theorem occupied_spec (h : Shaped H) (hi : i < H.size) :
    Runs (occupied H key i) s fun b t => t = s ∧ (b = true ↔ Passes key (H.slot i)) := by
  have hr := h.reads i hi
  generalize H.slot i = sl at hr ⊢
  cases hr with
  | free tag => simp [occupied, runs_element tag, Passes]
  | deleted tag => simp [occupied, runs_element tag, Passes]
  | used j tag rcd =>
    simp only [occupied, runs_orM, runs_andM, runs_bind, runs_pure, runs_element tag,
      runs_element rcd, runs_initialized]
    by_cases hj : j = key <;> simp [hj, Passes]

theorem found_spec (h : Shaped H) (hi : i < H.size) :
    Runs (found H key i) s fun b t => t = s ∧ (b = true ↔ H.slot i = .used key) := by
  have hr := h.reads i hi
  generalize H.slot i = sl at hr ⊢
  cases hr with
  | free tag => simp [found, runs_element tag]
  | deleted tag => simp [found, runs_element tag]
  | used j tag rcd =>
    simp only [found, runs_andM, runs_bind, runs_pure, runs_element tag, runs_element rcd,
      runs_initialized]
    simp [eq_comm (a := key)]

/-- The variables of the `while` after `c` collisions. -/
def cursor (n h c : Nat) : Int × Nat := (probe n h c, c)

theorem cursor_zero {n h : Nat} (hh : h < n) : cursor n h 0 = ((h : Int), 0) := by
  rw [cursor, probe_zero hh]

/-- A pass through the `while` from the slot after `c` collisions. -/
theorem advance_spec {h : Nat} (hs : Shaped H) :
    Runs (advance H key (cursor H.size h c)) s fun r t => t = s ∧
      ((Passes key (H.slot (probe H.size h c)) ∧ r = .again (cursor H.size h (c + 1))) ∨
      (¬ Passes key (H.slot (probe H.size h c)) ∧ r = .done (cursor H.size h c))) := by
  rw [cursor, advance, runs_bind]
  refine (occupied_spec hs (probe_lt hs.pos)).mono ?_
  intro b _ hpost
  obtain ⟨rfl, hb⟩ := hpost
  cases b with
  | true => exact runs_pure.mpr ⟨rfl, .inl ⟨hb.mp rfl, by rw [collision_probe, cursor]⟩⟩
  | false => exact runs_pure.mpr ⟨rfl, .inr ⟨fun hp => absurd (hb.mpr hp) (by simp), rfl⟩⟩

/-- The probe stops at a slot: the call succeeds when that slot holds the key. -/
theorem searchHash_spec (h : Shaped s.H) (hk : Hashes key s.H.size)
    (hs : Stops s.H.slot s.H.size (home s.H.size key) key c) :
    Runs (searchHash key) s fun r t => t = s ∧
      r.2 = cursor s.H.size (home s.H.size key) c ∧
      (r.1 = .success ↔ s.H.slot (probe s.H.size (home s.H.size key) c) = .used key) := by
  rw [searchHash, runs_bind, runs_table, runs_bind, runs_hash hk, runs_bind]
  have hloop : Runs (loop (advance s.H key) s.H.size ((home s.H.size key : Nat), 0)) s fun i t =>
      t = s ∧ i = cursor s.H.size (home s.H.size key) c := by
    -- The variant is the number of collisions that are still to come.
    refine runs_loop (fun k i t => t = s ∧
      ∃ d, i = cursor s.H.size (home s.H.size key) d ∧ d + k = c) ?_
      ⟨rfl, 0, (cursor_zero (home_lt h.pos)).symm, Nat.zero_add c⟩ hs.within
    intro k _ t hpost
    obtain ⟨rfl, d, rfl, hd⟩ := hpost
    refine (advance_spec h).mono ?_
    intro r _ hpost
    rcases hpost with ⟨rfl, ⟨hp, rfl⟩ | ⟨hp, rfl⟩⟩
    · have hlt : d ≠ c := by
        intro heq
        subst heq
        exact hs.here hp
      exact ⟨k - 1, by omega, rfl, d + 1, rfl, by omega⟩
    · have hle := hs.le hp
      obtain rfl : c = d := by omega
      exact ⟨rfl, rfl⟩
  refine hloop.mono ?_
  intro _ _ hpost
  obtain ⟨rfl, rfl⟩ := hpost
  rw [runs_bind]
  refine (found_spec h (probe_lt h.pos)).mono ?_
  intro b _ hpost
  obtain ⟨rfl, hb⟩ := hpost
  cases b with
  | true => exact runs_pure.mpr ⟨rfl, rfl, iff_of_true rfl (hb.mp rfl)⟩
  | false =>
    exact runs_pure.mpr ⟨rfl, rfl, iff_of_false (by simp) fun hu => absurd (hb.mpr hu) (by simp)⟩

/-- Where every slot is passed the probe never ends, whatever the bound. -/
theorem probe_never_stops {h : Nat} (hs : Shaped H)
    (hp : ∀ i < H.size, Passes key (H.slot i)) (hh : h < H.size) (fuel : Nat) :
    Fails (loop (advance H key) fuel ((h : Int), 0)) s .outOfFuel := by
  refine fails_loop (fun i _ => ∃ d, i = cursor H.size h d) ?_ fuel ⟨0, (cursor_zero hh).symm⟩
  intro _ t hpost
  obtain ⟨d, rfl⟩ := hpost
  refine (advance_spec hs).mono ?_
  intro r _ hpost
  rcases hpost with ⟨rfl, ⟨_, rfl⟩ | ⟨hn, rfl⟩⟩
  · exact ⟨_, rfl, d + 1, rfl⟩
  · exact absurd (hp _ (probe_lt hs.pos)) hn

/-- A negative index is outside the arrays. -/
theorem advance_neg {Q : Step (Int × Nat) (Int × Nat) → State → Prop} {p : Int} (hp : p < 0) :
    ¬ Runs (advance H key (p, c)) s Q := by
  rw [advance, occupied]
  simp only [runs_bind, runs_orM, runs_andM]
  exact fun h => h.not_fails (fails_element hp)

/-- The call has a result only for a key with a home, and only if some slot stops the probe. -/
theorem searchHash_stops {Q : Status × Int × Nat → State → Prop} (h : Shaped s.H)
    (hr : Runs (searchHash key) s Q) :
    Hashes key s.H.size ∧ ∃ c, Stops s.H.slot s.H.size (home s.H.size key) key c := by
  have hk : Hashes key s.H.size := by
    rw [searchHash, runs_bind, runs_table, runs_bind, hash] at hr
    split_ifs at hr with hfit
    · refine ⟨hfit, ?_⟩
      by_contra hneg
      obtain ⟨n, hn⟩ : ∃ n, s.H.size = n + 1 := ⟨s.H.size - 1, by have := h.pos; omega⟩
      rw [runs_pure, runs_bind, hn, loop, runs_bind, ← hn] at hr
      exact advance_neg (by omega) hr
    · exact absurd fails_fail hr.not_fails
  refine ⟨hk, ?_⟩
  by_contra hn
  have hp : ∀ i < s.H.size, Passes key (s.H.slot i) := by
    intro i hi
    by_contra hp
    exact hn (exists_stops _ hi hp)
  rw [searchHash, runs_bind, runs_table, runs_bind, runs_hash hk] at hr
  exact hr.not_fails (probe_never_stops h hp (home_lt h.pos) _).bind

end LanguageTest.MyHash
