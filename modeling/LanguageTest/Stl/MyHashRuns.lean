import Mathlib.Data.Finset.Basic
import LanguageTest.Stl.MyHashUpdate

namespace LanguageTest.MyHash
open Probing

variable {s t : State} {H : HashTable} {op : Op} {key : Int} {S : Finset Int}

theorem stopsAt_has (h : Valid H) (hk : H.Has key) : ∃ c, StopsAt H key c := by
  obtain ⟨i, hi, hu⟩ := id hk
  have hp : ¬ Passes key (H.slot i) := by
    rw [hu]
    exact not_not.mpr rfl
  obtain ⟨c, hs⟩ := exists_stops (home H.size key) hi hp
  exact ⟨c, h.hashes key hk, hs⟩

theorem Shaped.free_iff (h : Shaped H) {i : Nat} (hi : i < H.size) :
    H.slot i = .free ↔ H.tag[i]? = some 0 := by
  have hr := h.reads i hi
  generalize H.slot i = sl at hr ⊢
  cases hr with
  | free tag => simp [tag]
  | deleted tag => simp [tag]
  | used key tag rcd => simp [tag]

theorem Shaped.zero_mem_iff (h : Shaped H) : 0 ∈ H.tag ↔ ∃ i < H.size, H.slot i = .free := by
  rw [List.mem_iff_getElem?]
  constructor
  · intro hcase
    obtain ⟨i, hi⟩ := hcase
    have hlt : i < H.size := by
      rw [← h.tag_length]
      exact (List.getElem?_eq_some_iff.mp hi).1
    exact ⟨i, hlt, (h.free_iff hlt).mpr hi⟩
  · intro hcase
    obtain ⟨i, hlt, hi⟩ := hcase
    exact ⟨i, (h.free_iff hlt).mp hi⟩

theorem stopsAt_zero (h : Shaped H) (hk : Hashes key H.size) (hz : 0 ∈ H.tag) :
    ∃ c, StopsAt H key c := by
  obtain ⟨i, hi, hf⟩ := h.zero_mem_iff.mp hz
  have hp : ¬ Passes key (H.slot i) := by
    rw [hf]
    exact id
  obtain ⟨c, hs⟩ := exists_stops (home H.size key) hi hp
  exact ⟨c, hk, hs⟩

/-- A search that fails has met a slot of tag 0. -/
theorem StopsAt.zero_mem {c : Nat} (hs : StopsAt H key c) (h : Valid H) (hk : ¬ H.Has key) :
    0 ∈ H.tag :=
  h.zero_mem_iff.mpr ⟨_, probe_lt h.pos, slot_free h hs hk⟩

/-- Every call keeps the invariant, whether or not it builds the table anew. -/
theorem step_valid (op : Op) (h : Valid s.H) : Ensures (step op) s fun _ t => Valid t.H := by
  cases op with
  | insertHash key => exact (insertWithin_adds _ key s h).mono fun _ _ hu => hu.1
  | deleteHash key =>
    intro r t hm
    have hr : Runs (deleteHash key) s fun _ _ => True := ⟨r, t, hm, trivial⟩
    rw [deleteHash, runs_bind] at hr
    obtain ⟨c, hs⟩ := stopsAt_of_runs h.toShaped hr
    rcases deleteHash_eq h hs with ⟨hk, he⟩ | ⟨_, he⟩
    · cases he.symm.trans hm
      exact h.drop (probe_lt h.pos) ((h.placed.stops_iff hs.stops).mpr hk)
    · cases he.symm.trans hm
      exact h
  | searchHash key =>
    intro r t hm
    have hr : Runs (step (.searchHash key)) s fun _ _ => True := ⟨r, t, hm, trivial⟩
    rw [step, runs_bind] at hr
    obtain ⟨c, hs⟩ := stopsAt_of_runs h.toShaped hr
    obtain ⟨status, he, _⟩ := searchHash_eq h hs
    rw [step, bind_eq he] at hm
    cases hm
    exact h

/-- The slot is live and holds the key. -/
def Holds (H : HashTable) (i : Nat) (key : Int) : Prop :=
  H.tag[i]? = some 1 ∧ H.rcd[i]? = some (some key)

/-- What makes lookups right: a live slot has a key of its own, `count` is the number of live
slots, and no slot of tag 0 lies on the probe path from the home of a key to its slot. -/
structure Sound (H : HashTable) : Prop where
  filled : ∀ i : Nat, H.tag[i]? = some 1 → ∃ key, H.rcd[i]? = some (some key)
  unique : ∀ i j key, Holds H i key → Holds H j key → i = j
  count : H.count = H.tag.count 1
  path : ∀ i key, Holds H i key → ∃ h c : Nat, (3 * key).tmod H.size = h ∧ c < H.size ∧
    (h + c) % H.size = i ∧ ∀ d < c, H.tag[(h + d) % H.size]? ≠ some 0

theorem Holds.slot {i : Nat} (hi : Holds H i key) : H.slot i = .used key :=
  slot_of_reads (.used key hi.1 hi.2)

theorem Shaped.lt_of_tag (h : Shaped H) {i : Nat} {x : Int} (hi : H.tag[i]? = some x) :
    i < H.size := by
  rw [← h.tag_length]
  exact (List.getElem?_eq_some_iff.mp hi).1

theorem Valid.sound (h : Valid H) : Sound H where
  filled i hi := by
    have hlt := h.lt_of_tag hi
    have hr := h.reads i hlt
    generalize H.slot i = sl at hr
    cases hr with
    | free tag => simp [hi] at tag
    | deleted tag => simp [hi] at tag
    | used key tag rcd => exact ⟨key, rcd⟩
  unique i j key hi hj :=
    h.placed.unique i (h.lt_of_tag hi.1) j (h.lt_of_tag hj.1) key hi.slot hj.slot
  count := h.count
  path i key hi := by
    have hlt := h.lt_of_tag hi.1
    obtain ⟨c, hc, hp, hpath⟩ := h.placed.path i hlt key hi.slot
    refine ⟨home H.size key, c, ?_, hc, hp, fun d hd hz => hpath d hd ?_⟩
    · exact (Int.toNat_of_nonneg (h.hashes key ⟨i, hlt, hi.slot⟩).2).symm
    · exact (h.free_iff (probe_lt h.pos)).mpr hz

theorem valid_initial : Valid initial.H := valid_fresh (by decide)

example (H : HashTable) : (do initHashTable (← nextSize)) ⟨H, 0⟩ = .ok ((), initial) := rfl

/-- In every run that ends, the table is sound. -/
theorem run_sound {ops : List Op} {rs : List Status} (h : run ops initial = .ok (rs, s)) :
    Sound s.H :=
  (ensures_all (fun s => Valid s.H) (fun op _ hs => step_valid op hs) ops valid_initial
    rs s h).sound

theorem run_sound_rehash :
    ∃ rs s, run [.insertHash 0, .insertHash 11, .insertHash 22, .insertHash 33, .insertHash 44,
      .insertHash 55, .insertHash 66, .deleteHash 11, .insertHash 5] initial = .ok (rs, s) ∧
      s.H.size = 31 ∧ Sound s.H := by
  have hok : ((run [.insertHash 0, .insertHash 11, .insertHash 22, .insertHash 33,
      .insertHash 44, .insertHash 55, .insertHash 66, .deleteHash 11, .insertHash 5]
      initial).toOption.map fun p => p.2.H.size) = some 31 := by decide +kernel
  cases h : run [.insertHash 0, .insertHash 11, .insertHash 22, .insertHash 33, .insertHash 44,
      .insertHash 55, .insertHash 66, .deleteHash 11, .insertHash 5] initial with
  | error f => simp [h, Except.toOption] at hok
  | ok p =>
    rw [h] at hok
    exact ⟨p.1, p.2, rfl, by simpa [Except.toOption] using hok, run_sound h⟩

end LanguageTest.MyHash
