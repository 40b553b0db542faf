import Mathlib.Data.Finset.Basic
import LanguageTest.Stl.MyHashRuns

namespace LanguageTest.MyHash
open Probing

/-- The same operation on a mathematical set, with the status that it is to give. -/
def Op.onSet : Op → Finset Int → Status × Finset Int
  | .insertHash key, S => (if key ∈ S then .unsuccess else .success, insert key S)
  | .deleteHash key, S => (if key ∈ S then .success else .unsuccess, S.erase key)
  | .searchHash key, S => (if key ∈ S then .success else .unsuccess, S)

def setAfter (ops : List Op) : Finset Int := (traceAll Op.onSet ops ∅).2

/-- A search for the key ends with this status. -/
def Finds (s : State) (key : Int) (status : Status) : Prop :=
  Runs (searchHash key) s fun r _ => r.1 = status

/-- After these calls every key of the set is found, the key of the last call is not found unless
it is in the set, and every call gave the status that the set says. -/
structure ActsAsSet (ops : List Op) (rs : List Status) (s : State) : Prop where
  results : rs = (traceAll Op.onSet ops ∅).1
  stored : ∀ key ∈ setAfter ops, Finds s key .success
  last : ∀ op, ops.getLast? = some op → op.key ∉ setAfter ops → Finds s op.key .unsuccess

/-- The condition under which a call does its work. The key has a home. A search needs a slot of
tag 0 to miss a key, and a deletion needs one so that the key is missed afterwards. An insertion of
a new key needs one before half the table is probed. -/
def Safe : Op → State → Prop
  | .insertHash key, s => Hashes key s.H.size ∧ (s.H.Has key ∨
      ∃ c, 2 * c < s.H.size ∧ s.H.tag[(home s.H.size key + c) % s.H.size]? = some 0)
  | .deleteHash key, s => Hashes key s.H.size ∧ 0 ∈ s.H.tag
  | .searchHash key, s => Hashes key s.H.size ∧ (s.H.Has key ∨ 0 ∈ s.H.tag)

/-- The table is valid and its keys are those of the set. -/
structure Models (s : State) (S : Finset Int) : Prop where
  valid : Valid s.H
  keys : ∀ key, s.H.Has key ↔ key ∈ S

variable {s : State} {op : Op} {key : Int} {S : Finset Int} {c : Nat}

theorem finds_iff (h : Valid s.H) (hs : StopsAt s.H key c) {status : Status} :
    Finds s key status ↔ (status = .success ↔ s.H.Has key) := by
  obtain ⟨r, he, hr⟩ := searchHash_eq h hs
  rw [Finds, runs_of_ok he]
  cases r <;> cases status <;> simp_all

theorem insert_models (h : Models s S) (hsafe : Safe (.insertHash key) s) :
    Runs (insertHash key) s fun r t => r = ((Op.insertHash key).onSet S).1 ∧
      Models t (insert key S) ∧ ∃ c, StopsAt t.H key c := by
  by_cases hk : s.H.Has key
  · obtain ⟨c, hs⟩ := stopsAt_has h.valid hk
    have hmem := (h.keys key).mp hk
    rw [insertHash, runs_of_ok (insertWithin_old h.valid hs hk), Finset.insert_eq_of_mem hmem]
    exact ⟨(if_pos hmem).symm, h, c, hs⟩
  · obtain ⟨hhash, hor⟩ := hsafe
    obtain ⟨d, hd, hz⟩ := hor.resolve_left hk
    obtain ⟨c, hs⟩ := stopsAt_zero h.valid.toShaped hhash (List.mem_of_getElem? hz)
    have hi : probe s.H.size (home s.H.size key) c < s.H.size := probe_lt h.valid.pos
    have hf := slot_free h.valid hs hk
    have hzero : s.H.slot (probe s.H.size (home s.H.size key) d) = .free :=
      (h.valid.free_iff (probe_lt h.valid.pos)).mpr hz
    -- The free slot of the condition is no earlier than the one where the probe stops.
    have hle : c ≤ d := hs.stops.le (by rw [hzero]; exact id)
    rw [insertHash, runs_of_ok (insertWithin_new h.valid hs hk (by omega))]
    have hv := h.valid.store hhash hs.stops hf
    have hhas : ∀ j, (s.H.store (probe s.H.size (home s.H.size key) c) key).Has j ↔
        j = key ∨ s.H.Has j := fun j => h.valid.has_store hi (by simp [hf])
    refine ⟨(if_neg fun hm => hk ((h.keys key).mpr hm)).symm, ⟨hv, fun j => ?_⟩,
      stopsAt_has hv ((hhas key).mpr (.inl rfl))⟩
    rw [hhas, h.keys, Finset.mem_insert]

theorem mem_drop {i : Nat} {H : HashTable} (h : (0 : Int) ∈ (H.drop i).tag) : 0 ∈ H.tag := by
  rcases List.mem_or_eq_of_mem_set h with h | h
  · exact h
  · cases h

/-- The deleted key held a slot of tag 1: those of tag 0 stay. -/
theorem Valid.zero_mem_drop {i : Nat} {H : HashTable} (h : Valid H) (hi : i < H.size)
    (hk : H.slot i = .used key) (hz : 0 ∈ H.tag) : 0 ∈ (H.drop i).tag := by
  rw [h.zero_mem_iff] at hz
  obtain ⟨e, he, hf⟩ := hz
  refine (h.toShaped.drop hi).zero_mem_iff.mpr ⟨e, he, ?_⟩
  rw [h.slot_drop hi, Function.update_of_ne _, hf]
  intro heq
  subst heq
  rw [hk] at hf
  cases hf

theorem delete_models (h : Models s S) (hsafe : Safe (.deleteHash key) s) :
    Runs (deleteHash key) s fun r t => r = ((Op.deleteHash key).onSet S).1 ∧
      Models t (S.erase key) ∧ ∃ c, StopsAt t.H key c := by
  obtain ⟨hhash, hz⟩ := hsafe
  obtain ⟨c, hs⟩ := stopsAt_zero h.valid.toShaped hhash hz
  rcases deleteHash_eq h.valid hs with ⟨hk, he⟩ | ⟨hk, he⟩
  · have hi : probe s.H.size (home s.H.size key) c < s.H.size := probe_lt h.valid.pos
    have hu := (h.valid.placed.stops_iff hs.stops).mpr hk
    have hv := h.valid.drop hi hu
    rw [runs_of_ok he]
    refine ⟨(if_pos ((h.keys key).mp hk)).symm, ⟨hv, fun j => ?_⟩,
      stopsAt_zero hv.toShaped hhash (h.valid.zero_mem_drop hi hu hz)⟩
    rw [h.valid.has_drop hi hu, h.keys, Finset.mem_erase]
  · have hmem : key ∉ S := fun hm => hk ((h.keys key).mpr hm)
    rw [runs_of_ok he, Finset.erase_eq_of_notMem hmem]
    exact ⟨(if_neg hmem).symm, h, c, hs⟩

theorem search_models (h : Models s S) (hsafe : Safe (.searchHash key) s) :
    Runs (step (.searchHash key)) s fun r t => r = ((Op.searchHash key).onSet S).1 ∧
      Models t S ∧ ∃ c, StopsAt t.H key c := by
  obtain ⟨c, hs⟩ : ∃ c, StopsAt s.H key c := by
    rcases hsafe.2 with hk | hz
    · exact stopsAt_has h.valid hk
    · exact stopsAt_zero h.valid.toShaped hsafe.1 hz
  obtain ⟨status, he, hst⟩ := searchHash_eq h.valid hs
  rw [step, runs_bind, runs_of_ok he]
  refine runs_pure.mpr ⟨?_, h, c, hs⟩
  rw [h.keys] at hst
  cases status <;> simp_all [Op.onSet]

theorem step_models (h : Models s S) (hsafe : Safe op s) :
    Runs (step op) s fun r t => r = (op.onSet S).1 ∧ Models t (op.onSet S).2 ∧
      ∃ c, StopsAt t.H op.key c := by
  cases op with
  | insertHash key => exact insert_models h hsafe
  | deleteHash key => exact delete_models h hsafe
  | searchHash key => exact search_models h hsafe

/-- A call after which the set is found as it should be has met the condition. -/
theorem safe_of_finds (h : Models s S)
    (hr : Runs (step op) s fun _ t => (∀ key ∈ (op.onSet S).2, Finds t key .success) ∧
      (op.key ∉ (op.onSet S).2 → Finds t op.key .unsuccess)) : Safe op s := by
  cases op with
  | insertHash key =>
    have hsearch := hr
    rw [step, insertHash, insertWithin, runs_bind] at hsearch
    obtain ⟨c, hs⟩ := stopsAt_of_runs h.valid.toShaped hsearch
    refine ⟨hs.hashes, or_iff_not_imp_left.mpr fun hk => ?_⟩
    by_cases hc : 2 * c < s.H.size
    · exact ⟨c, hc, (h.valid.free_iff (probe_lt h.valid.pos)).mp (slot_free h.valid hs hk)⟩
    · -- The new table has keys of the old one only.
      have hlost := insertWithin_forgets (insertWithin_adds hashsize.length) h.valid hs hk hc
      obtain ⟨r, t, _, ⟨hf, _⟩, hv, _, hold⟩ := hlost.runs hr
      have hkey := hf key (Finset.mem_insert_self key S)
      obtain ⟨d, hd⟩ := stopsAt_of_runs hv.toShaped hkey
      exact absurd (hold key (((finds_iff hv hd).mp hkey).mp rfl)) hk
  | deleteHash key =>
    have hsearch := hr
    rw [step, deleteHash, runs_bind] at hsearch
    obtain ⟨c, hs⟩ := stopsAt_of_runs h.valid.toShaped hsearch
    refine ⟨hs.hashes, ?_⟩
    rcases deleteHash_eq h.valid hs with ⟨hk, he⟩ | ⟨hk, _⟩
    · have hi : probe s.H.size (home s.H.size key) c < s.H.size := probe_lt h.valid.pos
      have hu := (h.valid.placed.stops_iff hs.stops).mpr hk
      have hv := h.valid.drop hi hu
      have hf := ((runs_of_ok he).mp hr).2 (Finset.notMem_erase key S)
      obtain ⟨d, hd⟩ := stopsAt_of_runs hv.toShaped hf
      refine mem_drop (hd.zero_mem hv fun hm => ?_)
      exact ((h.valid.has_drop hi hu).mp hm).1 rfl
    · exact hs.zero_mem h.valid hk
  | searchHash key =>
    rw [step, runs_bind] at hr
    obtain ⟨c, hs⟩ := stopsAt_of_runs h.valid.toShaped hr
    exact ⟨hs.hashes, or_iff_not_imp_left.mpr fun hk => hs.zero_mem h.valid hk⟩

/-- The table acts as a set throughout a run exactly when every call meets the condition. -/
theorem run_set_iff_safe (ops : List Op) :
    (∀ pre, pre <+: ops → Runs (run pre) initial (ActsAsSet pre)) ↔
      StepsMeet step Safe ops initial := by
  symm
  refine StepsMeet.iff_prefixes (fun ops rs s => Follows Op.onSet Models ∅ ops rs s ∧
      ∀ op, ops.getLast? = some op → ∃ c, StopsAt s.H op.key c) ops ?_ ?_ ?_ ?_
  · intro pre op post rs s _ ⟨hi, _⟩ hsafe
    refine (step_models hi.2 hsafe).mono fun r t ⟨hr, ht, hs⟩ => ⟨hi.next hr ht, fun op' ho => ?_⟩
    obtain rfl : op = op' := by simpa using ho
    exact hs
  · intro pre op post rs s _ ⟨hi, _⟩ hr
    refine safe_of_finds hi.2 (hr.mono fun r t ht => ?_)
    have hstored := ht.stored
    have hlast := ht.last op (by simp)
    rw [setAfter, traceAll_append] at hstored hlast
    exact ⟨hstored, hlast⟩
  · intro pre rs s hpost
    obtain ⟨⟨hr, hm⟩, hl⟩ := hpost
    refine ⟨hr, fun key hkey => ?_, fun op ho hkey => ?_⟩
    · have hk := (hm.keys key).mpr hkey
      obtain ⟨c, hs⟩ := stopsAt_has hm.valid hk
      exact (finds_iff hm.valid hs).mpr (iff_of_true rfl hk)
    · obtain ⟨c, hs⟩ := hl op ho
      exact (finds_iff hm.valid hs).mpr (iff_of_false (by simp) fun hk => hkey ((hm.keys _).mp hk))
  · refine ⟨⟨rfl, valid_initial, fun key => ?_⟩, by simp⟩
    exact iff_of_false not_has_fresh (Finset.notMem_empty key)

/-- Seven keys with one home: the last one is lost when the table is built anew. -/
theorem run_set_lost :
    ¬ ∀ pre, pre <+: [.insertHash 0, .insertHash 11, .insertHash 22, .insertHash 33,
        .insertHash 44, .insertHash 55, .insertHash 66, .searchHash 66] →
      Runs (run pre) initial (ActsAsSet pre) := by
  intro h
  obtain ⟨rs, s, hr, hs⟩ := h _ List.prefix_rfl
  have hlast : ((run [.insertHash 0, .insertHash 11, .insertHash 22, .insertHash 33,
      .insertHash 44, .insertHash 55, .insertHash 66, .searchHash 66] initial).toOption.map
      fun p => p.1.getLast?) = some (some .unsuccess) := by decide +kernel
  rw [hr] at hlast
  have hres := hs.results
  have hrs : rs.getLast? = some .unsuccess := by simpa [Except.toOption] using hlast
  rw [hres] at hrs
  exact absurd hrs (by decide +kernel)

example : ((run [.insertHash 0, .insertHash 11, .deleteHash 0, .searchHash 11] initial).map
    Prod.fst).toOption = some [.success, .success, .success, .success] := by
  decide +kernel

end LanguageTest.MyHash
