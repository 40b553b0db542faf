import LanguageTest.Stl.MyHashSearch

namespace LanguageTest.MyHash
open Probing

def HashTable.Has (H : HashTable) (key : Int) : Prop := Stored H.slot H.size key

/-- What every call keeps: stored keys are where their probes find them, and are counted. -/
structure Valid (H : HashTable) : Prop extends Shaped H where
  placed : WellPlaced H.slot H.size (home H.size)
  hashes : ∀ key, H.Has key → Hashes key H.size
  count : H.count = H.tag.count 1

variable {s : State} {H : HashTable} {key j : Int} {i c m : Nat}

theorem slot_of_reads {sl : Slot Int} (h : Reads H i sl) : H.slot i = sl := by
  cases h with
  | free tag => simp [HashTable.slot, tag]
  | deleted tag => simp [HashTable.slot, tag]
  | used key tag rcd => simp [HashTable.slot, tag, rcd]

/-- A slot that neither array changes is read as before. -/
theorem Reads.congr {G : HashTable} {sl : Slot Int} (h : Reads H i sl)
    (ht : G.tag[i]? = H.tag[i]?) (hr : G.rcd[i]? = H.rcd[i]?) : Reads G i sl := by
  cases h with
  | free tag => exact .free (ht.trans tag)
  | deleted tag => exact .deleted (ht.trans tag)
  | used key tag rcd => exact .used key (ht.trans tag) (hr.trans rcd)

theorem slot_congr {G : HashTable} (ht : G.tag[i]? = H.tag[i]?) (hr : G.rcd[i]? = H.rcd[i]?) :
    G.slot i = H.slot i := by
  rw [HashTable.slot, HashTable.slot, ht, hr]

theorem Shaped.reads_store (h : Shaped H) (hi : i < H.size) :
    Reads (H.store i key) i (.used key) :=
  .used key (List.getElem?_set_self (by rw [h.tag_length]; exact hi))
    (List.getElem?_set_self (by rw [h.rcd_length]; exact hi))

theorem Shaped.reads_drop (h : Shaped H) (hi : i < H.size) : Reads (H.drop i) i .deleted :=
  .deleted (List.getElem?_set_self (by rw [h.tag_length]; exact hi))

theorem Shaped.slot_store (h : Shaped H) (hi : i < H.size) :
    (H.store i key).slot = Function.update H.slot i (.used key) := by
  funext e
  by_cases he : e = i
  · subst he
    rw [Function.update_self, slot_of_reads (h.reads_store hi)]
  · rw [Function.update_of_ne he]
    exact slot_congr (List.getElem?_set_ne (Ne.symm he)) (List.getElem?_set_ne (Ne.symm he))

theorem Shaped.slot_drop (h : Shaped H) (hi : i < H.size) :
    (H.drop i).slot = Function.update H.slot i .deleted := by
  funext e
  by_cases he : e = i
  · subst he
    rw [Function.update_self, slot_of_reads (h.reads_drop hi)]
  · rw [Function.update_of_ne he]
    exact slot_congr (List.getElem?_set_ne (Ne.symm he)) rfl

theorem Shaped.store (h : Shaped H) (hi : i < H.size) : Shaped (H.store i key) where
  pos := h.pos
  rcd_length := by rw [HashTable.store, List.length_set, h.rcd_length]
  tag_length := by rw [HashTable.store, List.length_set, h.tag_length]
  reads e he := by
    by_cases hei : e = i
    · subst hei
      rw [slot_of_reads (h.reads_store hi)]
      exact h.reads_store hi
    · rw [h.slot_store hi, Function.update_of_ne hei]
      exact (h.reads e he).congr (List.getElem?_set_ne (Ne.symm hei))
        (List.getElem?_set_ne (Ne.symm hei))

theorem Shaped.drop (h : Shaped H) (hi : i < H.size) : Shaped (H.drop i) where
  pos := h.pos
  rcd_length := h.rcd_length
  tag_length := by rw [HashTable.drop, List.length_set, h.tag_length]
  reads e he := by
    by_cases hei : e = i
    · subst hei
      rw [slot_of_reads (h.reads_drop hi)]
      exact h.reads_drop hi
    · rw [h.slot_drop hi, Function.update_of_ne hei]
      exact (h.reads e he).congr (List.getElem?_set_ne (Ne.symm hei)) rfl

/-- A free or deleted slot takes the key. -/
theorem Valid.has_store (h : Valid H) (hi : i < H.size) (hf : ∀ j, H.slot i ≠ .used j) :
    (H.store i key).Has j ↔ j = key ∨ H.Has j := by
  rw [HashTable.Has, h.slot_store hi]
  exact stored_insert hi hf

theorem Valid.has_drop (h : Valid H) (hi : i < H.size) (hk : H.slot i = .used key) :
    (H.drop i).Has j ↔ j ≠ key ∧ H.Has j := by
  rw [HashTable.Has, h.slot_drop hi]
  exact h.placed.stored_delete hi hk

theorem Shaped.tag_ne_one (h : Shaped H) (hi : i < H.size) (hf : ∀ j, H.slot i ≠ .used j) :
    H.tag[i]? ≠ some 1 := by
  intro ht
  have hr := h.reads i hi
  generalize H.slot i = sl at hr hf
  cases hr with
  | free tag => simp [ht] at tag
  | deleted tag => simp [ht] at tag
  | used key tag rcd => exact hf key rfl

theorem Valid.store (h : Valid H) (hk : Hashes key H.size)
    (hs : Stops H.slot H.size (home H.size key) key c)
    (hf : H.slot (probe H.size (home H.size key) c) = .free) :
    Valid (H.store (probe H.size (home H.size key) c) key) := by
  have hi : probe H.size (home H.size key) c < H.size := probe_lt h.pos
  have hfree : ∀ j, H.slot (probe H.size (home H.size key) c) ≠ .used j := by simp [hf]
  have hnew : ¬ H.Has key := by
    rw [HashTable.Has, ← h.placed.stops_iff hs, hf]
    simp
  refine { h.toShaped.store hi with placed := ?_, hashes := ?_, count := ?_ }
  · rw [h.slot_store hi]
    exact h.placed.insert hs hnew
  · intro j hj
    rcases (h.has_store hi hfree).mp hj with rfl | hj
    · exact hk
    · exact h.hashes j hj
  · have ht := h.tag_ne_one hi hfree
    have hlen : _ < H.tag.length := lt_of_lt_of_eq hi h.tag_length.symm
    simp only [HashTable.store]
    rw [h.count, List.count_set hlen]
    rw [List.getElem?_eq_getElem hlen, ne_eq, Option.some.injEq] at ht
    simp [ht]

theorem Valid.drop (h : Valid H) (hi : i < H.size) (hk : H.slot i = .used key) :
    Valid (H.drop i) := by
  refine { h.toShaped.drop hi with placed := ?_, hashes := ?_, count := ?_ }
  · rw [h.slot_drop hi]
    exact h.placed.delete i
  · exact fun j hj => h.hashes j ((h.has_drop hi hk).mp hj).2
  · have hr := h.reads i hi
    rw [hk] at hr
    obtain ⟨⟩ | ⟨⟩ | ⟨_, tag, -⟩ := hr
    rw [← h.tag_length] at hi
    have hpos : 0 < H.tag.count 1 := List.count_pos_iff.mpr (List.mem_of_getElem? tag)
    rw [List.getElem?_eq_getElem hi, Option.some.injEq] at tag
    simp only [HashTable.drop]
    rw [h.count, List.count_set hi, tag]
    simp
    omega

theorem slot_fresh (hi : i < m) : (fresh m).slot i = .free :=
  slot_of_reads (.free (by simp [fresh, hi]))

theorem not_has_fresh : ¬ (fresh m).Has key := by
  intro hcase
  obtain ⟨i, hi, hk⟩ := hcase
  rw [slot_fresh (m := m) hi] at hk
  cases hk

theorem valid_fresh (hm : 0 < m) : Valid (fresh m) where
  pos := hm
  rcd_length := List.length_replicate
  tag_length := List.length_replicate
  reads i hi := by
    rw [slot_fresh (m := m) hi]
    exact .free (by simp [fresh, show i < m from hi])
  placed := wellPlaced_free fun _ hi => slot_fresh hi
  hashes _ hk := absurd hk not_has_fresh
  count := by simp [fresh, List.count_replicate]

end LanguageTest.MyHash
