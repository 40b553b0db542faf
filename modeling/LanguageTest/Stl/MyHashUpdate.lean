import LanguageTest.Stl.MyHashInvariant

namespace LanguageTest.MyHash
open Probing

variable {s : State} {H : HashTable} {key j : Int} {i c depth : Nat}

/-- The probe for the key stops after `c` collisions. -/
structure StopsAt (H : HashTable) (key : Int) (c : Nat) : Prop where
  hashes : Hashes key H.size
  stops : Stops H.slot H.size (home H.size key) key c

theorem stopsAt_of_runs {Q : Status × Int × Nat → State → Prop} (h : Shaped s.H)
    (hr : Runs (searchHash key) s Q) : ∃ c, StopsAt s.H key c := by
  obtain ⟨hk, c, hs⟩ := searchHash_stops h hr
  exact ⟨c, hk, hs⟩

theorem searchHash_eq (h : Valid s.H) (hs : StopsAt s.H key c) :
    ∃ status,
      searchHash key s = .ok ((status, (probe s.H.size (home s.H.size key) c : Nat), c), s) ∧
      (status = .success ↔ s.H.Has key) := by
  obtain ⟨⟨status, p⟩, t, hm, rfl, rfl, hst⟩ := searchHash_spec h.toShaped hs.hashes hs.stops
  exact ⟨status, hm, hst.trans (h.placed.stops_iff hs.stops)⟩

theorem slot_free (h : Valid H) (hs : StopsAt H key c) (hk : ¬ H.Has key) :
    H.slot (probe H.size (home H.size key) c) = .free := by
  rcases not_passes_iff.mp hs.stops.here with hfree | hused
  · exact hfree
  · exact absurd ((h.placed.stops_iff hs.stops).mp hused) hk

theorem table_bind {α : Type} {f : HashTable → Program State α} : (table >>= f) s = f s.H s := rfl

theorem element_bind {α β : Type} {xs : List α} {f : α → Program State β} (h : i < xs.length) :
    (element xs (i : Int) >>= f) s = f xs[i] s :=
  bind_eq (by simp [element, h])

theorem insertWithin_old (h : Valid s.H) (hs : StopsAt s.H key c) (hk : s.H.Has key) :
    insertWithin (depth + 1) key s = .ok (.unsuccess, s) := by
  obtain ⟨status, hm, hst⟩ := searchHash_eq h hs
  obtain rfl := hst.mpr hk
  rw [insertWithin, bind_eq hm]
  rfl

theorem searchHash_new (h : Valid s.H) (hs : StopsAt s.H key c) (hk : ¬ s.H.Has key) :
    searchHash key s =
      .ok ((.unsuccess, (probe s.H.size (home s.H.size key) c : Nat), c), s) := by
  obtain ⟨status, hm, hst⟩ := searchHash_eq h hs
  cases status with
  | success => exact absurd (hst.mp rfl) hk
  | unsuccess => exact hm

/-- With few collisions a new key takes the free slot. -/
theorem insertWithin_new (h : Valid s.H) (hs : StopsAt s.H key c) (hk : ¬ s.H.Has key)
    (hc : 2 * c < s.H.size) :
    insertWithin (depth + 1) key s =
      .ok (.success, { s with H := s.H.store (probe s.H.size (home s.H.size key) c) key }) := by
  have hi : probe s.H.size (home s.H.size key) c < s.H.size := probe_lt h.pos
  rw [insertWithin, bind_eq (searchHash_new h hs hk)]
  simp only [↓reduceIte, table_bind]
  rw [if_pos hc, element_bind (by rw [h.rcd_length]; exact hi),
    element_bind (by rw [h.tag_length]; exact hi)]
  rfl

/-- With many collisions the table is built anew, without the key. -/
theorem insertWithin_rehash (h : Valid s.H) (hs : StopsAt s.H key c) (hk : ¬ s.H.Has key)
    (hc : ¬ 2 * c < s.H.size) :
    insertWithin (depth + 1) key s = (do
      recreateHash (insertWithin depth)
      pure Status.unsuccess) s := by
  rw [insertWithin, bind_eq (searchHash_new h hs hk)]
  simp only [↓reduceIte, table_bind]
  rw [if_neg hc]

/-- What an insertion may do: it keeps the table valid, never takes a size twice and adds no
other key. -/
def Adds (insert : Int → Program State Status) : Prop :=
  ∀ key s, Valid s.H → Ensures (insert key) s fun _ t =>
    Valid t.H ∧ s.index ≤ t.index ∧ ∀ j, t.H.Has j → j = key ∨ s.H.Has j

theorem nextSize_spec : Ensures nextSize s fun size t => 0 < size ∧ t.index = s.index + 1 := by
  intro size t hm
  rw [nextSize] at hm
  split at hm
  · rename_i n hn
    obtain ⟨rfl, rfl⟩ : n = size ∧ _ = t := by simpa using hm
    have hall : ∀ n ∈ hashsize, 0 < n := by decide
    exact ⟨hall _ (List.mem_of_getElem? hn), rfl⟩
  · cases hm

theorem reinsert_used (h : Shaped H) (hi : i < H.size) (hk : H.slot i = .used key)
    (insert : Int → Program State Status) :
    reinsert insert H i s = (insert key >>= fun _ => pure ()) s := by
  have hr := h.reads i hi
  rw [hk] at hr
  obtain ⟨⟩ | ⟨⟩ | ⟨_, tag, rcd⟩ := hr
  rw [reinsert, bind_eq (show element H.tag i s = .ok (1, s) by simp [element, tag])]
  simp only [↓reduceIte]
  rw [bind_eq (show element H.rcd i s = .ok (some key, s) by simp [element, rcd])]
  rfl

/-- A slot without a key is left out of the new table. -/
theorem reinsert_unused (h : Shaped H) (hi : i < H.size) (hk : ∀ key, H.slot i ≠ .used key)
    (insert : Int → Program State Status) : reinsert insert H i s = .ok ((), s) := by
  have hr := h.reads i hi
  generalize H.slot i = sl at hr hk
  cases hr with
  | free tag =>
    rw [reinsert, bind_eq (show element H.tag i s = .ok (0, s) by simp [element, tag])]
    rfl
  | deleted tag =>
    rw [reinsert, bind_eq (show element H.tag i s = .ok (-1, s) by simp [element, tag])]
    rfl
  | used key => exact absurd rfl (hk key)

theorem used_or_unused (H : HashTable) (i : Nat) :
    (∃ key, H.slot i = .used key) ∨ ∀ key, H.slot i ≠ .used key := by
  cases hs : H.slot i with
  | used key => exact .inl ⟨key, rfl⟩
  | _ => exact .inr fun key => by simp

theorem recreateHash_adds {insert : Int → Program State Status} (hi : Adds insert)
    (h : Valid s.H) :
    Ensures (recreateHash insert) s fun _ t =>
      Valid t.H ∧ s.index < t.index ∧ ∀ j, t.H.Has j → s.H.Has j := by
  rw [recreateHash]
  refine Ensures.bind (runs_table.mpr ?_).ensures
  refine Ensures.bind (nextSize_spec.mono fun size u ⟨hsize, hu⟩ => ?_)
  refine Ensures.bind (runs_setTable.mpr ?_).ensures
  refine ensures_forM
    (fun t : State => Valid t.H ∧ s.index < t.index ∧ ∀ j, t.H.Has j → s.H.Has j) _ ?_
    ⟨valid_fresh hsize, by simp [hu], fun j hj => absurd hj not_has_fresh⟩
  intro i hmem t hpost a u hm
  obtain ⟨hv, ht⟩ := hpost
  have hlt : i < s.H.size := List.mem_range.mp hmem
  rcases used_or_unused s.H i with ⟨key, hk⟩ | hk
  · rw [reinsert_used h.toShaped hlt hk] at hm
    obtain ⟨huv, hui, hold⟩ := (hi key t hv).ignore a u hm
    refine ⟨huv, by omega, fun j hj => ?_⟩
    rcases hold j hj with rfl | hj
    · exact ⟨i, hlt, hk⟩
    · exact ht.2 j hj
  · rw [reinsert_unused h.toShaped hlt hk] at hm
    cases hm
    exact ⟨hv, ht⟩

theorem insertWithin_forgets (hi : Adds (insertWithin depth)) (h : Valid s.H)
    (hs : StopsAt s.H key c) (hk : ¬ s.H.Has key) (hc : ¬ 2 * c < s.H.size) :
    Ensures (insertWithin (depth + 1) key) s fun _ t =>
      Valid t.H ∧ s.index < t.index ∧ ∀ j, t.H.Has j → s.H.Has j := by
  intro a t hm
  rw [insertWithin_rehash h hs hk hc] at hm
  exact (recreateHash_adds hi h).ignore a t hm

/-- The induction is on the depth: the tables of a rehash are filled one level below. -/
theorem insertWithin_adds (depth : Nat) : Adds (insertWithin depth) := by
  induction depth with
  | zero => exact fun key s _ => fails_fail.ensures
  | succ depth ih =>
    intro key s h a t hm
    obtain ⟨c, hs⟩ : ∃ c, StopsAt s.H key c := by
      have hr : Runs (insertWithin (depth + 1) key) s fun _ _ => True := ⟨a, t, hm, trivial⟩
      rw [insertWithin, runs_bind] at hr
      exact stopsAt_of_runs h.toShaped hr
    by_cases hk : s.H.Has key
    · cases (insertWithin_old h hs hk).symm.trans hm
      exact ⟨h, le_rfl, fun j hj => .inr hj⟩
    · by_cases hc : 2 * c < s.H.size
      · cases (insertWithin_new h hs hk hc).symm.trans hm
        have hf := slot_free h hs hk
        exact ⟨h.store hs.hashes hs.stops hf, le_rfl,
          fun j hj => (h.has_store (probe_lt h.pos) (by simp [hf])).mp hj⟩
      · obtain ⟨hv, hlt, hold⟩ := insertWithin_forgets ih h hs hk hc a t hm
        exact ⟨hv, le_of_lt hlt, fun j hj => .inr (hold j hj)⟩

/-- Functions that insert alike once another size is taken rebuild the table alike. -/
theorem recreateHash_congr {f g : Int → Program State Status} (hf : Adds f) (h : Valid s.H)
    (hfg : ∀ key t, Valid t.H → s.index < t.index → f key t = g key t) :
    recreateHash f s = recreateHash g s := by
  rw [recreateHash, recreateHash, table_bind, table_bind]
  refine (nextSize_spec.mono fun size u ⟨hsize, hu⟩ => ?_).bind_congr
  refine (Runs.ensures (runs_setTable.mpr ?_)).bind_congr
  refine forM_congr (fun t : State => Valid t.H ∧ s.index < t.index) _ ?_
    ⟨valid_fresh hsize, by simp [hu]⟩
  intro i hmem t hpost
  obtain ⟨hv, ht⟩ := hpost
  have hlt : i < s.H.size := List.mem_range.mp hmem
  rcases used_or_unused s.H i with ⟨key, hk⟩ | hk
  · rw [reinsert_used h.toShaped hlt hk, reinsert_used h.toShaped hlt hk]
    refine ⟨?_, ?_⟩
    · simp only [Bind.bind, StateT.bind, hfg key t hv ht]
    · intro a u hm
      rw [reinsert_used h.toShaped hlt hk] at hm
      obtain ⟨huv, hui, _⟩ := (hf key t hv).ignore a u hm
      exact ⟨huv, by omega⟩
  · rw [reinsert_unused h.toShaped hlt hk, reinsert_unused h.toShaped hlt hk]
    refine ⟨rfl, fun a u hm => ?_⟩
    rw [reinsert_unused h.toShaped hlt hk] at hm
    cases hm
    exact ⟨hv, ht⟩

/-- Without a size left the table cannot be rebuilt. -/
theorem recreateHash_exhausted (insert : Int → Program State Status)
    (hi : hashsize.length ≤ s.index) : Fails (recreateHash insert) s .outOfRange := by
  have hnone : nextSize s = .error .outOfRange := by
    simp [nextSize, List.getElem?_eq_none hi]
  have hsize : Fails nextSize s .outOfRange := hnone
  rw [recreateHash]
  exact (runs_table.mpr hsize.bind).fails

theorem insertWithin_congr {d e : Nat} (h : Valid s.H)
    (he : recreateHash (insertWithin d) s = recreateHash (insertWithin e) s) :
    insertWithin (d + 1) key s = insertWithin (e + 1) key s := by
  by_cases hr : ∃ c, StopsAt s.H key c
  · obtain ⟨c, hs⟩ := hr
    by_cases hk : s.H.Has key
    · rw [insertWithin_old h hs hk, insertWithin_old h hs hk]
    · by_cases hc : 2 * c < s.H.size
      · rw [insertWithin_new h hs hk hc, insertWithin_new h hs hk hc]
      · rw [insertWithin_rehash h hs hk hc, insertWithin_rehash h hs hk hc]
        simp only [Bind.bind, StateT.bind, he]
  · rw [insertWithin, insertWithin]
    refine Ensures.bind_congr fun a t hm => ?_
    have hsearch : Runs (searchHash key) s fun _ _ => True := ⟨a, t, hm, trivial⟩
    exact absurd (stopsAt_of_runs h.toShaped hsearch) hr

/-- A depth that the sizes left cannot exceed is as good as any greater one. -/
theorem insertWithin_succ (h : Valid s.H) (hd : hashsize.length ≤ s.index + depth) :
    insertWithin (depth + 1 + 1) key s = insertWithin (depth + 1) key s := by
  induction depth generalizing s key with
  | zero =>
    refine insertWithin_congr h ?_
    exact (recreateHash_exhausted _ hd).trans (recreateHash_exhausted _ hd).symm
  | succ depth ih =>
    refine insertWithin_congr h (recreateHash_congr (insertWithin_adds _) h fun key t hv hlt => ?_)
    exact ih hv (by omega)

/-- The bound on the depth never ends a call. -/
theorem insertHash_depth (h : Valid s.H) (extra : Nat) :
    insertWithin (hashsize.length + 1 + extra) key s = insertHash key s := by
  induction extra with
  | zero => rfl
  | succ extra ih =>
    rw [← ih, show hashsize.length + 1 + (extra + 1) = hashsize.length + extra + 1 + 1 by omega,
      show hashsize.length + 1 + extra = hashsize.length + extra + 1 by omega]
    exact insertWithin_succ h (by omega)

theorem deleteHash_eq (h : Valid s.H) (hs : StopsAt s.H key c) :
    (s.H.Has key ∧ deleteHash key s = .ok (.success,
      { s with H := s.H.drop (probe s.H.size (home s.H.size key) c) })) ∨
    (¬ s.H.Has key ∧ deleteHash key s = .ok (.unsuccess, s)) := by
  have hi : probe s.H.size (home s.H.size key) c < s.H.size := probe_lt h.pos
  obtain ⟨status, hm, hst⟩ := searchHash_eq h hs
  cases status with
  | success =>
    refine .inl ⟨hst.mp rfl, ?_⟩
    rw [deleteHash, bind_eq hm]
    simp only [↓reduceIte, table_bind]
    rw [element_bind (by rw [h.tag_length]; exact hi)]
    rfl
  | unsuccess =>
    refine .inr ⟨fun hk => absurd (hst.mpr hk) (by simp), ?_⟩
    rw [deleteHash, bind_eq hm]
    rfl

end LanguageTest.MyHash
