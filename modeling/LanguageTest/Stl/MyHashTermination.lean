import LanguageTest.Stl.MyHashRuns
import Mathlib.Data.Fintype.Card
import Mathlib.Data.Fintype.Pigeonhole

namespace LanguageTest.MyHash
open Probing

/-- The condition under which a call leaves a slot of tag 0, if there was one. An insertion finds
its key, or has another such slot left, or it meets none before half the table is probed, so that
the table is built anew. -/
def Spares : Op → State → Prop
  | .insertHash key, s => s.H.Has key ∨ 2 ≤ s.H.tag.count 0 ∨
      ∀ c, 2 * c < s.H.size → s.H.tag[(home s.H.size key + c) % s.H.size]? ≠ some 0
  | .deleteHash _, _ | .searchHash _, _ => True

/-- A key for which the product does not overflow. -/
def Ordinary (key : Int) : Prop := 0 ≤ key ∧ FitsInt (3 * key)

instance (key : Int) : Decidable (Ordinary key) := inferInstanceAs (Decidable (_ ∧ _))

/-- The size was taken from the list, and `index` is the next place. -/
def Sized (s : State) : Prop := ∃ i, s.index = i + 1 ∧ hashsize[i]? = some s.H.size

/-- An insertion takes sizes from the list, and deletes no key. -/
def Grows (insert : Int → Program State Status) : Prop :=
  ∀ key s, Valid s.H → Sized s → Ensures (insert key) s fun _ t =>
    Sized t ∧ (-1 ∉ s.H.tag → -1 ∉ t.H.tag)

section
variable {s t : State} {H G : HashTable} {op : Op} {key : Int} {c depth i : Nat}

theorem Ordinary.hashes (hk : Ordinary key) (m : Nat) : Hashes key m := by
  have hnonneg : 0 ≤ 3 * key := by
    have hkey := hk.1
    omega
  exact ⟨hk.2, Int.tmod_nonneg _ hnonneg⟩

theorem Sized.size_lt (hs : Sized s) (ht : Sized t) (hlt : s.index < t.index) :
    s.H.size < t.H.size := by
  obtain ⟨i, hi, hsi⟩ := hs
  obtain ⟨j, hj, htj⟩ := ht
  obtain ⟨hil, hsi⟩ := List.getElem?_eq_some_iff.mp hsi
  obtain ⟨hjl, htj⟩ := List.getElem?_eq_some_iff.mp htj
  have hsorted : hashsize.Pairwise (· < ·) := by decide
  rw [← hsi, ← htj]
  exact List.pairwise_iff_getElem.mp hsorted i j hil hjl (by omega)

theorem Sized.size_le (hs : Sized s) : s.H.size ≤ 503 := by
  obtain ⟨i, -, hi⟩ := hs
  have hall : ∀ n ∈ hashsize, n ≤ 503 := by decide
  exact hall _ (List.mem_of_getElem? hi)

theorem sized_initial : Sized initial := ⟨0, rfl, rfl⟩

theorem nextSize_sized : Ensures nextSize s fun size t =>
    0 < size ∧ Sized { t with H := fresh size } := by
  intro size t hm
  have hpos := (nextSize_spec size t hm).1
  rw [nextSize] at hm
  split at hm
  · rename_i n hn
    obtain ⟨rfl, rfl⟩ : n = size ∧ _ = t := by simpa using hm
    exact ⟨hpos, s.index, rfl, hn⟩
  · cases hm

theorem not_mem_set {l : List Int} {x y : Int} (hl : x ∉ l) (hy : x ≠ y) : x ∉ l.set i y :=
  fun hmem => (List.mem_or_eq_of_mem_set hmem).elim hl hy

/-- A table that was built anew has no deleted slot. -/
theorem recreateHash_grows {insert : Int → Program State Status} (ha : Adds insert)
    (hg : Grows insert) (h : Valid s.H) :
    Ensures (recreateHash insert) s fun _ t => Valid t.H ∧ Sized t ∧ -1 ∉ t.H.tag := by
  rw [recreateHash]
  refine Ensures.bind (runs_table.mpr ?_).ensures
  refine Ensures.bind (nextSize_sized.mono ?_)
  rintro size u ⟨hsize, hu⟩
  refine Ensures.bind (runs_setTable.mpr ?_).ensures
  refine ensures_forM (fun t : State => Valid t.H ∧ Sized t ∧ -1 ∉ t.H.tag) _ ?_
    ⟨valid_fresh hsize, hu, fun hmem => absurd (List.eq_of_mem_replicate hmem) (by decide)⟩
  rintro i hmem t ⟨hv, ht, hdel⟩ a u hm
  have hlt : i < s.H.size := List.mem_range.mp hmem
  rcases used_or_unused s.H i with ⟨key, hk⟩ | hk
  · rw [reinsert_used h.toShaped hlt hk] at hm
    obtain ⟨huv, -, -⟩ := (ha key t hv).ignore a u hm
    obtain ⟨hus, hud⟩ := (hg key t hv ht).ignore a u hm
    exact ⟨huv, hus, hud hdel⟩
  · rw [reinsert_unused h.toShaped hlt hk] at hm
    cases hm
    exact ⟨hv, ht, hdel⟩

theorem insertWithin_grows (depth : Nat) : Grows (insertWithin depth) := by
  induction depth with
  | zero => exact fun key s _ _ => fails_fail.ensures
  | succ depth ih =>
    intro key s h hs a t hm
    obtain ⟨c, hc⟩ : ∃ c, StopsAt s.H key c := by
      have hr : Runs (insertWithin (depth + 1) key) s fun _ _ => True := ⟨a, t, hm, trivial⟩
      rw [insertWithin, runs_bind] at hr
      exact stopsAt_of_runs h.toShaped hr
    by_cases hk : s.H.Has key
    · cases (insertWithin_old h hc hk).symm.trans hm
      exact ⟨hs, id⟩
    · by_cases hlt : 2 * c < s.H.size
      · cases (insertWithin_new h hc hk hlt).symm.trans hm
        exact ⟨hs, fun hdel => not_mem_set hdel (by decide)⟩
      · rw [insertWithin_rehash h hc hk hlt] at hm
        obtain ⟨-, ht, hdel⟩ :=
          (recreateHash_grows (insertWithin_adds depth) ih h).ignore a t hm
        exact ⟨ht, fun _ => hdel⟩

/-- Different keys are in different slots. -/
theorem card_le_size {n : Nat} {f : Fin n → Int} (hf : Function.Injective f)
    (hk : ∀ i, H.Has (f i)) : n ≤ H.size := by
  choose g hg hslot using hk
  have hinj : Function.Injective fun i => (⟨g i, hg i⟩ : Fin H.size) := by
    intro i j hij
    have hsame : g i = g j := congrArg Fin.val hij
    have hused : Slot.used (f i) = Slot.used (f j) := by rw [← hslot i, ← hslot j, hsame]
    exact hf (Slot.used.inj hused)
  simpa using Fintype.card_le_of_injective _ hinj

/-- A larger table without other keys and deleted slots has a slot that was never used. -/
theorem Valid.zero_mem_of_size_lt (h : Valid G) (hdel : -1 ∉ G.tag)
    (hold : ∀ key, G.Has key → H.Has key) (hlt : H.size < G.size) : 0 ∈ G.tag := by
  by_contra hzero
  have hused : ∀ i : Fin G.size, ∃ key, G.slot i = .used key := by
    intro i
    have hr := h.reads i i.isLt
    generalize G.slot i = sl at hr ⊢
    cases hr with
    | free tag => exact absurd (List.mem_of_getElem? tag) hzero
    | deleted tag => exact absurd (List.mem_of_getElem? tag) hdel
    | used key => exact ⟨key, rfl⟩
  choose f hf using hused
  have hinj : Function.Injective f := by
    intro i j hij
    have hj := hf j
    rw [← hij] at hj
    exact Fin.ext (h.placed.unique i i.isLt j j.isLt (f i) (hf i) hj)
  have hle := card_le_size hinj fun i => hold (f i) ⟨i, i.isLt, hf i⟩
  omega

theorem exists_not_has (hs : Sized s) : ∃ key, Ordinary key ∧ ¬ s.H.Has key := by
  by_contra hall
  have hhas : ∀ i : Fin (s.H.size + 1), s.H.Has (i : Nat) := by
    intro i
    by_contra hno
    have hle := hs.size_le
    refine hall ⟨(i : Nat), ⟨by omega, ?_, ?_⟩, hno⟩ <;> omega
  have hinj : Function.Injective fun i : Fin (s.H.size + 1) => ((i : Nat) : Int) :=
    fun i j hij => Fin.ext (Int.ofNat_inj.mp hij)
  have hle := card_le_size hinj hhas
  omega

/-- All searches end exactly as long as there is a slot that was never used. -/
theorem searches_end_iff (h : Valid s.H) (hs : Sized s) :
    (∀ key, Ordinary key → Runs (searchHash key) s fun _ _ => True) ↔ 0 ∈ s.H.tag := by
  constructor
  · intro hall
    obtain ⟨key, hkey, hno⟩ := exists_not_has hs
    obtain ⟨c, hc⟩ := stopsAt_of_runs h.toShaped (hall key hkey)
    exact hc.zero_mem h hno
  · intro hzero key hkey
    obtain ⟨c, hc⟩ := stopsAt_zero h.toShaped (hkey.hashes _) hzero
    exact (searchHash_spec h.toShaped hc.hashes hc.stops).mono fun _ _ _ => trivial

theorem zero_mem_set_iff {l : List Int} (hi : l[i]? = some 0) :
    0 ∈ l.set i 1 ↔ 2 ≤ l.count 0 := by
  obtain ⟨hlt, hget⟩ := List.getElem?_eq_some_iff.mp hi
  have hpos : 0 < l.count 0 := List.count_pos_iff.mpr (List.mem_of_getElem? hi)
  rw [← List.count_pos_iff, List.count_set hlt, hget]
  simp
  omega

theorem zero_mem_drop_iff {l : List Int} (hi : l[i]? = some 1) : 0 ∈ l.set i (-1) ↔ 0 ∈ l := by
  obtain ⟨hlt, hget⟩ := List.getElem?_eq_some_iff.mp hi
  rw [← List.count_pos_iff, ← List.count_pos_iff, List.count_set hlt, hget]
  simp

/-- Before the slot where a probe for a new key stops there is none of tag 0. -/
theorem StopsAt.none_before (hc : StopsAt H key c) (h : Shaped H) {d : Nat} (hd : d < c) :
    H.tag[(home H.size key + d) % H.size]? ≠ some 0 := by
  intro hz
  exact (hc.stops.before d hd).ne_free ((h.free_iff (probe_lt h.pos)).mpr hz)

theorem insertHash_zero (h : Valid s.H) (hs : Sized s) :
    Ensures (insertHash key) s fun _ t =>
      Sized t ∧ (0 ∈ t.H.tag ↔ 0 ∈ s.H.tag ∧ Spares (.insertHash key) s) := by
  intro a t hm
  have hsized := (insertWithin_grows _ key s h hs a t hm).1
  refine ⟨hsized, ?_⟩
  obtain ⟨c, hc⟩ : ∃ c, StopsAt s.H key c := by
    have hr : Runs (insertHash key) s fun _ _ => True := ⟨a, t, hm, trivial⟩
    rw [insertHash, insertWithin, runs_bind] at hr
    exact stopsAt_of_runs h.toShaped hr
  rw [insertHash] at hm
  by_cases hk : s.H.Has key
  · cases (insertWithin_old h hc hk).symm.trans hm
    exact (and_iff_left (Or.inl hk)).symm
  have hzero := hc.zero_mem h hk
  have hi : probe s.H.size (home s.H.size key) c < s.H.size := probe_lt h.pos
  have htag := (h.free_iff hi).mp (slot_free h hc hk)
  rw [and_iff_right hzero]
  by_cases hlt : 2 * c < s.H.size
  · cases (insertWithin_new h hc hk hlt).symm.trans hm
    refine (zero_mem_set_iff htag).trans ⟨fun htwo => Or.inr (Or.inl htwo), ?_⟩
    rintro (hhas | htwo | hnone)
    · exact absurd hhas hk
    · exact htwo
    · exact absurd htag (hnone c hlt)
  · obtain ⟨hv, hindex, hold⟩ :=
      insertWithin_forgets (insertWithin_adds _) h hc hk hlt a t hm
    rw [insertWithin_rehash h hc hk hlt] at hm
    obtain ⟨-, -, hdel⟩ :=
      (recreateHash_grows (insertWithin_adds _) (insertWithin_grows _) h).ignore a t hm
    refine iff_of_true (hv.zero_mem_of_size_lt hdel hold (hs.size_lt hsized hindex)) ?_
    exact Or.inr (Or.inr fun d hd => hc.none_before h.toShaped (by omega))

/-- A deletion takes no slot that was never used. -/
theorem deleteHash_zero (h : Valid s.H) (hs : Sized s) :
    Ensures (deleteHash key) s fun _ t => Sized t ∧ (0 ∈ t.H.tag ↔ 0 ∈ s.H.tag) := by
  intro a t hm
  obtain ⟨c, hc⟩ : ∃ c, StopsAt s.H key c := by
    have hr : Runs (deleteHash key) s fun _ _ => True := ⟨a, t, hm, trivial⟩
    rw [deleteHash, runs_bind] at hr
    exact stopsAt_of_runs h.toShaped hr
  rcases deleteHash_eq h hc with ⟨hk, he⟩ | ⟨-, he⟩
  · cases he.symm.trans hm
    have hi : probe s.H.size (home s.H.size key) c < s.H.size := probe_lt h.pos
    have hr := h.reads _ hi
    rw [(h.placed.stops_iff hc.stops).mpr hk] at hr
    obtain ⟨⟩ | ⟨⟩ | ⟨_, tag, -⟩ := hr
    exact ⟨hs, zero_mem_drop_iff tag⟩
  · cases he.symm.trans hm
    exact ⟨hs, Iff.rfl⟩

theorem step_zero (h : Valid s.H) (hs : Sized s) : Ensures (step op) s fun _ t =>
    Sized t ∧ (0 ∈ t.H.tag ↔ 0 ∈ s.H.tag ∧ Spares op s) := by
  cases op with
  | insertHash key => exact insertHash_zero h hs
  | deleteHash key =>
    refine (deleteHash_zero h hs).mono fun _ t ht => ⟨ht.1, ht.2.trans ?_⟩
    exact (and_iff_left trivial).symm
  | searchHash key =>
    intro a t hm
    have hr : Runs (searchHash key >>= fun r => pure r.1) s fun _ _ => True := ⟨a, t, hm, trivial⟩
    obtain ⟨c, hc⟩ := stopsAt_of_runs h.toShaped (runs_bind.mp hr)
    obtain ⟨status, he, -⟩ := searchHash_eq h hc
    rw [step, bind_eq he] at hm
    cases hm
    exact ⟨hs, (and_iff_left trivial).symm⟩

/-- Once no such slot is left there is never one again: a table is only built anew by an insertion
that met one. -/
theorem runAll_zero (ops : List Op) (h : Valid s.H) (hs : Sized s) :
    Ensures (runAll step ops) s fun _ t => Valid t.H ∧ Sized t ∧
      (0 ∈ t.H.tag ↔ 0 ∈ s.H.tag ∧ StepsMeet step Spares ops s) := by
  induction ops generalizing s with
  | nil => exact ensures_pure ⟨h, hs, (and_iff_left trivial).symm⟩
  | cons op ops ih =>
    have hstep : Ensures (step op) s fun r t => step op s = .ok (r, t) ∧ Valid t.H ∧ Sized t ∧
        (0 ∈ t.H.tag ↔ 0 ∈ s.H.tag ∧ Spares op s) :=
      fun r t hm => ⟨hm, step_valid op h r t hm, step_zero h hs r t hm⟩
    refine Ensures.bind (hstep.mono ?_)
    rintro r t ⟨hm, hv, ht, hzero⟩
    refine Ensures.bind ((ih hv ht).mono ?_)
    rintro rs u ⟨huv, hu, hrest⟩
    refine ensures_pure ⟨huv, hu, hrest.trans ?_⟩
    have hmeet : StepsMeet step Spares (op :: ops) s ↔
        Spares op s ∧ StepsMeet step Spares ops t := by
      refine and_congr_right fun _ => ⟨fun hall => hall r t hm, fun hone r' t' hm' => ?_⟩
      cases hm.symm.trans hm'
      exact hone
    rw [hzero, hmeet, and_assoc]

/-- In the table that a run leaves there is a slot of tag 0, and all searches end, exactly when no
insertion took the last one. -/
theorem run_searches_iff (ops : List Op) : Ensures (run ops) initial fun _ s =>
    (0 ∈ s.H.tag ↔ StepsMeet step Spares ops initial) ∧
      ((∀ key, Ordinary key → Runs (searchHash key) s fun _ _ => True) ↔
        StepsMeet step Spares ops initial) := by
  refine (runAll_zero ops valid_initial sized_initial).mono ?_
  rintro rs s ⟨hv, hs, hzero⟩
  have hstart : 0 ∈ initial.H.tag := by decide
  rw [and_iff_right hstart] at hzero
  exact ⟨hzero, (searches_end_iff hv hs).trans hzero⟩

/-- Eleven keys with homes of their own take all the slots. -/
theorem run_searches_full : ¬ ∀ ops : List Op, (∀ op ∈ ops, Ordinary op.key) →
    Ensures (run ops) initial fun _ s => 0 ∈ s.H.tag ∧
      ∀ key, Ordinary key → Runs (searchHash key) s fun _ _ => True := by
  intro h
  let ops : List Op := (List.range 11).map fun k : Nat => .insertHash k
  have hfull : ((run ops initial).toOption.map fun p => p.2.H.tag) =
      some (List.replicate 11 1) := by decide +kernel
  cases hrun : run ops initial with
  | error f => simp [hrun, Except.toOption] at hfull
  | ok p =>
    rw [hrun] at hfull
    have htag : p.2.H.tag = List.replicate 11 1 := by simpa [Except.toOption] using hfull
    have hzero := (h ops (by decide) p.1 p.2 hrun).1
    rw [htag] at hzero
    exact absurd hzero (by decide)

end

end LanguageTest.MyHash
