import LanguageTest.Linux.LRU

namespace LanguageTest.LRU
open Recency (Entries keys Op)

variable {K V : Type} {conv : K → Int} {null : V} {cap : Nat} {s : State K V} {key : K} {value : V}

def entry (n : Node K V) : K × V := (n.key, n.value)

/-- The cache holds these entries in this order. `count` is their number, and the map sends
exactly the converted keys to the live nodes of their keys. -/
structure Refines (conv : K → Int) (cap : Nat) (s : State K V) (l : Entries K V) : Prop where
  entries : s.list.map entry = l
  ids : (s.list.map Node.id).Nodup
  fresh : ∀ n ∈ s.list, n.id < s.next
  distinct : (l.map fun e => conv e.1).Nodup
  count : s.count = l.length
  capacity : s.cap = cap
  bound : l.length ≤ cap
  index : ∀ i p, s.m i = some p ↔ ∃ n ∈ s.list, n.id = p ∧ conv n.key = i

section
variable {Q : Unit → State K V → Prop} {n : Node K V}

@[simp] theorem runs_readState {Q : State K V → State K V → Prop} :
    Runs readState s Q ↔ Q s s :=
  runs_of_ok rfl

@[simp] theorem runs_pushFront :
    Runs (pushFront key value) s Q ↔
      Q () { s with list := ⟨s.next, key, value⟩ :: s.list, next := s.next + 1 } :=
  runs_of_ok rfl

@[simp] theorem runs_mapSet {i : Int} {p : Nat} :
    Runs (mapSet i p) s Q ↔ Q () { s with m := fun j => if j = i then some p else s.m j } :=
  runs_of_ok rfl

@[simp] theorem runs_mapErase {i : Int} :
    Runs (mapErase i) s Q ↔ Q () { s with m := fun j => if j = i then none else s.m j } :=
  runs_of_ok rfl

@[simp] theorem runs_incrementCount :
    Runs incrementCount s Q ↔ Q () { s with count := s.count + 1 } :=
  runs_of_ok rfl

theorem runs_listBegin {Q : Nat → State K V → Prop} {ns : List (Node K V)}
    (h : s.list = n :: ns) : Runs listBegin s Q ↔ Q n.id s :=
  runs_of_ok (by simp [listBegin, h])

/-- Node numbers are distinct, so an iterator finds its own node. -/
theorem find_split {ns xs ys : List (Node K V)} (h : ns = xs ++ n :: ys)
    (hn : (ns.map Node.id).Nodup) :
    ns.find? (·.id == n.id) = some n ∧ ns.eraseP (·.id == n.id) = xs ++ ys := by
  have hx : ∀ m ∈ xs, m.id ≠ n.id := by
    rw [h, List.map_append, List.map_cons, List.nodup_middle, List.nodup_cons, List.mem_append,
      not_or] at hn
    intro m hm he
    exact hn.1.1 (he ▸ List.mem_map_of_mem hm)
  rw [h, List.find?_append, List.find?_eq_none.mpr (by simpa using hx),
    List.eraseP_append_right _ (by simpa using hx)]
  simp

theorem runs_deref {Q : Node K V → State K V → Prop} {xs ys : List (Node K V)}
    (h : s.list = xs ++ n :: ys) (hn : (s.list.map Node.id).Nodup) :
    Runs (deref n.id) s Q ↔ Q n s :=
  runs_of_ok (by simp [deref, (find_split h hn).1])

theorem runs_listErase {xs ys : List (Node K V)} (h : s.list = xs ++ n :: ys)
    (hn : (s.list.map Node.id).Nodup) :
    Runs (listErase n.id) s Q ↔ Q () { s with list := xs ++ ys } :=
  runs_of_ok (by simp [listErase, find_split h hn])

theorem runs_listBack {Q : Node K V → State K V → Prop} (h : s.list.getLast? = some n) :
    Runs listBack s Q ↔ Q n s :=
  runs_of_ok (by simp [listBack, h])

theorem runs_popBack (h : s.list.getLast? = some n) :
    Runs popBack s Q ↔ Q () { s with list := s.list.dropLast } :=
  runs_of_ok (by simp [popBack, h])

end

/-- The last lines of `get` and `put`: a new node in front of the nodes `zs`, and its key in the
map. Before them the map may be wrong about that key only. -/
theorem push_refines {zs : List (Node K V)} (hl : s.list = zs) (hi : (zs.map Node.id).Nodup)
    (hf : ∀ n ∈ zs, n.id < s.next)
    (hd : (zs.map fun n => conv n.key).Nodup) (hk : ∀ n ∈ zs, conv n.key ≠ conv key)
    (hc : s.count = zs.length + 1) (hcap : s.cap = cap) (hb : zs.length + 1 ≤ cap)
    (hm : ∀ i ≠ conv key, ∀ p, s.m i = some p ↔ ∃ n ∈ zs, n.id = p ∧ conv n.key = i) :
    Runs (do
      pushFront key value
      mapSet (conv key) (← listBegin)) s fun _ u =>
      Refines conv cap u ((key, value) :: zs.map entry) := by
  rw [runs_bind, runs_pushFront, runs_bind, runs_listBegin rfl, runs_mapSet]
  refine ⟨by simp [hl, entry], ?_, ?_, ?_, ?_, hcap, by simpa using hb, fun i p => ?_⟩
  · simp only [hl, List.map_cons, List.nodup_cons]
    refine ⟨fun hmem => ?_, hi⟩
    obtain ⟨n, hn, he⟩ := List.mem_map.mp hmem
    exact absurd (hf n hn) (by omega)
  · intro n hn
    rw [hl] at hn
    rcases List.mem_cons.mp hn with rfl | hn
    · exact Nat.lt_succ_self _
    · exact Nat.lt_succ_of_lt (hf n hn)
  · simp only [List.map_cons, List.map_map, List.nodup_cons]
    refine ⟨fun hmem => ?_, hd⟩
    obtain ⟨n, hn, he⟩ := List.mem_map.mp hmem
    exact hk n hn he
  · simpa using hc
  · by_cases he : i = conv key
    · subst he
      simp only [↓reduceIte, Option.some.injEq, hl, List.mem_cons]
      constructor
      · intro heq
        subst heq
        exact ⟨_, .inl rfl, rfl, rfl⟩
      · intro hcase
        rcases hcase with ⟨n, rfl | hn, hp, hkey⟩
        · exact hp
        · exact absurd hkey (hk n hn)
    · simp only [if_neg he, hm i he, hl, List.mem_cons]
      constructor
      · intro hcase
        obtain ⟨n, hn, hp⟩ := hcase
        exact ⟨n, .inr hn, hp⟩
      · intro hcase
        rcases hcase with ⟨n, rfl | hn, hp, hkey⟩
        · exact absurd hkey.symm he
        · exact ⟨n, hn, hp, hkey⟩

/-- Erasing the node `n` of the list and putting a new one in front, for a key that converts as
the key of `n` does. -/
theorem replace_refines (value : V) {l : Entries K V} {n : Node K V} {xs ys : List (Node K V)}
    (h : Refines conv cap s l) (hl : s.list = xs ++ n :: ys) (hn : conv n.key = conv key) :
    Runs (do
      listErase n.id
      pushFront key value
      mapSet (conv key) (← listBegin)) s fun _ u =>
      Refines conv cap u ((key, value) :: (xs ++ ys).map entry) := by
  rw [runs_bind, runs_listErase hl h.ids]
  have hids := h.ids
  have hdist := h.distinct
  have hlen := congrArg List.length h.entries
  rw [hl, List.map_append, List.map_cons, List.nodup_middle, List.nodup_cons,
    ← List.map_append] at hids
  rw [← h.entries, hl, List.map_map, List.map_append, List.map_cons, List.nodup_middle,
    List.nodup_cons, ← List.map_append] at hdist
  rw [List.length_map, hl, List.length_append, List.length_cons] at hlen
  have hkey : ∀ m ∈ xs ++ ys, conv m.key ≠ conv key := by
    intro m hm he
    exact hdist.1 (List.mem_map.mpr ⟨m, hm, he.trans hn.symm⟩)
  refine push_refines rfl hids.2 (fun m hm => h.fresh m ?_) hdist.2 hkey ?_ h.capacity ?_ ?_
  · rw [hl]
    exact List.mem_append.mpr ((List.mem_append.mp hm).imp_right (List.mem_cons_of_mem _))
  · simp only [h.count, List.length_append]
    omega
  · have hb := h.bound
    rw [List.length_append]
    omega
  · intro i hi p
    rw [h.index, hl]
    constructor
    · intro hcase
      obtain ⟨m, hm, hp, hmi⟩ := hcase
      rw [List.mem_append, List.mem_cons] at hm
      rcases hm with hm | rfl | hm
      · exact ⟨m, List.mem_append_left _ hm, hp, hmi⟩
      · exact absurd (hmi.symm.trans hn) hi
      · exact ⟨m, List.mem_append_right _ hm, hp, hmi⟩
    · intro hcase
      obtain ⟨m, hm, hp, hmi⟩ := hcase
      exact ⟨m, List.mem_append.mpr ((List.mem_append.mp hm).imp_right (List.mem_cons_of_mem _)),
        hp, hmi⟩

/-- The condition under which a call treats its key as the key it is. A `get` must meet no other
cached key with the same conversion. A `put` may meet one if it is the entry to evict anyway. -/
def NoClash (conv : K → Int) : Op K V → State K V → Prop
  | .get key, s => ∀ n ∈ s.list, conv n.key = conv key → n.key = key
  | .put key _, s => ∀ n ∈ s.list, conv n.key = conv key →
      n.key = key ∨ (s.count = s.cap ∧ s.list.getLast? = some n)

theorem Refines.keys_nodup {l : Entries K V} (h : Refines conv cap s l) : (keys l).Nodup := by
  have hd := h.distinct
  rw [show (l.map fun e => conv e.1) = (keys l).map conv by simp [keys]] at hd
  exact hd.of_map

/-- A key whose conversion the map does not know is not cached. -/
theorem Refines.not_mem {l : Entries K V} (h : Refines conv cap s l) (hm : s.m (conv key) = none) :
    (∀ n ∈ s.list, conv n.key ≠ conv key) ∧ key ∉ keys l := by
  have hn : ∀ n ∈ s.list, conv n.key ≠ conv key := by
    intro n hn he
    have := (h.index (conv key) n.id).mpr ⟨n, hn, rfl, he⟩
    rw [hm] at this
    cases this
  refine ⟨hn, fun hk => ?_⟩
  rw [← h.entries, keys, List.map_map] at hk
  obtain ⟨n, hn', he⟩ := List.mem_map.mp hk
  exact hn n hn' (congrArg conv he)

/-- A key is not cached when another one of the same conversion is. -/
theorem Refines.clash_not_mem {l : Entries K V} {n : Node K V} (h : Refines conv cap s l)
    (hn : n ∈ s.list) (he : conv n.key = conv key) (hk : n.key ≠ key) : key ∉ keys l := by
  intro hm
  obtain ⟨e, hel, hek⟩ := List.mem_map.mp hm
  have hnl : entry n ∈ l := h.entries ▸ List.mem_map_of_mem hn
  have hen := List.inj_on_of_nodup_map h.distinct hel hnl (by rw [hek]; exact he.symm)
  exact hk (by rw [← hek, hen]; rfl)

/-- The node that the map names for a key. -/
theorem Refines.split {l : Entries K V} {p : Nat} (h : Refines conv cap s l)
    (hm : s.m (conv key) = some p) :
    ∃ n xs ys, p = n.id ∧ conv n.key = conv key ∧ s.list = xs ++ n :: ys ∧
      l = xs.map entry ++ entry n :: ys.map entry := by
  obtain ⟨n, hn, rfl, he⟩ := (h.index _ _).mp hm
  obtain ⟨xs, ys, hl⟩ := List.append_of_mem hn
  refine ⟨n, xs, ys, rfl, he, hl, ?_⟩
  rw [← h.entries, hl, List.map_append, List.map_cons]

/-- A call that meets a node whose key converts as its own puts its own key in the place of
that node. -/
theorem get_hit {l : Entries K V} {n : Node K V} {xs ys : List (Node K V)}
    (h : Refines conv cap s l) (hl : s.list = xs ++ n :: ys) (he : conv n.key = conv key) :
    Runs (Template.get conv null key) s fun r u => r = n.value ∧
      Refines conv cap u ((key, n.value) :: (xs ++ ys).map entry) := by
  have hm : s.m (conv key) = some n.id := (h.index _ _).mpr ⟨n, by simp [hl], rfl, he⟩
  have hr := replace_refines n.value h hl he
  rw [Template.get, runs_bind, runs_readState, hm]
  simp only [runs_bind, runs_deref hl h.ids, runs_pure] at hr ⊢
  refine hr.mono fun _ _ h1 => h1.mono fun _ _ h2 => h2.mono fun _ _ h3 => h3.mono ?_
  exact fun _ u hu => ⟨trivial, hu⟩

theorem put_hit {l : Entries K V} {n : Node K V} {xs ys : List (Node K V)}
    (h : Refines conv cap s l) (hl : s.list = xs ++ n :: ys) (he : conv n.key = conv key) :
    Runs (Template.put conv key value) s fun _ u =>
      Refines conv cap u ((key, value) :: (xs ++ ys).map entry) := by
  have hm : s.m (conv key) = some n.id := (h.index _ _).mpr ⟨n, by simp [hl], rfl, he⟩
  rw [Template.put, runs_bind, runs_readState, hm]
  exact replace_refines value h hl he

theorem get_refines [DecidableEq K] {l : Entries K V} (h : Refines conv cap s l)
    (hc : ∀ n ∈ s.list, conv n.key = conv key → n.key = key) :
    Runs (Template.get conv null key) s fun r u => r = (Recency.get l key).1.getD null ∧
      Refines conv cap u (Recency.get l key).2 := by
  cases hm : s.m (conv key) with
  | none =>
    rw [Template.get, runs_bind, runs_readState, hm, Recency.get_of_not_mem (h.not_mem hm).2]
    exact runs_pure.mpr ⟨rfl, h⟩
  | some p =>
    obtain ⟨n, xs, ys, rfl, he, hl, rfl⟩ := h.split hm
    obtain rfl : n.key = key := hc n (by simp [hl]) he
    rw [entry, Recency.get_split h.keys_nodup, ← List.map_append]
    exact get_hit h hl he

theorem eq_nil_of_getLast? {ns xs ys : List (Node K V)} {n : Node K V} (h : ns = xs ++ n :: ys)
    (hn : (ns.map Node.id).Nodup) (hl : ns.getLast? = some n) : ys = [] := by
  rcases List.eq_nil_or_concat ys with rfl | ⟨zs, m, rfl⟩
  · rfl
  · rw [List.concat_eq_append] at h ⊢
    have hlast : (xs ++ n :: (zs ++ [m])).getLast? = some m := by
      rw [← List.cons_append, ← List.append_assoc, List.getLast?_concat]
    rw [h, hlast, Option.some.injEq] at hl
    subst hl
    rw [h, List.map_append, List.map_cons, List.nodup_middle, List.nodup_cons] at hn
    exact absurd (by simp) hn.1

/-- Writing a key over a node whose key converts alike. -/
theorem put_over [DecidableEq K] {l : Entries K V} {n : Node K V} {xs ys : List (Node K V)}
    (h : Refines conv cap s l) (hl : s.list = xs ++ n :: ys) (he : conv n.key = conv key)
    (hc : n.key = key ∨ (s.count = s.cap ∧ s.list.getLast? = some n)) :
    Recency.put cap l key value = (key, value) :: (xs ++ ys).map entry := by
  have hsplit : l = xs.map entry ++ entry n :: ys.map entry := by
    rw [← h.entries, hl, List.map_append, List.map_cons]
  by_cases hk : n.key = key
  · subst hk
    have hn := h.keys_nodup
    rw [hsplit] at hn ⊢
    rw [List.map_append]
    exact Recency.put_split hn
  · -- The clashing entry is the last one of a full cache: it is evicted in either case.
    obtain ⟨hfull, hlast⟩ := hc.resolve_left hk
    obtain rfl := eq_nil_of_getLast? hl h.ids hlast
    have hlen : l.length = cap := by
      rw [h.count, h.capacity] at hfull
      exact_mod_cast hfull
    rw [Recency.put_full (h.clash_not_mem (by simp [hl]) he hk) hlen, hsplit]
    simp

theorem put_refines [DecidableEq K] {l : Entries K V} (hcap : 1 ≤ cap) (h : Refines conv cap s l)
    (hc : NoClash conv (.put key value) s) :
    Runs (Template.put conv key value) s fun _ u =>
      Refines conv cap u (Recency.put cap l key value) := by
  cases hm : s.m (conv key) with
  | some p =>
    obtain ⟨n, xs, ys, rfl, he, hl, -⟩ := h.split hm
    rw [put_over h hl he (hc n (by simp [hl]) he)]
    exact put_hit h hl he
  | none =>
    rw [Template.put, runs_bind, runs_readState, hm]
    obtain ⟨hne, hnk⟩ := h.not_mem hm
    have hlen := congrArg List.length h.entries
    rw [List.length_map] at hlen
    have hids := h.ids
    have hdist := h.distinct
    rw [← h.entries, List.map_map] at hdist
    by_cases hfull : s.count = s.cap
    · have hfull' : l.length = cap := by
        rw [h.count, h.capacity] at hfull
        exact_mod_cast hfull
      obtain ⟨zs, n, hl⟩ : ∃ zs n, s.list = zs ++ [n] := by
        refine ⟨_, _, (List.dropLast_append_getLast (l := s.list) ?_).symm⟩
        intro hnil
        rw [hnil, List.length_nil] at hlen
        omega
      have hlast : s.list.getLast? = some n := by simp [hl]
      have hdrop : s.list.dropLast = zs := by simp [hl]
      rw [Recency.put_full hnk hfull', ← h.entries, ← List.map_dropLast, hdrop]
      rw [runs_bind, runs_readState, runs_bind, runs_readState, if_pos hfull, runs_bind,
        runs_listBack hlast, runs_bind, runs_popBack hlast, runs_bind, runs_mapErase]
      have hmem : ∀ m ∈ zs, m ∈ s.list := fun m hm => hl ▸ List.mem_append_left _ hm
      rw [hl, List.map_append, List.nodup_append] at hids hdist
      refine push_refines hdrop hids.1 (fun m hm => h.fresh m (hmem m hm)) hdist.1
        (fun m hm => hne m (hmem m hm)) ?_ h.capacity ?_ ?_
      · have := congrArg List.length hl
        rw [List.length_append, List.length_singleton] at this
        simp only [h.count]
        omega
      · have := congrArg List.length hl
        rw [List.length_append, List.length_singleton] at this
        omega
      · intro i _ p
        have hz : ∀ m ∈ zs, conv m.key ≠ conv n.key := fun m hm =>
          hdist.2.2 _ (List.mem_map_of_mem hm) _ (by simp [entry])
        simp only
        split_ifs with hi
        · subst hi
          simp only [false_iff, not_exists, not_and]
          exact fun m hm _ => hz m hm
        · rw [h.index, hl]
          constructor
          · intro hcase
            obtain ⟨m, hm, hp, hmi⟩ := hcase
            rcases List.mem_append.mp hm with hm | hm
            · exact ⟨m, hm, hp, hmi⟩
            · obtain rfl := List.mem_singleton.mp hm
              exact absurd hmi.symm hi
          · intro hcase
            obtain ⟨m, hm, hp, hmi⟩ := hcase
            exact ⟨m, List.mem_append_left _ hm, hp, hmi⟩
    · have hlt : l.length ≠ cap := by
        intro he
        rw [h.count, h.capacity, he] at hfull
        exact hfull rfl
      have hb := h.bound
      rw [Recency.put_room hnk hlt, ← h.entries]
      rw [runs_bind, runs_readState, runs_bind, runs_readState, if_neg hfull, runs_bind,
        runs_incrementCount]
      refine push_refines rfl hids h.fresh hdist hne ?_ h.capacity (by omega) ?_
      · simp only [h.count, hlen]
      · exact fun i _ p => h.index i p

end LanguageTest.LRU
