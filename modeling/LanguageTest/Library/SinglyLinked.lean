import LanguageTest.Library.Heap

namespace LanguageTest

variable {β ν : Type}

namespace Heap

/-- Every node of the one heap is in the other one, unchanged. -/
def Extends (h h' : Heap ν) : Prop := ∀ a n, h.cells a = some n → h'.cells a = some n

variable {h h' h'' : Heap ν} {a : Addr} {m n : ν} {f : ν → ν}

theorem Extends.refl : Extends h h := fun _ _ ha => ha

theorem Extends.trans (hl : Extends h h') (hr : Extends h' h'') : Extends h h'' :=
  fun a n ha => hr a n (hl a n ha)

theorem extends_alloc : Extends h (h.alloc n) := by
  intro a m ha
  rw [alloc_cells, if_neg (ne_next ha), ha]

/-- A write beyond the nodes of the first heap. -/
theorem Extends.modify (hh : Extends h h') (ha : h.next ≤ a) : Extends h (h'.modify a f) := by
  intro b m hb
  have hne : b ≠ a := by
    rintro rfl
    rw [h.unused b ha] at hb
    cases hb
  rw [modify_cells, if_neg hne, hh b m hb]

/-- A write to the node that was allocated last. -/
theorem alloc_modify : (h.alloc m).modify h.next f = h.alloc (f m) := by
  unfold modify alloc
  congr 1
  funext b
  by_cases hb : b = h.next
  · simp [hb]
  · simp [hb]

end Heap

section
-- How a node is laid out: from its data and the pointer to the next one.
variable (cell : β → Ptr → ν)

/-- The heap stores this list, from the node that the pointer names on. -/
def Strung (h : Heap ν) : Ptr → List β → Prop
  | p, [] => p = none
  | p, x :: xs => ∃ a next, p = some a ∧ h.cells a = some (cell x next) ∧ Strung h next xs

/-- The same for a list whose elements come with the addresses of their nodes. -/
def Chained (h : Heap ν) : Ptr → List (Addr × β) → Prop
  | p, [] => p = none
  | p, x :: xs => p = some x.1 ∧ ∃ next, h.cells x.1 = some (cell x.2 next) ∧ Chained h next xs

/-- The nodes of a list at consecutive addresses. -/
def Row (h : Heap ν) : Addr → β → List β → Prop
  | a, x, [] => h.cells a = some (cell x none)
  | a, x, y :: ys => h.cells a = some (cell x (some (a + 1))) ∧ Row h (a + 1) y ys

variable {cell} {h h' : Heap ν} {p : Ptr} {a : Addr} {x v : β} {xs : List β}
  {setNext : Ptr → ν → ν}

theorem Strung.mono (hs : Strung cell h p xs) (hh : h.Extends h') : Strung cell h' p xs := by
  induction xs generalizing p with
  | nil => exact hs
  | cons x xs ih =>
    obtain ⟨a, next, hp, ha, hrest⟩ := hs
    exact ⟨a, next, hp, hh a _ ha, ih hrest⟩

section
variable {y : Addr × β} {ys : List (Addr × β)}

/-- A list stays stored while its own nodes are left alone. -/
theorem Chained.congr (hs : Chained cell h p ys) (hc : ∀ y ∈ ys, h'.cells y.1 = h.cells y.1) :
    Chained cell h' p ys := by
  induction ys generalizing p with
  | nil => exact hs
  | cons y ys ih =>
    obtain ⟨hp, next, hy, hrest⟩ := hs
    obtain ⟨hcy, hcrest⟩ := List.forall_mem_cons.mp hc
    exact ⟨hp, next, hcy.trans hy, ih hrest hcrest⟩

theorem Chained.allocated (hs : Chained cell h p ys) : ∀ y ∈ ys, ∃ n, h.cells y.1 = some n := by
  induction ys generalizing p with
  | nil => exact fun y hy => absurd hy List.not_mem_nil
  | cons y ys ih =>
    obtain ⟨-, next, hy, hrest⟩ := hs
    exact List.forall_mem_cons.mpr ⟨⟨_, hy⟩, ih hrest⟩

theorem Chained.stored (hs : Chained cell h p ys) :
    ∀ y ∈ ys, ∃ next, h.cells y.1 = some (cell y.2 next) := by
  induction ys generalizing p with
  | nil => exact fun y hy => absurd hy List.not_mem_nil
  | cons y ys ih =>
    obtain ⟨-, next, hy, hrest⟩ := hs
    exact List.forall_mem_cons.mpr ⟨⟨next, hy⟩, ih hrest⟩

/-- A list determines where it starts and what its nodes hold. -/
theorem Chained.same {q : Ptr} (hs : Chained cell h p ys) (ht : Chained cell h' q ys) :
    p = q ∧ ∀ y ∈ ys, h.cells y.1 = h'.cells y.1 := by
  induction ys generalizing p q with
  | nil => exact ⟨hs.trans ht.symm, fun y hy => absurd hy List.not_mem_nil⟩
  | cons y ys ih =>
    obtain ⟨rfl, next, hy, hrest⟩ := hs
    obtain ⟨rfl, next', hy', hrest'⟩ := ht
    obtain ⟨rfl, hcells⟩ := ih hrest hrest'
    exact ⟨rfl, List.forall_mem_cons.mpr ⟨hy.trans hy'.symm, hcells⟩⟩

/-- The list from one of its nodes on. -/
theorem Chained.suffix (hs : Chained cell h p ys) (hy : y ∈ ys) :
    ∃ zs, Chained cell h (some y.1) (y :: zs) ∧ zs.length < ys.length := by
  induction ys generalizing p with
  | nil => exact absurd hy List.not_mem_nil
  | cons x ys ih =>
    obtain ⟨rfl, next, hx, hrest⟩ := id hs
    rcases List.mem_cons.mp hy with rfl | hmem
    · exact ⟨ys, hs, Nat.lt_succ_self _⟩
    · obtain ⟨zs, hzs, hlen⟩ := ih hrest hmem
      exact ⟨zs, hzs, Nat.lt_succ_of_lt hlen⟩

section
variable (hcell : ∀ x p y q, cell x p = cell y q → x = y ∧ p = q)
include hcell

/-- A pointer determines the list. -/
theorem Chained.unique {zs : List (Addr × β)} (hs : Chained cell h p ys)
    (ht : Chained cell h p zs) : ys = zs := by
  induction ys generalizing p zs with
  | nil =>
    obtain rfl : p = none := hs
    cases zs with
    | nil => rfl
    | cons z zs => cases ht.1
  | cons y ys ih =>
    obtain ⟨rfl, next, hy, hrest⟩ := hs
    cases zs with
    | nil => cases ht
    | cons z zs =>
      obtain ⟨haddr, next', hz, hrest'⟩ := ht
      have haddr : y.1 = z.1 := Option.some.inj haddr
      rw [haddr, hz] at hy
      obtain ⟨hval, rfl⟩ := hcell _ _ _ _ (Option.some.inj hy)
      rw [Prod.ext haddr hval.symm, ih hrest hrest']

/-- A list that ends does not come to a node twice. -/
theorem Chained.nodup (hs : Chained cell h p ys) : (ys.map Prod.fst).Nodup := by
  induction ys generalizing p with
  | nil => exact List.nodup_nil
  | cons y ys ih =>
    obtain ⟨rfl, next, hy, hrest⟩ := id hs
    refine List.nodup_cons.mpr ⟨fun hmem => ?_, ih hrest⟩
    obtain ⟨z, hz, haddr⟩ := List.mem_map.mp hmem
    obtain ⟨zs, hzs, hlen⟩ := hrest.suffix hz
    have heq : z :: zs = y :: ys := Chained.unique hcell (haddr ▸ hzs) hs
    obtain rfl := (List.cons.inj heq).2
    exact Nat.lt_irrefl _ hlen

end

/-- A node that is not in the list is put in front of it. -/
theorem Chained.push (hset : ∀ x p q, setNext q (cell x p) = cell x q) (hs : Chained cell h p ys)
    {q : Ptr} (hy : h.cells y.1 = some (cell y.2 q)) (hnot : y.1 ∉ ys.map Prod.fst) :
    Chained cell (h.modify y.1 (setNext p)) (some y.1) (y :: ys) := by
  refine ⟨rfl, p, ?_, hs.congr fun z hz => ?_⟩
  · rw [Heap.modify_cells, if_pos rfl, hy, Option.map_some, hset]
  · rw [Heap.modify_cells, if_neg]
    rintro he
    exact hnot (he ▸ List.mem_map_of_mem hz)

end

theorem Row.strung (hr : Row cell h a x xs) :
    ∃ next, h.cells a = some (cell x next) ∧ Strung cell h next xs := by
  induction xs generalizing a x with
  | nil => exact ⟨none, hr, rfl⟩
  | cons y ys ih =>
    obtain ⟨next, hnext, hrest⟩ := ih hr.2
    exact ⟨some (a + 1), hr.1, a + 1, next, rfl, hnext, hrest⟩

theorem Row.chained (hr : Row cell h a x xs) :
    ∃ ys, Chained cell h (some a) ys ∧ ys.map Prod.snd = x :: xs := by
  induction xs generalizing a x with
  | nil => exact ⟨[(a, x)], ⟨rfl, none, hr, rfl⟩, rfl⟩
  | cons y ys ih =>
    obtain ⟨zs, hzs, hvals⟩ := ih hr.2
    exact ⟨(a, x) :: zs, ⟨rfl, some (a + 1), hr.1, hzs⟩, by rw [List.map_cons, hvals]⟩

/-- The last node has no next one. -/
theorem Row.last (hr : Row cell h a x xs) :
    ∃ y, h.cells (a + xs.length) = some (cell y none) := by
  induction xs generalizing a x with
  | nil => exact ⟨x, hr⟩
  | cons y ys ih =>
    have hlast := ih hr.2
    rwa [Nat.add_right_comm, Nat.add_assoc] at hlast

/-- A new node, which the last one is made to name. -/
theorem Row.append (hset : ∀ x p q, setNext q (cell x p) = cell x q)
    (hr : Row cell h a x xs) (hnext : h.next = a + xs.length + 1) :
    Row cell ((h.alloc (cell v none)).modify (a + xs.length) (setNext (some h.next))) a x
      (xs ++ [v]) := by
  induction xs generalizing a x with
  | nil =>
    rw [List.length_nil, Nat.add_zero] at hnext ⊢
    have hcell : h.cells a = some (cell x none) := hr
    have hne : a ≠ a + 1 := (Nat.succ_ne_self a).symm
    constructor
    · rw [Heap.modify_cells, if_pos rfl, Heap.alloc_cells, hnext, if_neg hne, hcell,
        Option.map_some, hset]
    · change ((h.alloc (cell v none)).modify a (setNext (some h.next))).cells (a + 1) = _
      rw [Heap.modify_cells, if_neg hne.symm, Heap.alloc_cells, if_pos hnext.symm]
  | cons y ys ih =>
    have hsum : a + (ys.length + 1) = a + 1 + ys.length := Nat.add_right_comm a ys.length 1
    rw [List.length_cons, hsum] at hnext ⊢
    have hlt : a < a + 1 + ys.length := Nat.lt_add_right _ (Nat.lt_succ_self a)
    have hne : a ≠ h.next := hnext ▸ Nat.ne_of_lt (Nat.lt_succ_of_lt hlt)
    refine ⟨?_, ih hr.2 hnext⟩
    rw [Heap.modify_cells, if_neg (Nat.ne_of_lt hlt), Heap.alloc_cells, if_neg hne, hr.1]

end

end LanguageTest
