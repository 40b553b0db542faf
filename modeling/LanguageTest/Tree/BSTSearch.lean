import LanguageTest.Library.Ordered
import LanguageTest.Tree.BST

namespace LanguageTest.BST
open BinaryTree

/-- The shape that a heap of nodes stands for. -/
abbrev Shape := AddrTree Int

def keyOf (v : Addr × Int) : Int := v.2

def keys (t : Shape) : List Int := t.inorder.map keyOf

/-- A node has no parent pointer. -/
def cell (x : Int) (l r _up : Ptr) : BTNode := ⟨x, l, r⟩

/-- The nodes reached from the root form this tree, and the heap holds nothing else. -/
structure Stores (s : State) (t : Shape) : Prop where
  root : s.object.root = rootPtr t
  linked : Linked cell s.heap none t
  nodup : (addrs t).Nodup
  domain : ∀ a, (s.heap.cells a).isSome = true ↔ a ∈ addrs t

variable {s : State} {c : AddrContext Int} {v : Addr × Int} {l r t : Shape} {data : Int}
  {fuel : Nat}

/-- Without a parent pointer it does not matter what a tree hangs from. -/
theorem linked_up {h : Heap BTNode} {up up' : Ptr} (hl : Linked cell h up t) :
    Linked cell h up' t := by
  cases t with
  | nil => trivial
  | node v l r => exact hl

theorem hung_up {h : Heap BTNode} {top top' hole : Ptr} (hc : Hung cell h top c hole) :
    Hung cell h top' c hole := by
  induction c generalizing hole with
  | nil => trivial
  | cons f c ih =>
    obtain ⟨e, v, o⟩ := f
    obtain ⟨hf, ho, hc⟩ := hc
    exact ⟨by cases e <;> exact hf, ho, ih hc⟩

theorem Stores.load (h : Stores s (plug c (node v l r))) :
    s.heap.cells v.1 = some ⟨v.2, rootPtr l, rootPtr r⟩ :=
  (linked_node.mp (linked_plug.mp h.linked).2).1

theorem mem_keys {k : Int} : k ∈ keys (node v l r) ↔ k ∈ keys l ∨ k = v.2 ∨ k ∈ keys r :=
  mem_keys_node

theorem runs_empty {Q : Bool → State → Prop} (h : Stores s t) :
    Runs empty s Q ↔ Q (rootPtr t).isNone s := by
  simp only [empty, runs_bind, runs_getObject, runs_pure, h.root]

theorem search_spec (h : Stores s t) (hi : Increasing keyOf t) (hf : t.numNodes < fuel) :
    Runs (search fuel data) s fun b u => u = s ∧ b = decide (data ∈ keys t) := by
  simp only [search, runs_bind, runs_empty h]
  split_ifs with hn
  · obtain rfl : t = nil := by simpa using hn
    simp [keys]
  rw [runs_bind, runs_getObject, h.root]
  refine runs_loop (k := t.numNodes) (fun j i u => u = s ∧ ∃ c t', plug c t' = t ∧
    i = rootPtr t' ∧ Avoids keyOf data c ∧ t'.numNodes ≤ j) ?_
    ⟨rfl, [], t, rfl, rfl, avoids_nil, le_rfl⟩ hf
  intro j _ _ hpost
  obtain ⟨rfl, c, t, rfl, rfl, ha, hj⟩ := hpost
  cases t with
  | nil =>
    simp only [rootPtr_nil, Option.isSome_none, Bool.false_eq_true, ↓reduceIte, runs_pure]
    exact ⟨trivial, (decide_eq_false ha.not_mem).symm⟩
  | node v l r =>
    simp only [numNodes] at hj
    simp only [rootPtr_node, Option.isSome_some, ↓reduceIte, runs_bind, runs_load, h.load,
      Option.some.injEq, exists_eq_left']
    split_ifs with he
    · rw [runs_pure]
      refine ⟨rfl, (decide_eq_true ?_).symm⟩
      simp [keys, inorder_plug, keyOf, he]
    simp only [runs_bind, runs_load, h.load, Option.some.injEq, exists_eq_left']
    split_ifs with hk
    · simp only [runs_bind, runs_load, h.load, Option.some.injEq, exists_eq_left', runs_pure]
      exact ⟨l.numNodes, by omega, trivial, ⟨.left, v, r⟩ :: c, l, rfl, rfl,
        ha.left hi.sorted hk, le_rfl⟩
    · simp only [runs_bind, runs_load, h.load, Option.some.injEq, exists_eq_left', runs_pure]
      exact ⟨r.numNodes, by omega, trivial, ⟨.right, v, l⟩ :: c, r, rfl, rfl,
        ha.right hi.sorted (lt_of_le_of_ne (not_lt.mp hk) (Ne.symm he)), le_rfl⟩

theorem runs_holds {Q : Bool → State → Prop} (h : Stores s (plug c t)) :
    Runs (holds (rootPtr t) data) s Q ↔ Q (t.value?.map keyOf == some data) s := by
  cases t with
  | nil => simp [holds]
  | node v l r =>
    simp only [holds, rootPtr_node, Option.isSome_some, ↓reduceIte, runs_bind, runs_load, h.load,
      Option.some.injEq, exists_eq_left', runs_pure, value?_node, Option.map_some]
    rfl

/-- Some node of the tree has a child that holds the key. -/
def HasChild (data : Int) : Shape → Prop
  | nil => False
  | node _ l r =>
    l.value?.map keyOf = some data ∨ r.value?.map keyOf = some data ∨
      HasChild data l ∨ HasChild data r

theorem hasChild_of_mem (hm : data ∈ keys t) (hr : t.value?.map keyOf ≠ some data) :
    HasChild data t := by
  induction t with
  | nil => simp [keys] at hm
  | node v l r ihl ihr =>
    rcases mem_keys.mp hm with hm | rfl | hm
    · by_cases hl : l.value?.map keyOf = some data
      · exact .inl hl
      · exact .inr (.inr (.inl (ihl hm hl)))
    · exact absurd rfl hr
    · by_cases hl : r.value?.map keyOf = some data
      · exact .inr (.inl hl)
      · exact .inr (.inr (.inr (ihr hm hl)))

/-- A subtree that the loop of `parent` still has to visit: a node of the stack, whose right
subtree comes next. -/
structure Pending (t : Shape) where
  context : AddrContext Int
  value : Addr × Int
  left : Shape
  right : Shape
  split : t = plug context (node value left right)

/-- The passes that the subtrees on the stack may still take. -/
def pendingPasses {t : Shape} : List (Pending t) → Nat
  | [] => 0
  | p :: ps => 2 * p.right.numNodes + 1 + pendingPasses ps

/-- What the loop of `parent` keeps: a node with the wanted child is still to come. The number
bounds the passes that are left. -/
def Searching (data : Int) (t : Shape) (k : Nat) (i : List Ptr × Ptr) : Prop :=
  ∃ c u, ∃ ps : List (Pending t), t = plug c u ∧ i = (ps.map fun p => some p.value.1, rootPtr u) ∧
    (HasChild data u ∨ ∃ p ∈ ps, HasChild data p.right) ∧
    2 * u.numNodes + pendingPasses ps ≤ k

/-- `parent` finds the node above one that holds the key, when the root does not. -/
theorem parent_spec (h : Stores s t) (hm : data ∈ keys t)
    (hr : t.value?.map keyOf ≠ some data) (hf : 2 * t.numNodes < fuel) :
    Runs (parent fuel data) s fun p u => u = s ∧ ∃ c v l r, t = plug c (node v l r) ∧
      p = some v.1 ∧ (l.value?.map keyOf = some data ∨ r.value?.map keyOf = some data) := by
  have hhas := hasChild_of_mem hm hr
  cases ht : t with
  | nil => simp [ht, keys] at hm
  | node w a b =>
  have h0 : Stores s (plug [] (node w a b)) := ht ▸ h
  have hne : w.2 ≠ data := by
    intro heq
    subst heq
    exact hr (ht ▸ rfl)
  simp only [parent, runs_bind, runs_empty h, ht, rootPtr_node, Option.isNone_some,
    Bool.false_eq_true, ↓reduceIte, runs_getObject, h.root, runs_load, h0.load, Option.some.injEq,
    exists_eq_left', hne]
  rw [← ht]
  refine runs_loop (k := 2 * t.numNodes) (fun k i u => u = s ∧ Searching data t k i) ?_
    ⟨rfl, [], t, [], rfl, by simp [ht], .inl hhas, le_rfl⟩ hf
  intro k _ _ hpost
  obtain ⟨rfl, c, u, ps, he, rfl, hhas, hk⟩ := hpost
  cases u with
  | nil =>
    cases ps with
    | nil => simp [HasChild] at hhas
    | cons p ps =>
      have hp := (p.split ▸ h).load
      simp only [List.map_cons, rootPtr_nil, parentStep, runs_bind, runs_load, hp,
        Option.some.injEq, exists_eq_left', runs_pure]
      simp only [pendingPasses, numNodes, HasChild, false_or, List.mem_cons,
        exists_eq_or_imp] at hk hhas
      refine ⟨_, ?_, trivial, ⟨.right, p.value, p.left⟩ :: p.context, p.right, ps, p.split, rfl,
        hhas, le_rfl⟩
      omega
  | node x l r =>
    have hu : Stores _ (plug c (node x l r)) := he ▸ h
    have hl : Stores _ (plug (⟨.left, x, r⟩ :: c) l) := hu
    have hrr : Stores _ (plug (⟨.right, x, l⟩ :: c) r) := hu
    simp only [rootPtr_node, parentStep, runs_bind, runs_load, hu.load, Option.some.injEq,
      exists_eq_left', runs_holds hl]
    split_ifs with h1
    · rw [runs_pure]
      exact ⟨rfl, c, x, l, r, he, rfl, .inl (by simpa using h1)⟩
    simp only [runs_bind, runs_load, hu.load, Option.some.injEq, exists_eq_left', runs_holds hrr]
    split_ifs with h2
    · rw [runs_pure]
      exact ⟨rfl, c, x, l, r, he, rfl, .inr (by simpa using h2)⟩
    simp only [runs_bind, runs_load, hu.load, Option.some.injEq, exists_eq_left', runs_pure]
    simp only [beq_iff_eq] at h1 h2
    simp only [numNodes] at hk
    refine ⟨_, ?_, trivial, ⟨.left, x, r⟩ :: c, l, ⟨c, x, l, r, he⟩ :: ps, he, rfl, ?_, le_rfl⟩
    · simp only [pendingPasses]
      omega
    · rcases hhas with hh | ⟨p, hp, hh⟩
      · rcases (hh.resolve_left h1).resolve_left h2 with hh | hh
        · exact .inl hh
        · exact .inr ⟨_, List.mem_cons_self .., hh⟩
      · exact .inr ⟨p, List.mem_cons_of_mem _ hp, hh⟩

end LanguageTest.BST
