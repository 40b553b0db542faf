import LanguageTest.Library.Program
import LanguageTest.Library.FreeList
import Mathlib.Data.List.Perm.Basic
import Mathlib.Data.List.ProdSigma

namespace LanguageTest.FreeNodes
open FreeList

/-- The address of a FreeNode: which array it belongs to, in the order of their allocation, and
its index there. -/
abbrev Node := Nat × Nat

/-- A pool and the arrays it has obtained. The memory of an array that is still to come holds
anything. `inUse` is history: the nodes handed out and not given back. -/
structure Pool (γ : Type) where
  object : γ
  blocks : Nat
  pNext : Node → Option Node
  inUse : List Node

variable {γ : Type}

/-- Whether an access through this pointer stays inside the arrays of `N` nodes. -/
def access (N : Nat) (p : Option Node) (s : Pool γ) : Except Fault Node :=
  match p with
  | none => .error .nullPointer
  | some a =>
    if s.blocks ≤ a.1 then .error .dangling
    else if N ≤ a.2 then .error .outOfRange
    else .ok a

def readNext (N : Nat) (p : Option Node) : Program (Pool γ) (Option Node) := fun s => do
  let a ← access N p s
  pure (s.pNext a, s)

def writeNext (N : Nat) (p q : Option Node) : Program (Pool γ) Unit := fun s => do
  let a ← access N p s
  pure ((), { s with pNext := Function.update s.pNext a q })

/-- A `new` expression that succeeds. -/
def newBlock : Program (Pool γ) Nat := fun s => .ok (s.blocks, { s with blocks := s.blocks + 1 })

def getPool : Program (Pool γ) γ := fun s => .ok (s.object, s)

def setPool (f : γ → γ) : Program (Pool γ) Unit :=
  fun s => .ok ((), { s with object := f s.object })

def handOut (p : Option Node) : Program (Pool γ) Unit :=
  fun s => .ok ((), { s with inUse := p.toList ++ s.inUse })

def handIn (a : Node) : Program (Pool γ) Unit :=
  fun s => .ok ((), { s with inUse := s.inUse.erase a })

/-- The calls of a program, and its own use of a node that it was handed: the node starts with
the field `pNext`, so that this leaves any pointer there. -/
inductive Op where
  | malloc
  | free (a : Node)
  | use (a : Node) (q : Option Node)

/-- Only a node that is handed out is given back or used. -/
def Legal : Op → Pool γ → Prop
  | .malloc, _ => True
  | .free a, s => a ∈ s.inUse
  | .use a _, s => a ∈ s.inUse

instance (op : Op) (s : Pool γ) : Decidable (Legal op s) := by
  cases op <;> unfold Legal <;> infer_instance

/-- Every node of the first `k` arrays. -/
def nodes (N k : Nat) : List Node := (List.range k).product (List.range N)

def nodesOf (N b : Nat) : List Node := (List.range N).map fun i => (b, i)

/-- A free list and what is handed out share all nodes of the arrays. -/
structure Free (N : Nat) (s : Pool γ) (head : Option Node) (free : List Node) : Prop where
  chain : Chain s.pNext head free
  partition : (free ++ s.inUse).Perm (nodes N s.blocks)

section
variable {N : Nat} {s : Pool γ} {a : Node} {head q : Option Node} {free : List Node}

theorem runs_readNext {Q : Option Node → Pool γ → Prop} (ha : a.1 < s.blocks ∧ a.2 < N) :
    Runs (readNext N (some a)) s Q ↔ Q (s.pNext a) s := by
  apply runs_of_ok
  simp only [readNext, access, Nat.not_le.mpr ha.1, Nat.not_le.mpr ha.2, if_false]
  rfl

theorem runs_writeNext {Q : Unit → Pool γ → Prop} (ha : a.1 < s.blocks ∧ a.2 < N) :
    Runs (writeNext N (some a) q) s Q ↔
      Q () { s with pNext := Function.update s.pNext a q } := by
  apply runs_of_ok
  simp only [writeNext, access, Nat.not_le.mpr ha.1, Nat.not_le.mpr ha.2, if_false]
  rfl

@[simp] theorem runs_newBlock {Q : Nat → Pool γ → Prop} :
    Runs newBlock s Q ↔ Q s.blocks { s with blocks := s.blocks + 1 } :=
  runs_of_ok rfl

@[simp] theorem runs_getPool {Q : γ → Pool γ → Prop} : Runs getPool s Q ↔ Q s.object s :=
  runs_of_ok rfl

@[simp] theorem runs_setPool {f : γ → γ} {Q : Unit → Pool γ → Prop} :
    Runs (setPool f) s Q ↔ Q () { s with object := f s.object } :=
  runs_of_ok rfl

@[simp] theorem runs_handOut {Q : Unit → Pool γ → Prop} :
    Runs (handOut head) s Q ↔ Q () { s with inUse := head.toList ++ s.inUse } :=
  runs_of_ok rfl

@[simp] theorem runs_handIn {Q : Unit → Pool γ → Prop} :
    Runs (handIn a) s Q ↔ Q () { s with inUse := s.inUse.erase a } :=
  runs_of_ok rfl

theorem mem_nodes {k : Nat} : a ∈ nodes N k ↔ a.1 < k ∧ a.2 < N := by
  obtain ⟨b, i⟩ := a
  rw [nodes, List.pair_mem_product, List.mem_range, List.mem_range]

theorem nodes_nodup (N k : Nat) : (nodes N k).Nodup := List.nodup_range.product List.nodup_range

theorem nodes_length (N k : Nat) : (nodes N k).length = k * N := by
  have hlength := List.length_product (List.range k) (List.range N)
  rwa [List.length_range, List.length_range] at hlength

theorem nodes_succ (N k : Nat) : nodes N (k + 1) = nodes N k ++ nodesOf N k := by
  simp [nodes, nodesOf, List.product, List.range_succ]

theorem nodesOf_eq {b : Nat} (hN : 1 ≤ N) :
    nodesOf N b = (b, 0) :: (List.range' 1 (N - 1)).map fun i => (b, i) := by
  obtain ⟨n, rfl⟩ := Nat.exists_eq_add_of_le' hN
  rw [nodesOf, List.range_eq_range', List.range'_succ]
  rfl

theorem Free.nodup (h : Free N s head free) : (free ++ s.inUse).Nodup :=
  h.partition.nodup_iff.mpr (nodes_nodup N s.blocks)

theorem Free.inside (h : Free N s head free) (ha : a ∈ free ++ s.inUse) :
    a.1 < s.blocks ∧ a.2 < N :=
  mem_nodes.mp (h.partition.mem_iff.mp ha)

theorem Free.inUse_inside (h : Free N s head free) (ha : a ∈ s.inUse) :
    a.1 < s.blocks ∧ a.2 < N :=
  h.inside (List.mem_append_right _ ha)

theorem Free.not_free (h : Free N s head free) (ha : a ∈ s.inUse) : a ∉ free := by
  intro hfree
  exact (List.nodup_append'.mp h.nodup).2.2 hfree ha

/-- The first free node is handed out. -/
theorem Free.pop (h : Free N s (some a) free) :
    ∃ l, free = a :: l ∧ Free N { s with inUse := a :: s.inUse } (s.pNext a) l := by
  obtain ⟨l, rfl, htail⟩ := h.chain.exists_tail
  exact ⟨l, rfl, htail, List.perm_middle.trans h.partition⟩

/-- A node that is handed out becomes the first free node. -/
theorem Free.push (h : Free N s head free) (ha : a ∈ s.inUse) :
    Free N { s with pNext := Function.update s.pNext a head, inUse := s.inUse.erase a }
      (some a) (a :: free) := by
  refine ⟨h.chain.push (h.not_free ha), ?_⟩
  have hperm : (free ++ s.inUse).Perm (a :: free ++ s.inUse.erase a) :=
    ((List.perm_cons_erase ha).append_left free).trans List.perm_middle
  exact hperm.symm.trans h.partition

theorem Free.use (h : Free N s head free) (ha : a ∈ s.inUse) (q : Option Node) :
    Free N { s with pNext := Function.update s.pNext a q } head free :=
  ⟨h.chain.update (h.not_free ha) q, h.partition⟩

/-- The nodes of a new array become the free nodes when there are no others. -/
theorem Free.grow (h : Free N s none free) {t : Pool γ} (hN : 1 ≤ N)
    (hblocks : t.blocks = s.blocks + 1) (hinUse : t.inUse = s.inUse)
    (hlink : ∀ i < N, t.pNext (s.blocks, i) = if i + 1 < N then some (s.blocks, i + 1) else none) :
    Free N t (some (s.blocks, 0)) (nodesOf N s.blocks) := by
  constructor
  case chain =>
    have hpos : 0 < N := hN
    have hchain := Chain.indexed hlink N 0 (Nat.zero_add N)
    rwa [if_pos hpos, ← List.range_eq_range'] at hchain
  case partition =>
    have hold := h.partition
    rw [h.chain.none_eq, List.nil_append] at hold
    rw [hblocks, hinUse, nodes_succ]
    exact List.perm_append_comm.trans (hold.append_right _)

end

section
variable {N b : Nat} {s : Pool γ}

/-- The nodes of an array are linked in their order and nothing else has changed. -/
structure InOrder (N b : Nat) (s t : Pool γ) : Prop where
  object : t.object = s.object
  blocks : t.blocks = s.blocks
  inUse : t.inUse = s.inUse
  link : ∀ i < N, t.pNext (b, i) = if i + 1 < N then some (b, i + 1) else none

/-- The loop over an array and the write to its last node. -/
theorem runs_link (hb : b < s.blocks) (hN : 1 ≤ N) :
    Runs (do
      (List.range (N - 1)).forM fun i => writeNext N (some (b, i)) (some (b, i + 1))
      writeNext N (some (b, N - 1)) none) s fun _ t => InOrder N b s t := by
  have hloop : Runs ((List.range (N - 1)).forM fun i =>
      writeNext N (some (b, i)) (some (b, i + 1))) s fun _ t =>
        t.object = s.object ∧ t.blocks = s.blocks ∧ t.inUse = s.inUse ∧
        ∀ i < N - 1, t.pNext (b, i) = some (b, i + 1) := by
    apply runs_range fun (k : Nat) (t : Pool γ) => t.object = s.object ∧ t.blocks = s.blocks ∧
      t.inUse = s.inUse ∧ ∀ i < k, t.pNext (b, i) = some (b, i + 1)
    · intro k hk t ht
      obtain ⟨hobject, hblocks, hinUse, hlink⟩ := ht
      rw [runs_writeNext ⟨hblocks ▸ hb, Nat.lt_of_lt_pred hk⟩]
      refine ⟨hobject, hblocks, hinUse, ?_⟩
      intro i hi
      simp only [Function.update_apply, Prod.mk.injEq, true_and]
      split
      · next heq => rw [heq]
      · next hne => exact hlink i (by omega)
    · exact ⟨rfl, rfl, rfl, fun i hi => absurd hi (Nat.not_lt_zero i)⟩
  rw [runs_bind]
  refine hloop.mono ?_
  intro _ t ht
  obtain ⟨hobject, hblocks, hinUse, hlink⟩ := ht
  rw [runs_writeNext ⟨hblocks ▸ hb, Nat.sub_lt hN Nat.one_pos⟩]
  refine ⟨hobject, hblocks, hinUse, ?_⟩
  intro i hi
  simp only [Function.update_apply, Prod.mk.injEq, true_and]
  split
  · next heq => rw [if_neg (by omega)]
  · next hne =>
    rw [if_pos (by omega)]
    exact hlink i (by omega)

end

end LanguageTest.FreeNodes
