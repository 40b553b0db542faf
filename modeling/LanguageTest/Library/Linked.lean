import LanguageTest.Library.Heap
import LanguageTest.Library.Tree

namespace LanguageTest
open BinaryTree

variable {β ν : Type}

/-- A tree whose nodes carry the address they are stored at. -/
abbrev AddrTree (β : Type) := BinaryTree (Addr × β)

/-- The context of a subtree of such a tree. -/
abbrev AddrContext (β : Type) := Context (Addr × β)

def rootPtr (t : AddrTree β) : Ptr := t.value?.map Prod.fst

def addrs (t : AddrTree β) : List Addr := t.inorder.map Prod.fst

def contextAddrs (c : AddrContext β) : List Addr := c.values.map Prod.fst

/-- The node a hole hangs from; `top` when the hole is the whole tree. -/
def upPtr (top : Ptr) : AddrContext β → Ptr
  | [] => top
  | f :: _ => some f.value.1

@[simp] theorem rootPtr_nil : rootPtr (nil : AddrTree β) = none := rfl

@[simp] theorem rootPtr_node (v : Addr × β) (l r : AddrTree β) :
    rootPtr (node v l r) = some v.1 := rfl

@[simp] theorem rootPtr_branch (d : Side) (v : Addr × β) (a b : AddrTree β) :
    rootPtr (branch d v a b) = some v.1 := by
  cases d <;> rfl

@[simp] theorem addrs_nil : addrs (nil : AddrTree β) = [] := rfl

@[simp] theorem addrs_node (v : Addr × β) (l r : AddrTree β) :
    addrs (node v l r) = addrs l ++ v.1 :: addrs r := by
  simp [addrs]

@[simp] theorem rootPtr_eq_none {t : AddrTree β} : rootPtr t = none ↔ t = nil := by
  cases t <;> simp

theorem mem_addrs_of_rootPtr {t : AddrTree β} {a : Addr} (h : rootPtr t = some a) :
    a ∈ addrs t := by
  cases t with
  | nil => simp at h
  | node v l r => simp_all

@[simp] theorem mem_addrs_branch (d : Side) (v : Addr × β) (a b : AddrTree β) (x : Addr) :
    x ∈ addrs (branch d v a b) ↔ x = v.1 ∨ x ∈ addrs a ∨ x ∈ addrs b := by
  cases d <;> simp <;> tauto

@[simp] theorem upPtr_nil (top : Ptr) : upPtr top ([] : AddrContext β) = top := rfl

@[simp] theorem upPtr_cons (top : Ptr) (f : Frame (Addr × β)) (c : AddrContext β) :
    upPtr top (f :: c) = some f.value.1 := rfl

/-- The part of a context above a frame is what the hole of the lower part hangs from. -/
theorem upPtr_append (top : Ptr) (q : AddrContext β) (f : Frame (Addr × β)) (c : AddrContext β) :
    upPtr top (q ++ f :: c) = upPtr (some f.value.1) q := by
  cases q <;> rfl

@[simp] theorem contextAddrs_nil : contextAddrs ([] : AddrContext β) = [] := rfl

@[simp] theorem contextAddrs_cons (f : Frame (Addr × β)) (c : AddrContext β) :
    contextAddrs (f :: c) = f.value.1 :: (addrs f.other ++ contextAddrs c) := by
  simp [contextAddrs, addrs, Context.values]

theorem addrs_plug_perm (c : AddrContext β) (t : AddrTree β) :
    (addrs (plug c t)).Perm (addrs t ++ contextAddrs c) := by
  simpa [addrs, contextAddrs] using (inorder_plug_perm c t).map Prod.fst

theorem nodup_plug (c : AddrContext β) (t : AddrTree β) :
    (addrs (plug c t)).Nodup ↔
      (addrs t).Nodup ∧ (contextAddrs c).Nodup ∧ List.Disjoint (addrs t) (contextAddrs c) := by
  rw [(addrs_plug_perm c t).nodup_iff, List.nodup_append']

theorem nodup_branch (d : Side) (v : Addr × β) (a b : AddrTree β) :
    (addrs (branch d v a b)).Nodup ↔
      v.1 ∉ addrs a ∧ v.1 ∉ addrs b ∧ (addrs a).Nodup ∧ (addrs b).Nodup ∧
        List.Disjoint (addrs a) (addrs b) := by
  have hp : (addrs (branch d v a b)).Perm (v.1 :: (addrs a ++ addrs b)) := by
    simpa [addrs] using (inorder_branch_perm d v a b).map Prod.fst
  rw [hp.nodup_iff, List.nodup_cons, List.nodup_append', List.mem_append]
  tauto

theorem mem_addrs_plug (c : AddrContext β) (t : AddrTree β) (a : Addr) :
    a ∈ addrs (plug c t) ↔ a ∈ addrs t ∨ a ∈ contextAddrs c := by
  rw [(addrs_plug_perm c t).mem_iff, List.mem_append]

/-- Below a non-empty context the root does not depend on what fills the hole. -/
theorem rootPtr_plug_cons (f : Frame (Addr × β)) (c : AddrContext β) (t u : AddrTree β) :
    rootPtr (plug (f :: c) t) = rootPtr (plug (f :: c) u) := by
  induction c generalizing f t u with
  | nil => simp
  | cons g c ih => exact ih g _ _

/-- Below a non-empty context the root is a node of the context. -/
theorem mem_contextAddrs_of_rootPtr {f : Frame (Addr × β)} {c : AddrContext β} {t : AddrTree β}
    {a : Addr} (h : rootPtr (plug (f :: c) t) = some a) : a ∈ contextAddrs (f :: c) := by
  induction c generalizing f t with
  | nil => simp_all
  | cons g c ih =>
    have hm := ih (f := g) h
    rw [contextAddrs_cons, List.mem_cons, List.mem_append]
    exact .inr (.inr hm)

section Layout

-- How a node is laid out: from the data, the left and the right child pointer, and the
-- pointer to the node it hangs from. Nodes without a parent field ignore the last one.
variable (cell : β → Ptr → Ptr → Ptr → ν)

def cellAt (d : Side) (x : β) (near far up : Ptr) : ν :=
  match d with
  | .left => cell x near far up
  | .right => cell x far near up

/-- The heap stores this tree, hanging from `up`: every node holds its data and the
addresses of exactly its children and of the node it hangs from. -/
def Linked (h : Heap ν) : Ptr → AddrTree β → Prop
  | _, .nil => True
  | up, .node v l r =>
    h.cells v.1 = some (cell v.2 (rootPtr l) (rootPtr r) up) ∧
      Linked h (some v.1) l ∧ Linked h (some v.1) r

/-- The heap stores a context whose hole is filled by a tree with root `hole`. -/
def Hung (h : Heap ν) (top : Ptr) : AddrContext β → Ptr → Prop
  | [], _ => True
  | f :: c, hole =>
    h.cells f.value.1 =
        some (cellAt cell f.side f.value.2 hole (rootPtr f.other) (upPtr top c)) ∧
      Linked cell h (some f.value.1) f.other ∧ Hung h top c (some f.value.1)

variable {cell} {h h' : Heap ν} {up top hole : Ptr}

@[simp] theorem linked_nil : Linked cell h up nil := trivial

theorem linked_node {v : Addr × β} {l r : AddrTree β} :
    Linked cell h up (node v l r) ↔
      h.cells v.1 = some (cell v.2 (rootPtr l) (rootPtr r) up) ∧
        Linked cell h (some v.1) l ∧ Linked cell h (some v.1) r := Iff.rfl

theorem linked_branch {d : Side} {v : Addr × β} {a b : AddrTree β} :
    Linked cell h up (branch d v a b) ↔
      h.cells v.1 = some (cellAt cell d v.2 (rootPtr a) (rootPtr b) up) ∧
        Linked cell h (some v.1) a ∧ Linked cell h (some v.1) b := by
  cases d with
  | left => rfl
  | right => exact and_congr Iff.rfl And.comm

theorem hung_cons {f : Frame (Addr × β)} {c : AddrContext β} :
    Hung cell h top (f :: c) hole ↔
      h.cells f.value.1 =
          some (cellAt cell f.side f.value.2 hole (rootPtr f.other) (upPtr top c)) ∧
        Linked cell h (some f.value.1) f.other ∧ Hung cell h top c (some f.value.1) := Iff.rfl

/-- A stored tree can be taken apart at any of its subtrees. -/
theorem linked_plug {c : AddrContext β} {t : AddrTree β} :
    Linked cell h top (plug c t) ↔
      Hung cell h top c (rootPtr t) ∧ Linked cell h (upPtr top c) t := by
  induction c generalizing t with
  | nil => simp [Hung]
  | cons f c ih =>
    rw [plug_cons, ih, linked_branch, hung_cons, rootPtr_branch, upPtr_cons]
    tauto

/-- A stored tree stays stored while its own nodes are left alone. -/
theorem Linked.congr {t : AddrTree β} (hl : Linked cell h up t)
    (hc : ∀ a ∈ addrs t, h'.cells a = h.cells a) : Linked cell h' up t := by
  induction t generalizing up with
  | nil => trivial
  | node v l r ihl ihr =>
    obtain ⟨hv, hll, hlr⟩ := hl
    refine ⟨?_, ihl hll fun a ha => hc a (by simp [ha]), ihr hlr fun a ha => hc a (by simp [ha])⟩
    rw [hc v.1 (by simp)]
    exact hv

theorem Hung.congr {c : AddrContext β} (hu : Hung cell h top c hole)
    (hc : ∀ a ∈ contextAddrs c, h'.cells a = h.cells a) : Hung cell h' top c hole := by
  induction c generalizing hole with
  | nil => trivial
  | cons f c ih =>
    obtain ⟨hf, ho, hr⟩ := hu
    refine ⟨?_, ho.congr fun a ha => hc a (by simp [ha]), ih hr fun a ha => hc a (by simp [ha])⟩
    rw [hc f.value.1 (by simp)]
    exact hf

theorem Linked.within {t : AddrTree β} {A : List Addr} (hl : Linked cell h up t)
    (hw : Heap.Within A h h') (hd : ∀ a ∈ addrs t, a ∉ A) : Linked cell h' up t :=
  hl.congr fun a ha => hw.same a (hd a ha)

theorem Hung.within {c : AddrContext β} {A : List Addr} (hu : Hung cell h top c hole)
    (hw : Heap.Within A h h') (hd : ∀ a ∈ contextAddrs c, a ∉ A) : Hung cell h' top c hole :=
  hu.congr fun a ha => hw.same a (hd a ha)

theorem Linked.modify {t : AddrTree β} {a : Addr} {f : ν → ν} (hl : Linked cell h up t)
    (ha : a ∉ addrs t) : Linked cell (h.modify a f) up t :=
  hl.within (h.within_modify a f) fun _ hb he => ha (List.mem_singleton.mp he ▸ hb)

theorem Hung.modify {c : AddrContext β} {a : Addr} {f : ν → ν} (hu : Hung cell h top c hole)
    (ha : a ∉ contextAddrs c) : Hung cell (h.modify a f) top c hole :=
  hu.within (h.within_modify a f) fun _ hb he => ha (List.mem_singleton.mp he ▸ hb)

/-- A new node is not part of any stored tree. -/
theorem Linked.alloc {t : AddrTree β} {n : ν} (hl : Linked cell h up t) (ha : h.next ∉ addrs t) :
    Linked cell (h.alloc n) up t :=
  hl.congr fun a hm => by
    rw [Heap.alloc_cells, if_neg]
    intro heq
    subst heq
    exact ha hm

theorem Hung.alloc {c : AddrContext β} {n : ν} (hu : Hung cell h top c hole)
    (ha : h.next ∉ contextAddrs c) : Hung cell (h.alloc n) top c hole :=
  hu.congr fun a hm => by
    rw [Heap.alloc_cells, if_neg]
    intro heq
    subst heq
    exact ha hm

/-- Releasing a node leaves the trees it is not part of. -/
theorem Linked.release {t : AddrTree β} {a : Addr} (hl : Linked cell h up t) (ha : a ∉ addrs t) :
    Linked cell (h.release a) up t :=
  hl.congr fun b hm => by
    rw [Heap.release_cells, if_neg]
    intro heq
    subst heq
    exact ha hm

theorem Hung.release {c : AddrContext β} {a : Addr} (hu : Hung cell h top c hole)
    (ha : a ∉ contextAddrs c) : Hung cell (h.release a) top c hole :=
  hu.congr fun b hm => by
    rw [Heap.release_cells, if_neg]
    intro heq
    subst heq
    exact ha hm

/-- Rewriting only the root node rehangs or relabels a stored tree. -/
theorem Linked.root_congr {d : Side} {v w : Addr × β} {a b : AddrTree β} {up' : Ptr}
    (hl : Linked cell h up (branch d v a b)) (he : w.1 = v.1)
    (hv : h'.cells v.1 = some (cellAt cell d w.2 (rootPtr a) (rootPtr b) up'))
    (hc : ∀ x, x ∈ addrs a ∨ x ∈ addrs b → h'.cells x = h.cells x) :
    Linked cell h' up' (branch d w a b) := by
  rw [linked_branch] at hl ⊢
  rw [he]
  exact ⟨hv, hl.2.1.congr fun x hx => hc x (.inl hx), hl.2.2.congr fun x hx => hc x (.inr hx)⟩

/-- Rewriting only the child pointer at the hole changes what fills the hole. -/
theorem Hung.hole_congr {f : Frame (Addr × β)} {c : AddrContext β} {hole' : Ptr}
    (hu : Hung cell h top (f :: c) hole)
    (hf : h'.cells f.value.1 =
      some (cellAt cell f.side f.value.2 hole' (rootPtr f.other) (upPtr top c)))
    (hc : ∀ x, x ∈ addrs f.other ∨ x ∈ contextAddrs c → h'.cells x = h.cells x) :
    Hung cell h' top (f :: c) hole' :=
  ⟨hf, hu.2.1.congr fun x hx => hc x (.inl hx), hu.2.2.congr fun x hx => hc x (.inr hx)⟩

end Layout

end LanguageTest
