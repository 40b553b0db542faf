import LanguageTest.Library.Ordered
import LanguageTest.Library.RedBlack
import LanguageTest.Tree.RBTree

namespace LanguageTest.RBTree
open BinaryTree

/-- The data of a node: its colour and its key. -/
abbrev Item := RBTColor × Int

/-- The shape that a heap of nodes stands for. -/
abbrev Shape := AddrTree Item

def isRed (v : Addr × Item) : Bool := v.2.1 == .red

def keyOf (v : Addr × Item) : Int := v.2.2

/-- The stored keys from left to right. -/
def keys (t : Shape) : List Int := t.inorder.map keyOf

/-- The node identities and keys from left to right, without the colours. -/
def entries (t : Shape) : List (Addr × Int) := t.inorder.map fun v => (v.1, v.2.2)

def cell (x : Item) (l r p : Ptr) : RBTNode := ⟨x.1, x.2, l, r, p⟩

/-- The nodes reached from `mRoot` form this tree, every parent pointer names exactly the node
it hangs from, and the heap holds nothing else but perhaps one detached node. -/
structure Represents (s : State) (t : Shape) (spare : Ptr) : Prop where
  root : s.object.mRoot = rootPtr t
  linked : Linked cell s.heap none t
  nodup : (addrs t).Nodup
  domain : ∀ a, (s.heap.cells a).isSome = true ↔ a ∈ addrs t ∨ spare = some a

@[simp] theorem isRed_red (a : Addr) (k : Int) : isRed (a, .red, k) = true := rfl

@[simp] theorem isRed_black (a : Addr) (k : Int) : isRed (a, .black, k) = false := rfl

section
variable (d : Side) (x : Item) (near far up p : Ptr)

@[simp] theorem cellAt_color : (cellAt cell d x near far up).color = x.1 := by cases d <;> rfl

@[simp] theorem cellAt_key : (cellAt cell d x near far up).key = x.2 := by cases d <;> rfl

@[simp] theorem cellAt_parent : (cellAt cell d x near far up).parent = up := by cases d <;> rfl

theorem cellAt_child_eq (e : Side) :
    (cellAt cell e x near far up).child d = if d = e then near else far := by
  cases d <;> cases e <;> rfl

/-- Comparing the left child with the node tells on which side the node is. -/
theorem ite_left_eq {γ : Type} (F : Side → γ) (h : far ≠ near) :
    (if (cellAt cell d x near far up).left = near then F .left else F .right) = F d := by
  cases d <;> simp [cellAt, cell, h]

@[simp] theorem cellAt_child : (cellAt cell d x near far up).child d = near := by
  cases d <;> rfl

@[simp] theorem cellAt_child_other : (cellAt cell d x near far up).child d.other = far := by
  cases d <;> rfl

@[simp] theorem cellAt_setColor (c : RBTColor) :
    (cellAt cell d x near far up).setColor c = cellAt cell d (c, x.2) near far up := by
  cases d <;> rfl

@[simp] theorem cellAt_setParent :
    (cellAt cell d x near far up).setParent p = cellAt cell d x near far p := by
  cases d <;> rfl

@[simp] theorem cellAt_setChild :
    (cellAt cell d x near far up).setChild d p = cellAt cell d x p far up := by
  cases d <;> rfl

@[simp] theorem cellAt_setChild_other :
    (cellAt cell d x near far up).setChild d.other p = cellAt cell d x near p up := by
  cases d <;> rfl

end

variable {s : State} {spare : Ptr} {c : AddrContext Item} {d : Side}

theorem entries_recolor (d : Side) (v : Addr × Item) (k : RBTColor) (a b : Shape) :
    entries (branch d (v.1, k, v.2.2) a b) = entries (branch d v a b) := by
  cases d <;> simp [entries]

theorem keys_eq_entries (t : Shape) : keys t = (entries t).map Prod.snd := by
  rw [keys, entries, List.map_map]
  rfl

theorem sorted_iff {t : Shape} : Sorted keyOf t ↔ (keys t).Pairwise (· ≤ ·) :=
  List.pairwise_map.symm

/-- The order of a tree is a property of its entries: colours do not matter. -/
theorem sorted_of_entries {t u : Shape} (hs : Sorted keyOf u) (h : entries t = entries u) :
    Sorted keyOf t := by
  rw [sorted_iff, keys_eq_entries] at hs ⊢
  rwa [h]

theorem runs_adopt {t : Shape} {up p : Ptr} (hl : Linked cell s.heap up t)
    (hn : (addrs t).Nodup) :
    Runs (adopt (rootPtr t) p) s fun _ u =>
      u.object = s.object ∧ Linked cell u.heap p t ∧ Heap.Within (addrs t) s.heap u.heap := by
  cases t with
  | nil => simpa [adopt] using Heap.Within.refl _ _
  | node v l r =>
    have hv := hl.1
    simp only [adopt, rootPtr_node, Option.isSome_some, ↓reduceIte, rbSetParent, runs_modify, hv,
      true_and]
    refine ⟨?_, (Heap.within_modify _ _ _).mono (by simp)⟩
    rw [← branch_left, nodup_branch] at hn
    refine hl.root_congr (d := .left) (w := v) rfl (by simp [hv, cellAt, cell, RBTNode.setParent]) ?_
    intro x hx
    rw [Heap.modify_cells, if_neg]
    intro heq
    subst heq
    exact hx.elim hn.1 hn.2.1

/-- Hanging a tree that is there from another node. -/
theorem runs_setParent {t : Shape} {up p : Ptr} (hl : Linked cell s.heap up t)
    (hn : (addrs t).Nodup) (ht : t ≠ nil) :
    Runs (rbSetParent (rootPtr t) p) s fun _ u =>
      u.object = s.object ∧ Linked cell u.heap p t ∧ Heap.Within (addrs t) s.heap u.heap := by
  have h := runs_adopt (p := p) hl hn
  rwa [adopt, if_pos (by simpa [Option.isSome_iff_ne_none] using ht)] at h

theorem runs_replaceChild {a : Addr} {y : Ptr} (hc : Hung cell s.heap none c (some a))
    (ha : a ∉ contextAddrs c) (hn : (contextAddrs c).Nodup) :
    Runs (replaceChild d (upPtr none c) (some a) y) s fun _ u =>
      u.object.mRoot = (if c = [] then y else s.object.mRoot) ∧ Hung cell u.heap none c y ∧
        Heap.Within (contextAddrs c) s.heap u.heap := by
  cases c with
  | nil => simpa [replaceChild, setRoot, Hung] using Heap.Within.refl _ _
  | cons f c =>
    have hf := hc.1
    obtain ⟨e, v, t⟩ := f
    rw [contextAddrs_cons, List.nodup_cons, List.mem_append] at hn
    have hw : ∀ g, Heap.Within (contextAddrs (⟨e, v, t⟩ :: c)) s.heap (s.heap.modify v.1 g) :=
      fun g => (Heap.within_modify _ _ _).mono (by simp)
    have hh : ∀ g, (∀ p, g (cellAt cell e v.2 (some a) (rootPtr t) p) =
        cellAt cell e v.2 y (rootPtr t) p) →
        Hung cell (s.heap.modify v.1 g) none (⟨e, v, t⟩ :: c) y := by
      intro g hg
      refine hc.hole_congr (by simp [hf, hg]) ?_
      intro x hx
      rw [Heap.modify_cells, if_neg]
      intro heq
      subst heq
      exact hn.1 hx
    have hne : rootPtr t ≠ some a := fun he => ha (by simp [mem_addrs_of_rootPtr he])
    -- The parent's child on side `d` is the hole itself or the sibling, which is not `a`.
    rcases d.eq_or_other e with rfl | rfl
    · simp only [replaceChild, upPtr_cons, Option.isNone_some, Bool.false_eq_true, ↓reduceIte,
        runs_bind, runs_load, hf, Option.some.injEq, exists_eq_left', cellAt_child, runs_modify,
        Option.isSome_some, true_and, reduceCtorEq]
      exact ⟨hh _ fun p => by simp, hw _⟩
    · simp only [replaceChild, upPtr_cons, Option.isNone_some, Bool.false_eq_true, ↓reduceIte,
        runs_bind, runs_load, hf, Option.some.injEq, exists_eq_left', cellAt_child_other, hne,
        runs_modify, Option.isSome_some, true_and, reduceCtorEq, Side.other_other]
      exact ⟨hh _ fun p => by simp, hw _⟩

/-- What a load through a pointer into the tree returns. -/
theorem Represents.load {v : Addr × Item} {a b : Shape}
    (h : Represents s (plug c (branch d v a b)) spare) :
    s.heap.cells v.1 = some (cellAt cell d v.2 (rootPtr a) (rootPtr b) (upPtr none c)) :=
  (linked_branch.mp (linked_plug.mp h.linked).2).1

/-- A node and its sibling are different nodes, and not both absent. -/
theorem Represents.sibling_ne {f : Frame (Addr × Item)} {t : Shape}
    (h : Represents s (plug (f :: c) t) spare) (hne : t ≠ nil ∨ f.other ≠ nil) :
    rootPtr f.other ≠ rootPtr t := by
  intro he
  cases t with
  | nil => simp_all
  | node v l r =>
    have hn := h.nodup
    rw [nodup_plug, contextAddrs_cons] at hn
    have hm : v.1 ∈ addrs f.other := mem_addrs_of_rootPtr he
    exact hn.2.2 (show v.1 ∈ addrs (node v l r) by simp) (by simp [hm])

theorem Represents.runs_presentAndRed {t : Shape} {Q : Bool → State → Prop}
    (h : Represents s (plug c t) spare) :
    Runs (presentAndRed (rootPtr t)) s Q ↔ Q (t.rootRed isRed) s := by
  cases t with
  | nil => simp [presentAndRed]
  | node v l r =>
    have hv := h.load (d := .left)
    simp only [presentAndRed, rootPtr_node, rbIsRed, runs_bind, runs_load, hv, Option.some.injEq,
      exists_eq_left', runs_pure, cellAt_color]
    rfl

theorem Represents.runs_presentAndRed_branch {v : Addr × Item} {a b : Shape}
    {Q : Bool → State → Prop} (h : Represents s (plug c (branch d v a b)) spare) :
    Runs (presentAndRed (some v.1)) s Q ↔ Q (isRed v) s := by
  have hr := h.runs_presentAndRed (Q := Q)
  rwa [rootPtr_branch, rootRed_branch] at hr

theorem Represents.runs_absentOrBlack {t : Shape} {Q : Bool → State → Prop}
    (h : Represents s (plug c t) spare) :
    Runs (absentOrBlack (rootPtr t)) s Q ↔ Q (!t.rootRed isRed) s := by
  cases t with
  | nil => simp [absentOrBlack]
  | node v l r =>
    have hv := h.load (d := .left)
    simp only [absentOrBlack, rootPtr_node, rbIsBlack, runs_bind, runs_load, hv, Option.some.injEq,
      exists_eq_left', runs_pure, cellAt_color]
    rcases v with ⟨a, k, x⟩
    cases k <;> rfl

/-- Filling a hole with another tree on the same nodes keeps the root and the domain. -/
theorem Represents.refill {t : Shape} (h : Represents s (plug c t) spare) {u : State} {t' : Shape}
    (hi : addrs t' = addrs t)
    (hr : u.object.mRoot = if c = [] then rootPtr t' else s.object.mRoot)
    (hc : Hung cell u.heap none c (rootPtr t')) (hl : Linked cell u.heap (upPtr none c) t')
    (hd : ∀ a, (u.heap.cells a).isSome = (s.heap.cells a).isSome) :
    Represents u (plug c t') spare := by
  have hm : ∀ a, a ∈ addrs (plug c t') ↔ a ∈ addrs (plug c t) := by
    simp [mem_addrs_plug, hi]
  refine ⟨?_, linked_plug.mpr ⟨hc, hl⟩, ?_, fun a => by rw [hd, h.domain, hm]⟩
  · cases c with
    | nil => simpa using hr
    | cons f c =>
      rw [hr, if_neg (by simp), h.root]
      exact rootPtr_plug_cons f c _ _
  · have hn := h.nodup
    rw [nodup_plug] at hn ⊢
    rwa [hi]

theorem Represents.setColor {v : Addr × Item} {a b : Shape} (k : RBTColor)
    (h : Represents s (plug c (branch d v a b)) spare) :
    Runs (rbSetColor (some v.1) k) s fun _ u =>
      Represents u (plug c (branch d (v.1, k, v.2.2) a b)) spare := by
  have hv := h.load
  have hn := h.nodup
  simp only [nodup_plug, nodup_branch] at hn
  simp only [rbSetColor, runs_modify, hv, Option.isSome_some, true_and]
  obtain ⟨hc, hl⟩ := linked_plug.mp h.linked
  rw [rootPtr_branch] at hc
  refine h.refill (by cases d <;> simp) ?_ ?_ ?_ fun a => s.heap.modify_isSome _ _ _
  · cases c with
    | nil => simpa using h.root
    | cons f c => simp
  · rw [rootPtr_branch]
    exact hc.modify (hn.2.2 (by simp))
  · refine hl.root_congr rfl (by simp [hv]) ?_
    intro x hx
    rw [Heap.modify_cells, if_neg]
    intro heq
    subst heq
    exact hx.elim hn.1.1 hn.1.2.1

/-- A rotation at `x` lifts its child on the other side and keeps everything around. -/
theorem Represents.rotate {x y : Addr × Item} {lx ly ry : Shape}
    (h : Represents s (plug c (branch d x lx (branch d y ly ry))) spare) :
    Runs (RBTree.rotate d (some x.1)) s fun _ u =>
      Represents u (plug c (branch d y (branch d x lx ly) ry)) spare := by
  have hl := h.linked
  have hn := h.nodup
  rw [linked_plug, linked_branch, linked_branch, rootPtr_branch, rootPtr_branch] at hl
  obtain ⟨hc, hx, hlx, hy, hly, hry⟩ := hl
  simp only [nodup_plug, nodup_branch, List.Disjoint, mem_addrs_branch, not_or] at hn
  obtain ⟨⟨hxlx, ⟨hxy, hxly, hxry⟩, _, ⟨hyly, hyry, hlyn, _, hlyry⟩, hlxr⟩, hcn, hcd⟩ := hn
  have hxc : x.1 ∉ contextAddrs c := hcd (.inl rfl)
  have hyc : y.1 ∉ contextAddrs c := hcd (.inr (.inr (.inl rfl)))
  simp only [RBTree.rotate, rbSetParent, runs_bind, runs_load, runs_modify, hx, hy,
    Option.some.injEq, exists_eq_left', cellAt_child, cellAt_child_other, Option.isSome_some,
    true_and, Heap.modify_cells, Ne.symm hxy, ↓reduceIte]
  -- The inner subtree moves under `x`.
  refine (runs_adopt (hly.modify hxly) hlyn).mono ?_
  intro _ s1 hpost
  obtain ⟨ho1, hly1, hw1⟩ := hpost
  have hx1 : s1.heap.cells x.1 =
      some (cellAt cell d x.2 (rootPtr lx) (rootPtr ly) (upPtr none c)) := by
    simp [hw1.same x.1 hxly, hx]
  have hy1 : s1.heap.cells y.1 =
      some (cellAt cell d y.2 (rootPtr ly) (rootPtr ry) (some x.1)) := by
    simp [hw1.same y.1 hyly, hy, Ne.symm hxy]
  simp only [hx1, hy1, Option.some.injEq, exists_eq_left', hxy, ↓reduceIte, Option.isSome_some,
    true_and, cellAt_parent]
  -- `y` takes the place of `x`.
  have hc1 := (hc.modify (f := RBTNode.setChild d.other (rootPtr ly)) hxc).within hw1
    fun a ha hm => hcd (.inr (.inr (.inr (.inl hm)))) ha
  refine (runs_replaceChild (hc1.modify hyc) hxc hcn).mono ?_
  intro _ s3 hpost
  obtain ⟨hr3, hc3, hw3⟩ := hpost
  have hx3 : s3.heap.cells x.1 =
      some (cellAt cell d x.2 (rootPtr lx) (rootPtr ly) (upPtr none c)) := by
    simp [hw3.same x.1 hxc, hx1, hxy]
  have hy3 : s3.heap.cells y.1 =
      some (cellAt cell d y.2 (rootPtr ly) (rootPtr ry) (upPtr none c)) := by
    simp [hw3.same y.1 hyc, hy1]
  simp only [hy3, hx3, Option.isSome_some, true_and]
  have hlx1 := (hlx.modify (f := RBTNode.setChild d.other (rootPtr ly)) hxlx).within hw1
    fun a ha hm => hlxr ha (.inr (.inl hm))
  have hry1 := (hry.modify (f := RBTNode.setChild d.other (rootPtr ly)) hxry).within hw1
    fun a ha hm => hlyry hm ha
  have hlx3 := (hlx1.modify fun hm => hlxr hm (.inl rfl)).within hw3
    fun a ha hm => hcd (.inr (.inl ha)) hm
  have hly3 := (hly1.modify hyly).within hw3
    fun a ha hm => hcd (.inr (.inr (.inr (.inl ha)))) hm
  have hry3 := (hry1.modify hyry).within hw3
    fun a ha hm => hcd (.inr (.inr (.inr (.inr ha)))) hm
  refine h.refill (by simp [addrs, inorder_rotate]) ?_ ?_ ?_ fun a => ?_
  · rw [hr3, ho1, rootPtr_branch]
  · rw [rootPtr_branch]
    exact (hc3.modify hyc).modify hxc
  · rw [linked_branch, linked_branch, rootPtr_branch]
    refine ⟨by simp [Ne.symm hxy, hy3], ⟨by simp [hxy, hx3], ?_, ?_⟩, ?_⟩
    · exact (hlx3.modify fun hm => hlxr hm (.inl rfl)).modify hxlx
    · exact (hly3.modify hyly).modify hxly
    · exact (hry3.modify hyry).modify hxry
  · simp only [Heap.modify_isSome, hw3.isSome, hw1.isSome]

end LanguageTest.RBTree
