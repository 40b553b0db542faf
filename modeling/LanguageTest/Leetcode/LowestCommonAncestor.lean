import LanguageTest.Library.Ancestors
import LanguageTest.Library.Traversal

namespace LanguageTest.LowestCommonAncestor
open BinaryTree

structure TreeNode where
  val : Int
  left : Ptr
  right : Ptr

abbrev State := Machine Unit TreeNode

/-- The first argument bounds the depth of the recursion. -/
def lowestCommonAncestor : Nat → Ptr → Ptr → Ptr → Program State Ptr
  | 0, _, _, _ => fail .outOfFuel
  | fuel + 1, root, p, q => do
    if root = p ∨ root = q ∨ root.isNone then pure root
    else
      let left ← lowestCommonAncestor fuel (← load root).left p q
      let right ← lowestCommonAncestor fuel (← load root).right p q
      if left.isNone ∧ right.isNone then pure none
      else if left.isSome ∧ right.isSome then pure root
      else if left.isSome then pure left
      else pure right

/-- Both nodes are in the tree. -/
def Both (p q : Addr) (t : AddrTree Int) : Prop := p ∈ addrs t ∧ q ∈ addrs t

/-- What the result means depends on which of the two nodes are in the tree. -/
structure Answer (p q : Addr) (t : AddrTree Int) (r : Ptr) : Prop where
  neither : p ∉ addrs t → q ∉ addrs t → r = none
  first : p ∈ addrs t → q ∉ addrs t → r = some p
  second : p ∉ addrs t → q ∈ addrs t → r = some q
  both : p ∈ addrs t → q ∈ addrs t → ∃ n u, DeepestAt (Both p q) n u t ∧ r = rootPtr u

section
variable {p q : Addr} {t u l r : AddrTree Int} {v : Addr × Int} {a b : Ptr} {s : State} {fuel : Nat}

theorem upward_both : Upward (Both p q) where
  left v l r h := by simp [Both, h.1, h.2]
  right v l r h := by simp [Both, h.1, h.2]

theorem Answer.isNone_iff (h : Answer p q t a) : a = none ↔ p ∉ addrs t ∧ q ∉ addrs t := by
  constructor
  · rintro rfl
    by_cases hp : p ∈ addrs t <;> by_cases hq : q ∈ addrs t
    · obtain ⟨n, u, hu, hroot⟩ := h.both hp hq
      obtain rfl := rootPtr_eq_none.mp hroot.symm
      exact absurd hu.holds.1 List.not_mem_nil
    · exact absurd (h.first hp hq) nofun
    · exact absurd (h.second hp hq) nofun
    · exact ⟨hp, hq⟩
  · exact fun hnone => h.neither hnone.1 hnone.2

/-- The root is one of the two nodes. The other one may be below it. -/
theorem answer_root (hnodup : (addrs (node v l r)).Nodup) (hroot : v.1 = p ∨ v.1 = q) :
    Answer p q (node v l r) (some v.1) := by
  obtain ⟨hvl, hvr, -⟩ := (nodup_branch .left v l r).mp hnodup
  have hv : v.1 ∈ addrs (node v l r) := by simp
  constructor
  case neither =>
    intro hp hq
    rcases hroot with rfl | rfl
    · exact absurd hv hp
    · exact absurd hv hq
  case first =>
    intro hp hq
    rcases hroot with rfl | rfl
    · rfl
    · exact absurd hv hq
  case second =>
    intro hp hq
    rcases hroot with rfl | rfl
    · exact absurd hv hp
    · rfl
  case both =>
    intro hp hq
    have hnot {t : AddrTree Int} (ht : v.1 ∉ addrs t) : ¬ Both p q t := by
      rintro ⟨hp, hq⟩
      rcases hroot with rfl | rfl
      · exact ht hp
      · exact ht hq
    exact ⟨0, _, DeepestAt.root upward_both ⟨hp, hq⟩ (hnot hvl) (hnot hvr), rfl⟩

/-- A larger tree without any of the nodes in the rest of it. -/
theorem Answer.lift (h : Answer p q t a) (hp : p ∈ addrs u ↔ p ∈ addrs t)
    (hq : q ∈ addrs u ↔ q ∈ addrs t)
    (hdeepest : ∀ n w, DeepestAt (Both p q) n w t → DeepestAt (Both p q) (n + 1) w u) :
    Answer p q u a := by
  refine ⟨?_, ?_, ?_, ?_⟩ <;> rw [hp, hq]
  · exact h.neither
  · exact h.first
  · exact h.second
  · intro hpt hqt
    obtain ⟨n, w, hw, hroot⟩ := h.both hpt hqt
    exact ⟨n + 1, w, hdeepest n w hw, hroot⟩

theorem Answer.left (h : Answer p q l a) (hp : v.1 ≠ p) (hq : v.1 ≠ q)
    (hnone : p ∉ addrs r ∧ q ∉ addrs r) : Answer p q (node v l r) a :=
  h.lift (by simp [hp.symm, hnone.1]) (by simp [hq.symm, hnone.2])
    fun _ _ hw => hw.left upward_both fun hr => hnone.1 hr.1

theorem Answer.right (h : Answer p q r b) (hp : v.1 ≠ p) (hq : v.1 ≠ q)
    (hnone : p ∉ addrs l ∧ q ∉ addrs l) : Answer p q (node v l r) b :=
  h.lift (by simp [hp.symm, hnone.1]) (by simp [hq.symm, hnone.2])
    fun _ _ hw => hw.right upward_both fun hl => hnone.1 hl.1

/-- One of the nodes is on each side. -/
theorem answer_apart (hdisjoint : List.Disjoint (addrs l) (addrs r))
    (hl : ¬ (p ∉ addrs l ∧ q ∉ addrs l)) (hr : ¬ (p ∉ addrs r ∧ q ∉ addrs r)) :
    Answer p q (node v l r) (some v.1) := by
  have hp := @hdisjoint p
  have hq := @hdisjoint q
  have hboth : Both p q (node v l r) := by
    simp only [Both, addrs_node, List.mem_append, List.mem_cons]
    tauto
  have hnotl : ¬ Both p q l := by
    rintro ⟨hpl, hql⟩
    exact hr ⟨hp hpl, hq hql⟩
  have hnotr : ¬ Both p q r := by
    rintro ⟨hpr, hqr⟩
    exact hl ⟨fun hpl => hp hpl hpr, fun hql => hq hql hqr⟩
  exact ⟨fun hnone => absurd hboth.1 hnone, fun _ hnone => absurd hboth.2 hnone,
    fun hnone => absurd hboth.1 hnone,
    fun _ _ => ⟨0, _, DeepestAt.root upward_both hboth hnotl hnotr, rfl⟩⟩

theorem runs_lowestCommonAncestor (hl : Laid TreeNode.mk s.heap t) (hnodup : (addrs t).Nodup)
    (hf : t.numNodes < fuel) :
    Runs (lowestCommonAncestor fuel (rootPtr t) (some p) (some q)) s fun r u =>
      u = s ∧ Answer p q t r := by
  induction t generalizing fuel with
  | nil =>
    obtain ⟨fuel, rfl⟩ : ∃ f, fuel = f + 1 := ⟨fuel - 1, by omega⟩
    rw [lowestCommonAncestor, rootPtr_nil, if_pos (Or.inr (Or.inr Option.isNone_none)), runs_pure]
    exact ⟨rfl, fun _ _ => rfl, nofun, nofun, nofun⟩
  | node v l r ihl ihr =>
    obtain ⟨fuel, rfl⟩ : ∃ f, fuel = f + 1 := ⟨fuel - 1, by omega⟩
    obtain ⟨hcell, hll, hlr⟩ := laid_node.mp hl
    obtain ⟨-, -, hnl, hnr, hdisjoint⟩ := (nodup_branch .left v l r).mp hnodup
    rw [numNodes] at hf
    rw [lowestCommonAncestor, rootPtr_node]
    by_cases hroot : v.1 = p ∨ v.1 = q
    · rw [if_pos (by simpa using hroot), runs_pure]
      exact ⟨rfl, answer_root hnodup hroot⟩
    · obtain ⟨hp, hq⟩ := not_or.mp hroot
      rw [if_neg (by simp [hp, hq]), runs_bind, runs_load]
      refine ⟨_, hcell, ?_⟩
      rw [runs_bind]
      refine (ihl hll hnl (by omega)).mono ?_
      rintro a _ ⟨rfl, ha⟩
      rw [runs_bind, runs_load]
      refine ⟨_, hcell, ?_⟩
      rw [runs_bind]
      refine (ihr hlr hnr (by omega)).mono ?_
      rintro b _ ⟨rfl, hb⟩
      cases a with
      | none =>
        have hright := hb.right hp hq (ha.isNone_iff.mp rfl)
        cases b with
        | none => exact runs_pure.mpr ⟨rfl, hright⟩
        | some b => exact runs_pure.mpr ⟨rfl, hright⟩
      | some a =>
        cases b with
        | none => exact runs_pure.mpr ⟨rfl, ha.left hp hq (hb.isNone_iff.mp rfl)⟩
        | some b =>
          refine runs_pure.mpr ⟨rfl, answer_apart hdisjoint ?_ ?_⟩
          · rw [← ha.isNone_iff]
            nofun
          · rw [← hb.isNone_iff]
            nofun

/-- A subtree is laid out as a tree of its own. -/
theorem laid_subtree {n : Nat} {u : AddrTree Int} (h : SubtreeAt n u t)
    (hl : Laid TreeNode.mk s.heap t) (hnodup : (addrs t).Nodup) :
    Laid TreeNode.mk s.heap u ∧ (addrs u).Nodup ∧ u.numNodes ≤ t.numNodes := by
  induction h with
  | root => exact ⟨hl, hnodup, Nat.le_refl _⟩
  | left v r _ ih =>
    obtain ⟨-, -, hnl, -⟩ := (nodup_branch .left v _ r).mp hnodup
    obtain ⟨hlaid, hu, hle⟩ := ih (laid_node.mp hl).2.1 hnl
    exact ⟨hlaid, hu, by rw [numNodes]; omega⟩
  | right v l _ ih =>
    obtain ⟨-, -, -, hnr, -⟩ := (nodup_branch .left v l _).mp hnodup
    obtain ⟨hlaid, hu, hle⟩ := ih (laid_node.mp hl).2.2 hnr
    exact ⟨hlaid, hu, by rw [numNodes]; omega⟩

end

/-- The deepest subtree with both nodes, and NULL on the subtrees with neither. -/
theorem lowestCommonAncestor_deepest (s : State) (t : AddrTree Int)
    (hlaid : Laid TreeNode.mk s.heap t) (hnodup : (addrs t).Nodup) (p q : Addr)
    (hp : p ∈ addrs t) (hq : q ∈ addrs t) (fuel : Nat) (hf : t.numNodes < fuel) :
    (Runs (lowestCommonAncestor fuel (rootPtr t) (some p) (some q)) s fun r u => u = s ∧
      ∃ n w, SubtreeAt n w t ∧ p ∈ addrs w ∧ q ∈ addrs w ∧ r = rootPtr w ∧
        ∀ m w', SubtreeAt m w' t → p ∈ addrs w' → q ∈ addrs w' → m < n ∨ m = n ∧ w' = w) ∧
    ∀ n w, SubtreeAt n w t →
      Runs (lowestCommonAncestor fuel (rootPtr w) (some p) (some q)) s fun r u => u = s ∧
        (r = none ↔ p ∉ addrs w ∧ q ∉ addrs w) := by
  constructor
  · refine (runs_lowestCommonAncestor hlaid hnodup hf).mono ?_
    rintro r u ⟨rfl, hr⟩
    obtain ⟨n, w, hw, hroot⟩ := hr.both hp hq
    exact ⟨rfl, n, w, hw.subtree, hw.holds.1, hw.holds.2, hroot,
      fun m w' hsub hp' hq' => hw.deepest m w' hsub ⟨hp', hq'⟩⟩
  · intro n w hw
    obtain ⟨hl, hn, hle⟩ := laid_subtree hw hlaid hnodup
    exact (runs_lowestCommonAncestor hl hn (hle.trans_lt hf)).mono
      fun r u ⟨hu, hr⟩ => ⟨hu, hr.isNone_iff⟩

/-- A root with two children. -/
def sampleTree : AddrTree Int := node (0, 3) (node (1, 5) nil nil) (node (2, 1) nil nil)

def sampleState : State :=
  ⟨(), ((Heap.empty.alloc ⟨3, some 1, some 2⟩).alloc ⟨5, none, none⟩).alloc ⟨1, none, none⟩⟩

theorem lowestCommonAncestor_deepest_sample :
    (Runs (lowestCommonAncestor 4 (rootPtr sampleTree) (some 1) (some 2)) sampleState fun r u =>
      u = sampleState ∧ ∃ n w, SubtreeAt n w sampleTree ∧ 1 ∈ addrs w ∧ 2 ∈ addrs w ∧
        r = rootPtr w ∧ ∀ m w', SubtreeAt m w' sampleTree → 1 ∈ addrs w' → 2 ∈ addrs w' →
          m < n ∨ m = n ∧ w' = w) ∧
    ∀ n w, SubtreeAt n w sampleTree →
      Runs (lowestCommonAncestor 4 (rootPtr w) (some 1) (some 2)) sampleState fun r u =>
        u = sampleState ∧ (r = none ↔ 1 ∉ addrs w ∧ 2 ∉ addrs w) :=
  lowestCommonAncestor_deepest sampleState sampleTree
    ⟨rfl, ⟨rfl, trivial, trivial⟩, rfl, trivial, trivial⟩ (by decide) 1 2 (by decide) (by decide) 4
    (by decide)

end LanguageTest.LowestCommonAncestor
