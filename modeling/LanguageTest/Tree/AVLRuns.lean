import Mathlib.Data.Set.Insert
import LanguageTest.Tree.AVLInvariant

namespace LanguageTest.AVL
open BinaryTree

/-- The height a subtree may gain from an insertion. A subtree that grew, and was not empty, is
higher on one side, so one of the strict tests of the level above applies to it. -/
def Grows (t t' : NodePtr) : Prop :=
  t'.height = t.height ∨ t'.height = t.height + 1 ∧ (t = nil ∨ t'.Leaning)

/-- The height a subtree may lose by an erasure. -/
def Shrinks (t t' : NodePtr) : Prop := t'.height = t.height ∨ t'.height + 1 = t.height

variable {s : State} {d : Side} {v : Node} {a a' c t : NodePtr} {key : Int}

theorem exists_branch_of_height (d : Side) {n : Nat} (h : t.height = n + 1) :
    ∃ x p q, t = branch d x p q := by
  refine BinaryTree.exists_branch d ?_
  intro heq
  subst heq
  cases h

theorem insertLevel (hv : Exact (branch d v a c)) (hb : (branch d v a c).HeightBalanced)
    (ha' : Exact a') (hab : a'.HeightBalanced) (hg : Grows a a') :
    Runs (rebalanceAt insertBranch d v a' c) s fun t u => Continues s u ∧ Exact t ∧
      t.HeightBalanced ∧ keys t = keys (branch d v a' c) ∧ Grows (branch d v a c) t ∧
      (a' = a → t = branch d v a c) := by
  obtain ⟨-, ha, hc⟩ := exact_branch.mp hv
  obtain ⟨h1, h2, -, hcb⟩ := balanced_branch.mp hb
  by_cases hn : (branch d v a' c).HeightBalanced
  · refine (rebalanceAt_near (insertBranch_near ha' hc hn) ha' hc hn).mono ?_
    intro _ u hpost
    obtain ⟨hu, rfl⟩ := hpost
    refine ⟨hu, exact_updateAt ha' hc, balanced_updateAt.mpr hn, keys_updateAt, ?_, ?_⟩
    · rw [Grows, height_updateAt, height_branch, updateAt_eq ha' hc, leaning_branch]
      rcases hg with hg | ⟨hg, -⟩
      · exact .inl (by omega)
      · by_cases hm : a'.height ≤ c.height
        · exact .inl (by omega)
        · exact .inr ⟨by omega, .inr (by omega)⟩
    · intro heq
      subst heq
      exact updateAt_of_exact hv
  · -- The subtree grew and was already the higher one.
    rw [balanced_branch] at hn
    rcases hg with hg | ⟨hg, hl⟩
    · exact absurd ⟨by omega, by omega, hab, hcb⟩ hn
    · have hh : a'.height = c.height + 2 := by
        by_contra hne
        exact hn ⟨by omega, by omega, hab, hcb⟩
      obtain ⟨x, p, q, rfl⟩ := exists_branch_of_height d hh
      have hpq : p.height ≠ q.height := by
        rcases hl with rfl | hl
        · simp only [height_nil] at hg
          omega
        · exact leaning_branch.mp hl
      refine (rebalanceAt_repairs ha' hc hab hcb hh (insertBranch_high ha' hc hh hpq)).mono ?_
      intro t u hpost
      obtain ⟨hu, he, htb, hk, hht⟩ := hpost
      rw [if_neg hpq] at hht
      refine ⟨hu, he, htb, hk, .inl ?_, ?_⟩
      · rw [height_branch]
        omega
      · intro heq
        subst heq
        omega

theorem eraseLevel (hv : Exact (branch d v a c)) (hb : (branch d v a c).HeightBalanced)
    (ha' : Exact a') (hab : a'.HeightBalanced) (hs : Shrinks a a') :
    Runs (rebalanceAt eraseBranch d v a' c) s fun t u => Continues s u ∧ Exact t ∧
      t.HeightBalanced ∧ keys t = keys (branch d v a' c) ∧ Shrinks (branch d v a c) t ∧
      (a' = a → t = branch d v a c) := by
  obtain ⟨-, ha, hc⟩ := exact_branch.mp hv
  obtain ⟨h1, h2, -, hcb⟩ := balanced_branch.mp hb
  by_cases hn : (branch d v a' c).HeightBalanced
  · refine (rebalanceAt_near (eraseBranch_near ha' hc hn) ha' hc hn).mono ?_
    intro _ u hpost
    obtain ⟨hu, rfl⟩ := hpost
    refine ⟨hu, exact_updateAt ha' hc, balanced_updateAt.mpr hn, keys_updateAt, ?_, ?_⟩
    · rw [Shrinks, height_updateAt, height_branch]
      rcases hs with hs | hs <;> omega
    · intro heq
      subst heq
      exact updateAt_of_exact hv
  · -- The subtree shrank and was already the lower one.
    rw [balanced_branch] at hn
    rcases hs with hs | hs
    · exact absurd ⟨by omega, by omega, hab, hcb⟩ hn
    · have hh : c.height = a'.height + 2 := by
        by_contra hne
        exact hn ⟨by omega, by omega, hab, hcb⟩
      obtain ⟨x, p, q, rfl⟩ := exists_branch_of_height d.other hh
      rw [← rebalanceAt_other]
      refine (rebalanceAt_repairs hc ha' hcb hab hh (eraseBranch_high hc ha' hh)).mono ?_
      intro t u hpost
      obtain ⟨hu, he, htb, hk, hht⟩ := hpost
      refine ⟨hu, he, htb, by rw [hk, branch_other], ?_, ?_⟩
      · rw [Shrinks, height_branch d v]
        split_ifs at hht <;> omega
      · intro heq
        subst heq
        omega

/-- What `insert_real` makes of a sound tree. -/
structure Inserted (key : Int) (t t' : NodePtr) : Prop where
  exact : Exact t'
  balanced : t'.HeightBalanced
  increasing : Increasing Node.key t'
  mem : ∀ k, k ∈ keys t' ↔ k = key ∨ k ∈ keys t
  same : key ∈ keys t → t' = t
  grows : Grows t t'

/-- What `erase_real` makes of a sound tree. -/
structure Erased (key : Int) (t t' : NodePtr) : Prop where
  exact : Exact t'
  balanced : t'.HeightBalanced
  increasing : Increasing Node.key t'
  mem : ∀ k, k ∈ keys t' ↔ k ≠ key ∧ k ∈ keys t
  same : key ∉ keys t → t' = t
  shrinks : Shrinks t t'

theorem increasing_of_keys {t t' : NodePtr} (h : Increasing Node.key t) (hk : keys t' = keys t) :
    Increasing Node.key t' := by
  rw [Increasing, show t'.inorder.map Node.key = _ from hk]
  exact h

theorem mem_keys {l r : NodePtr} {k : Int} :
    k ∈ keys (node v l r) ↔ k ∈ keys l ∨ k = v.key ∨ k ∈ keys r := mem_keys_node

theorem insertReal_spec (he : Exact t) (hb : t.HeightBalanced) (hi : Increasing Node.key t) :
    Runs (insertReal key t) s fun t' u => Continues s u ∧ Inserted key t t' := by
  induction t with
  | nil =>
    rw [insertReal, runs_pure]
    refine ⟨.refl s, ⟨rfl, trivial, trivial⟩, by simp [HeightBalanced],
      List.pairwise_singleton .., ?_, ?_, .inr ⟨rfl, .inl rfl⟩⟩ <;> simp [keys]
  | node v l r ihl ihr =>
    obtain ⟨-, hel, her⟩ := id he
    obtain ⟨-, -, hbl, hbr⟩ := id hb
    obtain ⟨hil, hir, hlv, hvr⟩ := increasing_node.mp hi
    by_cases hlt : key < v.key
    · simp only [insertReal, hlt, ↓reduceIte, runs_bind]
      refine (ihl hel hbl hil).mono ?_
      intro l' u hpost
      obtain ⟨hu, hl'⟩ := hpost
      refine (insertLevel (d := .left) he hb hl'.exact hl'.balanced hl'.grows).mono ?_
      intro t' w hpost
      obtain ⟨hw, het, hbt, hk, hg, hsame⟩ := hpost
      refine ⟨hu.trans hw, het, hbt, increasing_of_keys ?_ hk, fun k => ?_, fun hm => ?_, hg⟩
      · refine increasing_node.mpr ⟨hl'.increasing, hir, fun k hm => ?_, hvr⟩
        rcases (hl'.mem k).mp hm with rfl | hm
        · exact hlt
        · exact hlv k hm
      · rw [hk, branch_left, mem_keys, mem_keys, hl'.mem, or_assoc]
      · refine hsame (hl'.same ?_)
        rcases mem_keys.mp hm with hm | rfl | hm
        · exact hm
        · exact absurd hlt (lt_irrefl _)
        · exact absurd (hvr key hm) (by omega)
    · by_cases hgt : key > v.key
      · simp only [insertReal, hlt, hgt, ↓reduceIte, runs_bind]
        refine (ihr her hbr hir).mono ?_
        intro r' u hpost
        obtain ⟨hu, hr'⟩ := hpost
        refine (insertLevel (d := .right) he hb hr'.exact hr'.balanced hr'.grows).mono ?_
        intro t' w hpost
        obtain ⟨hw, het, hbt, hk, hg, hsame⟩ := hpost
        refine ⟨hu.trans hw, het, hbt, increasing_of_keys ?_ hk, fun k => ?_, fun hm => ?_, hg⟩
        · refine increasing_node.mpr ⟨hil, hr'.increasing, hlv, fun k hm => ?_⟩
          rcases (hr'.mem k).mp hm with rfl | hm
          · exact hgt
          · exact hvr k hm
        · rw [hk, branch_right, mem_keys, mem_keys, hr'.mem, or_left_comm (b := k = key),
            or_left_comm (b := k = key)]
        · refine hsame (hr'.same ?_)
          rcases mem_keys.mp hm with hm | rfl | hm
          · exact absurd (hlv key hm) (by omega)
          · exact absurd hgt (lt_irrefl _)
          · exact hm
      · obtain rfl : key = v.key := by omega
        simp only [insertReal, hlt, ↓reduceIte, runs_pure]
        refine ⟨.refl s, he, hb, hi, fun k => ?_, fun _ => rfl, .inl rfl⟩
        exact ⟨.inr, fun hk => hk.elim (fun hv => mem_keys.mpr (.inr (.inl hv))) id⟩

/-- The leftmost key of a subtree is its least key. -/
theorem successorKey_least {l r : NodePtr} (hi : Increasing Node.key (node v l r)) :
    successorKey v.key l ∈ keys (node v l r) ∧
      ∀ k ∈ keys (node v l r), successorKey v.key l ≤ k := by
  induction l generalizing v r with
  | nil =>
    obtain ⟨-, -, -, hvr⟩ := increasing_node.mp hi
    refine ⟨by simp [keys, successorKey], fun k hk => ?_⟩
    rcases mem_keys.mp hk with hk | rfl | hk
    · simp [keys] at hk
    · exact le_rfl
    · exact (hvr k hk).le
  | node w a b ih _ =>
    obtain ⟨hl, -, hlv, hvr⟩ := increasing_node.mp hi
    obtain ⟨hm, hle⟩ := ih hl
    refine ⟨mem_keys.mpr (.inl hm), fun k hk => ?_⟩
    rcases mem_keys.mp hk with hk | rfl | hk
    · exact hle k hk
    · exact (hlv _ hm).le
    · exact ((hlv _ hm).trans (hvr k hk)).le

/-- The node that takes the place of its parent is left as it is. -/
theorem rebalance_child {l r : NodePtr} (he : Exact (node v l r))
    (hb : (node v l r).HeightBalanced) :
    Runs (rebalance eraseBranch v l r) s fun t u => Continues s u ∧ t = node v l r := by
  refine (rebalanceAt_near (d := .left) (eraseBranch_near he.2.1 he.2.2 hb) he.2.1 he.2.2 hb).mono ?_
  intro _ u hpost
  obtain ⟨hu, rfl⟩ := hpost
  exact ⟨hu, updateAt_of_exact (d := .left) he⟩

/-- Erasing the root of a tree whose right child is missing, or whose left child is. -/
theorem erased_root {l : NodePtr} (he : Exact (branch d v l nil))
    (hb : (branch d v l nil).HeightBalanced) (hi : Increasing Node.key (branch d v l nil)) :
    Erased v.key (branch d v l nil) l := by
  obtain ⟨-, hel, -⟩ := exact_branch.mp he
  obtain ⟨h1, -, hbl, -⟩ := balanced_branch.mp hb
  have hmem : ∀ k, k ∈ keys (branch d v l nil) ↔ k ∈ keys l ∨ k = v.key := by
    cases d <;> simp [keys, or_comm]
  have hne : v.key ∉ keys l := by
    cases d with
    | left => exact fun hm => absurd ((increasing_node.mp hi).2.2.1 _ hm) (lt_irrefl _)
    | right => exact fun hm => absurd ((increasing_node.mp hi).2.2.2 _ hm) (lt_irrefl _)
  refine ⟨hel, hbl, ?_, fun k => ?_, fun hm => absurd ((hmem _).mpr (.inr rfl)) hm, ?_⟩
  · cases d with
    | left => exact (increasing_node.mp hi).1
    | right => exact (increasing_node.mp hi).2.1
  · rw [hmem]
    constructor
    · exact fun hk => ⟨fun he => hne (he ▸ hk), .inl hk⟩
    · intro hcase
      obtain ⟨hk, hm⟩ := hcase
      exact hm.resolve_right hk
  · rw [Shrinks, height_branch, height_nil]
    omega

/-- Erasing below, on the left or on the right, erases from the whole. -/
theorem mem_erase_left {l l' r : NodePtr} (hi : Increasing Node.key (node v l r))
    (hlt : key < v.key) (hm : ∀ k, k ∈ keys l' ↔ k ≠ key ∧ k ∈ keys l) (k : Int) :
    k ∈ keys (node v l' r) ↔ k ≠ key ∧ k ∈ keys (node v l r) := by
  have hr : k ∈ keys r → v.key < k := (increasing_node.mp hi).2.2.2 k
  rw [mem_keys, mem_keys, hm]
  constructor
  · intro hcase
    rcases hcase with ⟨hk, hl⟩ | rfl | hk
    · exact ⟨hk, .inl hl⟩
    · exact ⟨hlt.ne', .inr (.inl rfl)⟩
    · exact ⟨(hlt.trans (hr hk)).ne', .inr (.inr hk)⟩
  · intro hcase
    rcases hcase with ⟨hk, hl | hv⟩
    · exact .inl ⟨hk, hl⟩
    · exact .inr hv

theorem mem_erase_right {l r r' : NodePtr} (hi : Increasing Node.key (node v l r))
    (hgt : v.key < key) (hm : ∀ k, k ∈ keys r' ↔ k ≠ key ∧ k ∈ keys r) (k : Int) :
    k ∈ keys (node v l r') ↔ k ≠ key ∧ k ∈ keys (node v l r) := by
  have hl : k ∈ keys l → k < v.key := (increasing_node.mp hi).2.2.1 k
  rw [mem_keys, mem_keys, hm]
  constructor
  · intro hcase
    rcases hcase with hk | rfl | ⟨hk, hr⟩
    · exact ⟨((hl hk).trans hgt).ne, .inl hk⟩
    · exact ⟨hgt.ne, .inr (.inl rfl)⟩
    · exact ⟨hk, .inr (.inr hr)⟩
  · intro hcase
    rcases hcase with ⟨hk, hl | hv | hr⟩
    · exact .inl hl
    · exact .inr (.inl hv)
    · exact .inr (.inr ⟨hk, hr⟩)

/-- Replacing the key of a node by the least key of its right subtree, which is erased there. -/
theorem replace_key {l r r' : NodePtr} {w : Node} (hi : Increasing Node.key (node v l r))
    (hw : w.key ∈ keys r) (hle : ∀ k ∈ keys r, w.key ≤ k) (hr' : Increasing Node.key r')
    (hm : ∀ k, k ∈ keys r' ↔ k ≠ w.key ∧ k ∈ keys r) :
    Increasing Node.key (node w l r') ∧
      ∀ k, k ∈ keys (node w l r') ↔ k ≠ v.key ∧ k ∈ keys (node v l r) := by
  obtain ⟨hil, hir, hlv, hvr⟩ := increasing_node.mp hi
  refine ⟨increasing_node.mpr ⟨hil, hr', fun k hk => (hlv k hk).trans (hvr _ hw), fun k hk => ?_⟩,
    fun k => ?_⟩
  · obtain ⟨hne, hk⟩ := (hm k).mp hk
    exact lt_of_le_of_ne (hle k hk) hne.symm
  · rw [mem_keys, mem_keys, hm]
    constructor
    · intro hcase
      rcases hcase with hk | rfl | ⟨-, hk⟩
      · exact ⟨(hlv k hk).ne, .inl hk⟩
      · exact ⟨(hvr _ hw).ne', .inr (.inr hw)⟩
      · exact ⟨(hvr k hk).ne', .inr (.inr hk)⟩
    · intro hcase
      rcases hcase with ⟨hk, hl | hv | hr⟩
      · exact .inl hl
      · exact absurd hv hk
      · by_cases he : k = w.key
        · exact .inr (.inl he)
        · exact .inr (.inr ⟨he, hr⟩)

theorem eraseReal_spec (he : Exact t) (hb : t.HeightBalanced) (hi : Increasing Node.key t) :
    Runs (eraseReal key t) s fun t' u => Continues s u ∧ Erased key t t' := by
  induction t generalizing key s with
  | nil =>
    rw [eraseReal, runs_pure]
    exact ⟨.refl s, he, hb, hi, by simp [keys], fun _ => rfl, .inl rfl⟩
  | node v l r ihl ihr =>
    obtain ⟨-, hel, her⟩ := id he
    obtain ⟨-, -, hbl, hbr⟩ := id hb
    obtain ⟨hil, hir, hlv, hvr⟩ := increasing_node.mp hi
    by_cases hlt : key < v.key
    · simp only [eraseReal, hlt, ↓reduceIte, runs_bind]
      refine (ihl hel hbl hil).mono ?_
      intro l' u hpost
      obtain ⟨hu, hl'⟩ := hpost
      refine (eraseLevel (d := .left) he hb hl'.exact hl'.balanced hl'.shrinks).mono ?_
      intro t' w hpost
      obtain ⟨hw, het, hbt, hk, hs, hsame⟩ := hpost
      refine ⟨hu.trans hw, het, hbt, increasing_of_keys ?_ hk, fun k => ?_, fun hm => ?_, hs⟩
      · exact increasing_node.mpr ⟨hl'.increasing, hir, fun k hm => hlv k ((hl'.mem k).mp hm).2, hvr⟩
      · rw [hk]
        exact mem_erase_left hi hlt hl'.mem k
      · exact hsame (hl'.same fun hl => hm (mem_keys.mpr (.inl hl)))
    · by_cases hgt : key > v.key
      · simp only [eraseReal, hlt, hgt, ↓reduceIte, runs_bind]
        refine (ihr her hbr hir).mono ?_
        intro r' u hpost
        obtain ⟨hu, hr'⟩ := hpost
        refine (eraseLevel (d := .right) he hb hr'.exact hr'.balanced hr'.shrinks).mono ?_
        intro t' w hpost
        obtain ⟨hw, het, hbt, hk, hs, hsame⟩ := hpost
        refine ⟨hu.trans hw, het, hbt, increasing_of_keys ?_ hk, fun k => ?_, fun hm => ?_, hs⟩
        · exact increasing_node.mpr
            ⟨hil, hr'.increasing, hlv, fun k hm => hvr k ((hr'.mem k).mp hm).2⟩
        · rw [hk]
          exact mem_erase_right hi hgt hr'.mem k
        · exact hsame (hr'.same fun hr => hm (mem_keys.mpr (.inr (.inr hr))))
      · obtain rfl : key = v.key := by omega
        cases l with
        | nil =>
          cases r with
          | nil =>
            simp only [eraseReal, hlt, ↓reduceIte, runs_pure]
            exact ⟨.refl s, erased_root (d := .left) he hb hi⟩
          | node w a b =>
            simp only [eraseReal, hlt, ↓reduceIte]
            refine (rebalance_child her hbr).mono ?_
            intro _ u hpost
            obtain ⟨hu, rfl⟩ := hpost
            exact ⟨hu, erased_root (d := .right) he hb hi⟩
        | node w a b =>
          cases r with
          | nil =>
            simp only [eraseReal, hlt, ↓reduceIte]
            refine (rebalance_child hel hbl).mono ?_
            intro _ u hpost
            obtain ⟨hu, rfl⟩ := hpost
            exact ⟨hu, erased_root (d := .left) he hb hi⟩
          | node x p q =>
            -- The least key of the right subtree moves up, and is erased below.
            obtain ⟨hm, hle⟩ := successorKey_least hir
            simp only [eraseReal, hlt, ↓reduceIte, runs_bind]
            refine (ihr her hbr hir).mono ?_
            intro r' u hpost
            obtain ⟨hu, hr'⟩ := hpost
            refine (eraseLevel (d := .right) (v := { v with key := successorKey x.key p }) he hb
              hr'.exact hr'.balanced hr'.shrinks).mono ?_
            intro t' z hpost
            obtain ⟨hz, het, hbt, hk, hs, -⟩ := hpost
            obtain ⟨hinc, hmem⟩ := replace_key (w := { v with key := successorKey x.key p }) hi hm
              hle hr'.increasing hr'.mem
            refine ⟨hu.trans hz, het, hbt, increasing_of_keys hinc hk, fun k => ?_, fun hn => ?_, hs⟩
            · rw [hk]
              exact hmem k
            · exact absurd (mem_keys.mpr (.inr (.inl rfl))) hn

/-- What every sequence of calls keeps: exact heights, balance, strict order, and that every
unbalanced node met so far was repaired by a rotation. -/
structure Valid (s : State) : Prop where
  exact : Exact s.root
  balanced : s.root.HeightBalanced
  increasing : (keys s.root).Pairwise (· < ·)
  handled : ∀ v ∈ s.visits, v.Handled

theorem insert_spec (h : Valid s) :
    Runs (insert key) s fun _ u => Valid u ∧ Inserted key s.root u.root := by
  simp only [insert, setRoot, runs_bind, runs_get, runs_set]
  refine (insertReal_spec h.exact h.balanced h.increasing).mono ?_
  intro t u hpost
  obtain ⟨hu, ht⟩ := hpost
  exact ⟨⟨ht.exact, ht.balanced, ht.increasing, hu.handled h.handled⟩, ht⟩

theorem erase_spec (h : Valid s) :
    Runs (erase key) s fun _ u => Valid u ∧ Erased key s.root u.root := by
  simp only [erase, setRoot, runs_bind, runs_get, runs_set]
  refine (eraseReal_spec h.exact h.balanced h.increasing).mono ?_
  intro t u hpost
  obtain ⟨hu, ht⟩ := hpost
  exact ⟨⟨ht.exact, ht.balanced, ht.increasing, hu.handled h.handled⟩, ht⟩

theorem step_valid (h : Valid s) (op : Op) : Runs (step op) s fun _ u => Valid u := by
  cases op with
  | insert key => exact (insert_spec h).mono fun _ _ hu => hu.1
  | erase key => exact (erase_spec h).mono fun _ _ hu => hu.1

theorem initial_valid : Valid initial :=
  ⟨trivial, trivial, List.Pairwise.nil, fun _ hv => absurd hv List.not_mem_nil⟩

theorem run_valid (ops : List Op) : Runs (run ops) initial fun _ s => Valid s :=
  runs_all (fun _ _ s => Valid s) ops (fun _ op _ _ _ _ h => step_valid h op) initial_valid

/-- Every sequence of calls follows no null pointer and keeps the tree an AVL tree. -/
theorem run_balanced (ops : List Op) : Runs (run ops) initial fun _ s => Valid s :=
  run_valid ops

def keySet (t : NodePtr) : Set Int := {k | k ∈ keys t}

/-- The pointer that a search for a key returns: to the node of the tree with the key, or NULL
when there is none. -/
def Finds (t : NodePtr) (key : Int) (p : NodePtr) : Prop :=
  (key ∈ keySet t ∧ ∃ c v l r, t = plug c (node v l r) ∧ p = node v l r ∧ v.key = key) ∨
    (key ∉ keySet t ∧ p = nil)

theorem Finds.below {p : NodePtr} {a b : NodePtr} (h : Finds a key p) (hne : v.key ≠ key)
    (hb : key ∉ keys b) : Finds (branch d v a b) key p := by
  have hm : key ∈ keySet (branch d v a b) ↔ key ∈ keySet a := by
    have hb' := mem_keys (v := v) (l := a) (r := b) (k := key)
    have hb'' := mem_keys (v := v) (l := b) (r := a) (k := key)
    cases d with
    | left => simpa [keySet, hb, hne.symm] using hb'
    | right => simpa [keySet, hb, hne.symm] using hb''
  rcases h with ⟨hk, c, w, l, r, rfl, rfl, rfl⟩ | ⟨hk, rfl⟩
  · exact .inl ⟨hm.mpr hk, c ++ [⟨d, v, b⟩], w, l, r, by simp [plug_append], rfl, rfl⟩
  · exact .inr ⟨fun h => hk (hm.mp h), rfl⟩

theorem findFrom_finds (hi : Increasing Node.key t) : Finds t key (findFrom key t) := by
  induction t with
  | nil => exact .inr ⟨by simp [keySet, keys], rfl⟩
  | node v l r ihl ihr =>
    obtain ⟨hil, hir, hlv, hvr⟩ := increasing_node.mp hi
    by_cases he : v.key = key
    · rw [findFrom, if_neg (not_not.mpr he)]
      exact .inl ⟨mem_keys.mpr (.inr (.inl he.symm)), [], v, l, r, rfl, rfl, he⟩
    · rw [findFrom, if_pos he]
      split_ifs with hlt
      · exact (ihl hil).below (d := .left) he fun hm => absurd (hvr key hm) (by omega)
      · exact (ihr hir).below (d := .right) he fun hm => absurd (hlv key hm) (by omega)

/-- What the calls on a tree do to the set of its keys. -/
structure ActsOnSet (s : State) (key : Int) : Prop where
  insert : Runs (insert key) s fun _ u =>
    keySet u.root = keySet s.root ∪ {key} ∧ (key ∈ keySet s.root → u.root = s.root)
  erase : Runs (erase key) s fun _ u =>
    keySet u.root = keySet s.root \ {key} ∧ (key ∉ keySet s.root → u.root = s.root)
  loopFind : Runs (loopFind key) s fun p u => u = s ∧ Finds s.root key p

theorem Valid.actsOnSet (h : Valid s) (key : Int) : ActsOnSet s key := by
  refine ⟨?_, ?_, ?_⟩
  · refine (insert_spec h).mono ?_
    intro _ u hpost
    obtain ⟨-, hu⟩ := hpost
    exact ⟨Set.ext fun k => (hu.mem k).trans or_comm, hu.same⟩
  · refine (erase_spec h).mono ?_
    intro _ u hpost
    obtain ⟨-, hu⟩ := hpost
    exact ⟨Set.ext fun k => (hu.mem k).trans and_comm, hu.same⟩
  · simp only [AVL.loopFind, runs_bind, runs_get, runs_pure]
    exact ⟨trivial, findFrom_finds h.increasing⟩

/-- Every tree that calls can build acts as the set of its keys. -/
theorem run_set (ops : List Op) : Runs (run ops) initial fun _ s => ∀ key, ActsOnSet s key :=
  (run_valid ops).mono fun _ _ h => h.actsOnSet

/-- Both searches for a key return the same pointer. -/
def FindsAlike (s : State) (key : Int) : Prop :=
  ∃ p, Runs (find key) s (fun q u => u = s ∧ q = p) ∧ Runs (loopFind key) s fun q u => u = s ∧ q = p

/-- The recursive search ends only where it does not call itself. -/
theorem runs_find_iff {Q : NodePtr → State → Prop} : Runs (find key) s Q ↔
    (s.root = nil ∨ ∃ v l r, s.root = node v l r ∧ v.key = key) ∧ Q s.root s := by
  rw [find, runs_bind, runs_get]
  cases s.root with
  | nil => simp [findReal]
  | node v l r =>
    rw [findReal]
    have hstuck {m : Program State NodePtr} :
        ¬ Runs (do let _ ← m; fail .uninitialized : Program State NodePtr) s Q := by
      rw [runs_bind]
      intro h
      obtain ⟨_, u, -, hfail⟩ := h
      exact hfail.not_fails fails_fail
    have hroot : (node v l r = nil ∨ ∃ w a b, node v l r = node w a b ∧ w.key = key) ↔
        v.key = key := by simp
    rw [hroot]
    rcases lt_trichotomy key v.key with hlt | rfl | hgt
    · rw [if_pos hlt]
      exact iff_of_false hstuck fun h => hlt.ne' h.1
    · rw [if_neg (lt_irrefl _), if_neg (lt_irrefl _), runs_pure, and_iff_right rfl]
    · rw [if_neg hgt.not_gt, if_pos hgt]
      exact iff_of_false hstuck fun h => hgt.ne h.1

theorem findsAlike_iff :
    FindsAlike s key ↔ s.root = nil ∨ ∃ v l r, s.root = node v l r ∧ v.key = key := by
  simp only [FindsAlike, runs_find_iff, loopFind, runs_bind, runs_get, runs_pure, true_and]
  constructor
  · intro h
    obtain ⟨p, hfind, -⟩ := h
    exact hfind.1
  · intro h
    refine ⟨s.root, ⟨h, rfl⟩, ?_⟩
    rcases h with hnil | ⟨v, l, r, hnode, hv⟩
    · rw [hnil, findFrom]
    · rw [hnode, findFrom, if_neg (not_not.mpr hv)]

/-- The two searches agree in an empty tree and on the key of its root, and never else. -/
theorem run_find_iff (ops : List Op) : Runs (run ops) initial fun _ s => ∀ key,
    FindsAlike s key ↔ s.root = nil ∨ ∃ v l r, s.root = node v l r ∧ v.key = key :=
  (run_valid ops).mono fun _ _ _ _ => findsAlike_iff

/-- The keys that the program inserts. -/
def sampleOps : List Op :=
  [3, 2, 1, 4, 4, 5, 6, 7, 10, 9, 7, 8].map .insert

/-- The first search of the program has no result. -/
theorem run_find_sample : ¬ Runs (run sampleOps) initial fun _ s => FindsAlike s 2 := by
  intro h
  have hfind : Runs (do let _ ← run sampleOps; find 2) initial fun _ _ => True := by
    rw [runs_bind]
    refine h.mono ?_
    intro _ s hs
    obtain ⟨p, hp, -⟩ := hs
    exact hp.mono fun _ _ _ => trivial
  have hstuck : ((do let _ ← run sampleOps; find 2) initial).isOk = false := by decide +kernel
  obtain ⟨p, s, heq, -⟩ := hfind
  rw [heq] at hstuck
  cases hstuck

end LanguageTest.AVL
