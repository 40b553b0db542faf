import Mathlib.Analysis.SpecialFunctions.Log.Base
import LanguageTest.Library.Tree

namespace BinaryTree
open LanguageTest

variable {α : Type*} (isRed : α → Bool)

/-- The colour of the root; an empty tree counts as black. -/
def rootRed (t : BinaryTree α) : Bool := t.value?.any isRed

/-- No red node has a red child. -/
def NoRedRed : BinaryTree α → Prop
  | nil => True
  | node v l r =>
    (isRed v = true → rootRed isRed l = false ∧ rootRed isRed r = false) ∧
      NoRedRed l ∧ NoRedRed r

/-- The values on every way from the root down to an empty subtree. -/
def rootPaths : BinaryTree α → List (List α)
  | nil => [[]]
  | node v l r => (rootPaths l ++ rootPaths r).map (v :: ·)

def blackCount (p : List α) : Nat := p.countP fun v => !isRed v

/-- Every path from the root passes the same number of black nodes. -/
def EqualBlack (t : BinaryTree α) : Prop :=
  ∃ n, ∀ p ∈ rootPaths t, blackCount isRed p = n

/-- Well coloured trees, indexed by the colour of the root and the number of black nodes on
every path. -/
inductive RedBlack : Bool → Nat → BinaryTree α → Prop
  | nil : RedBlack false 0 nil
  | red {n : Nat} {v : α} {l r : BinaryTree α} : isRed v = true →
      RedBlack false n l → RedBlack false n r → RedBlack true n (node v l r)
  | black {b b' : Bool} {n : Nat} {v : α} {l r : BinaryTree α} : isRed v = false →
      RedBlack b n l → RedBlack b' n r → RedBlack false (n + 1) (node v l r)

/-- Contexts that are well coloured when a black tree with `n` black nodes on every path fills
the hole. -/
inductive Fits : Nat → Context α → Prop
  | top {n : Nat} : Fits n []
  | red {n : Nat} {f g : Frame α} {c : Context α} : isRed f.value = true →
      RedBlack isRed false n f.other → isRed g.value = false → Fits n (g :: c) →
      Fits n (f :: g :: c)
  | black {b : Bool} {n : Nat} {f : Frame α} {c : Context α} : isRed f.value = false →
      RedBlack isRed b n f.other → Fits (n + 1) c → Fits n (f :: c)

/-- The hole has a parent, and the parent is black. -/
def BlackAbove : Context α → Prop
  | [] => False
  | f :: _ => isRed f.value = false

variable {isRed} {b : Bool} {n : Nat} {t : BinaryTree α} {c : Context α}

@[simp] theorem rootRed_nil : rootRed isRed (nil : BinaryTree α) = false := rfl

@[simp] theorem rootRed_node (v : α) (l r : BinaryTree α) :
    rootRed isRed (node v l r) = isRed v := rfl

@[simp] theorem rootRed_branch (d : Side) (v : α) (a b : BinaryTree α) :
    rootRed isRed (branch d v a b) = isRed v := by
  cases d <;> rfl

theorem RedBlack.rootRed (h : RedBlack isRed b n t) : t.rootRed isRed = b := by
  cases h <;> simp_all

theorem RedBlack.noRedRed (h : RedBlack isRed b n t) : NoRedRed isRed t := by
  induction h with
  | nil => trivial
  | red hv hl hr ihl ihr => exact ⟨fun _ => ⟨hl.rootRed, hr.rootRed⟩, ihl, ihr⟩
  | black hv hl hr ihl ihr => exact ⟨by simp [hv], ihl, ihr⟩

theorem RedBlack.blackCount (h : RedBlack isRed b n t) :
    ∀ p ∈ rootPaths t, blackCount isRed p = n := by
  induction h with
  | nil => simp [rootPaths, BinaryTree.blackCount]
  | red hv hl hr ihl ihr =>
    intro p hp
    obtain ⟨q, hq, rfl⟩ := List.mem_map.mp hp
    simpa [BinaryTree.blackCount, hv] using (List.mem_append.mp hq).elim (ihl q) (ihr q)
  | black hv hl hr ihl ihr =>
    intro p hp
    obtain ⟨q, hq, rfl⟩ := List.mem_map.mp hp
    simpa [BinaryTree.blackCount, hv] using (List.mem_append.mp hq).elim (ihl q) (ihr q)

theorem RedBlack.equalBlack (h : RedBlack isRed b n t) : EqualBlack isRed t := ⟨n, h.blackCount⟩

theorem redBlack_branch_red {d : Side} {v : α} {x y : BinaryTree α} (hv : isRed v = true) :
    RedBlack isRed b n (branch d v x y) ↔
      b = true ∧ RedBlack isRed false n x ∧ RedBlack isRed false n y := by
  constructor
  · intro h
    cases d <;> cases h <;> simp_all
  · intro hcase
    obtain ⟨rfl, hx, hy⟩ := hcase
    cases d
    · exact .red hv hx hy
    · exact .red hv hy hx

theorem redBlack_branch_black {d : Side} {v : α} {x y : BinaryTree α} (hv : isRed v = false) :
    RedBlack isRed b n (branch d v x y) ↔
      b = false ∧ ∃ m, n = m + 1 ∧ (∃ e, RedBlack isRed e m x) ∧ ∃ e, RedBlack isRed e m y := by
  constructor
  · intro h
    cases d with
    | left =>
      cases h with
      | red hr => simp [hv] at hr
      | black _ hl hr => exact ⟨rfl, _, rfl, ⟨_, hl⟩, ⟨_, hr⟩⟩
    | right =>
      cases h with
      | red hr => simp [hv] at hr
      | black _ hl hr => exact ⟨rfl, _, rfl, ⟨_, hr⟩, ⟨_, hl⟩⟩
  · intro hcase
    obtain ⟨rfl, m, rfl, ⟨e, hx⟩, ⟨e', hy⟩⟩ := hcase
    cases d
    · exact .black hv hx hy
    · exact .black hv hy hx

/-- A well coloured tree that is not empty has a root of the stated colour. -/
theorem RedBlack.exists_branch (d : Side) (h : RedBlack isRed b (n + 1) t) :
    ∃ v x y, t = branch d v x y ∧ isRed v = b := by
  have hne : t ≠ .nil := by rintro rfl; cases h
  obtain ⟨v, x, y, rfl⟩ := BinaryTree.exists_branch d hne
  refine ⟨v, x, y, rfl, ?_⟩
  rw [← h.rootRed, rootRed_branch]

theorem Fits.blackAbove_of_red {f : Frame α} (h : Fits isRed n (f :: c))
    (hf : isRed f.value = true) :
    RedBlack isRed false n f.other ∧ Fits isRed n c ∧ BlackAbove isRed c := by
  cases h with
  | red _ ho hg hc => exact ⟨ho, hc, hg⟩
  | black hb => simp [hf] at hb

theorem Fits.of_black {f : Frame α} (h : Fits isRed n (f :: c)) (hf : isRed f.value = false) :
    (∃ e, RedBlack isRed e n f.other) ∧ Fits isRed (n + 1) c := by
  cases h with
  | red hr => simp [hf] at hr
  | black _ ho hc => exact ⟨⟨_, ho⟩, hc⟩

/-- The sibling of a fitting hole has as many black nodes on every path as the filling. -/
theorem Fits.other {f : Frame α} (h : Fits isRed n (f :: c)) : ∃ e, RedBlack isRed e n f.other := by
  cases h with
  | red _ ho => exact ⟨_, ho⟩
  | black _ ho => exact ⟨_, ho⟩

theorem fits_red {f : Frame α} (hf : isRed f.value = true) (ho : RedBlack isRed false n f.other)
    (hb : BlackAbove isRed c) (hc : Fits isRed n c) : Fits isRed n (f :: c) := by
  cases c with
  | nil => exact hb.elim
  | cons g c => exact .red hf ho hb hc

/-- Filling a fitting context gives a well coloured tree. Its root is black unless the
filling itself is the whole tree. -/
theorem Fits.plug (hc : Fits isRed n c) (ht : RedBlack isRed b n t)
    (hb : b = false ∨ BlackAbove isRed c) : ∃ m, RedBlack isRed false m (plug c t) := by
  induction c generalizing b n t with
  | nil =>
    obtain rfl | hb := hb
    · exact ⟨n, ht⟩
    · exact hb.elim
  | cons f c ih =>
    cases hv : isRed f.value with
    | true =>
      obtain ⟨ho, hc', hb'⟩ := hc.blackAbove_of_red hv
      obtain rfl : b = false := hb.resolve_right (by simp [BlackAbove, hv])
      exact ih hc' ((redBlack_branch_red hv).mpr ⟨rfl, ht, ho⟩) (.inr hb')
    | false =>
      obtain ⟨ho, hc'⟩ := hc.of_black hv
      exact ih hc' ((redBlack_branch_black hv).mpr ⟨rfl, n, rfl, ⟨b, ht⟩, ho⟩) (.inl rfl)

/-- Every hole of a well coloured tree has a fitting context. -/
theorem RedBlack.fits {m : Nat} (h : RedBlack isRed false m (BinaryTree.plug c t)) :
    ∃ n b, RedBlack isRed b n t ∧ Fits isRed n c ∧ (b = false ∨ BlackAbove isRed c) := by
  induction c generalizing t with
  | nil => exact ⟨m, false, h, .top, .inl rfl⟩
  | cons f c ih =>
    obtain ⟨n, b, hb, hc, ha⟩ := ih h
    cases hv : isRed f.value with
    | true =>
      obtain ⟨rfl, ht, ho⟩ := (redBlack_branch_red hv).mp hb
      exact ⟨n, false, ht, fits_red hv ho (ha.resolve_left (by simp)) hc, .inl rfl⟩
    | false =>
      obtain ⟨rfl, k, rfl, ⟨e, ht⟩, ⟨e', ho⟩⟩ := (redBlack_branch_black hv).mp hb
      exact ⟨k, e, ht, .black hv ho hc, .inr hv⟩

/-- Only the colours of a well coloured tree matter. -/
theorem RedBlack.recolor {m : Nat} {d : Side} {v w : α} {x y : BinaryTree α}
    (h : RedBlack isRed false m (BinaryTree.plug c (branch d v x y))) (hw : isRed w = isRed v) :
    ∃ m', RedBlack isRed false m' (BinaryTree.plug c (branch d w x y)) := by
  obtain ⟨n, b, ht, hc, hb⟩ := h.fits
  refine hc.plug (b := b) ?_ hb
  cases hv : isRed v with
  | true =>
    rw [redBlack_branch_red hv] at ht
    exact (redBlack_branch_red (hw.trans hv)).mpr ht
  | false =>
    rw [redBlack_branch_black hv] at ht
    exact (redBlack_branch_black (hw.trans hv)).mpr ht

/-- Putting the only child of a node in its place: a red node leaves a red-black tree, a black
one leaves one black node too few at the hole. -/
theorem RedBlack.splice {m : Nat} {d : Side} {v : α}
    (h : RedBlack isRed false m (BinaryTree.plug c (branch d v t BinaryTree.nil))) :
    if isRed v then ∃ m', RedBlack isRed false m' (BinaryTree.plug c t)
    else ∃ b n, RedBlack isRed b n t ∧ Fits isRed (n + 1) c := by
  obtain ⟨n, b, ht, hc, hb⟩ := h.fits
  cases hv : isRed v with
  | true =>
    obtain ⟨rfl, ht, -⟩ := (redBlack_branch_red hv).mp ht
    exact hc.plug ht (.inl rfl)
  | false =>
    obtain ⟨rfl, k, rfl, ⟨e, ht⟩, -⟩ := (redBlack_branch_black hv).mp ht
    exact ⟨e, k, ht, hc⟩

theorem RedBlack.two_pow_le (h : RedBlack isRed b n t) : 2 ^ n ≤ t.numNodes + 1 := by
  induction h with
  | nil => simp
  | red hv hl hr ihl ihr => simp only [numNodes]; omega
  | black hv hl hr ihl ihr => simp only [numNodes, pow_succ]; omega

theorem RedBlack.height_le (h : RedBlack isRed b n t) :
    t.height ≤ 2 * n + if b then 1 else 0 := by
  induction h with
  | nil => simp
  | red hv hl hr ihl ihr => simp_all
  | @black b b' _ _ _ _ hv hl hr ihl ihr =>
    simp only [height, Bool.false_eq_true, ↓reduceIte]
    split at ihl <;> split at ihr <;> omega

/-- The height of a red-black tree is logarithmic in its size. -/
theorem RedBlack.height_le_log (h : RedBlack isRed false n t) :
    (t.height : ℝ) ≤ 2 * Real.logb 2 (t.numNodes + 1) := by
  have hn : (n : ℝ) ≤ Real.logb 2 (t.numNodes + 1) := by
    rw [Real.le_logb_iff_rpow_le (by norm_num) (by positivity), Real.rpow_natCast]
    exact_mod_cast h.two_pow_le
  have hh : (t.height : ℝ) ≤ 2 * n := by exact_mod_cast h.height_le
  linarith

end BinaryTree
