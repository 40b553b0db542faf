import LanguageTest.Tree.RBTreeHeap

namespace LanguageTest.RBTree
open BinaryTree

variable {s : State} {spare : Ptr} {c : AddrContext Item} {d : Side} {E : List (Addr × Int)}

/-- The tree with its root painted black. -/
def blacken : Shape → Shape
  | nil => nil
  | node v l r => node (v.1, .black, v.2.2) l r

theorem blacken_branch (d : Side) (v : Addr × Item) (a b : Shape) :
    blacken (branch d v a b) = branch d (v.1, .black, v.2.2) a b := by
  cases d <;> rfl

theorem blacken_of_black {t : Shape} (h : t.rootRed isRed = false) : blacken t = t := by
  cases t with
  | nil => rfl
  | node v l r =>
    obtain ⟨a, k, x⟩ := v
    cases k with
    | red => cases h
    | black => rfl

theorem redBlack_blacken {b : Bool} {n : Nat} {t : Shape} (h : RedBlack isRed b n t) :
    RedBlack isRed false (if b then n + 1 else n) (blacken t) := by
  cases h with
  | nil => exact .nil
  | red hv hl hr => exact .black rfl hl hr
  | black hv hl hr => exact .black rfl hl hr

/-- What every pass of the loop of `removeFixUp` keeps: the subtree of the node has one black
node too few on every path, unless painting its root black repairs it. -/
def Deficient (E : List (Addr × Int)) (spare : Ptr) (k : Nat) (i : Ptr × Ptr) (s : State) : Prop :=
  ∃ c t n, Represents s (plug c t) spare ∧ i = (rootPtr t, upPtr none c) ∧
    Fits isRed (n + 1) c ∧ entries (plug c t) = E ∧
    (RedBlack isRed false n t ∧ c.length ≤ k ∨
      t.rootRed isRed = true ∧ RedBlack isRed false (n + 1) (blacken t))

/-- Painting the node black makes the whole tree a red-black tree. -/
def Settled (E : List (Addr × Int)) (spare p : Ptr) (s : State) : Prop :=
  ∃ c t m, Represents s (plug c t) spare ∧ p = rootPtr t ∧ entries (plug c t) = E ∧
    RedBlack isRed false m (plug c (blacken t))

def Progress (E : List (Addr × Int)) (spare : Ptr) (k : Nat) (r : Step (Ptr × Ptr) Ptr)
    (s : State) : Prop :=
  match r with
  | .again j => ∃ k' < k, Deficient E spare k' j s
  | .done p => Settled E spare p s

theorem removeFixUpLast_settles {f w : Addr × Item} {t a b : Shape} {n : Nat} {e : Bool}
    (h : Represents s (plug c (branch d f t (branch d w a b))) spare)
    (ht : RedBlack isRed false n t) (ha : RedBlack isRed e n a) (hb : RedBlack isRed true n b)
    (hc : Fits isRed (n + 1) (⟨d, f, branch d w a b⟩ :: c))
    (hE : entries (plug c (branch d f t (branch d w a b))) = E) :
    Runs (removeFixUpLast d (some f.1) (some w.1)) s fun r s' =>
      ∃ p, r = .done p ∧ Settled E spare p s' := by
  cases hb with
  | @red _ v x y hv hx hy =>
  simp only [removeFixUpLast, runs_bind, runs_load, h.load, Option.some.injEq, exists_eq_left',
    cellAt_color, rbSetBlack]
  have h0 : Represents s (plug (⟨d.other, f, t⟩ :: c) (branch d w a (node v x y))) spare := by
    rw [plug_swap]
    exact h
  refine (h0.setColor f.2.1).mono fun _ s1 h1 => ?_
  rw [plug_swap, plug_cons] at h1
  refine (h1.setColor .black).mono fun _ s2 h2 => ?_
  rw [← branch_other] at h2
  have h2' : Represents s2 (plug (⟨d.other, _, t⟩ :: c) (branch d (w.1, f.2.1, w.2.2) a _)) spare :=
    h2
  simp only [h2'.load, Option.some.injEq, exists_eq_left', cellAt_child_other, rootPtr_node]
  rw [← branch_other d (w.1, _)] at h2
  have h2'' : Represents s2 (plug (⟨d.other, _, a⟩ :: ⟨d.other, _, t⟩ :: c) (branch .left v x y))
      spare := h2
  refine (h2''.setColor .black).mono fun _ s3 h3 => ?_
  simp only [plug_cons, branch_other] at h3
  refine h3.rotate.mono fun _ s4 h4 => ?_
  rw [runs_getObject, runs_pure, h4.root]
  have hf : RedBlack isRed false (n + 1) (branch d (f.1, .black, f.2.2) t a) :=
    (redBlack_branch_black rfl).mpr ⟨rfl, n, rfl, ⟨_, ht⟩, _, ha⟩
  have hy : RedBlack isRed false (n + 1) (branch .left (v.1, .black, v.2.2) x y) :=
    .black rfl hx hy
  -- The sibling takes the colour of the parent, so the context still fits.
  have hm : ∃ m, RedBlack isRed false m (plug c (branch d (w.1, f.2.1, w.2.2)
      (branch d (f.1, .black, f.2.2) t a) (branch .left (v.1, .black, v.2.2) x y))) := by
    cases hfr : isRed f with
    | true =>
      obtain ⟨-, hc', hb⟩ := hc.blackAbove_of_red hfr
      exact hc'.plug
        ((redBlack_branch_red (v := (w.1, f.2.1, w.2.2)) hfr).mpr ⟨rfl, hf, hy⟩) (.inr hb)
    | false =>
      obtain ⟨-, hc'⟩ := hc.of_black hfr
      exact hc'.plug ((redBlack_branch_black (v := (w.1, f.2.1, w.2.2)) hfr).mpr
        ⟨rfl, _, rfl, ⟨_, hf⟩, _, hy⟩) (.inl rfl)
  obtain ⟨m, hm⟩ := hm
  refine ⟨_, rfl, [], _, m, h4, rfl, ?_, ?_⟩
  · rw [← hE]
    cases d <;> simp [entries, inorder_plug]
  · rw [plug_nil, blacken_of_black hm.rootRed]
    exact hm

/-- The test of case 2, whichever child of the sibling is the outer one. -/
theorem Represents.runs_bothBlack {w : Addr × Item} {a b : Shape} {Q : Bool → State → Prop}
    (h : Represents s (plug c (branch d w a b)) spare) :
    Runs ((do absentOrBlack (← LanguageTest.load (some w.1)).left) <&&>
        (do absentOrBlack (← LanguageTest.load (some w.1)).right)) s Q ↔
      Q (!a.rootRed isRed && !b.rootRed isRed) s := by
  have ha : Represents s (plug (⟨d, w, b⟩ :: c) a) spare := h
  have hb : Represents s (plug (⟨d.other, w, a⟩ :: c) b) spare := by
    rw [plug_swap]
    exact h
  have hra := fun R : Bool → State → Prop => ha.runs_absentOrBlack (Q := R)
  have hrb := fun R : Bool → State → Prop => hb.runs_absentOrBlack (Q := R)
  simp only [runs_andM, runs_bind, runs_load, h.load, Option.some.injEq, exists_eq_left']
  cases d with
  | left =>
    simp only [cellAt, cell, hra]
    cases a.rootRed isRed with
    | true => simp
    | false => simp [h.load, cellAt, cell, hrb]
  | right =>
    simp only [cellAt, cell, hrb]
    cases b.rootRed isRed with
    | true => simp
    | false => simp [h.load, cellAt, cell, hra]

/-- Cases 2 to 4: the sibling is black. Either the deficit moves up to the parent, where a red
parent ends the loop, or the tree is repaired. -/
theorem removeFixUpBlack_progress {f w : Addr × Item} {t a b : Shape} {n k : Nat}
    (h : Represents s (plug c (branch d f t (branch d w a b))) spare)
    (ht : RedBlack isRed false n t) (hw : isRed w = false)
    (hc : Fits isRed (n + 1) (⟨d, f, branch d w a b⟩ :: c))
    (hE : entries (plug c (branch d f t (branch d w a b))) = E)
    (hk : isRed f = true ∨ c.length < k) (hpos : 0 < k) :
    Runs (removeFixUpBlack d (some f.1) (some w.1)) s (Progress E spare k) := by
  obtain ⟨e, hs⟩ := hc.other
  obtain ⟨-, m, hm, ⟨x, ha⟩, y, hb⟩ := (redBlack_branch_black hw).mp hs
  obtain rfl : n = m := by omega
  have h0 : Represents s (plug (⟨d.other, f, t⟩ :: c) (branch d w a b)) spare := by
    rw [plug_swap]
    exact h
  simp only [removeFixUpBlack, runs_bind, h0.runs_bothBlack, ha.rootRed, hb.rootRed]
  cases y with
  | true =>
    have hb0 : Represents s (plug (⟨d.other, w, a⟩ :: ⟨d.other, f, t⟩ :: c) b) spare := by
      rw [plug_swap]
      exact h0
    simp only [Bool.not_true, Bool.and_false, Bool.false_eq_true, ↓reduceIte, runs_bind, runs_load,
      h0.load, Option.some.injEq, exists_eq_left', cellAt_child_other, hb0.runs_absentOrBlack,
      hb.rootRed]
    refine (removeFixUpLast_settles h ht ha hb hc hE).mono ?_
    intro _ s1 hpost
    obtain ⟨p, rfl, h1⟩ := hpost
    exact h1
  | false =>
    cases x with
    | false =>
      -- Case 2.
      simp only [Bool.not_false, Bool.and_self, ↓reduceIte, runs_bind, rbSetRed]
      refine (h0.setColor .red).mono fun _ s1 h1 => ?_
      rw [plug_swap] at h1
      have h1' : Represents s1 (plug c (branch d f t (branch d (w.1, .red, w.2.2) a b))) spare := h1
      simp only [runs_load, h1'.load, Option.some.injEq, exists_eq_left', cellAt_parent, runs_pure]
      have hr : RedBlack isRed true n (branch d (w.1, .red, w.2.2) a b) :=
        (redBlack_branch_red rfl).mpr ⟨rfl, ha, hb⟩
      have hE1 : entries (plug c (branch d f t (branch d (w.1, .red, w.2.2) a b))) = E := by
        rw [← hE]
        cases d <;> simp [entries, inorder_plug]
      cases hfr : isRed f with
      | true =>
        refine ⟨0, hpos, c, _, n, h1', by simp, (hc.blackAbove_of_red hfr).2.1, hE1, .inr ⟨?_, ?_⟩⟩
        · rw [rootRed_branch, hfr]
        · rw [blacken_branch]
          exact (redBlack_branch_black rfl).mpr ⟨rfl, n, rfl, ⟨_, ht⟩, _, hr⟩
      | false =>
        refine ⟨c.length, hk.resolve_left (by simp [hfr]), c, _, n + 1, h1', by simp,
          (hc.of_black hfr).2, hE1, .inl ⟨?_, le_rfl⟩⟩
        exact (redBlack_branch_black hfr).mpr ⟨rfl, n, rfl, ⟨_, ht⟩, _, hr⟩
    | true =>
      -- Case 3: a rotation at the sibling brings its red child to the outer side.
      cases ha with
      | @red _ v l r hv hl hr =>
      obtain ⟨x, y, hxy⟩ : ∃ x y, node v l r = branch d v x y := by
        cases d
        · exact ⟨l, r, rfl⟩
        · exact ⟨r, l, rfl⟩
      have ha : RedBlack isRed true n (branch d v x y) := hxy ▸ .red hv hl hr
      rw [hxy] at h h0 hc hE
      obtain ⟨-, hx, hy⟩ := (redBlack_branch_red hv).mp ha
      have hb0 : Represents s (plug (⟨d.other, w, branch d v x y⟩ :: ⟨d.other, f, t⟩ :: c) b)
          spare := by
        rw [plug_swap]
        exact h0
      simp only [Bool.not_true, Bool.not_false, Bool.and_true, Bool.false_eq_true, ↓reduceIte,
        runs_bind, runs_load, h0.load, Option.some.injEq, exists_eq_left', cellAt_child_other,
        hb0.runs_absentOrBlack, hb.rootRed, cellAt_child, rootPtr_branch, rbSetBlack, rbSetRed]
      have ha0 : Represents s (plug (⟨d, w, b⟩ :: ⟨d.other, f, t⟩ :: c) (branch d v x y)) spare := h0
      refine (ha0.setColor .black).mono fun _ s1 h1 => ?_
      have h1' : Represents s1 (plug (⟨d.other, f, t⟩ :: c)
          (branch d w (branch d (v.1, .black, v.2.2) x y) b)) spare := h1
      refine (h1'.setColor .red).mono fun _ s2 h2 => ?_
      rw [← branch_other, ← branch_other d (v.1, _)] at h2
      refine h2.rotate.mono fun _ s3 h3 => ?_
      rw [branch_other, branch_other, plug_swap, plug_cons] at h3
      simp only [h3.load, Option.some.injEq, exists_eq_left', cellAt_child_other, rootPtr_branch]
      have hwb : RedBlack isRed true n (branch d (w.1, .red, w.2.2) y b) :=
        (redBlack_branch_red rfl).mpr ⟨rfl, hy, hb⟩
      have hvb : RedBlack isRed false (n + 1)
          (branch d (v.1, .black, v.2.2) x (branch d (w.1, .red, w.2.2) y b)) :=
        (redBlack_branch_black rfl).mpr ⟨rfl, n, rfl, ⟨_, hx⟩, _, hwb⟩
      refine (removeFixUpLast_settles (E := E) h3 ht hx hwb ?_ ?_).mono ?_
      · cases hfr : isRed f with
        | true =>
          obtain ⟨-, hc', hbl⟩ := hc.blackAbove_of_red hfr
          exact fits_red hfr hvb hbl hc'
        | false => exact .black hfr hvb (hc.of_black hfr).2
      · rw [← hE]
        cases d <;> simp [entries, inorder_plug]
      · intro _ s4 hpost
        obtain ⟨p, rfl, h4⟩ := hpost
        exact h4

/-- One pass of the loop. The deficit shows that the sibling exists, and a red sibling has black
children below a black parent. -/
theorem removeFixUpSide_progress {f : Addr × Item} {t o : Shape} {n k : Nat}
    (h : Represents s (plug (⟨d, f, o⟩ :: c) t) spare) (ht : RedBlack isRed false n t)
    (hc : Fits isRed (n + 1) (⟨d, f, o⟩ :: c)) (hE : entries (plug (⟨d, f, o⟩ :: c) t) = E)
    (hk : c.length < k) :
    Runs (removeFixUpSide d (some f.1)) s (Progress E spare k) := by
  have hpos : 0 < k := by omega
  obtain ⟨e, ho⟩ := hc.other
  obtain ⟨w, a, b, rfl, hw⟩ := ho.exists_branch d
  have hf : Represents s (plug c (branch d f t (branch d w a b))) spare := h
  have hw0 : Represents s (plug (⟨d.other, f, t⟩ :: c) (branch d w a b)) spare := by
    rw [plug_swap]
    exact h
  simp only [removeFixUpSide, rbIsRed, runs_bind, runs_load, hf.load, hw0.load, Option.some.injEq,
    exists_eq_left', cellAt_child_other, rootPtr_branch, runs_pure, cellAt_color]
  change Runs (if isRed w = true then _ else _) s _
  cases e with
  | false =>
    simp only [hw, Bool.false_eq_true, ↓reduceIte]
    exact removeFixUpBlack_progress hf ht hw hc hE (.inr hk) hpos
  | true =>
    have hfb : isRed f = false := by
      cases hfr : isRed f with
      | false => rfl
      | true =>
        have hr := (hc.blackAbove_of_red hfr).1.rootRed
        simp [hw] at hr
    obtain ⟨-, ha, hb⟩ := (redBlack_branch_red hw).mp ho
    obtain ⟨v, x, y, rfl, hv⟩ := ha.exists_branch d
    simp only [hw, ↓reduceIte, runs_bind, rbSetBlack, rbSetRed]
    refine (hw0.setColor .black).mono fun _ s1 h1 => ?_
    rw [plug_swap, plug_cons] at h1
    refine (h1.setColor .red).mono fun _ s2 h2 => ?_
    refine h2.rotate.mono fun _ s3 h3 => ?_
    have h3' : Represents s3 (plug (⟨d, (w.1, .black, w.2.2), b⟩ :: c)
        (branch d (f.1, .red, f.2.2) t (branch d v x y))) spare := h3
    simp only [runs_load, h3'.load, Option.some.injEq, exists_eq_left', cellAt_child_other,
      rootPtr_branch]
    refine removeFixUpBlack_progress (f := (f.1, .red, f.2.2)) h3' ht hv ?_ ?_ (.inl rfl) hpos
    · exact .red rfl ha rfl (.black rfl hb (hc.of_black hfb).2)
    · rw [← hE]
      cases d <;> simp [entries, inorder_plug]

theorem Represents.rootPtr_ne {f : Frame (Addr × Item)} {t : Shape}
    (h : Represents s (plug (f :: c) t) spare) : rootPtr t ≠ rootPtr (plug (f :: c) t) := by
  intro he
  cases t with
  | nil => exact plug_ne_nil c (branch_ne_nil _ _ _ _) (rootPtr_eq_none.mp he.symm)
  | node v l r =>
    have hn := h.nodup
    rw [nodup_plug] at hn
    exact hn.2.2 (mem_addrs_of_rootPtr rfl) (mem_contextAddrs_of_rootPtr he.symm)

/-- `removeFixUp` ends, follows no null pointer, and turns a tree that lacks one black node on
the paths through one subtree into a red-black tree of the same entries. -/
theorem removeFixUp_spec {t : Shape} {n fuel : Nat} {b : Bool}
    (h : Represents s (plug c t) spare) (ht : RedBlack isRed b n t) (hc : Fits isRed (n + 1) c)
    (hf : c.length < fuel) :
    Runs (removeFixUp fuel (rootPtr t) (upPtr none c)) s fun _ s' =>
      ∃ T m, Represents s' T spare ∧ RedBlack isRed false m T ∧
        entries T = entries (plug c t) := by
  simp only [removeFixUp, runs_bind]
  refine (runs_loop (k := c.length) (Q := Settled (entries (plug c t)) spare)
    (Deficient (entries (plug c t)) spare) ?_ ⟨c, t, n, h, rfl, hc, rfl, ?_⟩ hf).mono ?_
  · intro k _ s1 hpost
    obtain ⟨c1, t1, n1, h1, rfl, hc1, hE, ht1⟩ := hpost
    simp only [runs_bind, runs_andM, h1.runs_absentOrBlack]
    rcases ht1 with ⟨ht1, hk⟩ | ⟨hr, ht1⟩
    · simp only [ht1.rootRed, Bool.not_false, ↓reduceIte, runs_getObject, runs_pure, h1.root]
      cases c1 with
      | nil =>
        -- The node is the root: the deficit is gone.
        simp only [plug_nil, bne_self_eq_false, Bool.false_eq_true, ↓reduceIte, runs_pure]
        exact ⟨[], t1, n1, h1, rfl, hE, by rw [plug_nil, blacken_of_black ht1.rootRed]; exact ht1⟩
      | cons f c1 =>
        obtain ⟨d, f, o⟩ := f
        have hne : (rootPtr t1 != rootPtr (plug (⟨d, f, o⟩ :: c1) t1)) = true :=
          bne_iff_ne.mpr h1.rootPtr_ne
        have hf1 : Represents s1 (plug c1 (branch d f t1 o)) spare := h1
        have ho : o ≠ nil := by
          obtain ⟨e, ho⟩ := hc1.other
          intro heq
          subst heq
          cases ho
        simp only [hne, ↓reduceIte, upPtr_cons, runs_bind, runs_load, hf1.load, Option.some.injEq,
          exists_eq_left']
        rw [ite_left_eq (F := fun e => removeFixUpSide e (some f.1))
          (h := h1.sibling_ne (.inr ho))]
        refine (removeFixUpSide_progress h1 ht1 hc1 hE hk).mono ?_
        rintro (j | p) s2 h2 <;> exact h2
    · simp only [hr, Bool.not_true, Bool.false_eq_true, ↓reduceIte, runs_pure]
      obtain ⟨m, hm⟩ := hc1.plug ht1 (.inl rfl)
      exact ⟨c1, t1, m, h1, rfl, hE, hm⟩
  · cases b with
    | false => exact .inl ⟨ht, le_rfl⟩
    | true => exact .inr ⟨ht.rootRed, redBlack_blacken ht⟩
  · intro _ s1 hpost
    obtain ⟨c1, t1, m, h1, rfl, hE, hm⟩ := hpost
    cases t1 with
    | nil =>
      simp only [rootPtr_nil, Option.isSome_none, Bool.false_eq_true, ↓reduceIte, runs_pure]
      exact ⟨_, m, h1, hm, hE⟩
    | node v l r =>
      have h1' : Represents s1 (plug c1 (branch .left v l r)) spare := h1
      simp only [rootPtr_node, Option.isSome_some, ↓reduceIte, rbSetBlack]
      refine (h1'.setColor .black).mono fun _ s2 h2 => ⟨_, m, h2, hm, ?_⟩
      rw [← hE]
      simp [entries, inorder_plug]

end LanguageTest.RBTree
