import LanguageTest.Library.Traversal

namespace LanguageTest.Flatten
open BinaryTree

structure TreeNode where
  val : Int
  left : Ptr
  right : Ptr

abbrev State := Machine Unit TreeNode

def pass : List Ptr × Ptr × Ptr → Program State (Step (List Ptr × Ptr × Ptr) Unit)
  | (st, cur, pre) => do
    if !st.isEmpty || cur.isSome then
      if cur.isSome then pure (.again (cur :: st, (← load cur).left, pre))
      else
        let cur ← topOf st
        let st ← popOf st
        if pre.isSome then modify pre fun n => { n with right := cur }
        pure (.again (st, (← load cur).right, cur))
    else pure (.done ())

def flatten (fuel : Nat) (root : Ptr) : Program State Unit := do
  if root.isNone then pure ()
  else loop pass fuel ([], root, none)

/-- No node has a left child. -/
def NoLeft : AddrTree Int → Prop
  | .nil => True
  | .node _ l r => l = nil ∧ NoLeft r

/-- The nodes are linked through their right pointers, in this order, and have no left child. -/
def Unrolled (h : Heap TreeNode) : Ptr → List (Addr × Int) → Prop
  | p, [] => p = none
  | p, x :: xs => p = some x.1 ∧ ∃ next, h.cells x.1 = some ⟨x.2, none, next⟩ ∧ Unrolled h next xs

def Holds (h : Heap TreeNode) (p : Ptr) (n : TreeNode) : Prop :=
  ∃ a, p = some a ∧ h.cells a = some n

/-- Every node but the last one names the next one as its right child. The rest of a node is as it
was. -/
def Threaded (h : Heap TreeNode) : List (Ptr × TreeNode) → Prop
  | [] => True
  | [x] => Holds h x.1 x.2
  | x :: y :: rest => Holds h x.1 { x.2 with right := y.1 } ∧ Threaded h (y :: rest)

/-- The state of the loop: the nodes visited are threaded, and the others are as they were. -/
structure Threading (h : Heap TreeNode) (all : List (Ptr × TreeNode)) (s : State)
    (i : List Ptr × Ptr × Ptr) (past : List (Ptr × TreeNode)) (t : AddrTree Int)
    (stack : List (AddrTree Int)) : Prop where
  owes : Owes TreeNode.mk h (fun _ u => u) all () ⟨i.1, i.2.1, past.map Prod.fst, ()⟩ past t stack
  pre : i.2.2 = lastVisited (past.map Prod.fst)
  threaded : Threaded s.heap past
  same : ∀ a, some a ∉ past.map Prod.fst → s.heap.cells a = h.cells a

section
variable {h h' : Heap TreeNode} {past all : List (Ptr × TreeNode)} {x y : Ptr × TreeNode}
  {n : TreeNode} {p : Ptr} {a b : Addr}

theorem Holds.modify {f : TreeNode → TreeNode} (hn : Holds h p n) (ha : p ≠ some a) :
    Holds (h.modify a f) p n := by
  obtain ⟨b, rfl, hb⟩ := hn
  refine ⟨b, rfl, ?_⟩
  rw [Heap.modify_cells, if_neg (fun hab => ha (congrArg some hab)), hb]

theorem Threaded.last (ht : Threaded h (past ++ [x])) : Holds h x.1 x.2 := by
  induction past with
  | nil => exact ht
  | cons z past ih =>
    cases past with
    | nil => exact ih ht.2
    | cons w past => exact ih ht.2

/-- The next node is hung to the right of the last one. -/
theorem Threaded.concat (ht : Threaded h (past ++ [x])) (hx : x.1 = some a) (hy : Holds h y.1 y.2)
    (hnodup : ((past ++ [x, y]).map Prod.fst).Nodup) :
    Threaded (h.modify a fun n => { n with right := y.1 }) (past ++ [x, y]) := by
  induction past with
  | nil =>
    obtain ⟨b, hb, hcell⟩ := ht
    obtain rfl : a = b := Option.some.inj (hx.symm.trans hb)
    refine ⟨⟨a, hx, ?_⟩, hy.modify ?_⟩
    · rw [Heap.modify_cells, if_pos rfl, hcell, Option.map_some]
    · rintro hya
      simp [hx, hya] at hnodup
  | cons z past ih =>
    simp only [List.cons_append, List.map_cons, List.nodup_cons] at hnodup
    have hza : z.1 ≠ some a := by
      rintro hz
      apply hnodup.1
      rw [hz, ← hx]
      simp
    cases past with
    | nil => exact ⟨ht.1.modify hza, ih ht.2 hnodup.2⟩
    | cons w past => exact ⟨ht.1.modify hza, ih ht.2 hnodup.2⟩

end

section
variable {h : Heap TreeNode} {past all : List (Ptr × TreeNode)} {s : State} {t l r : AddrTree Int}
  {v : Addr × Int} {stack : List (AddrTree Int)} {i : List Ptr × Ptr × Ptr} {fuel : Nat}

/-- What is still to be visited was not visited. -/
theorem Threading.fresh (ht : Threading h all s i past t stack) (hall : (all.map Prod.fst).Nodup) :
    ∀ x ∈ visits TreeNode.mk t ++ stack.flatMap (owed TreeNode.mk), x.1 ∉ past.map Prod.fst := by
  rw [← ht.owes.all, List.map_append, List.nodup_append'] at hall
  exact fun x hx hmem => hall.2.2 hmem (List.mem_map_of_mem hx)

theorem Threading.descend (ht : Threading h all s i past (node v l r) stack) :
    Threading h all s (i.2.1 :: i.1, rootPtr l, i.2.2) past l (node v l r :: stack) where
  owes := ht.owes.descend
  pre := ht.pre
  threaded := ht.threaded
  same := ht.same

/-- The node on the stack is visited. -/
theorem Threading.take {u : State} (ht : Threading h all s i past nil (node v l r :: stack))
    (hthreaded : Threaded u.heap (past ++ [(some v.1, ⟨v.2, rootPtr l, rootPtr r⟩)]))
    (hsame : ∀ a, some a ∉ past.map Prod.fst → u.heap.cells a = s.heap.cells a) :
    Threading h all u (stack.map rootPtr, rootPtr r, some v.1)
      (past ++ [(some v.1, ⟨v.2, rootPtr l, rootPtr r⟩)]) r stack := by
  constructor
  case owes =>
    rw [List.map_append]
    exact ht.owes.take
  case pre => rw [List.map_append, List.map_singleton, lastVisited_concat]
  case threaded => exact hthreaded
  case same =>
    intro a ha
    rw [List.map_append, List.mem_append, not_or] at ha
    rw [hsame a ha.1, ht.same a ha.1]

theorem runs_pass (hall : (all.map Prod.fst).Nodup) (ht : Threading h all s i past t stack) :
    Runs (pass i) s fun r u => match r with
      | .again j => ∃ past' t' stack', passes t' stack' < passes t stack ∧
          Threading h all u j past' t' stack'
      | .done _ => Threaded u.heap all := by
  obtain ⟨st, cur, pre⟩ := i
  obtain rfl : cur = rootPtr t := ht.owes.cur
  obtain rfl : st = stack.map rootPtr := ht.owes.st
  have hfresh := ht.fresh hall
  cases t with
  | node v l r =>
    have hv : s.heap.cells v.1 = some ⟨v.2, rootPtr l, rootPtr r⟩ := by
      rw [ht.same v.1 (hfresh (some v.1, ⟨v.2, rootPtr l, rootPtr r⟩) (by simp [visits]))]
      exact (laid_node.mp ht.owes.linked).1
    simp only [pass, rootPtr_node, Option.isSome_some, Bool.or_true, if_true, runs_bind, runs_load,
      hv, Option.some.injEq, exists_eq_left', runs_pure]
    exact ⟨past, l, node v l r :: stack, passes_descend v l r, ht.descend⟩
  | nil =>
    cases stack with
    | nil =>
      simp only [pass, rootPtr_nil, List.map_nil, List.isEmpty_nil, Bool.not_true,
        Option.isSome_none, Bool.or_false, Bool.false_eq_true, if_false, runs_pure]
      have hpast : past = all := by simpa [visits] using ht.owes.all
      exact hpast ▸ ht.threaded
    | cons u stack =>
      cases u with
      | nil => exact absurd rfl (ht.owes.stacked nil List.mem_cons_self).1
      | node v l r =>
        have hnew : some v.1 ∉ past.map Prod.fst :=
          hfresh (some v.1, ⟨v.2, rootPtr l, rootPtr r⟩) (by simp [owed])
        have hv : s.heap.cells v.1 = some ⟨v.2, rootPtr l, rootPtr r⟩ := by
          rw [ht.same v.1 hnew]
          exact ht.owes.top.2
        simp only [pass, List.map_cons, rootPtr_nil, rootPtr_node, List.isEmpty_cons,
          Bool.not_false, Bool.true_or, if_true, Option.isSome_none, Bool.false_eq_true, if_false,
          runs_bind, runs_topOf, runs_popOf]
        rcases List.eq_nil_or_concat past with rfl | ⟨q, x, rfl⟩
        · have hpre : pre = none := ht.pre
          simp only [hpre, Option.isSome_none, Bool.false_eq_true, if_false, runs_pure, runs_bind,
            runs_load, hv, Option.some.injEq, exists_eq_left']
          have hstart : Threaded s.heap [(some v.1, ⟨v.2, rootPtr l, rootPtr r⟩)] := ⟨v.1, rfl, hv⟩
          exact ⟨_, r, stack, passes_take v l r, ht.take hstart fun _ _ => rfl⟩
        · rw [List.concat_eq_append] at ht hnew
          obtain ⟨a, hx, hcell⟩ := ht.threaded.last
          have hpre : pre = some a := by
            refine Eq.trans ht.pre ?_
            rw [List.map_append, List.map_singleton, lastVisited_concat, hx]
          have hne : v.1 ≠ a := by
            rintro rfl
            apply hnew
            simp [hx]
          simp only [hpre, Option.isSome_some, if_true, runs_modify, hcell, runs_pure, runs_bind,
            runs_load, true_and, Heap.modify_cells, if_neg hne, hv, Option.some.injEq,
            exists_eq_left']
          refine ⟨_, r, stack, passes_take v l r, ht.take ?_ ?_⟩
          · have hseen : q ++ [x, (some v.1, ⟨v.2, rootPtr l, rootPtr r⟩)] <+: all := by
              rw [← ht.owes.all]
              exact ⟨visits TreeNode.mk r ++ stack.flatMap (owed TreeNode.mk), by
                simp [visits, owed]⟩
            rw [List.append_assoc]
            exact ht.threaded.concat hx ⟨v.1, rfl, hv⟩ ((hseen.map Prod.fst).sublist.nodup hall)
          · intro b hb
            refine if_neg ?_
            rintro rfl
            apply hb
            simp [hx]

/-- The loop ends, for every shape of the tree, and threads the nodes in the order of their visits,
from left to right. -/
theorem runs_flatten (hl : Laid TreeNode.mk s.heap t) (hn : (addrs t).Nodup)
    (hf : 2 * t.numNodes < fuel) :
    Runs (flatten fuel (rootPtr t)) s fun _ u => Threaded u.heap (visits TreeNode.mk t) := by
  unfold flatten
  cases t with
  | nil => exact runs_pure.mpr trivial
  | node v l r =>
    have hall : ((visits TreeNode.mk (node v l r)).map Prod.fst).Nodup := by
      rw [map_fst_visits]
      exact hn.map (Option.some_injective _)
    rw [rootPtr_node, Option.isNone_some, if_neg Bool.false_ne_true]
    refine runs_loop (k := 2 * (node v l r).numNodes) (fun k i u => ∃ past t' stack,
      k = passes t' stack ∧ Threading s.heap (visits TreeNode.mk (node v l r)) u i past t' stack)
      ?_ ⟨[], node v l r, [], rfl, owes_start hl, rfl, trivial, fun _ _ => rfl⟩ hf
    rintro k i u ⟨past, t', stack, rfl, ht⟩
    refine (runs_pass hall ht).mono ?_
    rintro (j | _) w hw
    · obtain ⟨past', t'', stack', hlt, h'⟩ := hw
      exact ⟨_, hlt, past', t'', stack', rfl, h'⟩
    · exact hw

theorem Threaded.holds_left {all : List (Ptr × TreeNode)} (ht : Threaded h all) :
    ∀ x ∈ all, ∃ n, Holds h x.1 n ∧ n.left = x.2.left := by
  induction all with
  | nil => simp
  | cons y all ih =>
    cases all with
    | nil => simpa using ⟨_, ht, rfl⟩
    | cons z all => exact List.forall_mem_cons.mpr ⟨⟨_, ht.1, rfl⟩, ih ht.2⟩

theorem Unrolled.holds {p : Ptr} {xs : List (Addr × Int)} (hu : Unrolled h p xs) :
    ∀ x ∈ xs, ∃ n, h.cells x.1 = some n ∧ n.left = none := by
  induction xs generalizing p with
  | nil => simp
  | cons x xs ih =>
    obtain ⟨-, next, hx, hrest⟩ := hu
    exact List.forall_mem_cons.mpr ⟨⟨_, hx, rfl⟩, ih hrest⟩

/-- Without left children the visits are in pre-order. -/
theorem NoLeft.unrolled (ht : NoLeft t) (hthreaded : Threaded h (visits TreeNode.mk t)) :
    Unrolled h (rootPtr t) t.preorder := by
  induction t with
  | nil => rfl
  | node v l r _ ih =>
    obtain ⟨rfl, hr⟩ := ht
    cases r with
    | nil =>
      obtain ⟨a, ha, hcell⟩ := hthreaded
      obtain rfl := Option.some.inj ha
      exact ⟨rfl, none, hcell, rfl⟩
    | node w l r =>
      obtain ⟨rfl, hr'⟩ := hr
      obtain ⟨⟨a, ha, hcell⟩, hrest⟩ := hthreaded
      obtain rfl := Option.some.inj ha
      exact ⟨rfl, some w.1, hcell, ih ⟨rfl, hr'⟩ hrest⟩

theorem noLeft_of_visits (hleft : ∀ x ∈ visits TreeNode.mk t, x.2.left = none) : NoLeft t := by
  induction t with
  | nil => trivial
  | node v l r _ ih =>
    refine ⟨rootPtr_eq_none.mp ?_, ih fun x hx => hleft x ?_⟩
    · exact hleft (some v.1, ⟨v.2, rootPtr l, rootPtr r⟩) (by simp [visits])
    · simp [visits, hx]

theorem noLeft_of_unrolled (hthreaded : Threaded h (visits TreeNode.mk t))
    (hu : Unrolled h (rootPtr t) t.preorder) : NoLeft t := by
  apply noLeft_of_visits
  intro x hx
  obtain ⟨n, ⟨a, ha, hn⟩, hleft⟩ := hthreaded.holds_left x hx
  have hmem : x.1 ∈ (addrs t).map some := by
    have hfst : (visits TreeNode.mk t).map Prod.fst = (addrs t).map some := map_fst_visits t
    rw [← hfst]
    exact List.mem_map_of_mem hx
  obtain ⟨b, hb, hab⟩ := List.mem_map.mp hmem
  obtain rfl : b = a := Option.some.inj (hab.trans ha)
  obtain ⟨v, hv, rfl⟩ := List.mem_map.mp hb
  obtain ⟨m, hm, hnone⟩ := hu.holds v ((preorder_perm t).mem_iff.mpr hv)
  obtain rfl := Option.some.inj (hm.symm.trans hn)
  exact hleft.symm.trans hnone

/-- The list is that of the pre-order exactly for a tree without left children. -/
theorem flatten_unrolled_iff (t : AddrTree Int) (s : State) (fuel : Nat)
    (hl : Laid TreeNode.mk s.heap t) (hn : (addrs t).Nodup) (hf : 2 * t.numNodes < fuel) :
    (Runs (flatten fuel (rootPtr t)) s fun _ u => Unrolled u.heap (rootPtr t) t.preorder) ↔
      NoLeft t := by
  have hruns := runs_flatten hl hn hf
  constructor
  · intro hu
    obtain ⟨_, u, -, hunrolled, hthreaded⟩ := hu.and hruns
    exact noLeft_of_unrolled hthreaded hunrolled
  · exact fun ht => hruns.mono fun _ u hu => ht.unrolled hu

/-- The heap of a tree `[1,null,2]`. -/
def sample : State := ⟨(), (Heap.empty.alloc ⟨1, none, some 1⟩).alloc ⟨2, none, none⟩⟩

theorem flatten_unrolled_iff_sample :
    Runs (flatten 5 (some 0)) sample fun _ u => Unrolled u.heap (some 0) [(0, 1), (1, 2)] :=
  (flatten_unrolled_iff (node (0, 1) nil (node (1, 2) nil nil)) sample 5
    ⟨rfl, trivial, rfl, trivial, trivial⟩ (by decide) (by decide)).mpr ⟨rfl, rfl, trivial⟩

/-- A left child stays where it is. -/
theorem flatten_keeps_left : ∃ (t : AddrTree Int) (s : State) (fuel : Nat),
    Laid TreeNode.mk s.heap t ∧ (addrs t).Nodup ∧ 2 * t.numNodes < fuel ∧
      ¬ Runs (flatten fuel (rootPtr t)) s fun _ u => Unrolled u.heap (rootPtr t) t.preorder := by
  let s : State := ⟨(), (Heap.empty.alloc ⟨1, some 1, none⟩).alloc ⟨2, none, none⟩⟩
  refine ⟨node (0, 1) (node (1, 2) nil nil) nil, s, 5, ⟨rfl, ⟨rfl, trivial, trivial⟩, trivial⟩,
    by decide, by decide, ?_⟩
  have hrun : flatten 5 (some 0) s =
      .ok ((), ⟨(), s.heap.modify 1 fun n => { n with right := some 0 }⟩) := rfl
  rintro hu
  obtain ⟨-, next, hcell, -⟩ := (runs_of_ok hrun).mp hu
  cases hcell

end

end LanguageTest.Flatten
