import LanguageTest.Library.Traversal
import LanguageTest.Tree.BSTSearch

namespace LanguageTest.BST

/-- The visit of a node by the loop that counts the leaves. -/
def BTNode.count (n : BTNode) (num : Int) : Program State Int :=
  if n.lchild = none ∧ n.rchild = none then int (num + 1) else pure num

end LanguageTest.BST

namespace LanguageTest.TreeTravel
open BinaryTree

structure TreeNode where
  val : Int
  left : Ptr
  right : Ptr
  deriving DecidableEq, Repr

/-- The visit of a node by the loops that list the values. -/
def TreeNode.list (n : TreeNode) (res : List Int) : List Int := res ++ [n.val]

-- Three files have a class `Solution`. Besides the result each function gives the nodes that it
-- visited.

namespace LeetcodeSolution

end LeetcodeSolution

namespace InorderSolution

end InorderSolution

namespace TravelSolution

/-- The result is the member `res`. -/
abbrev State := Machine (List Int) TreeNode

def pushBack (x : Int) : Program State Unit := setObject fun res => res ++ [x]

/-- `while(cur) st.push(cur),cur = cur->left;` -/
def descend (fuel : Nat) (st : List Ptr) (cur : Ptr) : Program State (List Ptr) :=
  loop (fun (st, cur) => do
    if cur.isSome then pure (.again (cur :: st, (← load cur).left))
    else pure (.done st)) fuel (st, cur)

def inorderPass (fuel : Nat) : List Ptr × Ptr × List Ptr →
    Program State (Step (List Ptr × Ptr × List Ptr) (List Ptr))
  | (st, cur, visited) => do
    if !st.isEmpty || cur.isSome then
      let st ← descend fuel st cur
      let cur ← topOf st
      let st ← popOf st
      let n ← load cur
      pushBack n.val
      pure (.again (st, n.right, visited ++ [cur]))
    else pure (.done visited)

end TravelSolution

section
variable {t : AddrTree Int} {fuel : Nat} {res : List Int} {num : Int}

end

namespace TravelSolution

variable {s u : State} {t : AddrTree Int} {fuel : Nat} {res : List Int} {w : Walk (List Int)}
  {all past : List (Ptr × TreeNode)} {order done : List (Addr × Int)}
  {stack : List (AddrTree Int)} {st visited : List Ptr}

@[simp] theorem runs_pushBack {x : Int} {Q : Unit → State → Prop} :
    Runs (pushBack x) s Q ↔ Q () { s with object := s.object ++ [x] } :=
  runs_setObject

/-- The stack of the pre-order loop after a child, if there is one. -/
def pushed (t : AddrTree Int) (stack : List (AddrTree Int)) : List (AddrTree Int) :=
  if t = nil then stack else t :: stack

/-- The inner loop leaves the next node to visit on the stack. -/
theorem runs_descend (h : Owes TreeNode.mk s.heap TreeNode.list all res w past t stack)
    (hne : t ≠ nil ∨ stack ≠ []) (hf : t.numNodes < fuel) :
    Runs (descend fuel w.st w.cur) s fun st u => u = s ∧ ∃ v l r stack',
      passes nil (node v l r :: stack') ≤ passes t stack ∧
      Owes TreeNode.mk s.heap TreeNode.list all res { w with st := st, cur := none } past nil
        (node v l r :: stack') := by
  refine runs_loop (k := t.numNodes) (fun k i u => u = s ∧ ∃ t' stack', k = t'.numNodes ∧
    passes t' stack' ≤ passes t stack ∧ (t' ≠ nil ∨ stack' ≠ []) ∧
    Owes TreeNode.mk s.heap TreeNode.list all res { w with st := i.1, cur := i.2 } past t' stack')
    ?_ ⟨rfl, t, stack, rfl, le_rfl, hne, h⟩ hf
  rintro k ⟨st, cur⟩ _ ⟨rfl, t', stack', rfl, hle, hne, h⟩
  obtain rfl : cur = rootPtr t' := h.cur
  cases t' with
  | nil =>
    simp only [rootPtr_nil, Option.isSome_none, Bool.false_eq_true, if_false, runs_pure, true_and]
    cases stack' with
    | nil => simp at hne
    | cons u stack' =>
      cases u with
      | nil => exact absurd rfl (h.stacked nil List.mem_cons_self).1
      | node v l r => exact ⟨v, l, r, stack', hle, h⟩
  | node v l r =>
    have hv := (laid_node.mp h.linked).1
    simp only [rootPtr_node, Option.isSome_some, if_true, runs_bind, runs_load, hv,
      Option.some.injEq, exists_eq_left', runs_pure]
    refine ⟨l.numNodes, ?_, trivial, l, node v l r :: stack', rfl, ?_,
      Or.inr (List.cons_ne_nil _ _), h.descend⟩
    · simp only [numNodes]
      omega
    · exact (passes_descend v l r).le.trans hle

theorem runs_inorderPass
    (h : Owes TreeNode.mk s.heap TreeNode.list all res w past t stack) (hres : w.acc = s.object)
    (hf : passes t stack < fuel) :
    Runs (inorderPass fuel (w.st, w.cur, w.visited)) s fun r u => u.heap = s.heap ∧ match r with
      | .again (st', cur', visited') => ∃ past' t' stack', passes t' stack' < passes t stack ∧
          Owes TreeNode.mk s.heap TreeNode.list all res ⟨st', cur', visited', u.object⟩ past' t'
            stack'
      | .done visited' => visited' = all.map Prod.fst ∧
          u.object = all.foldl (fun b n => TreeNode.list n.2 b) res := by
  by_cases hend : t = nil ∧ stack = []
  · obtain ⟨rfl, rfl⟩ := hend
    have hcur : w.cur = none := h.cur
    have hst : w.st = [] := h.st
    simp only [inorderPass, hcur, hst, List.isEmpty_nil, Bool.not_true, Option.isSome_none,
      Bool.or_false, Bool.false_eq_true, if_false, runs_pure, true_and]
    exact ⟨h.finished.1, hres ▸ h.finished.2⟩
  · have hgo : (!w.st.isEmpty || w.cur.isSome) = true := by
      rw [h.st, h.cur]
      cases t with
      | nil =>
        have hstack : stack ≠ [] := fun hnil => hend ⟨rfl, hnil⟩
        cases stack with
        | nil => exact absurd rfl hstack
        | cons u stack => rfl
      | node v l r => simp
    have hne : t ≠ nil ∨ stack ≠ [] := not_and_or.mp hend
    have hsmall : t.numNodes < fuel := by
      unfold passes at hf
      omega
    simp only [inorderPass, hgo, if_true, runs_bind]
    refine (runs_descend h hne hsmall).mono ?_
    rintro st _ ⟨rfl, v, l, r, stack', hle, h'⟩
    obtain ⟨hst, hv⟩ := h'.top
    simp only at hst
    simp only [hst, runs_topOf, runs_popOf, runs_load, hv, Option.some.injEq, exists_eq_left',
      runs_pushBack, runs_pure, true_and]
    have htake := h'.take
    rw [hres] at htake
    exact ⟨_, r, stack', (passes_take v l r).trans_le hle, htake⟩

end TravelSolution

/-- The heap of the example `[1,null,2,3]`. -/
def sample {ν : Type} (mk : Int → Ptr → Ptr → ν) : Heap ν :=
  ((Heap.empty.alloc (mk 1 none (some 1))).alloc (mk 2 (some 2) none)).alloc (mk 3 none none)

end LanguageTest.TreeTravel
