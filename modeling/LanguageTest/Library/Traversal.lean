import LanguageTest.Library.Linked
import Mathlib.Algebra.GroupWithZero.Nat

namespace LanguageTest
open BinaryTree

variable {β γ ν α : Type}

/-- The state of a loop that walks through a tree with a stack. The nodes visited so far are
history, which no pass reads. -/
structure Walk (α : Type) where
  st : List Ptr
  cur : Ptr
  visited : List Ptr
  acc : α

/-- One pass of an in-order walk: it descends to the left, or visits the node on the stack and
goes to its right child. -/
def inorderPass (left right : ν → Ptr) (visit : ν → α → Program (Machine γ ν) α) (w : Walk α) :
    Program (Machine γ ν) (Step (Walk α) (Walk α)) := do
  if !w.st.isEmpty || w.cur.isSome then
    if w.cur.isSome then
      pure (.again { w with st := w.cur :: w.st, cur := left (← load w.cur) })
    else
      let cur ← topOf w.st
      let st ← popOf w.st
      let n ← load cur
      let acc ← visit n w.acc
      pure (.again ⟨st, right n, w.visited ++ [cur], acc⟩)
  else pure (.done w)

/-- A walk that starts at the root. -/
def inorderWalk (left right : ν → Ptr) (visit : ν → α → Program (Machine γ ν) α) (fuel : Nat)
    (root : Ptr) (acc : α) : Program (Machine γ ν) (Walk α) :=
  loop (inorderPass left right visit) fuel ⟨[], root, [], acc⟩

section
-- How a node without a parent pointer is laid out.
variable (lay : β → Ptr → Ptr → ν)

/-- The heap stores this tree. -/
abbrev Laid (h : Heap ν) (t : AddrTree β) : Prop := Linked (fun x l r _ => lay x l r) h none t

/-- The nodes from left to right, with their contents. -/
def visits : AddrTree β → List (Ptr × ν)
  | .nil => []
  | .node v l r => visits l ++ (some v.1, lay v.2 (rootPtr l) (rootPtr r)) :: visits r

/-- What a node on the stack stands for: itself and its right subtree. -/
def owed : AddrTree β → List (Ptr × ν)
  | .nil => []
  | .node v l r => (some v.1, lay v.2 (rootPtr l) (rootPtr r)) :: visits lay r

/-- The number of passes that it still takes. -/
def debt : AddrTree β → Nat
  | .nil => 0
  | .node _ _ r => 2 * r.numNodes + 1

def passes (t : AddrTree β) (stack : List (AddrTree β)) : Nat :=
  2 * t.numNodes + (stack.map debt).sum

/-- The node visited last, or NULL. -/
def lastVisited (visited : List Ptr) : Ptr := visited.getLast?.join

/-- The visits so far, those of the current subtree and those owed by the stack are all visits. -/
structure Owes (h : Heap ν) (visit : ν → α → α) (all : List (Ptr × ν)) (acc : α)
    (w : Walk α) (past : List (Ptr × ν)) (t : AddrTree β) (stack : List (AddrTree β)) : Prop where
  cur : w.cur = rootPtr t
  st : w.st = stack.map rootPtr
  visited : w.visited = past.map Prod.fst
  acc : w.acc = past.foldl (fun b n => visit n.2 b) acc
  linked : Laid lay h t
  stacked : ∀ u ∈ stack, u ≠ nil ∧ Laid lay h u
  all : past ++ (visits lay t ++ stack.flatMap (owed lay)) = all

variable {lay} {left right : ν → Ptr} {visit : ν → α → α} {s : Machine γ ν} {t : AddrTree β}
  {act : ν → α → Program (Machine γ ν) α}
  {fuel : Nat} {acc : α} {w : Walk α} {past all : List (Ptr × ν)} {stack : List (AddrTree β)}

/-- It does not matter what a tree hangs from. -/
theorem laid_of_linked {h : Heap ν} {up : Ptr} (hl : Linked (fun x l r _ => lay x l r) h up t) :
    Laid lay h t := by
  cases t with
  | nil => trivial
  | node v l r => exact hl

theorem linked_of_laid {h : Heap ν} {up : Ptr} (hl : Laid lay h t) :
    Linked (fun x l r _ => lay x l r) h up t := by
  cases t with
  | nil => trivial
  | node v l r => exact hl

theorem map_fst_visits (t : AddrTree β) : (visits lay t).map Prod.fst = (addrs t).map some := by
  induction t with
  | nil => rfl
  | node v l r hl hr => simp [visits, hl, hr]

theorem laid_node {h : Heap ν} {v : Addr × β} {l r : AddrTree β} :
    Laid lay h (node v l r) ↔
      h.cells v.1 = some (lay v.2 (rootPtr l) (rootPtr r)) ∧ Laid lay h l ∧ Laid lay h r := by
  constructor
  · exact fun hl => ⟨hl.1, laid_of_linked hl.2.1, laid_of_linked hl.2.2⟩
  · exact fun hl => ⟨hl.1, linked_of_laid hl.2.1, linked_of_laid hl.2.2⟩

/-- A heap and a root determine the tree. -/
theorem Laid.unique {h : Heap ν} {u : AddrTree β} (hlay : ∀ x y l r l' r',
    lay x l r = lay y l' r' → x = y ∧ l = l' ∧ r = r') (ht : Laid lay h t) (hu : Laid lay h u)
    (hroot : rootPtr t = rootPtr u) : t = u := by
  induction t generalizing u with
  | nil => exact (rootPtr_eq_none.mp hroot.symm).symm
  | node v l r ihl ihr =>
    cases u with
    | nil => cases hroot
    | node w l' r' =>
      obtain ⟨a, x⟩ := v
      obtain ⟨b, y⟩ := w
      obtain rfl : a = b := Option.some.inj hroot
      obtain ⟨hv, hl, hr⟩ := laid_node.mp ht
      obtain ⟨hw, hl', hr'⟩ := laid_node.mp hu
      obtain ⟨rfl, hleft, hright⟩ := hlay _ _ _ _ _ _ (Option.some.inj (hv.symm.trans hw))
      rw [ihl hl hl' hleft, ihr hr hr' hright]

theorem lastVisited_concat (visited : List Ptr) (p : Ptr) : lastVisited (visited ++ [p]) = p := by
  rw [lastVisited, List.getLast?_concat, Option.join_some]

/-- Every visit is one of a node with its children. -/
theorem exists_plug_of_mem_visits {x : Ptr × ν} (hx : x ∈ visits lay t) :
    ∃ c v l r, t = plug c (node v l r) ∧ x = (some v.1, lay v.2 (rootPtr l) (rootPtr r)) := by
  have hplug (c : AddrContext β) : ∃ c' v l r, plug c t = plug c' (node v l r) ∧
      x = (some v.1, lay v.2 (rootPtr l) (rootPtr r)) := by
    induction t generalizing c with
    | nil => exact absurd hx List.not_mem_nil
    | node v l r hl hr =>
      rw [visits, List.mem_append, List.mem_cons] at hx
      rcases hx with hx | rfl | hx
      · exact hl hx (⟨.left, v, r⟩ :: c)
      · exact ⟨c, v, l, r, rfl, rfl⟩
      · exact hr hx (⟨.right, v, l⟩ :: c)
  exact hplug []

namespace Owes

variable {h : Heap ν} {v : Addr × β} {l r : AddrTree β}

/-- The current node goes on the stack. -/
theorem descend (hw : Owes lay h visit all acc w past (node v l r) stack) :
    Owes lay h visit all acc { w with st := w.cur :: w.st, cur := rootPtr l } past l
      (node v l r :: stack) := by
  have hlaid := laid_node.mp hw.linked
  constructor
  case cur => rfl
  case st => simp [hw.cur, hw.st]
  case visited => exact hw.visited
  case acc => exact hw.acc
  case linked => exact hlaid.2.1
  case stacked => exact List.forall_mem_cons.mpr ⟨⟨nofun, hw.linked⟩, hw.stacked⟩
  case all =>
    rw [← hw.all]
    simp [visits, owed]

/-- The node on the stack is visited. -/
theorem take (hw : Owes lay h visit all acc w past nil (node v l r :: stack)) :
    Owes lay h visit all acc
      ⟨stack.map rootPtr, rootPtr r, w.visited ++ [some v.1],
        visit (lay v.2 (rootPtr l) (rootPtr r)) w.acc⟩
      (past ++ [(some v.1, lay v.2 (rootPtr l) (rootPtr r))]) r stack := by
  have hlaid := laid_node.mp (hw.stacked _ List.mem_cons_self).2
  constructor
  case cur => rfl
  case st => rfl
  case visited => simp [hw.visited]
  case acc => simp [hw.acc]
  case linked => exact hlaid.2.2
  case stacked => exact fun u hu => hw.stacked u (List.mem_cons_of_mem _ hu)
  case all =>
    rw [← hw.all]
    simp [visits, owed]

theorem top (hw : Owes lay h visit all acc w past nil (node v l r :: stack)) :
    w.st = some v.1 :: stack.map rootPtr ∧
      h.cells v.1 = some (lay v.2 (rootPtr l) (rootPtr r)) :=
  ⟨hw.st, (laid_node.mp (hw.stacked _ List.mem_cons_self).2).1⟩

theorem finished (hw : Owes lay h visit all acc w past nil []) :
    w.visited = all.map Prod.fst ∧ w.acc = all.foldl (fun b n => visit n.2 b) acc := by
  have hpast : past = all := by simpa [visits] using hw.all
  exact ⟨hpast ▸ hw.visited, hpast ▸ hw.acc⟩

end Owes

theorem owes_start {h : Heap ν} (hl : Laid lay h t) :
    Owes lay h visit (visits lay t) acc ⟨[], rootPtr t, [], acc⟩ [] t [] := by
  constructor
  case cur => rfl
  case st => rfl
  case visited => rfl
  case acc => rfl
  case linked => exact hl
  case stacked => exact fun u hu => absurd hu List.not_mem_nil
  case all => simp

theorem passes_descend (v : Addr × β) (l r : AddrTree β) :
    passes l (node v l r :: stack) < passes (node v l r) stack := by
  simp only [passes, numNodes, List.map_cons, List.sum_cons, debt]
  omega

theorem passes_take (v : Addr × β) (l r : AddrTree β) :
    passes r stack < passes nil (node v l r :: stack) := by
  simp only [passes, numNodes, List.map_cons, List.sum_cons, debt]
  omega

/-- In the visits of a walk the program does what the function says. -/
def Visits (act : ν → α → Program (Machine γ ν) α) (visit : ν → α → α) (all : List (Ptr × ν))
    (acc : α) (s : Machine γ ν) : Prop :=
  ∀ past x rest, all = past ++ x :: rest →
    Runs (act x.2 (past.foldl (fun b n => visit n.2 b) acc)) s fun b u =>
      u = s ∧ b = visit x.2 (past.foldl (fun b n => visit n.2 b) acc)

theorem visits_pure : Visits (fun n b => pure (visit n b)) visit all acc s :=
  fun _ _ _ _ => runs_pure.mpr ⟨rfl, rfl⟩

theorem runs_inorderPass (hleft : ∀ x l r, left (lay x l r) = l)
    (hright : ∀ x l r, right (lay x l r) = r) (hact : Visits act visit all acc s)
    (h : Owes lay s.heap visit all acc w past t stack) :
    Runs (inorderPass left right act w) s fun r u => u = s ∧ match r with
      | .again w' => ∃ past' t' stack', passes t' stack' < passes t stack ∧
          Owes lay s.heap visit all acc w' past' t' stack'
      | .done w' => w'.visited = all.map Prod.fst ∧
          w'.acc = all.foldl (fun b n => visit n.2 b) acc := by
  cases t with
  | node v l r =>
    have hsome : w.cur.isSome = true := by rw [h.cur]; rfl
    have hload : load w.cur s = .ok (lay v.2 (rootPtr l) (rootPtr r), s) := by
      simp [h.cur, load, (laid_node.mp h.linked).1]
    simp only [inorderPass, hsome, Bool.or_true, if_true, runs_bind, runs_of_ok hload, runs_pure,
      hleft, true_and]
    exact ⟨past, l, node v l r :: stack, passes_descend v l r, h.descend⟩
  | nil =>
    have hnone : w.cur.isSome = false := by rw [h.cur]; rfl
    cases stack with
    | nil =>
      have hempty : w.st.isEmpty = true := by rw [h.st]; rfl
      simp only [inorderPass, hnone, hempty, Bool.not_true, Bool.or_false, Bool.false_eq_true,
        if_false, runs_pure, true_and]
      exact h.finished
    | cons u stack =>
      cases u with
      | nil => exact absurd rfl (h.stacked nil List.mem_cons_self).1
      | node v l r =>
        obtain ⟨hst, hv⟩ := h.top
        have hvisit := hact past (some v.1, lay v.2 (rootPtr l) (rootPtr r)) _ h.all.symm
        rw [← h.acc] at hvisit
        simp only [inorderPass, hnone, hst, List.isEmpty_cons, Bool.not_false, Bool.true_or,
          if_true, Bool.false_eq_true, if_false, runs_bind, runs_topOf, runs_popOf, runs_load, hv,
          Option.some.injEq, exists_eq_left', hright]
        refine hvisit.mono ?_
        rintro _ u ⟨rfl, rfl⟩
        exact runs_pure.mpr ⟨rfl, _, r, stack, passes_take v l r, h.take⟩

/-- An in-order walk visits every node once, from left to right. -/
theorem runs_inorderWalk (hleft : ∀ x l r, left (lay x l r) = l)
    (hright : ∀ x l r, right (lay x l r) = r) (hact : Visits act visit (visits lay t) acc s)
    (hl : Laid lay s.heap t) (hf : 2 * t.numNodes < fuel) :
    Runs (inorderWalk left right act fuel (rootPtr t) acc) s fun w u => u = s ∧
      w.visited = (addrs t).map some ∧
      w.acc = (visits lay t).foldl (fun b n => visit n.2 b) acc := by
  refine runs_loop (k := 2 * t.numNodes) (fun k w u => u = s ∧ ∃ past t' stack,
    k = passes t' stack ∧ Owes lay s.heap visit (visits lay t) acc w past t' stack) ?_
    ⟨rfl, [], t, [], rfl, owes_start hl⟩ hf
  rintro k w _ ⟨rfl, past, t', stack, rfl, h⟩
  refine (runs_inorderPass hleft hright hact h).mono ?_
  rintro r _ ⟨rfl, hr⟩
  cases r with
  | again w' =>
    obtain ⟨past', t'', stack', hlt, h'⟩ := hr
    exact ⟨_, hlt, rfl, past', t'', stack', rfl, h'⟩
  | done w' =>
    rw [map_fst_visits] at hr
    exact ⟨rfl, hr⟩

end

end LanguageTest
