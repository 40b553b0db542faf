import LanguageTest.Library.Traversal

namespace LanguageTest
open BinaryTree

variable {β γ ν : Type}

/-- One pass of a loop that releases the nodes of a tree level by level: the children of the first
node in the queue are put behind the others, and the node is released. -/
def releasePass (left right : ν → Ptr) :
    List Ptr → Program (Machine γ ν) (Step (List Ptr) Unit)
  | [] => pure (.done ())
  | p :: q => do
    let n ← load p
    let q := if (left n).isSome then q ++ [left n] else q
    let q := if (right n).isSome then q ++ [right n] else q
    delete p
    pure (.again q)

/-- A tree in the queue, unless it is empty. -/
def queued : AddrTree β → List (AddrTree β)
  | .nil => []
  | .node v l r => [node v l r]

section
variable (lay : β → Ptr → Ptr → ν)

/-- The queue holds the roots of disjoint trees, and the heap nothing else. -/
structure Awaits (h : Heap ν) (q : List Ptr) (ts : List (AddrTree β)) : Prop where
  queue : q = ts.map rootPtr
  laid : ∀ t ∈ ts, t ≠ nil ∧ Laid lay h t
  nodup : (ts.flatMap addrs).Nodup
  domain : ∀ a, (h.cells a).isSome ↔ a ∈ ts.flatMap addrs

variable {lay} {left right : ν → Ptr} {s : Machine γ ν} {t : AddrTree β} {q : List Ptr}
  {ts : List (AddrTree β)} {fuel : Nat}

theorem queue_append (q : List Ptr) (t : AddrTree β) :
    (if (rootPtr t).isSome then q ++ [rootPtr t] else q) = q ++ (queued t).map rootPtr := by
  cases t with
  | nil => simp [queued]
  | node v l r => simp [queued]

theorem flatMap_queued (t : AddrTree β) : (queued t).flatMap addrs = addrs t := by
  cases t with
  | nil => rfl
  | node v l r => simp [queued]

theorem mem_queued {u : AddrTree β} (hu : u ∈ queued t) : u = t ∧ t ≠ nil := by
  cases t with
  | nil => cases hu
  | node v l r => exact ⟨List.mem_singleton.mp hu, nofun⟩

theorem awaits_queued (hl : Laid lay s.heap t) (hn : (addrs t).Nodup)
    (hd : ∀ a, (s.heap.cells a).isSome ↔ a ∈ addrs t) :
    Awaits lay s.heap ((queued t).map rootPtr) (queued t) := by
  constructor
  case queue => rfl
  case laid =>
    intro u hu
    obtain ⟨rfl, hne⟩ := mem_queued hu
    exact ⟨hne, hl⟩
  case nodup => rwa [flatMap_queued]
  case domain => rwa [flatMap_queued]

/-- The first tree in the queue gives its root and the trees below it, which come last. -/
theorem flatMap_next (v : Addr × β) (l r : AddrTree β) (ts : List (AddrTree β)) :
    ((node v l r :: ts).flatMap addrs).Perm
      (v.1 :: (ts ++ queued l ++ queued r).flatMap addrs) := by
  simp only [List.flatMap_cons, List.flatMap_append, flatMap_queued, addrs_node,
    List.append_assoc, List.cons_append]
  apply List.perm_middle.trans
  rw [← List.append_assoc]
  exact List.perm_append_comm.cons v.1

theorem Awaits.laid_next {h : Heap ν} {v : Addr × β} {l r : AddrTree β}
    (hw : Awaits lay h q (node v l r :: ts)) :
    ∀ u ∈ ts ++ queued l ++ queued r, u ≠ nil ∧ Laid lay h u := by
  obtain ⟨-, hl, hr⟩ := laid_node.mp (hw.laid _ List.mem_cons_self).2
  intro u hu
  rcases List.mem_append.mp hu with hu | hu
  · rcases List.mem_append.mp hu with hu | hu
    · exact hw.laid u (List.mem_cons_of_mem _ hu)
    · obtain ⟨rfl, hne⟩ := mem_queued hu
      exact ⟨hne, hl⟩
  · obtain ⟨rfl, hne⟩ := mem_queued hu
    exact ⟨hne, hr⟩

theorem Awaits.next {h : Heap ν} {v : Addr × β} {l r : AddrTree β}
    (hw : Awaits lay h q (node v l r :: ts)) :
    Awaits lay (h.release v.1) ((ts ++ queued l ++ queued r).map rootPtr)
      (ts ++ queued l ++ queued r) := by
  have hperm := flatMap_next v l r ts
  have hnodup := hperm.nodup_iff.mp hw.nodup
  rw [List.nodup_cons] at hnodup
  obtain ⟨hnot, hnodup⟩ := hnodup
  constructor
  case queue => rfl
  case laid =>
    intro u hu
    obtain ⟨hne, hl⟩ := hw.laid_next u hu
    exact ⟨hne, hl.release fun hv => hnot (List.mem_flatMap.mpr ⟨u, hu, hv⟩)⟩
  case nodup => exact hnodup
  case domain =>
    intro a
    have hd := hw.domain a
    rw [hperm.mem_iff, List.mem_cons] at hd
    rw [Heap.release_cells]
    split_ifs with ha
    · subst ha
      exact iff_of_false nofun hnot
    · rw [hd, or_iff_right ha]

theorem runs_releasePass (hleft : ∀ x l r, left (lay x l r) = l)
    (hright : ∀ x l r, right (lay x l r) = r) (hw : Awaits lay s.heap q ts) :
    Runs (releasePass left right q) s fun r u => u.object = s.object ∧ match r with
      | .again q' => ∃ ts', (ts'.flatMap addrs).length < (ts.flatMap addrs).length ∧
          Awaits lay u.heap q' ts'
      | .done _ => ∀ a, u.heap.cells a = none := by
  cases ts with
  | nil =>
    obtain rfl : q = [] := hw.queue
    refine runs_pure.mpr ⟨rfl, fun a => ?_⟩
    have hd := hw.domain a
    simpa using hd
  | cons t ts =>
    cases t with
    | nil => exact absurd rfl (hw.laid nil List.mem_cons_self).1
    | node v l r =>
      obtain ⟨hv, -, -⟩ := laid_node.mp (hw.laid _ List.mem_cons_self).2
      obtain rfl : q = some v.1 :: ts.map rootPtr := hw.queue
      simp only [releasePass, runs_bind, runs_load, hv, Option.some.injEq, exists_eq_left',
        runs_delete, Option.isSome_some, true_and, hleft, hright, queue_append, runs_pure]
      refine ⟨ts ++ queued l ++ queued r, ?_, ?_⟩
      · rw [(flatMap_next v l r ts).length_eq]
        exact Nat.lt_succ_self _
      · simpa only [List.map_append] using hw.next

/-- The loop releases every node once. -/
theorem runs_release (hleft : ∀ x l r, left (lay x l r) = l)
    (hright : ∀ x l r, right (lay x l r) = r) (hl : Laid lay s.heap t) (hn : (addrs t).Nodup)
    (hd : ∀ a, (s.heap.cells a).isSome ↔ a ∈ addrs t) (hf : t.numNodes < fuel) :
    Runs (loop (releasePass left right) fuel ((queued t).map rootPtr)) s fun _ u =>
      u.object = s.object ∧ ∀ a, u.heap.cells a = none := by
  have hlength : ((queued t).flatMap addrs).length = t.numNodes := by
    rw [flatMap_queued, addrs, List.length_map, length_inorder]
  refine runs_loop (k := t.numNodes) (fun k q u => u.object = s.object ∧ ∃ ts,
    k = (ts.flatMap addrs).length ∧ Awaits lay u.heap q ts) ?_
    ⟨rfl, queued t, hlength.symm, awaits_queued hl hn hd⟩ hf
  rintro k q u ⟨hobject, ts, rfl, hw⟩
  refine (runs_releasePass hleft hright hw).mono ?_
  rintro r w ⟨hsame, hr⟩
  cases r with
  | again q' =>
    obtain ⟨ts', hlt, hw'⟩ := hr
    exact ⟨_, hlt, hsame.trans hobject, ts', rfl, hw'⟩
  | done _ => exact ⟨hsame.trans hobject, hr⟩

end

end LanguageTest
