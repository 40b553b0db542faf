import LanguageTest.Library.Heap
import LanguageTest.Library.Orbits
import Mathlib.Data.Finset.Image

namespace LanguageTest.DetectCycle
open Function

structure ListNode where
  val : Int
  next : Ptr
  deriving DecidableEq, Repr

abbrev State := Machine Unit ListNode

/-- `p->next`. -/
def next (p : Ptr) : Program State Ptr := do pure (← load p).next

/-- `p && p->next`. -/
def hasNext (p : Ptr) : Program State Bool := pure p.isSome <&&> (do pure (← next p).isSome)

/-- The first loop, with the two pointers that it ends with. -/
def chase (fuel : Nat) (head : Ptr) : Program State (Ptr × Ptr) :=
  loop (fun v : Ptr × Ptr => do
    let (left, right) := v
    if ← hasNext right then
      let left ← next left
      let right ← next (← next right)
      if left = right then pure (.done (left, right)) else pure (.again (left, right))
    else pure (.done (left, right))) fuel (head, head)

/-- The second loop. -/
def walk (fuel : Nat) (left right : Ptr) : Program State Ptr :=
  loop (fun v : Ptr × Ptr => do
    let (left, right) := v
    if right ≠ left then
      let left ← next left
      let right ← next right
      pure (.again (left, right))
    else pure (.done left)) fuel (left, right)

def detectCycle (fuel : Nat) (head : Ptr) : Program State Ptr := do
  if head = none then pure none
  else
    let (left, right) ← chase fuel head
    if ← hasNext right then walk fuel left head else pure none

/-- The successor map. Nothing comes after NULL. -/
def follow (h : Heap ListNode) (p : Ptr) : Ptr := p.bind fun a => (h.cells a).bind ListNode.next

/-- NULL, or the address of a node. -/
def Live (h : Heap ListNode) (p : Ptr) : Prop := ∀ a ∈ p, (h.cells a).isSome

instance (h : Heap ListNode) (p : Ptr) : Decidable (Live h p) :=
  inferInstanceAs (Decidable (∀ a ∈ p, (h.cells a).isSome))

/-- Every link leads to a node or nowhere. -/
def Closed (h : Heap ListNode) : Prop := ∀ a, ∀ n ∈ h.cells a, Live h n.next

theorem closed_iff {h : Heap ListNode} :
    Closed h ↔ ∀ a < h.next, ∀ n ∈ h.cells a, Live h n.next := by
  refine ⟨fun hc a _ => hc a, fun hc a n hn => ?_⟩
  rcases Nat.lt_or_ge a h.next with hlt | hge
  · exact hc a hlt n hn
  · rw [h.unused a hge] at hn
    cases hn

instance (h : Heap ListNode) : Decidable (Closed h) := decidable_of_iff' _ closed_iff

/-- Some number of steps lead from the node back to it. -/
def OnCycle (h : Heap ListNode) (a : Addr) : Prop := some a ∈ periodicPts (follow h)

def Acyclic (h : Heap ListNode) (head : Ptr) : Prop :=
  ∀ n a, (follow h)^[n] head = some a → ¬ OnCycle h a

/-- The node is on a cycle, and those before it are not. -/
def FirstOnCycle (h : Heap ListNode) (head : Ptr) (a : Addr) : Prop :=
  OnCycle h a ∧ ∃ n, (follow h)^[n] head = some a ∧
    ∀ i < n, ∀ b, (follow h)^[i] head = some b → ¬ OnCycle h b

section
variable {s : State} {h : Heap ListNode} {p head : Ptr} {fuel k n : Nat}

@[simp] theorem follow_none : follow h none = none := rfl

theorem runs_next {Q : Ptr → State → Prop} (hp : Live s.heap p) (hne : p ≠ none) :
    Runs (next p) s Q ↔ Q (follow s.heap p) s := by
  obtain ⟨a, rfl⟩ := Option.ne_none_iff_exists'.mp hne
  obtain ⟨n, hn⟩ := Option.isSome_iff_exists.mp (hp a rfl)
  rw [next, runs_bind, runs_load]
  simp only [runs_pure, follow, hn, Option.bind_some, Option.some.injEq, exists_eq_left']

theorem runs_hasNext {Q : Bool → State → Prop} (hp : Live s.heap p) :
    Runs (hasNext p) s Q ↔ Q (follow s.heap p).isSome s := by
  rw [hasNext, runs_andM, runs_pure]
  cases p with
  | none => exact Iff.rfl
  | some a =>
    rw [Option.isSome_some, if_pos rfl, runs_bind, runs_next hp (Option.some_ne_none a), runs_pure]

theorem follow_iterate (n : Nat) : follow h ((follow h)^[n] p) = (follow h)^[n + 1] p :=
  (iterate_succ_apply' ..).symm

theorem Closed.follow (hc : Closed h) : Live h (follow h p) := by
  intro b hb
  simp only [DetectCycle.follow, Option.mem_def, Option.bind_eq_some_iff] at hb
  obtain ⟨a, -, node, hnode, hb⟩ := hb
  exact hc a node hnode b hb

theorem live_iterate (hc : Closed h) (hp : Live h p) (n : Nat) : Live h ((follow h)^[n] p) := by
  induction n with
  | zero => exact hp
  | succ n ih =>
    rw [iterate_succ_apply']
    exact hc.follow

/-- The pointers that an orbit can meet are as many as the addresses, and NULL. -/
theorem exists_meeting_follow (hc : Closed h) (hp : Live h p) :
    ∃ k : Nat, k ≤ h.next + 1 ∧ Meeting (follow h) p k := by
  have hmem (n : Nat) : (follow h)^[n] p ∈ insert none ((Finset.range h.next).image some) := by
    cases hq : (follow h)^[n] p with
    | none => exact Finset.mem_insert_self _ _
    | some a =>
      have hlive := live_iterate hc hp n a hq
      have hlt : a < h.next := by
        by_contra hge
        rw [h.unused a (Nat.not_lt.mp hge)] at hlive
        cases hlive
      exact Finset.mem_insert_of_mem (Finset.mem_image_of_mem _ (Finset.mem_range.mpr hlt))
  obtain ⟨k, hk, hm⟩ := exists_meeting_of_mem hmem
  refine ⟨k, hk.trans ((Finset.card_insert_le _ _).trans ?_), hm⟩
  exact Nat.succ_le_succ (Finset.card_image_le.trans (Finset.card_range _).le)

theorem acyclic_of_ends (hn : (follow h)^[n] head = none) : Acyclic h head := by
  intro m a ha hcycle
  have hnone := eq_of_mem_periodicPts follow_none hn (show (follow h)^[m] head ∈ _ from ha ▸ hcycle)
  rw [ha] at hnone
  cases hnone

theorem iterate_ne_none (hn : (follow h)^[n] head ≠ none) (hk : k ≤ n) :
    (follow h)^[k] head ≠ none :=
  fun hnone => hn (iterate_eq_of_le follow_none hnone hk)

/-- How the first loop ends: at the end of the list, or where the pointers meet in a node. -/
def Chased (h : Heap ListNode) (head : Ptr) (bound : Nat) (v : Ptr × Ptr) : Prop :=
  ∃ k ≤ bound, v = ((follow h)^[k] head, (follow h)^[2 * k] head) ∧
    ((follow h)^[2 * k + 1] head = none ∨
      Meeting (follow h) head k ∧ (follow h)^[2 * k] head ≠ none)

theorem runs_chase (hc : Closed s.heap) (hp : Live s.heap head) (hf : s.heap.next + 1 < fuel) :
    Runs (chase fuel head) s fun v t => t = s ∧ Chased s.heap head (s.heap.next + 1) v := by
  obtain ⟨m, hm, hmeet⟩ := exists_meeting_follow hc hp
  refine runs_loop (k := m) (fun r (v : Ptr × Ptr) t => t = s ∧ ∃ k, k + r = m ∧
    v = ((follow s.heap)^[k] head, (follow s.heap)^[2 * k] head) ∧
      ∀ i ≤ k, ¬ Meeting (follow s.heap) head i) ?_
    ⟨rfl, 0, Nat.zero_add m, rfl, fun i hi hi' => ?_⟩ (hm.trans_lt hf)
  · rintro r _ t ⟨ht, k, hk, rfl, hbefore⟩
    subst t
    have hlive := live_iterate hc hp
    -- the pointers meet at the time `m` at the latest
    have hkm : k < m := Nat.lt_of_not_le fun hge => hbefore m hge hmeet
    dsimp only
    rw [runs_bind, runs_hasNext (hlive _), follow_iterate]
    cases hend : (follow s.heap)^[2 * k + 1] head with
    | none =>
      rw [Option.isSome_none, if_neg Bool.false_ne_true, runs_pure]
      exact ⟨rfl, k, by omega, rfl, Or.inl hend⟩
    | some a =>
      have hne : (follow s.heap)^[2 * k + 1] head ≠ none := hend ▸ Option.some_ne_none a
      have hdouble : 2 * k + 1 + 1 = 2 * (k + 1) := by omega
      have hleft := iterate_ne_none hne (show k ≤ 2 * k + 1 by omega)
      have hright := iterate_ne_none hne (Nat.le_succ (2 * k))
      rw [Option.isSome_some, if_pos rfl, runs_bind, runs_next (hlive _) hleft, runs_bind,
        runs_next (hlive _) hright, follow_iterate, follow_iterate, runs_bind,
        runs_next (hlive _) hne, follow_iterate, hdouble]
      have hnext := iterate_ne_none hne (show k + 1 ≤ 2 * k + 1 by omega)
      have hpos := Nat.succ_pos k
      split_ifs with heq
      · rw [runs_pure]
        exact ⟨rfl, k + 1, by omega, rfl, Or.inr ⟨⟨hpos, heq⟩, heq ▸ hnext⟩⟩
      · rw [runs_pure]
        have hnot (i : Nat) (hi : i ≤ k + 1) : ¬ Meeting (follow s.heap) head i := by
          rcases Nat.le_or_eq_of_le_succ hi with hle | rfl
          · exact hbefore i hle
          · exact fun hm => heq hm.2
        have hlt : k + 1 < m := Nat.lt_of_not_le fun hge => hnot m hge hmeet
        exact ⟨m - (k + 1), by omega, rfl, k + 1, by omega, rfl, hnot⟩
  · exact absurd hi'.1 (by omega)

/-- From a meeting at the time `k` and from the head, two pointers first meet on the cycle. -/
theorem runs_walk (hc : Closed s.heap) (hp : Live s.heap head)
    (hm : Meeting (follow s.heap) head k) (hne : ∀ n, (follow s.heap)^[n] head ≠ none)
    (hf : k < fuel) :
    Runs (walk fuel ((follow s.heap)^[k] head) head) s fun r t =>
      t = s ∧ ∃ a, r = some a ∧ FirstOnCycle s.heap head a := by
  refine runs_loop (k := k) (fun r (v : Ptr × Ptr) t => t = s ∧ ∃ j, j + r = k ∧
    v = ((follow s.heap)^[k + j] head, (follow s.heap)^[j] head) ∧
      ∀ i < j, (follow s.heap)^[i] head ∉ periodicPts (follow s.heap)) ?_
    ⟨rfl, 0, Nat.zero_add k, rfl, fun i hi => absurd hi (Nat.not_lt_zero i)⟩ hf
  rintro r _ t ⟨ht, j, hj, rfl, hbefore⟩
  subst t
  have hlive := live_iterate hc hp
  dsimp only
  split_ifs with heq
  · have hj' : (follow s.heap)^[j] head ∉ periodicPts (follow s.heap) := fun hmem =>
      heq (hm.mem_periodicPts_iff.mp hmem).symm
    have hlt : j < k := by
      rcases Nat.lt_or_ge j k with hlt | hge
      · exact hlt
      · have hkj : j = k := by omega
        exact absurd (hkj ▸ ⟨k, meeting_iff.mp hm⟩) hj'
    rw [runs_bind, runs_next (hlive _) (hne _), runs_bind, runs_next (hlive _) (hne _), runs_pure,
      follow_iterate, follow_iterate]
    refine ⟨k - (j + 1), by omega, rfl, j + 1, by omega, rfl, fun i hi => ?_⟩
    rcases Nat.lt_succ_iff_lt_or_eq.mp hi with hlt | rfl
    · exact hbefore i hlt
    · exact hj'
  · have heq := not_not.mp heq
    obtain ⟨a, ha⟩ := Option.ne_none_iff_exists'.mp (hne j)
    rw [runs_pure, ← heq, ha]
    refine ⟨rfl, a, rfl, ?_, j, ha, fun i hi b hb hcycle => hbefore i hi (hb ▸ hcycle)⟩
    rw [OnCycle, ← ha]
    exact hm.mem_periodicPts_iff.mpr heq.symm

theorem FirstOnCycle.not_acyclic {a : Addr} (hf : FirstOnCycle h head a) : ¬ Acyclic h head := by
  obtain ⟨hcycle, n, hn, -⟩ := hf
  exact fun hacyclic => hacyclic n a hn hcycle

end

/-- NULL for a list without a cycle, and otherwise the node where the cycle begins. -/
theorem detectCycle_first (s : State) (head : Ptr) (hs : Closed s.heap) (hh : Live s.heap head)
    (fuel : Nat) (hf : s.heap.next + 1 < fuel) :
    Runs (detectCycle fuel head) s fun r t =>
      t = s ∧ (r = none ↔ Acyclic s.heap head) ∧ ∀ a, r = some a → FirstOnCycle s.heap head a := by
  have hnone (n : Nat) (hn : (follow s.heap)^[n] head = none) :
      ((none : Ptr) = none ↔ Acyclic s.heap head) ∧
        ∀ a, (none : Ptr) = some a → FirstOnCycle s.heap head a := by
    refine ⟨iff_of_true rfl (acyclic_of_ends hn), fun a ha => ?_⟩
    cases ha
  rw [detectCycle]
  split_ifs with hhead
  · rw [runs_pure]
    exact ⟨rfl, hnone 0 hhead⟩
  · rw [runs_bind]
    refine (runs_chase hs hh hf).mono ?_
    rintro _ t ⟨ht, k, hk, rfl, hend⟩
    subst t
    dsimp only
    rw [runs_bind, runs_hasNext (live_iterate hs hh _), follow_iterate]
    split_ifs with hmore
    · -- the list goes on, and so the pointers met in a node of the cycle
      rcases hend with hend | ⟨hm, hne⟩
      · rw [hend] at hmore
        cases hmore
      · have hcycle : (follow s.heap)^[k] head ∈ periodicPts (follow s.heap) :=
          ⟨k, meeting_iff.mp hm⟩
        rw [← hm.2] at hne
        have hnever (n : Nat) : (follow s.heap)^[n] head ≠ none := fun hn =>
          hne (eq_of_mem_periodicPts follow_none hn hcycle)
        refine (runs_walk hs hh hm hnever (hk.trans_lt hf)).mono ?_
        rintro _ t ⟨ht, a, rfl, hfirst⟩
        refine ⟨ht, iff_of_false (Option.some_ne_none a) hfirst.not_acyclic, fun b hb => ?_⟩
        cases hb
        exact hfirst
    · rw [runs_pure]
      exact ⟨rfl, hnone _ (Option.not_isSome_iff_eq_none.mp hmore)⟩

/-- Two nodes that follow each other, after a first one. -/
def sample : State :=
  ⟨(), ((Heap.empty.alloc ⟨3, some 1⟩).alloc ⟨2, some 2⟩).alloc ⟨0, some 1⟩⟩

theorem detectCycle_first_sample :
    Runs (detectCycle 5 (some 0)) sample fun r t =>
      t = sample ∧ (r = none ↔ Acyclic sample.heap (some 0)) ∧
        ∀ a, r = some a → FirstOnCycle sample.heap (some 0) a :=
  detectCycle_first sample (some 0) (by decide) (by decide) 5 (by decide)

end LanguageTest.DetectCycle
