import LanguageTest.Memory.FreeNodes

namespace LanguageTest.MemPool
open FreeList FreeNodes

/-- `released` is history: the pointers that were passed to `delete[]`. -/
structure Fields where
  freeNodeHeader : Option Node
  released : List Node

abbrev State := Pool Fields

def setFreeNodeHeader (p : Option Node) : Program State Unit :=
  setPool fun o => { o with freeNodeHeader := p }

/-- The loop over a new array, which the constructor and `malloc` have in common. -/
def linkNodes (N b : Nat) : Program State Unit := do
  (List.range (N - 1)).forM fun i => writeNext N (some (b, i)) (some (b, i + 1))
  -- without a node in the array, this is a write before its start
  writeNext N (some (b, N - 1)) none

def construct (N : Nat) : Program State Unit := do
  let b ← newBlock
  setFreeNodeHeader (some (b, 0))
  linkNodes N b

/-- `delete[]` of NULL does nothing. -/
def destroy : Program State Unit :=
  setPool fun o => { o with released := o.freeNodeHeader.toList ++ o.released }

def addBlock (N : Nat) : Program State Unit := do
  let b ← newBlock
  linkNodes N b
  setFreeNodeHeader (some (b, 0))

def malloc (N : Nat) : Program State (Option Node) := do
  if (← getPool).freeNodeHeader = none then addBlock N
  let ret := (← getPool).freeNodeHeader
  setFreeNodeHeader (← readNext N ret)
  writeNext N ret none
  handOut ret
  pure ret

def free (N : Nat) (a : Node) : Program State Unit := do
  writeNext N (some a) (← getPool).freeNodeHeader
  setFreeNodeHeader (some a)
  handIn a

def step (N : Nat) : Op → Program State (Option Node)
  | .malloc => malloc N
  | .free a => do free N a; pure none
  | .use a q => do writeNext N (some a) q; pure none

def run (N : Nat) (ops : List Op) : Program State (List (Option Node)) := runAll (step N) ops

/-- A pool from its constructor to its destructor. -/
def lifetime (N : Nat) (ops : List Op) : Program State Unit := do
  construct N
  let _ ← run N ops
  destroy

def initial (pNext : Node → Option Node) : State := ⟨⟨none, []⟩, 0, pNext, []⟩

/-- Every array that `new[]` gave was released once, by the pointer that `new[]` gave, and nothing
else was released. -/
def Released (s : State) : Prop :=
  s.object.released.Perm ((List.range s.blocks).map fun b => (b, 0))

/-- What a call makes of how many nodes were handed out for the first time, and of the nodes that
were given back and not handed out again, the latest first. -/
def replay : Op → Nat × List Node → Nat × List Node
  | .malloc, (fresh, []) => (fresh + 1, [])
  | .malloc, (fresh, _ :: l) => (fresh, l)
  | .free a, (fresh, l) => (fresh, a :: l)
  | .use _ _, (fresh, l) => (fresh, l)

def replayAll (ops : List Op) : Nat × List Node := ops.foldl (fun r op => replay op r) (0, [])

/-- The calls leave the start of the only array at the head of the free list. -/
def Restored (N : Nat) (ops : List Op) : Prop :=
  1 ≤ N ∧ (replayAll ops).1 ≤ N ∧
    ((replayAll ops).1 = 0 ∨ (replayAll ops).2.head? = some (0, 0))

/-- The calls are made on a pool that has been constructed. -/
def LegalCalls (N : Nat) (ops : List Op) (s : State) : Prop :=
  ∀ t, construct N s = .ok ((), t) → StepsMeet (step N) Legal ops t

/-- The free list is what came back, and below it what was never handed out. Once the pool has
grown, more nodes than those of the first array were handed out. -/
structure Valid (N : Nat) (r : Nat × List Node) (s : State) : Prop where
  free : ∃ rest, Free N s s.object.freeNodeHeader (r.2 ++ rest) ∧
    (s.blocks = 1 → r.1 ≤ N ∧ rest = (List.range' r.1 (N - r.1)).map fun i => (0, i))
  grown : s.blocks ≠ 1 → N < r.1
  blocks : 1 ≤ s.blocks
  released : s.object.released = []

section
variable {N b : Nat} {s : State} {a : Node} {r : Nat × List Node} {l : List Node}
  {pNext : Node → Option Node}

theorem runs_construct (pNext : Node → Option Node) (hN : 1 ≤ N) :
    Runs (construct N) (initial pNext) fun _ t => Valid N (0, []) t := by
  simp only [construct, setFreeNodeHeader, runs_bind, runs_newBlock, runs_setPool]
  refine (runs_link Nat.one_pos hN).mono ?_
  intro _ t ht
  have hstart : Free N (initial pNext) none [] := ⟨.nil, .refl _⟩
  have hnodes := hstart.grow hN ht.blocks ht.inUse ht.link
  have hobject := ht.object
  constructor
  case free =>
    refine ⟨nodesOf N 0, ?_, ?_⟩
    · rw [hobject]
      exact hnodes
    · intro _
      refine ⟨Nat.zero_le N, ?_⟩
      rw [nodesOf, List.range_eq_range']
      rfl
  case grown => exact fun hne => absurd ht.blocks hne
  case blocks => exact Nat.le_of_eq ht.blocks.symm
  case released => rw [hobject]; rfl

/-- An array without nodes is written before its start. -/
theorem fails_construct : Fails (construct 0) (initial pNext) .outOfRange := rfl

theorem runs_addBlock (hN : 1 ≤ N) (h : Free N s none l) :
    Runs (addBlock N) s fun _ t =>
      t.object = { s.object with freeNodeHeader := some (s.blocks, 0) } ∧
      t.blocks = s.blocks + 1 ∧ Free N t (some (s.blocks, 0)) (nodesOf N s.blocks) := by
  simp only [addBlock, setFreeNodeHeader, runs_bind, runs_newBlock]
  refine (runs_link (Nat.lt_succ_self s.blocks) hN).mono ?_
  intro _ t ht
  have hnodes := h.grow hN ht.blocks ht.inUse ht.link
  rw [runs_setPool, ht.object]
  exact ⟨rfl, ht.blocks, hnodes.chain, hnodes.partition⟩

/-- The first free node is handed out. -/
theorem runs_take (h : Free N s s.object.freeNodeHeader (a :: l)) :
    Runs (do
      let ret := (← getPool).freeNodeHeader
      setFreeNodeHeader (← readNext N ret)
      writeNext N ret none
      handOut ret
      pure ret) s fun _ t => t.blocks = s.blocks ∧ t.object.released = s.object.released ∧
        Free N t t.object.freeNodeHeader l := by
  have ha : s.object.freeNodeHeader = some a := h.chain.head_eq
  have hinside := h.inside (List.mem_append_left _ (List.mem_cons_self ..))
  rw [ha] at h
  obtain ⟨l', hl, hpop⟩ := h.pop
  obtain rfl := (List.cons.inj hl).2
  have huse := hpop.use (List.mem_cons_self ..) none
  simp only [setFreeNodeHeader, runs_bind, runs_getPool, ha, runs_readNext hinside, runs_setPool]
  refine (runs_writeNext ?_).mpr ?_
  · exact hinside
  rw [runs_handOut, runs_pure]
  exact ⟨rfl, rfl, huse.chain, huse.partition⟩

/-- A node is handed out for the first time when nothing came back. -/
theorem runs_malloc_fresh {fresh : Nat} (hN : 1 ≤ N) (h : Valid N (fresh, []) s) :
    Runs (malloc N) s fun _ t => Valid N (fresh + 1, []) t := by
  obtain ⟨⟨rest, hfree, hfirst⟩, hgrown, hblocks, hreleased⟩ := h
  have hhead := hfree.chain.head_eq
  rw [malloc, runs_bind, runs_getPool]
  rcases rest with _ | ⟨a, rest⟩
  · -- the first array is used up, so the pool grows
    have hnone : s.object.freeNodeHeader = none := hhead
    have hall : N < fresh + 1 := by
      by_cases hone : s.blocks = 1
      · have hlength := congrArg List.length (hfirst hone).2
        simp only [List.length_nil, List.length_map, List.length_range'] at hlength
        omega
      · exact Nat.lt_succ_of_lt (hgrown hone)
    rw [if_pos hnone, runs_bind]
    rw [hnone] at hfree
    refine (runs_addBlock hN hfree).mono ?_
    intro _ t ht
    obtain ⟨hobject, hcount, hnodes⟩ := ht
    rw [nodesOf_eq hN] at hnodes
    refine (runs_take (by rw [hobject]; exact hnodes)).mono ?_
    intro _ u hu
    obtain ⟨hsame, hnothing, hrest⟩ := hu
    constructor
    case free => exact ⟨_, hrest, fun hone => absurd hone (by omega)⟩
    case grown => exact fun _ => hall
    case blocks => omega
    case released => rw [hnothing, hobject]; exact hreleased
  · have hsome : s.object.freeNodeHeader = some a := hhead
    rw [if_neg (by simp [hsome])]
    refine (runs_take hfree).mono ?_
    intro _ u hu
    obtain ⟨hsame, hnothing, hrest⟩ := hu
    constructor
    case free =>
      refine ⟨rest, hrest, ?_⟩
      intro hone
      obtain ⟨hle, hcons⟩ := hfirst (hsame ▸ hone)
      have hlt : fresh < N := by
        by_contra hge
        rw [Nat.sub_eq_zero_of_le (Nat.not_lt.mp hge)] at hcons
        cases hcons
      obtain ⟨n, hn⟩ := Nat.exists_eq_add_of_lt hlt
      rw [show N - fresh = n + 1 by omega, List.range'_succ] at hcons
      refine ⟨hlt, ?_⟩
      rw [show N - (fresh + 1) = n by omega]
      exact (List.cons.inj hcons).2
    case grown => exact fun hne => Nat.lt_succ_of_lt (hgrown (hsame ▸ hne))
    case blocks => exact hsame ▸ hblocks
    case released => exact hnothing.trans hreleased

/-- What came back last is handed out again. -/
theorem runs_malloc_again {fresh : Nat} (h : Valid N (fresh, a :: l) s) :
    Runs (malloc N) s fun _ t => Valid N (fresh, l) t := by
  obtain ⟨⟨rest, hfree, hfirst⟩, hgrown, hblocks, hreleased⟩ := h
  have hsome : s.object.freeNodeHeader = some a := hfree.chain.head_eq
  rw [malloc, runs_bind, runs_getPool, if_neg (by simp [hsome])]
  refine (runs_take hfree).mono ?_
  intro _ u hu
  obtain ⟨hsame, hnothing, hrest⟩ := hu
  constructor
  case free => exact ⟨rest, hrest, hsame ▸ hfirst⟩
  case grown => exact hsame ▸ hgrown
  case blocks => exact hsame ▸ hblocks
  case released => exact hnothing.trans hreleased

theorem runs_free (h : Valid N r s) (ha : a ∈ s.inUse) :
    Runs (free N a) s fun _ t => Valid N (replay (.free a) r) t := by
  obtain ⟨⟨rest, hfree, hfirst⟩, hgrown, hblocks, hreleased⟩ := h
  have hpush := hfree.push ha
  simp only [MemPool.free, setFreeNodeHeader, runs_bind, runs_getPool,
    runs_writeNext (hfree.inUse_inside ha), runs_setPool, runs_handIn]
  exact ⟨⟨rest, ⟨hpush.chain, hpush.partition⟩, hfirst⟩, hgrown, hblocks, hreleased⟩

theorem step_valid {op : Op} (hN : 1 ≤ N) (h : Valid N r s) (hlegal : Legal op s) :
    Runs (step N op) s fun _ t => Valid N (replay op r) t := by
  obtain ⟨fresh, back⟩ := r
  cases op with
  | malloc =>
    cases back with
    | nil => exact runs_malloc_fresh hN h
    | cons a back => exact runs_malloc_again h
  | free a =>
    rw [step, runs_bind]
    exact (runs_free h hlegal).mono fun _ _ ht => runs_pure.mpr ht
  | use a q =>
    obtain ⟨⟨rest, hfree, hfirst⟩, hgrown, hblocks, hreleased⟩ := h
    have huse := hfree.use hlegal q
    rw [step, runs_bind, runs_writeNext (hfree.inUse_inside hlegal), runs_pure]
    exact ⟨⟨rest, ⟨huse.chain, huse.partition⟩, hfirst⟩, hgrown, hblocks, hreleased⟩

theorem runs_run (hN : 1 ≤ N) (h : Valid N (0, []) s) (ops : List Op)
    (hlegal : StepsMeet (step N) Legal ops s) :
    Runs (run N ops) s fun _ t => Valid N (replayAll ops) t := by
  refine StepsMeet.runs_all (fun pre _ t => Valid N (replayAll pre) t) ops ?_ h hlegal
  intro pre op post rs t _ ht hop
  rw [replayAll, List.foldl_append]
  exact step_valid hN ht hop

/-- Until the first call nothing can have come back. -/
theorem Valid.untouched (h : Valid N r s) (hone : s.blocks = 1) (hzero : r.1 = 0) :
    r.2 = [] := by
  obtain ⟨rest, hfree, hfirst⟩ := h.free
  have hlength := hfree.partition.length_eq
  rw [(hfirst hone).2, hone, hzero, nodes_length] at hlength
  simp only [List.length_append, List.length_map, List.length_range'] at hlength
  apply List.eq_nil_of_length_eq_zero
  omega

/-- Whether the free list starts at the first node of the only array. -/
theorem Valid.restored_iff (hN : 1 ≤ N) (h : Valid N r s) :
    s.blocks = 1 ∧ s.object.freeNodeHeader = some (0, 0) ↔
      r.1 ≤ N ∧ (r.1 = 0 ∨ r.2.head? = some (0, 0)) := by
  obtain ⟨rest, hfree, hfirst⟩ := h.free
  have hhead := hfree.chain.head_eq
  by_cases hone : s.blocks = 1
  · obtain ⟨hle, hrest⟩ := hfirst hone
    simp only [hone, hle, true_and, hhead]
    rcases hback : r.2 with _ | ⟨a, back⟩
    · rw [List.nil_append, hrest]
      constructor
      · intro hstart
        left
        rw [List.head?_map, Option.map_eq_some_iff] at hstart
        obtain ⟨i, hi, heq⟩ := hstart
        have hmem := List.mem_range'_1.mp (List.mem_of_mem_head? hi)
        have hzero := (Prod.mk.inj heq).2
        omega
      · intro hcase
        obtain hzero := hcase.resolve_right (by simp)
        obtain ⟨n, rfl⟩ := Nat.exists_eq_add_of_le' hN
        rw [hzero, Nat.sub_zero, List.range'_succ]
        rfl
    · constructor
      · exact fun hstart => Or.inr hstart
      · intro hcase
        rcases hcase with hzero | hstart
        · rw [h.untouched hone hzero] at hback
          cases hback
        · exact hstart
  · constructor
    · exact fun hcase => absurd hcase.1 hone
    · intro hcase
      have hgrown := h.grown hone
      omega

/-- One pointer is released, so there must be one array. -/
theorem released_iff (h : s.object.released = []) (hblocks : 1 ≤ s.blocks) :
    Runs destroy s (fun _ t => Released t) ↔
      s.blocks = 1 ∧ s.object.freeNodeHeader = some (0, 0) := by
  simp only [destroy, runs_setPool, Released, h, List.append_nil]
  constructor
  · intro hperm
    have hlength := hperm.length_eq
    rw [List.length_map, List.length_range] at hlength
    cases hhead : s.object.freeNodeHeader with
    | none =>
      rw [hhead, Option.toList_none, List.length_nil] at hlength
      omega
    | some a =>
      rw [hhead] at hperm hlength
      have hone : s.blocks = 1 := hlength.symm
      rw [hone] at hperm
      exact ⟨hone, congrArg some (List.singleton_perm_singleton.mp hperm)⟩
  · intro hcase
    obtain ⟨hone, hhead⟩ := hcase
    rw [hone, hhead]
    rfl

theorem lifetime_released_iff (ops : List Op) (hlegal : LegalCalls N ops (initial pNext)) :
    Runs (lifetime N ops) (initial pNext) (fun _ s => Released s) ↔ Restored N ops := by
  rcases Nat.eq_zero_or_pos N with hzero | hN
  · subst hzero
    constructor
    · intro hruns
      exact absurd (fails_construct.bind) hruns.not_fails
    · intro hcase
      exact absurd hcase.1 (Nat.not_succ_le_zero 0)
  · obtain ⟨_, s, hs, hvalid⟩ := runs_construct pNext hN
    obtain ⟨rs, t, ht, hvalid'⟩ := runs_run hN hvalid ops (hlegal s hs)
    rw [lifetime, runs_bind, runs_of_ok hs, runs_bind, runs_of_ok ht,
      released_iff hvalid'.released hvalid'.blocks, hvalid'.restored_iff hN]
    exact ⟨fun hcase => ⟨hN, hcase⟩, fun hcase => hcase.2⟩

/-- Both nodes are handed out and the first one comes back last. -/
theorem lifetime_released_iff_restored :
    Runs (lifetime 2 [.malloc, .malloc, .free (0, 1), .free (0, 0)]) (initial fun _ => none)
        (fun _ s => Released s) ↔
      Restored 2 [.malloc, .malloc, .free (0, 1), .free (0, 0)] :=
  lifetime_released_iff _ (by
    intro t ht
    cases ht
    decide +kernel)

/-- One node is in use when the pool goes, and the rest of the array is released. -/
theorem lifetime_inside :
    LegalCalls 2 [.malloc] (initial fun _ => none) ∧
      ¬ Runs (lifetime 2 [.malloc]) (initial fun _ => none) fun _ s => Released s := by
  constructor
  · intro t ht
    exact ⟨trivial, fun _ _ _ => trivial⟩
  · intro h
    obtain ⟨_, s, hs, hreleased⟩ := h
    cases hs
    exact absurd (List.singleton_perm_singleton.mp hreleased) (by decide)

end

end LanguageTest.MemPool
