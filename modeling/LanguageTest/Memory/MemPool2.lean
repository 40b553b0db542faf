import LanguageTest.Memory.FreeNodes

namespace LanguageTest.MemPool2
open FreeList FreeNodes

/-- `blockNext` holds the fields `pNext` of the memory blocks. -/
structure Fields where
  freeNodeHeader : Option Node
  memBlockHeader : Option Nat
  blockNext : Nat → Option Nat

abbrev State := Pool Fields

def setFreeNodeHeader (p : Option Node) : Program State Unit :=
  setPool fun o => { o with freeNodeHeader := p }

def setMemBlockHeader (b : Option Nat) : Program State Unit :=
  setPool fun o => { o with memBlockHeader := b }

def setBlockNext (b : Nat) (next : Option Nat) : Program State Unit :=
  setPool fun o => { o with blockNext := Function.update o.blockNext b next }

def linkNodes (N b : Nat) : Program State Unit := do
  (List.range' 1 (N - 1)).forM fun i => writeNext N (some (b, i - 1)) (some (b, i))
  -- without a node in the array, this is a write before its start
  writeNext N (some (b, N - 1)) none

/-- What `malloc` does when there is no free node. -/
def addBlock (N : Nat) : Program State Unit := do
  let b ← newBlock
  setBlockNext b none
  setFreeNodeHeader (some (b, 0))
  linkNodes N b
  if (← getPool).memBlockHeader = none then
    setMemBlockHeader (some b)
  else
    setBlockNext b (← getPool).memBlockHeader
    setMemBlockHeader (some b)

def malloc (N : Nat) : Program State (Option Node) := do
  if (← getPool).freeNodeHeader = none then addBlock N
  let freeNode := (← getPool).freeNodeHeader
  setFreeNodeHeader (← readNext N freeNode)
  handOut freeNode
  pure freeNode

def free (N : Nat) (a : Node) : Program State Unit := do
  writeNext N (some a) (← getPool).freeNodeHeader
  setFreeNodeHeader (some a)
  handIn a

def step (N : Nat) : Op → Program State (Option Node)
  | .malloc => malloc N
  | .free a => do free N a; pure none
  | .use a q => do writeNext N (some a) q; pure none

def initial (pNext : Node → Option Node) (blockNext : Nat → Option Nat) : State :=
  ⟨⟨none, none, blockNext⟩, 0, pNext, []⟩

def run (N : Nat) (ops : List Op) : Program State (List (Option Node)) := runAll (step N) ops

/-- What is promised in every state. -/
structure Sound (N : Nat) (s : State) : Prop where
  freeList : ∃ free, Chain s.pNext s.object.freeNodeHeader free ∧ free.Nodup ∧
    (free ++ s.inUse).Perm (nodes N s.blocks)
  inUse : s.inUse.Nodup
  blockList : ∃ bs, Chain s.object.blockNext s.object.memBlockHeader bs ∧
    bs.Perm (List.range s.blocks)

/-- After these calls with these results the nodes are in use, and no `malloc` returned one that was
in use already. -/
inductive Handed : List Op → List (Option Node) → List Node → Prop
  | start : Handed [] [] []
  | malloc {ops rs used a} : Handed ops rs used → a ∉ used →
    Handed (ops ++ [.malloc]) (rs ++ [some a]) (a :: used)
  | free {ops rs used a} : Handed ops rs used → a ∈ used →
    Handed (ops ++ [.free a]) (rs ++ [none]) (used.erase a)
  | use {ops rs used a q} : Handed ops rs used → a ∈ used →
    Handed (ops ++ [.use a q]) (rs ++ [none]) used

/-- The block list, with every block there is. -/
def Blocks (o : Fields) (blocks : Nat) : Prop :=
  ∃ bs, Chain o.blockNext o.memBlockHeader bs ∧ bs.Perm (List.range blocks)

def Valid (N : Nat) (s : State) : Prop :=
  (∃ free, Free N s s.object.freeNodeHeader free) ∧ Blocks s.object s.blocks

section
variable {N : Nat} {s : State} {a : Node} {o : Fields}

theorem Valid.sound (h : Valid N s) : Sound N s := by
  obtain ⟨⟨free, hfree⟩, hblocks⟩ := h
  obtain ⟨hnodup, hinUse, -⟩ := List.nodup_append'.mp hfree.nodup
  exact ⟨⟨free, hfree.chain, hnodup, hfree.partition⟩, hinUse, hblocks⟩

/-- A new block before all others. -/
theorem Blocks.push {blocks : Nat} (h : Blocks o blocks) (head : Option Node) :
    Blocks ⟨head, some blocks, Function.update o.blockNext blocks o.memBlockHeader⟩
      (blocks + 1) := by
  obtain ⟨bs, hchain, hperm⟩ := h
  have hfresh : blocks ∉ bs := by
    intro hmem
    exact Nat.lt_irrefl blocks (List.mem_range.mp (hperm.mem_iff.mp hmem))
  refine ⟨blocks :: bs, hchain.push hfresh, ?_⟩
  rw [List.range_succ]
  exact (hperm.cons blocks).trans (List.perm_append_singleton blocks _).symm

theorem runs_linkNodes {b : Nat} (hN : 1 ≤ N) (hb : b < s.blocks) :
    Runs (linkNodes N b) s fun _ t => InOrder N b s t := by
  have hloop : linkNodes N b = (do
      (List.range (N - 1)).forM fun i => writeNext N (some (b, i)) (some (b, i + 1))
      writeNext N (some (b, N - 1)) none) := by
    rw [linkNodes, List.range'_eq_map_range, List.forM_eq_forM, List.forM_map]
    simp only [Nat.add_comm 1, Nat.add_sub_cancel]
  rw [hloop]
  exact runs_link hb hN

theorem runs_addBlock (hN : 1 ≤ N) (h : Valid N s) (hempty : s.object.freeNodeHeader = none) :
    Runs (addBlock N) s fun _ t => t.object.freeNodeHeader = some (s.blocks, 0) ∧
      t.inUse = s.inUse ∧ Valid N t := by
  obtain ⟨⟨free, hfree⟩, hblocks⟩ := h
  rw [hempty] at hfree
  have hpush := hblocks.push (some (s.blocks, 0))
  simp only [addBlock, setBlockNext, setFreeNodeHeader, setMemBlockHeader, runs_bind,
    runs_newBlock, runs_setPool]
  refine (runs_linkNodes hN (Nat.lt_succ_self s.blocks)).mono ?_
  intro _ t ht
  have hnodes := hfree.grow hN ht.blocks ht.inUse ht.link
  have hobject := ht.object
  have hcount := ht.blocks
  rw [runs_getPool, hobject]
  split
  · next hfirst =>
    rw [runs_setPool]
    refine ⟨by rw [hobject], ht.inUse, ⟨nodesOf N s.blocks, ?_⟩, ?_⟩
    · simp only [hobject]
      exact ⟨hnodes.chain, hnodes.partition⟩
    · have hfirst : s.object.memBlockHeader = none := hfirst
      rw [hfirst] at hpush
      rw [hcount]
      simpa only [hobject] using hpush
  · next hlater =>
    rw [runs_bind, runs_getPool, runs_bind, runs_setPool, runs_setPool]
    refine ⟨by rw [hobject], ht.inUse, ⟨nodesOf N s.blocks, ?_⟩, ?_⟩
    · simp only [hobject]
      exact ⟨hnodes.chain, hnodes.partition⟩
    · rw [hcount]
      simpa only [hobject, Function.update_idem] using hpush

/-- A free node is handed out, which was not in use. -/
theorem runs_take (h : Valid N s) (ha : s.object.freeNodeHeader = some a) :
    Runs (do
      let freeNode := (← getPool).freeNodeHeader
      setFreeNodeHeader (← readNext N freeNode)
      handOut freeNode
      pure freeNode) s fun r t => r = some a ∧ a ∉ s.inUse ∧ t.inUse = a :: s.inUse ∧
        Valid N t := by
  obtain ⟨⟨free, hfree⟩, hblocks⟩ := h
  rw [ha] at hfree
  obtain ⟨l, rfl, hpop⟩ := hfree.pop
  have hunused : a ∉ s.inUse := fun hm => hfree.not_free hm (List.mem_cons_self ..)
  have hinside := hfree.inside (List.mem_append_left _ (List.mem_cons_self ..))
  simp only [setFreeNodeHeader, runs_bind, runs_getPool, ha, runs_readNext hinside, runs_setPool,
    runs_handOut, runs_pure]
  exact ⟨trivial, hunused, rfl, ⟨l, hpop.chain, hpop.partition⟩, hblocks⟩

theorem runs_malloc (hN : 1 ≤ N) (h : Valid N s) : Runs (malloc N) s fun r t =>
    ∃ a, r = some a ∧ a ∉ s.inUse ∧ t.inUse = a :: s.inUse ∧ Valid N t := by
  rw [malloc, runs_bind, runs_getPool]
  cases hhead : s.object.freeNodeHeader with
  | none =>
    rw [if_pos rfl, runs_bind]
    refine (runs_addBlock hN h hhead).mono ?_
    rintro _ t ⟨hhead, hsame, ht⟩
    rw [← hsame]
    exact (runs_take ht hhead).mono fun _ _ hu => ⟨_, hu⟩
  | some a =>
    exact (runs_take h hhead).mono fun _ _ ht => ⟨a, ht⟩

theorem runs_free (h : Valid N s) (ha : a ∈ s.inUse) :
    Runs (free N a) s fun _ t => t.inUse = s.inUse.erase a ∧ Valid N t := by
  obtain ⟨⟨free, hfree⟩, hblocks⟩ := h
  have hpush := hfree.push ha
  simp only [MemPool2.free, setFreeNodeHeader, runs_bind, runs_getPool,
    runs_writeNext (hfree.inUse_inside ha), runs_setPool, runs_handIn]
  exact ⟨trivial, ⟨a :: free, hpush.chain, hpush.partition⟩, hblocks⟩

theorem step_valid {op : Op} {ops : List Op} {rs : List (Option Node)} (hN : 1 ≤ N)
    (h : Valid N s) (hhanded : Handed ops rs s.inUse) (hlegal : Legal op s) :
    Runs (step N op) s fun r t => Valid N t ∧ Handed (ops ++ [op]) (rs ++ [r]) t.inUse := by
  cases op with
  | malloc =>
    refine (runs_malloc hN h).mono ?_
    rintro _ t ⟨a, rfl, hunused, hsame, ht⟩
    exact ⟨ht, hsame ▸ hhanded.malloc hunused⟩
  | free a =>
    rw [step, runs_bind]
    refine (runs_free h hlegal).mono ?_
    rintro _ t ⟨hsame, ht⟩
    exact runs_pure.mpr ⟨ht, hsame ▸ hhanded.free hlegal⟩
  | use a q =>
    obtain ⟨⟨free, hfree⟩, hblocks⟩ := h
    have huse := hfree.use hlegal q
    rw [step, runs_bind, runs_writeNext (hfree.inUse_inside hlegal), runs_pure]
    exact ⟨⟨⟨free, huse.chain, huse.partition⟩, hblocks⟩, hhanded.use hlegal⟩

theorem valid_initial {pNext : Node → Option Node} {blockNext : Nat → Option Nat} :
    Valid N (initial pNext blockNext) :=
  ⟨⟨[], .nil, .refl _⟩, [], .nil, .refl _⟩

theorem run_nodes {pNext : Node → Option Node} {blockNext : Nat → Option Nat} (hN : 1 ≤ N)
    (ops : List Op) (hlegal : StepsMeet (step N) Legal ops (initial pNext blockNext)) :
    Runs (run N ops) (initial pNext blockNext) fun rs s =>
      Sound N s ∧ Handed ops rs s.inUse := by
  refine (StepsMeet.runs_all (fun pre rs s => Valid N s ∧ Handed pre rs s.inUse) ops ?_
    ⟨valid_initial, .start⟩ hlegal).mono ?_
  · exact fun _ _ _ _ _ _ hs hop => step_valid hN hs.1 hs.2 hop
  · exact fun _ _ hs => ⟨hs.1.sound, hs.2⟩

/-- Two blocks, and nodes that come back in another order than they were handed out in. -/
theorem run_nodes_blocks :
    Runs (run 2 [.malloc, .malloc, .use (0, 1) (some (7, 7)), .free (0, 0), .malloc, .malloc,
        .free (0, 1), .free (1, 0), .malloc])
      (initial (fun _ => none) (fun _ => none)) fun rs s => Sound 2 s ∧
        Handed [.malloc, .malloc, .use (0, 1) (some (7, 7)), .free (0, 0), .malloc, .malloc,
          .free (0, 1), .free (1, 0), .malloc] rs s.inUse :=
  run_nodes (by decide) _ (by decide +kernel)

end

end LanguageTest.MemPool2
