import LanguageTest.Library.Program
import Mathlib.Tactic.ByContra

namespace LanguageTest.MinStack

/-- The two stacks, each with its top first. -/
structure State where
  data : List Int
  mData : List Int

def initial : State := ⟨[], []⟩

def assign (f : State → State) : Program State Unit := fun s => .ok ((), f s)

def push (x : Int) : Program State Unit := do
  assign fun s => { s with data := x :: s.data }
  if x ≤ (← topOf (← get).mData) then
    assign fun s => { s with mData := x :: s.mData }

def pop : Program State Unit := do
  if (← get).data.isEmpty then pure ()
  else
    let temp ← topOf (← get).data
    let data ← popOf (← get).data
    assign fun s => { s with data := data }
    if temp = (← topOf (← get).mData) then
      let mData ← popOf (← get).mData
      assign fun s => { s with mData := mData }

def top : Program State Int := do
  if (← get).data.isEmpty then pure (-1)
  else topOf (← get).data

def getMin : Program State Int := do
  if (← get).data.isEmpty then pure (-1)
  else topOf (← get).mData

inductive Op where
  | push (x : Int)
  | pop
  deriving DecidableEq

def step : Op → Program State Unit
  | .push x => push x
  | .pop => pop

/-- The visible stack, its top first. -/
def stack : Op → List Int → Unit × List Int
  | .push x, items => ((), x :: items)
  | .pop, items => ((), items.tail)

/-- The elements that are no greater than all below them. -/
def minima : List Int → List Int
  | [] => []
  | x :: items => if ∀ y ∈ items, x ≤ y then x :: minima items else minima items

/-- What is promised of a stack of these elements. -/
structure Sound (s : State) (items : List Int) : Prop where
  data : s.data = items
  mData : s.mData = minima items
  top : Runs top s fun x t => t = s ∧ x = items.head?.getD (-1)
  getMin : Runs getMin s fun x t => t = s ∧ x = items.min?.getD (-1)

section
variable {ops : List Op} {s : State} {items : List Int} {x : Int}

@[simp] theorem runs_assign {f : State → State} {Q : Unit → State → Prop} :
    Runs (assign f) s Q ↔ Q () (f s) :=
  runs_of_ok rfl

/-- The first of the minima is the least element. -/
theorem exists_minima (h : items ≠ []) :
    ∃ m rest, minima items = m :: rest ∧ m ∈ items ∧ ∀ y ∈ items, m ≤ y := by
  induction items with
  | nil => contradiction
  | cons x items ih =>
    by_cases hx : ∀ y ∈ items, x ≤ y
    · refine ⟨x, minima items, by rw [minima, if_pos hx], List.mem_cons_self, ?_⟩
      intro y hy
      rcases List.mem_cons.mp hy with rfl | hmem
      · exact Int.le_refl _
      · exact hx y hmem
    · have hne : items ≠ [] := by
        intro hnil
        exact hx (by simp [hnil])
      obtain ⟨m, rest, hminima, hmem, hleast⟩ := ih hne
      refine ⟨m, rest, by rw [minima, if_neg hx, hminima], List.mem_cons_of_mem _ hmem, ?_⟩
      intro y hy
      rcases List.mem_cons.mp hy with rfl | hy
      · by_contra hlt
        exact hx fun z hz => by
          have hmz := hleast z hz
          omega
      · exact hleast y hy

/-- The stacks as they are meant to be. -/
def Mirrors (s : State) (items : List Int) : Prop := s.data = items ∧ s.mData = minima items

theorem Mirrors.sound (h : Mirrors s items) : Sound s items := by
  obtain ⟨hdata, hminima⟩ := h
  refine ⟨hdata, hminima, ?_, ?_⟩
  · cases items with
    | nil => simp [top, hdata]
    | cons x items => simp [top, hdata]
  · cases items with
    | nil => simp [getMin, hdata]
    | cons x items =>
      obtain ⟨m, rest, hfirst, hmem, hleast⟩ := exists_minima (List.cons_ne_nil x items)
      have hmin : (x :: items).min? = some m := List.min?_eq_some_iff.mpr ⟨hmem, hleast⟩
      rw [hfirst] at hminima
      simp [getMin, hdata, hminima, hmin]

/-- On a stack that holds an element, `push` does what it is meant to do. -/
theorem Mirrors.push (h : Mirrors s items) (hne : items ≠ []) (x : Int) :
    Runs (push x) s fun _ t => Mirrors t (x :: items) := by
  obtain ⟨hdata, hminima⟩ := h
  obtain ⟨m, rest, hfirst, hmem, hleast⟩ := exists_minima hne
  have htop : s.mData = m :: rest := hminima.trans hfirst
  have hiff : (∀ y ∈ items, x ≤ y) ↔ x ≤ m := by
    constructor
    · exact fun h => h m hmem
    · exact fun h y hy => Int.le_trans h (hleast y hy)
  simp only [MinStack.push, runs_bind, runs_assign, runs_get, htop, runs_topOf]
  by_cases hx : x ≤ m
  · rw [if_pos hx, runs_assign]
    refine ⟨by rw [hdata], ?_⟩
    rw [minima, if_pos (hiff.mpr hx), hfirst]
  · rw [if_neg hx, runs_pure]
    refine ⟨by rw [hdata], ?_⟩
    rw [minima, if_neg (fun hall => hx (hiff.mp hall)), hfirst]

theorem Mirrors.pop (h : Mirrors s items) : Runs pop s fun _ t => Mirrors t items.tail := by
  obtain ⟨hdata, hminima⟩ := h
  cases items with
  | nil =>
    simp only [MinStack.pop, runs_bind, runs_get, hdata, List.isEmpty_nil, if_true, runs_pure]
    exact ⟨hdata, hminima⟩
  | cons x items =>
    obtain ⟨m, rest, hfirst, hmem, hleast⟩ := exists_minima (List.cons_ne_nil x items)
    have htop : s.mData = m :: rest := hminima.trans hfirst
    have hle := hleast x List.mem_cons_self
    simp only [MinStack.pop, runs_bind, runs_get, hdata, List.isEmpty_cons, Bool.false_eq_true,
      if_false, runs_topOf, runs_popOf, runs_assign, htop]
    -- the minimum goes when an element equal to it goes
    by_cases hx : ∀ y ∈ items, x ≤ y
    · have heq : x = m := by
        rcases List.mem_cons.mp hmem with rfl | hm
        · rfl
        · exact Int.le_antisymm (hx m hm) hle
      rw [minima, if_pos hx, List.cons.injEq] at hfirst
      simp only [if_pos heq, runs_bind, runs_get, runs_assign, runs_popOf]
      exact ⟨rfl, hfirst.2.symm⟩
    · have hne : x ≠ m := by
        intro heq
        exact hx fun y hy => heq ▸ hleast y (List.mem_cons_of_mem x hy)
      rw [if_neg hne, runs_pure]
      rw [minima, if_neg hx] at hminima
      exact ⟨rfl, htop ▸ hminima⟩

/-- The first element is compared with the top of an empty stack. -/
theorem fails_push (x : Int) : Fails (push x) initial .outOfRange := rfl

theorem pops_of_runs {Q : List Unit → State → Prop} (h : Runs (runAll step ops) initial Q) :
    ∀ op ∈ ops, op = .pop := by
  induction ops generalizing Q with
  | nil => exact fun op hop => absurd hop List.not_mem_nil
  | cons op ops ih =>
    rw [runAll, runs_bind] at h
    cases op with
    | push x => exact absurd (fails_push x) h.not_fails
    | pop =>
      have hpop : pop initial = .ok ((), initial) := rfl
      rw [step, runs_of_ok hpop, runs_bind] at h
      intro op hop
      rcases List.mem_cons.mp hop with rfl | hmem
      · rfl
      · exact ih h op hmem

/-- The stack works exactly as long as nothing is pushed on it. -/
theorem run_stack_iff (ops : List Op) :
    (∀ pre, pre <+: ops → Runs (runAll step pre) initial fun _ s =>
      Sound s (traceAll stack pre []).2) ↔ ∀ op ∈ ops, op = .pop := by
  constructor
  · exact fun h => pops_of_runs (h ops List.prefix_rfl)
  · intro hpops pre hpre
    have hrun : Runs (runAll step pre) initial fun rs s =>
        Follows stack Mirrors [] pre rs s := by
      apply runs_all (Follows stack Mirrors [])
      · intro pre' op post rs s hsplit hs
        obtain rfl := hpops op (hpre.subset (by simp [hsplit]))
        exact hs.2.pop.mono fun _ _ ht => hs.next rfl ht
      · exact ⟨rfl, rfl, rfl⟩
    exact hrun.mono fun _ s hs => hs.2.sound

/-- The first call of the example in the comment. -/
theorem run_empty_top : ¬ ∀ pre, pre <+: [Op.push (-2)] → Runs (runAll step pre) initial fun _ s =>
    Sound s (traceAll stack pre []).2 := by
  intro h
  obtain ⟨_, s, hs, -⟩ := h _ List.prefix_rfl
  cases hs

end

end LanguageTest.MinStack
