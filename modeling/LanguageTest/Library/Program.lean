import Mathlib.Data.Nat.Notation

namespace LanguageTest

/-- The ways an execution can fail to have a result. All but the last are undefined
behaviour of the language; `outOfFuel` is a loop that used up the bound it was given. -/
inductive Fault where
  | nullPointer
  | dangling
  | outOfRange
  | overflow
  | uninitialized
  | outOfFuel
  deriving DecidableEq, Repr

/-- A program over a state: it ends with a value and a new state, or in a fault. -/
abbrev Program (σ α : Type) := StateT σ (Except Fault) α

variable {σ α β ι : Type}

/-- Total correctness: from this state the program ends without a fault, in a value
and a state that the postcondition accepts. -/
def Runs (m : Program σ α) (s : σ) (Q : α → σ → Prop) : Prop :=
  ∃ a t, m s = .ok (a, t) ∧ Q a t

def fail (f : Fault) : Program σ α := fun _ => .error f

/-- What one pass through the body of a loop decides. -/
inductive Step (ι α : Type) where
  | again (next : ι)
  | done (result : α)

/-- A loop over the variables `ι` that may make fewer than `fuel` passes. -/
def loop (body : ι → Program σ (Step ι α)) : Nat → ι → Program σ α
  | 0, _ => fail .outOfFuel
  | fuel + 1, i => do
    match ← body i with
    | .again j => loop body fuel j
    | .done a => pure a

theorem Runs.mono {m : Program σ α} {s : σ} {Q R : α → σ → Prop}
    (h : Runs m s Q) (hq : ∀ a t, Q a t → R a t) : Runs m s R := by
  obtain ⟨a, t, hm, hr⟩ := h
  exact ⟨a, t, hm, hq a t hr⟩

/-- There is one result, which meets both postconditions. -/
theorem Runs.and {m : Program σ α} {s : σ} {Q R : α → σ → Prop} (hq : Runs m s Q)
    (hr : Runs m s R) : Runs m s fun a t => Q a t ∧ R a t := by
  obtain ⟨a, t, hm, hq⟩ := hq
  obtain ⟨b, u, hb, hr⟩ := hr
  cases hm.symm.trans hb
  exact ⟨a, t, hm, hq, hr⟩

/-- Execution is deterministic: a known result decides every postcondition. -/
theorem runs_of_ok {m : Program σ α} {s t : σ} {a : α} {Q : α → σ → Prop}
    (h : m s = .ok (a, t)) : Runs m s Q ↔ Q a t := by
  constructor
  · intro hcase
    obtain ⟨b, u, hb, hq⟩ := hcase
    cases h.symm.trans hb
    exact hq
  · exact fun hq => ⟨a, t, h, hq⟩

@[simp] theorem runs_pure {a : α} {s : σ} {Q : α → σ → Prop} :
    Runs (pure a) s Q ↔ Q a s :=
  runs_of_ok rfl

@[simp] theorem runs_get {s : σ} {Q : σ → σ → Prop} : Runs get s Q ↔ Q s s :=
  runs_of_ok rfl

@[simp] theorem runs_set {s t : σ} {Q : PUnit → σ → Prop} : Runs (set t) s Q ↔ Q ⟨⟩ t :=
  runs_of_ok rfl

theorem bind_eq {m : Program σ α} {f : α → Program σ β} {s t : σ} {a : α}
    (h : m s = .ok (a, t)) : (m >>= f) s = f a t := by
  simp [bind, StateT.bind, Except.bind, h]

@[simp] theorem runs_bind {m : Program σ α} {f : α → Program σ β} {s : σ}
    {Q : β → σ → Prop} :
    Runs (m >>= f) s Q ↔ Runs m s (fun a t => Runs (f a) t Q) := by
  constructor
  · intro hcase
    obtain ⟨b, u, h, hq⟩ := hcase
    cases hm : m s with
    | error e => simp [bind, StateT.bind, Except.bind, hm] at h
    | ok p =>
      obtain ⟨a, t⟩ := p
      rw [bind_eq hm] at h
      exact ⟨a, t, hm, b, u, h, hq⟩
  · intro hcase
    obtain ⟨a, t, hm, b, u, hf, hq⟩ := hcase
    exact ⟨b, u, (bind_eq hm).trans hf, hq⟩

@[simp] theorem runs_map {f : α → β} {m : Program σ α} {s : σ} {Q : β → σ → Prop} :
    Runs (f <$> m) s Q ↔ Runs m s (fun a t => Q (f a) t) := by
  rw [map_eq_pure_bind, runs_bind]
  simp only [runs_pure]

/-- The loop rule. Every pass from a state of the invariant either ends the loop in
the postcondition or keeps the invariant with a smaller variant. -/
theorem runs_loop {body : ι → Program σ (Step ι α)} {Q : α → σ → Prop}
    (Inv : Nat → ι → σ → Prop)
    (hbody : ∀ k i s, Inv k i s → Runs (body i) s fun r t =>
      match r with
      | .again j => ∃ k' < k, Inv k' j t
      | .done a => Q a t)
    {fuel k : Nat} {i : ι} {s : σ} (hi : Inv k i s) (hk : k < fuel) :
    Runs (loop body fuel i) s Q := by
  induction fuel generalizing k i s with
  | zero => omega
  | succ fuel ih =>
    simp only [loop, runs_bind]
    refine (hbody k i s hi).mono ?_
    intro next t h
    rcases next with j | a
    · obtain ⟨k', hk', hj⟩ := h
      exact ih hj (by omega)
    · exact runs_pure.mpr h

/-- One pass of a loop, exactly. -/
theorem runs_loop_succ {body : ι → Program σ (Step ι α)} {Q : α → σ → Prop} {fuel : Nat} {i : ι}
    {s : σ} : Runs (loop body (fuel + 1) i) s Q ↔ Runs (body i) s fun r t =>
      match r with
      | .again j => Runs (loop body fuel j) t Q
      | .done a => Q a t := by
  simp only [loop, runs_bind]
  refine exists_congr fun r => exists_congr fun t => and_congr_right fun _ => ?_
  rcases r with j | a
  · exact Iff.rfl
  · exact runs_pure

/-- The built-in conjunction, which does not run its second operand when the first is false. -/
@[simp] theorem runs_andM {m k : Program σ Bool} {s : σ} {Q : Bool → σ → Prop} :
    Runs (m <&&> k) s Q ↔ Runs m s (fun b t => if b then Runs k t Q else Q false t) := by
  simp only [andM, runs_bind]
  refine exists_congr fun b => exists_congr fun t => and_congr_right fun _ => ?_
  cases b <;> simp [toBool]

@[simp] theorem runs_orM {m k : Program σ Bool} {s : σ} {Q : Bool → σ → Prop} :
    Runs (m <||> k) s Q ↔ Runs m s (fun b t => if b then Q true t else Runs k t Q) := by
  simp only [orM, runs_bind]
  refine exists_congr fun b => exists_congr fun t => and_congr_right fun _ => ?_
  cases b <;> simp [toBool]

/-- `top()` of a stack, which an empty one does not have. -/
def topOf : List α → Program σ α
  | [] => fail .outOfRange
  | x :: _ => pure x

def popOf : List α → Program σ (List α)
  | [] => fail .outOfRange
  | _ :: rest => pure rest

@[simp] theorem runs_topOf {x : α} {rest : List α} {s : σ} {Q : α → σ → Prop} :
    Runs (topOf (x :: rest)) s Q ↔ Q x s :=
  runs_pure

@[simp] theorem runs_popOf {x : α} {rest : List α} {s : σ} {Q : List α → σ → Prop} :
    Runs (popOf (x :: rest)) s Q ↔ Q rest s :=
  runs_pure

/-- Several operations one after the other, with the list of their results. -/
def runAll (step : ι → Program σ α) : List ι → Program σ (List α)
  | [] => pure []
  | op :: ops => do
    let r ← step op
    let rs ← runAll step ops
    pure (r :: rs)

/-- The run rule. What holds at the start and is kept by every step of the run holds at its
end. The property may speak about the operations so far and their results. -/
theorem runs_all {step : ι → Program σ α} (Inv : List ι → List α → σ → Prop) (ops : List ι)
    (hstep : ∀ pre op post rs s, ops = pre ++ op :: post → Inv pre rs s →
      Runs (step op) s (fun r t => Inv (pre ++ [op]) (rs ++ [r]) t))
    {s : σ} (hs : Inv [] [] s) : Runs (runAll step ops) s (fun rs t => Inv ops rs t) := by
  suffices h : ∀ post pre rs s, ops = pre ++ post → Inv pre rs s →
      Runs (runAll step post) s (fun rs' t => Inv ops (rs ++ rs') t) by
    simpa using h ops [] [] s rfl hs
  intro post
  induction post with
  | nil =>
    intro pre rs s he hi
    rw [List.append_nil] at he
    simpa [runAll, he] using hi
  | cons op post ih =>
    intro pre rs s he hi
    simp only [runAll, runs_bind, runs_pure]
    refine (hstep pre op post rs s he hi).mono fun r t ht => ?_
    simpa using ih (pre ++ [op]) (rs ++ [r]) t (by simp [he]) ht

theorem runs_runAll_append {step : ι → Program σ α} {ops ops' : List ι} {s : σ}
    {Q : List α → σ → Prop} :
    Runs (runAll step (ops ++ ops')) s Q ↔
      Runs (runAll step ops) s fun rs u =>
        Runs (runAll step ops') u fun rs' w => Q (rs ++ rs') w := by
  induction ops generalizing s Q with
  | nil =>
    symm
    exact runs_pure
  | cons op ops ih =>
    simp only [List.cons_append, runAll, runs_bind, runs_pure] at ih ⊢
    simp only [ih]

/-- The rule for a loop over the first numbers. -/
theorem runs_range {f : Nat → Program σ PUnit} (Inv : Nat → σ → Prop) {n : Nat}
    (hstep : ∀ i < n, ∀ s, Inv i s → Runs (f i) s fun _ t => Inv (i + 1) t) {s : σ}
    (hs : Inv 0 s) : Runs ((List.range n).forM f) s fun _ t => Inv n t := by
  induction n with
  | zero => exact runs_pure.mpr hs
  | succ n ih =>
    have hfirst := ih fun i hi => hstep i (Nat.lt_succ_of_lt hi)
    rw [List.range_succ]
    simp only [List.forM_eq_forM, List.forM_append, List.forM_cons, List.forM_nil, runs_bind,
      runs_pure] at hfirst ⊢
    exact hfirst.mono fun _ t ht => hstep n (Nat.lt_succ_self n) t ht

/-- The same operations on an abstract state, with the results that they are to give. -/
def traceAll {τ : Type*} (spec : ι → τ → α × τ) : List ι → τ → List α × τ
  | [], t => ([], t)
  | op :: ops, t =>
    let r := traceAll spec ops (spec op t).2
    ((spec op t).1 :: r.1, r.2)

theorem traceAll_append {τ : Type*} (spec : ι → τ → α × τ) (ops : List ι) (op : ι) (t : τ) :
    traceAll spec (ops ++ [op]) t =
      ((traceAll spec ops t).1 ++ [(spec op (traceAll spec ops t).2).1],
        (spec op (traceAll spec ops t).2).2) := by
  induction ops generalizing t with
  | nil => rfl
  | cons o ops ih => simp only [List.cons_append, traceAll, ih]

/-- The run so far gave the results of the abstract run and reached a state related to it. -/
def Follows {τ : Type*} (spec : ι → τ → α × τ) (R : σ → τ → Prop) (t : τ) (ops : List ι)
    (rs : List α) (s : σ) : Prop :=
  rs = (traceAll spec ops t).1 ∧ R s (traceAll spec ops t).2

/-- A step that agrees with the abstract one prolongs the agreement. -/
theorem Follows.next {τ : Type*} {spec : ι → τ → α × τ} {R : σ → τ → Prop} {t : τ}
    {ops : List ι} {rs : List α} {s u : σ} {op : ι} {r : α} (h : Follows spec R t ops rs s)
    (hr : r = (spec op (traceAll spec ops t).2).1) (hu : R u (spec op (traceAll spec ops t).2).2) :
    Follows spec R t (ops ++ [op]) (rs ++ [r]) u := by
  rw [Follows, traceAll_append]
  exact ⟨by rw [h.1, hr], hu⟩

/-- A condition that holds before every step of a run. -/
def StepsMeet (step : ι → Program σ α) (cond : ι → σ → Prop) : List ι → σ → Prop
  | [], _ => True
  | op :: ops, s => cond op s ∧ ∀ r t, step op s = .ok (r, t) → StepsMeet step cond ops t

instance decidableStepsMeet {step : ι → Program σ α} {cond : ι → σ → Prop}
    [∀ op s, Decidable (cond op s)] (ops : List ι) (s : σ) :
    Decidable (StepsMeet step cond ops s) :=
  match ops with
  | [] => .isTrue trivial
  | op :: ops =>
    have : Decidable (∀ r t, step op s = .ok (r, t) → StepsMeet step cond ops t) :=
      match h : step op s with
      | .error _ => .isTrue (by simp)
      | .ok (_, t) =>
        match (decidableStepsMeet ops t : Decidable (StepsMeet step cond ops t)) with
        | .isTrue ht => .isTrue (by simpa using ht)
        | .isFalse ht => .isFalse (by simpa using ht)
    inferInstanceAs (Decidable (_ ∧ _))

section
variable {step : ι → Program σ α} {cond : ι → σ → Prop} (Inv : List ι → List α → σ → Prop)

theorem StepsMeet.and {cond' : ι → σ → Prop} {ops : List ι} {s : σ}
    (h : StepsMeet step cond ops s) (h' : StepsMeet step cond' ops s) :
    StepsMeet step (fun op s => cond op s ∧ cond' op s) ops s := by
  induction ops generalizing s with
  | nil => trivial
  | cons op ops ih => exact ⟨⟨h.1, h'.1⟩, fun r t hr => ih (h.2 r t hr) (h'.2 r t hr)⟩

theorem StepsMeet.left {ops post : List ι} {s : σ} (h : StepsMeet step cond (ops ++ post) s) :
    StepsMeet step cond ops s := by
  induction ops generalizing s with
  | nil => trivial
  | cons op ops ih => exact ⟨h.1, fun r t hr => ih (h.2 r t hr)⟩

/-- The run rule for steps that keep the invariant under a condition. -/
theorem StepsMeet.runs_all (ops : List ι)
    (hstep : ∀ pre op post rs s, ops = pre ++ op :: post → Inv pre rs s → cond op s →
      Runs (step op) s (fun r t => Inv (pre ++ [op]) (rs ++ [r]) t))
    {s : σ} (hs : Inv [] [] s) (hm : StepsMeet step cond ops s) :
    Runs (runAll step ops) s (fun rs t => Inv ops rs t) := by
  suffices h : ∀ post pre rs s, ops = pre ++ post → Inv pre rs s → StepsMeet step cond post s →
      Runs (runAll step post) s (fun rs' t => Inv ops (rs ++ rs') t) by
    simpa using h ops [] [] s rfl hs hm
  intro post
  induction post with
  | nil =>
    intro pre rs s he hi _
    rw [List.append_nil] at he
    simpa [runAll, he] using hi
  | cons op post ih =>
    intro pre rs s he hi hm
    obtain ⟨r, t, hr, ht⟩ := hstep pre op post rs s he hi hm.1
    simp only [runAll, runs_bind, runs_pure]
    refine ⟨r, t, hr, ?_⟩
    simpa using ih (pre ++ [op]) (rs ++ [r]) t (by simp [he]) ht (hm.2 r t hr)

/-- When no step gets through without the condition, a run that ends met it at every step. -/
theorem StepsMeet.of_runs (ops : List ι)
    (hstep : ∀ pre op post rs s, ops = pre ++ op :: post → Inv pre rs s → cond op s →
      Runs (step op) s (fun r t => Inv (pre ++ [op]) (rs ++ [r]) t))
    (hstop : ∀ pre op post rs s, ops = pre ++ op :: post → Inv pre rs s →
      Runs (step op) s (fun _ _ => True) → cond op s)
    {s : σ} (hs : Inv [] [] s) {Q : List α → σ → Prop} (hr : Runs (runAll step ops) s Q) :
    StepsMeet step cond ops s := by
  suffices h : ∀ post pre rs s, ops = pre ++ post → Inv pre rs s →
      Runs (runAll step post) s (fun _ _ => True) → StepsMeet step cond post s by
    exact h ops [] [] s rfl hs (hr.mono fun _ _ _ => trivial)
  intro post
  induction post with
  | nil => exact fun _ _ _ _ _ _ => trivial
  | cons op post ih =>
    intro pre rs s he hi hr
    simp only [runAll, runs_bind, runs_pure] at hr
    have hc := hstop pre op post rs s he hi (hr.mono fun _ _ _ => trivial)
    obtain ⟨r, t, hrt, ht⟩ := hstep pre op post rs s he hi hc
    refine ⟨hc, fun r' t' hrt' => ?_⟩
    obtain ⟨rfl, rfl⟩ : r' = r ∧ t' = t := by simpa using hrt'.symm.trans hrt
    exact ih (pre ++ [op]) (rs ++ [r']) t' (by simp [he]) ht ((runs_of_ok hrt').mp hr)

/-- A run shows a property after each of its prefixes exactly when every step meets the condition.
The steps that meet it keep the invariant, and no other step shows the property. -/
theorem StepsMeet.iff_prefixes {P : List ι → List α → σ → Prop} (ops : List ι)
    (hstep : ∀ pre op post rs s, ops = pre ++ op :: post → Inv pre rs s → cond op s →
      Runs (step op) s (fun r t => Inv (pre ++ [op]) (rs ++ [r]) t))
    (hstop : ∀ pre op post rs s, ops = pre ++ op :: post → Inv pre rs s →
      Runs (step op) s (fun r t => P (pre ++ [op]) (rs ++ [r]) t) → cond op s)
    (hinv : ∀ pre rs s, Inv pre rs s → P pre rs s) {s : σ} (hs : Inv [] [] s) :
    StepsMeet step cond ops s ↔
      ∀ pre, pre <+: ops → Runs (runAll step pre) s fun rs t => P pre rs t := by
  constructor
  · intro hm pre hpost
    obtain ⟨post, rfl⟩ := hpost
    refine (StepsMeet.runs_all Inv pre ?_ hs hm.left).mono (hinv pre)
    intro pre' op post' rs s he
    exact hstep pre' op (post' ++ post) rs s (by simp [he])
  · intro hp
    suffices h : ∀ post pre rs s, ops = pre ++ post → Inv pre rs s →
        (∀ q, q <+: post → Runs (runAll step q) s fun rs' t => P (pre ++ q) (rs ++ rs') t) →
        StepsMeet step cond post s by
      exact h ops [] [] s rfl hs hp
    intro post
    induction post with
    | nil => exact fun _ _ _ _ _ _ => trivial
    | cons op post ih =>
      intro pre rs s he hi hq
      have h1 := hq [op] ⟨post, rfl⟩
      simp only [runAll, runs_bind, runs_pure] at h1
      have hc := hstop pre op post rs s he hi h1
      refine ⟨hc, fun r t hrt => ?_⟩
      refine ih (pre ++ [op]) (rs ++ [r]) t (by simp [he])
        ((runs_of_ok hrt).mp (hstep pre op post rs s he hi hc)) fun q hqp => ?_
      have h2 := hq (op :: q) (List.cons_prefix_cons.mpr ⟨rfl, hqp⟩)
      simp only [runAll, runs_bind, runs_pure] at h2
      simpa using (runs_of_ok hrt).mp h2

/-- The same for a run that keeps to the rules for its caller. -/
theorem StepsMeet.iff_prefixes_legal {P : List ι → List α → σ → Prop} {legal : ι → σ → Prop}
    (ops : List ι)
    (hstep : ∀ pre op post rs s, ops = pre ++ op :: post → Inv pre rs s → legal op s → cond op s →
      Runs (step op) s (fun r t => Inv (pre ++ [op]) (rs ++ [r]) t))
    (hstop : ∀ pre op post rs s, ops = pre ++ op :: post → Inv pre rs s → legal op s →
      Runs (step op) s (fun r t => P (pre ++ [op]) (rs ++ [r]) t) → cond op s)
    (hinv : ∀ pre rs s, Inv pre rs s → P pre rs s) {s : σ} (hs : Inv [] [] s)
    (hl : StepsMeet step legal ops s) :
    StepsMeet step cond ops s ↔
      ∀ pre, pre <+: ops → Runs (runAll step pre) s fun rs t => P pre rs t := by
  refine StepsMeet.iff_prefixes (fun pre rs s =>
    Inv pre rs s ∧ ∀ post, ops = pre ++ post → StepsMeet step legal post s) ops ?_ ?_ ?_
    ⟨hs, fun post he => by rwa [← show ops = post from he]⟩
  · intro pre op post rs s he h hc
    have hlegal := h.2 _ he
    obtain ⟨r, t, hr, hi⟩ := hstep pre op post rs s he h.1 hlegal.1 hc
    refine ⟨r, t, hr, hi, fun post' he' => ?_⟩
    rw [he, ← List.append_cons, List.append_cancel_left_eq, List.cons_eq_cons] at he'
    exact he'.2 ▸ hlegal.2 r t hr
  · intro pre op post rs s he h hr
    exact hstop pre op post rs s he h.1 (h.2 _ he).1 hr
  · exact fun pre rs s h => hinv pre rs s h.1

end

/-- From this state the program ends in this fault. -/
def Fails (m : Program σ α) (s : σ) (f : Fault) : Prop := m s = .error f

theorem fails_fail {f : Fault} {s : σ} : Fails (fail f : Program σ α) s f := rfl

theorem Fails.bind {m : Program σ α} {k : α → Program σ β} {s : σ} {f : Fault}
    (h : Fails m s f) : Fails (m >>= k) s f := by
  simp only [Fails] at h ⊢
  simp [Bind.bind, StateT.bind, Except.bind, h]

theorem Runs.fails {m : Program σ α} {k : α → Program σ β} {s : σ} {f : Fault}
    (h : Runs m s fun a t => Fails (k a) t f) : Fails (m >>= k) s f := by
  obtain ⟨a, t, hm, hk⟩ := h
  exact (bind_eq hm).trans hk

/-- The steps get through up to one that ends in a fault. -/
theorem fails_runAll {step : ι → Program σ α} {ops : List ι} {op : ι} {s : σ} {f : Fault}
    (h : Runs (runAll step ops) s fun _ t => Fails (step op) t f) :
    Fails (runAll step (ops ++ [op])) s f := by
  induction ops generalizing s with
  | nil => exact ((runs_pure (a := ([] : List α))).mp h).bind
  | cons o ops ih =>
    simp only [runAll, runs_bind, runs_pure] at h
    exact Runs.fails (h.mono fun _ _ ht => (ih ht).bind)

theorem fails_loop {body : ι → Program σ (Step ι α)} (Inv : ι → σ → Prop)
    (hbody : ∀ i s, Inv i s → Runs (body i) s fun r t => ∃ j, r = .again j ∧ Inv j t)
    (fuel : Nat) {i : ι} {s : σ} (hi : Inv i s) : Fails (loop body fuel i) s .outOfFuel := by
  induction fuel generalizing i s with
  | zero => exact fails_fail
  | succ fuel ih =>
    refine ((hbody i s hi).mono ?_).fails
    intro _ t hpost
    obtain ⟨j, rfl, hj⟩ := hpost
    exact ih hj

/-- A fault or a result, never both. -/
theorem Runs.not_fails {m : Program σ α} {s : σ} {Q : α → σ → Prop} {f : Fault}
    (h : Runs m s Q) : ¬ Fails m s f := by
  obtain ⟨a, t, hm, _⟩ := h
  simp [Fails, hm]

/-- Partial correctness: if the program ends without a fault, the postcondition accepts its
value and state. -/
def Ensures (m : Program σ α) (s : σ) (Q : α → σ → Prop) : Prop :=
  ∀ a t, m s = .ok (a, t) → Q a t

theorem Ensures.mono {m : Program σ α} {s : σ} {Q R : α → σ → Prop}
    (h : Ensures m s Q) (hq : ∀ a t, Q a t → R a t) : Ensures m s R :=
  fun a t hm => hq a t (h a t hm)

theorem Ensures.runs {m : Program σ α} {s : σ} {Q R : α → σ → Prop} (h : Ensures m s Q)
    (hr : Runs m s R) : Runs m s fun a t => R a t ∧ Q a t := by
  obtain ⟨a, t, hm, hr⟩ := hr
  exact ⟨a, t, hm, hr, h a t hm⟩

theorem Runs.ensures {m : Program σ α} {s : σ} {Q : α → σ → Prop} (h : Runs m s Q) :
    Ensures m s Q :=
  fun _ _ hm => (runs_of_ok hm).mp h

theorem Fails.ensures {m : Program σ α} {s : σ} {Q : α → σ → Prop} {f : Fault}
    (h : Fails m s f) : Ensures m s Q := by
  intro a t hm
  cases h.symm.trans hm

/-- A program that would ensure anything does not end in a value. -/
theorem Ensures.not_runs {m : Program σ α} {s : σ} {Q : α → σ → Prop}
    (h : Ensures m s fun _ _ => False) : ¬ Runs m s Q := by
  rintro ⟨a, t, hm, -⟩
  exact h a t hm

theorem ensures_of_not_runs {m : Program σ α} {s : σ} {Q : α → σ → Prop}
    (h : ¬ Runs m s fun _ _ => True) : Ensures m s Q :=
  fun a t hm => (h ⟨a, t, hm, trivial⟩).elim

theorem ensures_pure {a : α} {s : σ} {Q : α → σ → Prop} (h : Q a s) : Ensures (pure a) s Q :=
  (runs_pure.mpr h).ensures

theorem Ensures.bind {m : Program σ α} {k : α → Program σ β} {s : σ} {Q : β → σ → Prop}
    (h : Ensures m s fun a t => Ensures (k a) t Q) : Ensures (m >>= k) s Q := by
  intro b u hb
  cases hm : m s with
  | error e => simp [Bind.bind, StateT.bind, Except.bind, hm] at hb
  | ok p =>
    obtain ⟨a, t⟩ := p
    rw [bind_eq hm] at hb
    exact h a t hm b u hb

theorem Runs.bind_ensures {m : Program σ α} {k : α → Program σ β} {s : σ} {Q : β → σ → Prop}
    (h : Runs m s fun a t => Ensures (k a) t Q) : Ensures (m >>= k) s Q :=
  Ensures.bind h.ensures

/-- The partial loop rule. -/
theorem ensures_loop {body : ι → Program σ (Step ι α)} {Q : α → σ → Prop} (Inv : ι → σ → Prop)
    (hbody : ∀ i s, Inv i s → Ensures (body i) s fun r t =>
      match r with
      | .again j => Inv j t
      | .done a => Q a t)
    {fuel : Nat} {i : ι} {s : σ} (hi : Inv i s) : Ensures (loop body fuel i) s Q := by
  induction fuel generalizing i s with
  | zero => exact fails_fail.ensures
  | succ fuel ih =>
    refine Ensures.bind ((hbody i s hi).mono ?_)
    intro next t h
    rcases next with j | a
    · exact ih h
    · exact ensures_pure h

theorem Ensures.ignore {m : Program σ α} {b : β} {s : σ} {P : σ → Prop}
    (h : Ensures m s fun _ t => P t) : Ensures (m >>= fun _ => pure b) s fun _ t => P t :=
  Ensures.bind (h.mono fun _ _ ht => ensures_pure ht)

/-- Two continuations that agree on every result give the same execution. -/
theorem Ensures.bind_congr {m : Program σ α} {f g : α → Program σ β} {s : σ}
    (h : Ensures m s fun a t => f a t = g a t) : (m >>= f) s = (m >>= g) s := by
  cases hm : m s with
  | error e => simp [Bind.bind, StateT.bind, Except.bind, hm]
  | ok p =>
    obtain ⟨a, t⟩ := p
    rw [bind_eq hm, bind_eq hm, h a t hm]

theorem forM_congr {f g : ι → Program σ PUnit} (Inv : σ → Prop) (l : List ι)
    (hstep : ∀ i ∈ l, ∀ s, Inv s → f i s = g i s ∧ Ensures (f i) s fun _ t => Inv t) {s : σ}
    (hs : Inv s) : l.forM f s = l.forM g s := by
  induction l generalizing s with
  | nil => rfl
  | cons i l ih =>
    obtain ⟨he, hi⟩ := hstep i (List.mem_cons_self ..) s hs
    have hrest : (f i >>= fun _ => l.forM f) s = (f i >>= fun _ => l.forM g) s :=
      (hi.mono fun _ t ht => ih (fun j hj => hstep j (List.mem_cons_of_mem _ hj)) ht).bind_congr
    refine hrest.trans ?_
    change (f i >>= fun _ => l.forM g) s = (g i >>= fun _ => l.forM g) s
    simp only [Bind.bind, StateT.bind, he]

/-- The rule for a loop over a list. The invariant may speak about the elements so far. -/
theorem runs_forM {f : ι → Program σ PUnit} (Inv : List ι → σ → Prop) (l : List ι)
    (hstep : ∀ pre i post s, l = pre ++ i :: post → Inv pre s →
      Runs (f i) s fun _ t => Inv (pre ++ [i]) t) {s : σ}
    (hs : Inv [] s) : Runs (l.forM f) s fun _ t => Inv l t := by
  suffices h : ∀ post pre s, l = pre ++ post → Inv pre s →
      Runs (post.forM f) s fun _ t => Inv l t by
    exact h l [] s rfl hs
  intro post
  induction post with
  | nil =>
    intro pre s he hi
    rw [List.append_nil] at he
    exact runs_pure.mpr (he ▸ hi)
  | cons i post ih =>
    intro pre s he hi
    refine runs_bind.mpr ((hstep pre i post s he hi).mono fun _ t ht => ?_)
    exact ih (pre ++ [i]) t (by simp [he]) ht

/-- The partial rule for such an invariant. -/
theorem ensures_forM_prefix {f : ι → Program σ PUnit} (Inv : List ι → σ → Prop) (l : List ι)
    (hstep : ∀ pre i post s, l = pre ++ i :: post → Inv pre s →
      Ensures (f i) s fun _ t => Inv (pre ++ [i]) t) {s : σ}
    (hs : Inv [] s) : Ensures (l.forM f) s fun _ t => Inv l t := by
  suffices h : ∀ post pre s, l = pre ++ post → Inv pre s →
      Ensures (post.forM f) s fun _ t => Inv l t by
    exact h l [] s rfl hs
  intro post
  induction post with
  | nil =>
    intro pre s he hi
    rw [List.append_nil] at he
    exact ensures_pure (he ▸ hi)
  | cons i post ih =>
    intro pre s he hi
    refine Ensures.bind ((hstep pre i post s he hi).mono fun _ t ht => ?_)
    exact ih (pre ++ [i]) t (by simp [he]) ht

/-- The partial rule for a loop over a list: every pass keeps the invariant. -/
theorem ensures_forM {f : ι → Program σ PUnit} (Inv : σ → Prop) (l : List ι)
    (hstep : ∀ i ∈ l, ∀ s, Inv s → Ensures (f i) s fun _ t => Inv t) {s : σ} (hs : Inv s) :
    Ensures (l.forM f) s fun _ t => Inv t := by
  induction l generalizing s with
  | nil => exact ensures_pure hs
  | cons i l ih =>
    refine Ensures.bind ((hstep i (List.mem_cons_self ..) s hs).mono fun _ t ht => ?_)
    exact ih (fun j hj => hstep j (List.mem_cons_of_mem _ hj)) ht

/-- The partial run rule. -/
theorem ensures_all {step : ι → Program σ α} (Inv : σ → Prop)
    (hstep : ∀ op s, Inv s → Ensures (step op) s fun _ t => Inv t) (ops : List ι) {s : σ}
    (hs : Inv s) : Ensures (runAll step ops) s fun _ t => Inv t := by
  induction ops generalizing s with
  | nil => exact ensures_pure hs
  | cons op ops ih =>
    refine Ensures.bind ((hstep op s hs).mono fun r t ht => ?_)
    exact Ensures.bind ((ih ht).mono fun rs u hu => ensures_pure hu)

/-- A program after which the state is related to the one before, if it ends. -/
def Keeps (R : σ → σ → Prop) (m : Program σ α) : Prop := ∀ s, Ensures m s fun _ t => R s t

section
variable {R : σ → σ → Prop}

/-- What held of the state in the end held of the one before, if the relation preserves it
backwards. -/
theorem Keeps.runs {m : Program σ α} {s : σ} {P : σ → Prop} (hm : Keeps R m)
    (hr : Runs m s fun _ t => P t) (hback : ∀ t, R s t → P t → P s) : P s := by
  obtain ⟨_, t, -, ht, hst⟩ := (hm s).runs hr
  exact hback t hst ht

theorem keeps_pure [Std.Refl R] {a : α} : Keeps R (pure a : Program σ α) :=
  fun s => ensures_pure (Std.Refl.refl s)

variable [Trans R R R]

theorem Keeps.bind {m : Program σ α} {k : α → Program σ β} (hm : Keeps R m)
    (hk : ∀ a, Keeps R (k a)) : Keeps R (m >>= k) := by
  intro s
  refine Ensures.bind ((hm s).mono fun a t ht => ?_)
  exact (hk a t).mono fun _ u hu => Trans.trans ht hu

theorem keeps_loop [Std.Refl R] {body : ι → Program σ (Step ι α)} (h : ∀ i, Keeps R (body i))
    {fuel : Nat} {i : ι} : Keeps R (loop body fuel i) := by
  intro s
  refine ensures_loop (fun _ t => R s t) ?_ (Std.Refl.refl s)
  intro i t ht
  refine (h i t).mono fun r u hu => ?_
  have hsu : R s u := Trans.trans ht hu
  cases r with
  | again j => exact hsu
  | done a => exact hsu

end

end LanguageTest
