import LanguageTest.Algorithm.BitMap
import Mathlib.Tactic.SplitIfs

namespace LanguageTest.BitMap

/-- The call works on this bit. Its assertions let the byte be at most `slack` beyond `charSize`. -/
def Addresses (index slack : Int) : Op → Prop
  | .set i status => i = index ∧ slack = if status then 1 else 0
  | .setAt charId bitId status =>
    (Names charId bitId index ∧ IsInt index) ∧ slack = if status then 1 else 0
  | .setTrue i => i = index ∧ slack = 1
  | .setFalse i | .get i => i = index ∧ slack = 0
  | .getAt charId bitId => (Names charId bitId index ∧ IsInt index) ∧ slack = 0
  | .setNumber .. => False

/-- The index is one of the map, or the assertions let it pass. -/
def Admitted (size index slack : Int) : Prop :=
  Inside size index ∨ index.tdiv 8 ≤ size.tdiv 8 + slack

/-- The object owns an array of `n` bytes. -/
def HoldsBytes (n : Nat) (s : State) : Prop :=
  ∃ a, ∃ bytes : List UInt8, bytes.length = n ∧ s.object.data = some a ∧ s.object.charSize = n ∧
    s.heap.cells a = some (bytes.map some)

section
variable {n : Nat} {s : State} {size index slack k : Int} {byte : UInt8} {op : Op}

/-- A quotient is rounded towards zero. -/
theorem tdiv_inside_iff :
    0 ≤ index.tdiv 8 ∧ index.tdiv 8 < n ↔ 0 < n ∧ -8 < index ∧ index < 8 * n := by
  rcases Int.le_total 0 index with hpos | hneg
  · obtain ⟨i, rfl⟩ := Int.eq_ofNat_of_zero_le hpos
    rw [tdiv_eight]
    omega
  · obtain ⟨i, hi⟩ := Int.eq_ofNat_of_zero_le (Int.neg_nonneg_of_nonpos hneg)
    obtain rfl : index = -(i : Int) := by omega
    rw [Int.neg_tdiv, tdiv_eight]
    omega

theorem tdiv_le_iff (hk : 0 ≤ k) : index.tdiv 8 ≤ k ↔ index < 8 * (k + 1) := by
  rcases Int.le_total 0 index with hpos | hneg
  · rw [Int.tdiv_eq_ediv_of_nonneg hpos]
    omega
  · obtain ⟨i, hi⟩ := Int.eq_ofNat_of_zero_le (Int.neg_nonneg_of_nonpos hneg)
    obtain rfl : index = -(i : Int) := by omega
    rw [Int.neg_tdiv, tdiv_eight]
    omega

theorem HoldsBytes.charSize (h : HoldsBytes n s) : s.object.charSize = n := by
  obtain ⟨a, bytes, -, -, hsize, -⟩ := h
  exact hsize

theorem HoldsBytes.read (h : HoldsBytes n s) (hk : 0 ≤ k ∧ k < n) :
    Runs (readByte k) s fun _ t => t = s := by
  obtain ⟨a, bytes, rfl, hdata, -, ha⟩ := h
  obtain ⟨i, rfl⟩ := Int.eq_ofNat_of_zero_le hk.1
  have hi : i < bytes.length := by omega
  simp only [readByte, runs_bind, runs_getObject, hdata]
  refine (runs_readCell (x := bytes[i]) ha ?_).mpr rfl
  rw [List.getElem?_map, List.getElem?_eq_getElem hi, Option.map_some]

theorem HoldsBytes.read_fails (h : HoldsBytes n s) (hk : ¬ (0 ≤ k ∧ k < n)) :
    Fails (readByte k) s .outOfRange := by
  obtain ⟨a, bytes, rfl, hdata, -, ha⟩ := h
  refine (runs_getObject.mpr ?_).fails
  rw [hdata]
  apply fails_readCell_range ha
  rw [List.length_map]
  omega

theorem HoldsBytes.write (h : HoldsBytes n s) (hk : 0 ≤ k ∧ k < n) :
    Runs (writeByte k byte) s fun _ t => HoldsBytes n t := by
  obtain ⟨a, bytes, rfl, hdata, hsize, ha⟩ := h
  obtain ⟨i, rfl⟩ := Int.eq_ofNat_of_zero_le hk.1
  have hi : i < (bytes.map some).length := by
    rw [List.length_map]
    omega
  simp only [writeByte, runs_bind, runs_getObject, hdata]
  refine (runs_writeCell ha hi).mpr ⟨a, bytes.set i byte, List.length_set, hdata, hsize, ?_⟩
  simp [ha, List.map_set]

theorem HoldsBytes.ensures_write (h : HoldsBytes n s) :
    Ensures (writeByte k byte) s fun _ t => HoldsBytes n t := by
  by_cases hk : 0 ≤ k ∧ k < n
  · exact (h.write hk).ensures
  · obtain ⟨a, bytes, rfl, hdata, -, ha⟩ := h
    refine Fails.ensures (f := .outOfRange) ((runs_getObject.mpr ?_).fails)
    rw [hdata]
    apply fails_writeCell_range ha
    rw [List.length_map]
    omega

theorem HoldsBytes.ensures_read (h : HoldsBytes n s) :
    Ensures (readByte k) s fun _ t => t = s := by
  by_cases hk : 0 ≤ k ∧ k < n
  · exact (h.read hk).ensures
  · exact (h.read_fails hk).ensures

theorem ensures_check {p : Prop} [Decidable p] : Ensures (check p) s fun _ t => t = s := by
  unfold check
  split_ifs
  · exact ensures_pure rfl
  · exact fails_fail.ensures

/-- A call that ends without a fault has passed its assertions. -/
theorem not_runs_outside {α : Type} {p : Prop} [Decidable p] {m : UInt8 → Program State α}
    {Q : α → State → Prop} (h : HoldsBytes n s) (hk : ¬ (0 ≤ k ∧ k < n)) :
    ¬ Runs (do check p; m (← readByte k)) s Q := by
  intro hruns
  rw [runs_bind] at hruns
  obtain ⟨_, t, hcheck, hrest⟩ := hruns
  obtain rfl := ensures_check _ _ hcheck
  exact hrest.not_fails (h.read_fails hk).bind

theorem ensures_get (h : HoldsBytes n s) : Ensures (get k) s fun _ t => t = s := by
  refine Runs.bind_ensures (runs_getObject.mpr ?_)
  refine Ensures.bind (ensures_check.mono ?_)
  rintro _ _ rfl
  exact Ensures.bind (h.ensures_read.mono fun _ _ ht => ensures_pure ht)

theorem ensures_setTrue (h : HoldsBytes n s) :
    Ensures (setTrue k) s fun _ t => HoldsBytes n t := by
  refine Runs.bind_ensures (runs_getObject.mpr ?_)
  refine Ensures.bind (ensures_check.mono ?_)
  rintro _ _ rfl
  refine Ensures.bind (h.ensures_read.mono ?_)
  rintro _ _ rfl
  exact h.ensures_write

theorem ensures_setFalse (h : HoldsBytes n s) :
    Ensures (setFalse k) s fun _ t => HoldsBytes n t := by
  refine Ensures.bind ((ensures_get h).mono ?_)
  rintro b _ rfl
  split_ifs
  · exact ensures_pure h
  · refine Runs.bind_ensures (runs_getObject.mpr ?_)
    refine Ensures.bind (ensures_check.mono ?_)
    rintro _ _ rfl
    refine Ensures.bind (h.ensures_read.mono ?_)
    rintro _ _ rfl
    exact h.ensures_write

theorem ensures_set (h : HoldsBytes n s) (status : Bool) :
    Ensures (set k status) s fun _ t => HoldsBytes n t := by
  cases status with
  | true => exact ensures_setTrue h
  | false => exact ensures_setFalse h

theorem ensures_indexOf {charId bitId : Int} :
    Ensures (indexOf charId bitId) s fun _ t => t = s := by
  refine Ensures.bind (ensures_int.mono ?_)
  rintro _ _ ⟨-, -, rfl⟩
  exact ensures_int.mono fun _ _ ht => ht.2.2

theorem Addresses.slack_nonneg (h : Addresses index slack op) : 0 ≤ slack := by
  cases op with
  | setNumber i number => exact absurd h id
  | set i status | setAt charId bitId status =>
    obtain ⟨-, rfl⟩ := h
    split_ifs <;> decide
  | _ =>
    obtain ⟨-, rfl⟩ := h
    decide

/-- No call changes the array for another one. -/
theorem ensures_step (h : HoldsBytes n s) : Ensures (step op) s fun _ t => HoldsBytes n t := by
  have hindex {charId bitId : Int} {m : Int → Program State Unit}
      (hm : ∀ i, Ensures (m i) s fun _ t => HoldsBytes n t) :
      Ensures (do m (← indexOf charId bitId)) s fun _ t => HoldsBytes n t := by
    refine Ensures.bind (ensures_indexOf.mono ?_)
    rintro i _ rfl
    exact hm i
  cases op with
  | set index status => exact (ensures_set h status).ignore
  | setAt charId bitId status => exact (hindex fun _ => ensures_set h status).ignore
  | setTrue index => exact (ensures_setTrue h).ignore
  | setFalse index => exact (ensures_setFalse h).ignore
  | setNumber index number => exact h.ensures_write.ignore
  | get index =>
    refine Ensures.bind ((ensures_get h).mono ?_)
    rintro _ _ rfl
    exact ensures_pure h
  | getAt charId bitId =>
    refine Ensures.bind (Ensures.bind (ensures_indexOf.mono ?_))
    rintro i _ rfl
    refine (ensures_get h).mono ?_
    rintro _ _ rfl
    exact ensures_pure h

theorem runs_get_iff (h : HoldsBytes n s) :
    Runs (get k) s (fun _ t => t = s) ↔ 0 ≤ k.tdiv 8 ∧ k.tdiv 8 < n := by
  rw [get, runs_bind, runs_getObject]
  constructor
  · intro hruns
    by_contra hk
    exact not_runs_outside h hk hruns
  · intro hk
    have hcheck : k.tdiv 8 ≤ s.object.charSize := by
      rw [h.charSize]
      omega
    rw [runs_bind, runs_check hcheck, runs_bind]
    exact (h.read hk).mono fun _ _ ht => runs_pure.mpr ht

theorem runs_setTrue_iff (h : HoldsBytes n s) :
    Runs (setTrue k) s (fun _ _ => True) ↔ 0 ≤ k.tdiv 8 ∧ k.tdiv 8 < n := by
  rw [setTrue, runs_bind, runs_getObject]
  constructor
  · intro hruns
    by_contra hk
    exact not_runs_outside h hk hruns
  · intro hk
    have hcheck : k.tdiv 8 ≤ s.object.charSize + 1 := by
      rw [h.charSize]
      omega
    rw [runs_bind, runs_check hcheck, runs_bind]
    refine (h.read hk).mono ?_
    rintro _ _ rfl
    exact (h.write hk).mono fun _ _ _ => trivial

/-- The bit is read first, under the same assertion. -/
theorem runs_setFalse_iff (h : HoldsBytes n s) :
    Runs (setFalse k) s (fun _ _ => True) ↔ 0 ≤ k.tdiv 8 ∧ k.tdiv 8 < n := by
  rw [setFalse, runs_bind]
  constructor
  · intro hruns
    obtain ⟨b, t, hget, -⟩ := hruns
    exact (runs_get_iff h).mp ⟨b, t, hget, ensures_get h b t hget⟩
  · intro hk
    refine ((runs_get_iff h).mpr hk).mono ?_
    intro b t ht
    subst ht
    by_cases hb : b = false
    · rw [if_pos hb, runs_pure]
      trivial
    · have hcheck : k.tdiv 8 ≤ t.object.charSize := by
        rw [h.charSize]
        omega
      rw [if_neg hb, runs_bind, runs_getObject, runs_bind, runs_check hcheck, runs_bind]
      refine (h.read hk).mono ?_
      rintro _ _ rfl
      exact (h.write hk).mono fun _ _ _ => trivial

theorem runs_set_iff (h : HoldsBytes n s) (status : Bool) :
    Runs (set k status) s (fun _ _ => True) ↔ 0 ≤ k.tdiv 8 ∧ k.tdiv 8 < n := by
  cases status with
  | true => exact runs_setTrue_iff h
  | false => exact runs_setFalse_iff h

/-- A call that ends is one with a byte of the array. -/
theorem runs_step_iff (h : HoldsBytes n s) (hop : Addresses index slack op) :
    Runs (step op) s (fun _ _ => True) ↔ 0 ≤ index.tdiv 8 ∧ index.tdiv 8 < n := by
  have hindex {charId bitId : Int} {Q : Int → State → Prop} (hnames : Names charId bitId index)
      (hint : IsInt index) : Runs (indexOf charId bitId) s Q ↔ Q index s := by
    obtain ⟨hproduct, rfl⟩ := hnames
    simp only [indexOf, runs_bind, runs_int hproduct, runs_int hint]
  have hget {m : Program State (Option Bool)} (hm : m = do pure (some (← get index))) :
      Runs m s (fun _ _ => True) ↔ 0 ≤ index.tdiv 8 ∧ index.tdiv 8 < n := by
    rw [hm, runs_bind, ← runs_get_iff h]
    simp only [runs_pure]
    exact ⟨fun hruns => ((ensures_get h).runs hruns).mono fun _ _ ht => ht.2,
      fun hruns => hruns.mono fun _ _ _ => trivial⟩
  cases op with
  | set i status =>
    obtain ⟨rfl, -⟩ := hop
    simp only [step, runs_bind, runs_pure]
    exact runs_set_iff h status
  | setAt charId bitId status =>
    obtain ⟨⟨hnames, hint⟩, -⟩ := hop
    simp only [step, setAt, runs_bind, runs_pure, hindex hnames hint]
    exact runs_set_iff h status
  | setTrue i =>
    obtain ⟨rfl, -⟩ := hop
    simp only [step, runs_bind, runs_pure]
    exact runs_setTrue_iff h
  | setFalse i =>
    obtain ⟨rfl, -⟩ := hop
    simp only [step, runs_bind, runs_pure]
    exact runs_setFalse_iff h
  | setNumber i number => exact absurd hop id
  | get i =>
    obtain ⟨rfl, -⟩ := hop
    exact hget rfl
  | getAt charId bitId =>
    obtain ⟨⟨hnames, hint⟩, -⟩ := hop
    simp only [step, getAt, runs_bind, hindex hnames hint]
    rw [← runs_bind]
    exact hget rfl

theorem runs_construct_holds (hnonneg : 0 ≤ size) :
    Runs (construct size) start fun _ s => HoldsBytes (size / 8).toNat s := by
  have hquotient : size.tdiv 8 = (size / 8).toNat := by
    rw [Int.tdiv_eq_ediv_of_nonneg hnonneg]
    omega
  refine (runs_construct_zeros hquotient).mono ?_
  intro _ s hs
  obtain ⟨a, hobject, ha⟩ := hs
  exact ⟨a, _, List.length_replicate, by rw [hobject], by rw [hobject], ha⟩

/-- After any calls, another one whose index is in the map, or passes the assertions, has its byte
in the array exactly when the index is no more than seven below the first one and in a full byte of
the map. It does not get that far when the assertions stop it. -/
theorem run_admitted_iff (hnonneg : 0 ≤ size) (ops : List Op) :
    Runs (construct size) start fun _ s => Ensures (runAll step ops) s fun _ t =>
      ∀ op index slack, Addresses index slack op →
        ((Admitted size index slack → Runs (step op) t fun _ _ => True) ↔
          8 ≤ size ∧ -8 < index ∧ index < 8 * (size / 8) ∨ 8 * (size / 8 + slack + 1) ≤ index) := by
  refine (runs_construct_holds hnonneg).mono ?_
  intro _ s hs
  refine (ensures_all (fun t => HoldsBytes (size / 8).toNat t) (fun _ _ => ensures_step) ops
    hs).mono ?_
  intro _ t ht op index slack hop
  have hquotient : size.tdiv 8 = size / 8 := Int.tdiv_eq_ediv_of_nonneg hnonneg
  have hslack := hop.slack_nonneg
  have hadmit : Admitted size index slack ↔ index.tdiv 8 ≤ size / 8 + slack := by
    rw [Admitted, Inside, hquotient]
    refine or_iff_right_of_imp fun hinside => ?_
    rw [Int.tdiv_eq_ediv_of_nonneg hinside.1]
    omega
  rw [runs_step_iff ht hop, tdiv_inside_iff, hadmit, tdiv_le_iff (by omega)]
  omega

end

theorem run_admitted_iff_sample :
    Runs (construct 12) start fun _ s => Ensures (runAll step [.setTrue 3]) s fun _ t =>
      ∀ op index slack, Addresses index slack op →
        ((Admitted 12 index slack → Runs (step op) t fun _ _ => True) ↔
          (8 : Int) ≤ 12 ∧ -8 < index ∧ index < 8 * (12 / 8) ∨ 8 * (12 / 8 + slack + 1) ≤ index) :=
  run_admitted_iff (by decide) [.setTrue 3]

/-- The last bits of a size that is no multiple of 8 have no byte. -/
theorem run_partial : ¬ ∀ size, 0 ≤ size → Runs (construct size) start fun _ s =>
    ∀ op index slack, Addresses index slack op → Admitted size index slack →
      Runs (step op) s fun _ _ => True := by
  intro h
  have hrun : Runs (do construct 12; step (.set 11 true)) start fun _ _ => True := by
    rw [runs_bind]
    refine (h 12 (by decide)).mono ?_
    intro _ s hs
    exact hs (.set 11 true) 11 1 ⟨rfl, rfl⟩ (Or.inl ⟨by decide, by decide⟩)
  exact hrun.not_fails (f := .outOfRange) rfl

end LanguageTest.BitMap
