import LanguageTest.Library.Arithmetic
import LanguageTest.Library.Cells
import Mathlib.Logic.Function.Basic

namespace LanguageTest.BitMap

structure Fields where
  data : Ptr
  charSize : Int
  size : Int

abbrev State := Machine Fields (Cells UInt8)

def readByte (addr : Int) : Program State UInt8 := do
  readCell (← getObject).data addr

def writeByte (addr : Int) (byte : UInt8) : Program State Unit := do
  writeCell (← getObject).data addr byte

/-- An assertion on an index. -/
def check (p : Prop) [Decidable p] : Program State Unit := if p then pure () else fail .outOfRange

def construct (size : Int) : Program State Unit := do
  let data ← newCells (size.tdiv 8).toNat
  setObject fun _ => ⟨data, size.tdiv 8, size⟩
  (List.range (size.tdiv 8).toNat).forM fun (i : Nat) => writeByte i 0

def temp (addroffset : Int) : UInt8 := UInt8.ofNat (1 <<< (7 - addroffset).toNat)

def setTrue (index : Int) : Program State Unit := do
  let addr := index.tdiv 8
  let addroffset := index.tmod 8
  check (addr ≤ (← getObject).charSize + 1)
  writeByte addr ((← readByte addr) ||| temp addroffset)

def get (index : Int) : Program State Bool := do
  let addr := index.tdiv 8
  let addroffset := index.tmod 8
  check (addr ≤ (← getObject).charSize)
  pure (decide ((← readByte addr) &&& temp addroffset > 0))

def setFalse (index : Int) : Program State Unit := do
  if (← get index) = false then pure ()
  else
    let addr := index.tdiv 8
    let addroffset := index.tmod 8
    check (addr ≤ (← getObject).charSize)
    writeByte addr ((← readByte addr) ^^^ temp addroffset)

def set (index : Int) (status : Bool) : Program State Unit :=
  if status then setTrue index else setFalse index

/-- The index that the overloads with a byte and a bit compute. -/
def indexOf (charId bitId : Int) : Program State Int := do
  int ((← int (charId * 8)) + bitId)

/-- `set(int, int, bool)` -/
def setAt (charId bitId : Int) (status : Bool) : Program State Unit := do
  set (← indexOf charId bitId) status

/-- `get(int, int)` -/
def getAt (charId bitId : Int) : Program State Bool := do
  get (← indexOf charId bitId)

def setNumber (index : Int) (number : UInt8) : Program State Unit := writeByte index number

inductive Op where
  | set (index : Int) (status : Bool)
  | setAt (charId bitId : Int) (status : Bool)
  | setTrue (index : Int)
  | setFalse (index : Int)
  | setNumber (index : Int) (number : UInt8)
  | get (index : Int)
  | getAt (charId bitId : Int)

def step : Op → Program State (Option Bool)
  | .set index status => do set index status; pure none
  | .setAt charId bitId status => do setAt charId bitId status; pure none
  | .setTrue index => do setTrue index; pure none
  | .setFalse index => do setFalse index; pure none
  | .setNumber index number => do setNumber index number; pure none
  | .get index => do pure (some (← get index))
  | .getAt charId bitId => do pure (some (← getAt charId bitId))

/-- A map from its constructor on. -/
def run (size : Int) (ops : List Op) : Program State (List (Option Bool)) := do
  construct size
  runAll step ops

def start : State := ⟨⟨none, 0, 0⟩, Heap.empty⟩

/-- The index of a byte and a bit, where the product is an `int`. -/
def Names (charId bitId index : Int) : Prop := IsInt (charId * 8) ∧ charId * 8 + bitId = index

def Inside (size index : Int) : Prop := 0 ≤ index ∧ index < size

/-- The index of the call is inside the map. -/
def Legal (size : Int) : Op → Prop
  | .set index _ | .setTrue index | .setFalse index | .get index => Inside size index
  | .setAt charId bitId _ | .getAt charId bitId =>
    ∃ index, Names charId bitId index ∧ Inside size index
  | .setNumber index _ => Inside (size / 8) index

/-- Bit `j` of a byte, from the most significant one on. -/
def bit (byte : UInt8) (j : Nat) : Bool := byte.toBitVec.getLsbD (7 - j)

/-- What a call writes to a bit of the map, if it writes to it. -/
def writes (i : Nat) : Op → Option Bool
  | .set index status => if index = i then some status else none
  | .setAt charId bitId status => if charId * 8 + bitId = i then some status else none
  | .setTrue index => if index = i then some true else none
  | .setFalse index => if index = i then some false else none
  | .setNumber index number => if index = i / 8 then some (bit number (i % 8)) else none
  | .get _ | .getAt .. => none

/-- The value last written to a bit, which is 0 at first. -/
def lastWritten (ops : List Op) (i : Nat) : Bool :=
  ((ops.filterMap (writes i)).getLast?).getD false

/-- The object owns an array with these bytes. -/
def Owns (bytes : List UInt8) (s : State) : Prop :=
  ∃ a, s.object = ⟨some a, bytes.length, 8 * bytes.length⟩ ∧
    s.heap.cells a = some (bytes.map some)

/-- The bytes have these bits. -/
def Packs (bytes : List UInt8) (bits : Nat → Bool) : Prop :=
  ∀ k byte, bytes[k]? = some byte → ∀ j, j < 8 → bit byte j = bits (8 * k + j)

section
variable {byte : UInt8} {bytes : List UInt8} {bits : Nat → Bool} {s : State} {i j k o : Nat}

theorem bit_temp (hj : j < 8) (ho : o < 8) : bit (temp o) j = decide (j = o) := by
  have h : ∀ o : Fin 8, ∀ j : Fin 8, bit (temp (o : Nat)) j = decide ((j : Nat) = o) := by decide
  exact h ⟨o, ho⟩ ⟨j, hj⟩

theorem bit_or (hj : j < 8) (ho : o < 8) :
    bit (byte ||| temp o) j = (bit byte j || decide (j = o)) := by
  rw [← bit_temp hj ho]
  simp [bit]

theorem bit_xor (hj : j < 8) (ho : o < 8) :
    bit (byte ^^^ temp o) j = (bit byte j ^^ decide (j = o)) := by
  rw [← bit_temp hj ho]
  simp [bit]

theorem bit_and (byte : UInt8) (hj : j < 8) (ho : o < 8) :
    bit (byte &&& temp o) j = (bit byte j && decide (j = o)) := by
  rw [← bit_temp hj ho]
  simp [bit]

theorem eq_zero_of_bits (h : ∀ j, j < 8 → bit byte j = false) : byte = 0 := by
  apply UInt8.eq_of_toBitVec_eq
  apply BitVec.eq_of_getLsbD_eq
  intro i hi
  have hbit := h (7 - i) (by omega)
  rw [bit, show 7 - (7 - i) = i by omega] at hbit
  rw [hbit]
  simp

/-- The test of a bit by its mask. -/
theorem and_temp_pos (ho : o < 8) : decide (byte &&& temp o > 0) = bit byte o := by
  cases hbit : bit byte o with
  | true =>
    apply decide_eq_true
    apply UInt8.pos_iff_ne_zero.mpr
    intro hzero
    have hmask := bit_and byte ho ho
    rw [hzero, hbit] at hmask
    simp [bit] at hmask
  | false =>
    apply decide_eq_false
    have hzero : byte &&& temp o = 0 := by
      apply eq_zero_of_bits
      intro j hj
      rw [bit_and byte hj ho]
      by_cases hjo : j = o
      · subst hjo
        simp [hbit]
      · simp [hjo]
    rw [hzero]
    exact UInt8.lt_irrefl 0

theorem Packs.set (h : Packs bytes bits) (hk : k < bytes.length) {bits' : Nat → Bool}
    (hbyte : ∀ j, j < 8 → bit byte j = bits' (8 * k + j))
    (hother : ∀ i, i / 8 ≠ k → bits' i = bits i) : Packs (bytes.set k byte) bits' := by
  intro m byte' hm j hj
  by_cases hmk : m = k
  · subst hmk
    rw [List.getElem?_set_self hk] at hm
    obtain rfl := Option.some.inj hm
    exact hbyte j hj
  · rw [List.getElem?_set_ne (Ne.symm hmk)] at hm
    rw [h m byte' hm j hj]
    exact (hother _ (by omega)).symm

theorem runs_readByte {Q : UInt8 → State → Prop} (h : Owns bytes s) (hk : k < bytes.length) :
    Runs (readByte k) s Q ↔ Q bytes[k] s := by
  obtain ⟨a, hobject, ha⟩ := h
  simp only [readByte, runs_bind, runs_getObject, hobject]
  exact runs_readCell ha (by simp [hk])

theorem runs_writeByte (h : Owns bytes s) (hk : k < bytes.length) :
    Runs (writeByte k byte) s fun _ t => Owns (bytes.set k byte) t := by
  obtain ⟨a, hobject, ha⟩ := h
  simp only [writeByte, runs_bind, runs_getObject, hobject]
  refine (runs_writeCell ha (by simpa using hk)).mpr ⟨a, ?_, ?_⟩
  · simpa using hobject
  · simp [ha, List.map_set]

theorem runs_check {p : Prop} [Decidable p] {Q : Unit → State → Prop} (hp : p) :
    Runs (check p) s Q ↔ Q () s := by
  rw [check, if_pos hp, runs_pure]

/-- The map has these bits. -/
def Shows (n : Nat) (bits : Nat → Bool) (s : State) : Prop :=
  ∃ bytes, bytes.length = n ∧ Owns bytes s ∧ Packs bytes bits

variable {n : Nat}

theorem Owns.charSize (h : Owns bytes s) : s.object.charSize = bytes.length := by
  obtain ⟨a, hobject, -⟩ := h
  rw [hobject]

theorem tdiv_eight (i : Nat) : (i : Int).tdiv 8 = (i / 8 : Nat) := rfl

theorem tmod_eight (i : Nat) : (i : Int).tmod 8 = (i % 8 : Nat) := rfl

theorem runs_get (h : Shows n bits s) (hi : i < 8 * n) :
    Runs (get i) s fun b t => t = s ∧ b = bits i := by
  obtain ⟨bytes, rfl, howns, hpacks⟩ := h
  have hk : i / 8 < bytes.length := by omega
  have hcheck : ((i / 8 : Nat) : Int) ≤ s.object.charSize := by
    rw [howns.charSize]
    omega
  simp only [get, runs_bind, runs_getObject, tdiv_eight, tmod_eight, runs_check hcheck,
    runs_readByte howns hk, runs_pure]
  refine ⟨trivial, ?_⟩
  rw [and_temp_pos (by omega), hpacks _ _ (List.getElem?_eq_getElem hk) _ (by omega)]
  congr 1
  omega

/-- A byte that differs in one bit. -/
theorem Packs.setBit (h : Packs bytes bits) (hk : i / 8 < bytes.length) {b : Bool}
    (hbyte : ∀ j, j < 8 → bit byte j = if j = i % 8 then b else bit bytes[i / 8] j) :
    Packs (bytes.set (i / 8) byte) (Function.update bits i b) := by
  apply h.set hk
  · intro j hj
    rw [hbyte j hj]
    by_cases hij : j = i % 8
    · rw [if_pos hij, show 8 * (i / 8) + j = i by omega, Function.update_self]
    · rw [if_neg hij, Function.update_of_ne (by omega)]
      exact h _ _ (List.getElem?_eq_getElem hk) j hj
  · intro m hm
    apply Function.update_of_ne
    intro heq
    exact hm (by rw [heq])

theorem runs_writeBit (howns : Owns bytes s) (hpacks : Packs bytes bits) (hk : i / 8 < bytes.length)
    {b : Bool} (hbyte : ∀ j, j < 8 → bit byte j = if j = i % 8 then b else bit bytes[i / 8] j) :
    Runs (writeByte (i / 8 : Nat) byte) s fun _ t =>
      Shows bytes.length (Function.update bits i b) t := by
  refine (runs_writeByte howns hk).mono ?_
  intro _ t ht
  exact ⟨_, List.length_set, ht, hpacks.setBit hk hbyte⟩

theorem runs_setTrue (h : Shows n bits s) (hi : i < 8 * n) :
    Runs (setTrue i) s fun _ t => Shows n (Function.update bits i true) t := by
  obtain ⟨bytes, rfl, howns, hpacks⟩ := h
  have hk : i / 8 < bytes.length := by omega
  have hcheck : ((i / 8 : Nat) : Int) ≤ s.object.charSize + 1 := by
    rw [howns.charSize]
    omega
  simp only [setTrue, runs_bind, runs_getObject, tdiv_eight, tmod_eight, runs_check hcheck,
    runs_readByte howns hk]
  apply runs_writeBit howns hpacks hk
  intro j hj
  rw [bit_or hj (by omega)]
  by_cases hij : j = i % 8 <;> simp [hij]

theorem runs_setFalse (h : Shows n bits s) (hi : i < 8 * n) :
    Runs (setFalse i) s fun _ t => Shows n (Function.update bits i false) t := by
  rw [setFalse, runs_bind]
  refine (runs_get h hi).mono ?_
  intro b t ht
  obtain ⟨rfl, rfl⟩ := ht
  cases hbit : bits i with
  | false =>
    -- nothing to do for a bit that is 0
    rw [if_pos rfl, runs_pure, ← hbit, Function.update_eq_self]
    exact h
  | true =>
    obtain ⟨bytes, rfl, howns, hpacks⟩ := h
    have hk : i / 8 < bytes.length := by omega
    have hcheck : ((i / 8 : Nat) : Int) ≤ t.object.charSize := by
      rw [howns.charSize]
      omega
    simp only [Bool.true_eq_false, if_false, runs_bind, runs_getObject, tdiv_eight, tmod_eight,
      runs_check hcheck, runs_readByte howns hk]
    apply runs_writeBit howns hpacks hk
    intro j hj
    rw [bit_xor hj (by omega)]
    by_cases hij : j = i % 8
    · rw [if_pos hij, decide_eq_true hij, hpacks _ _ (List.getElem?_eq_getElem hk) j hj,
        show 8 * (i / 8) + j = i by omega, hbit]
      rfl
    · rw [if_neg hij, decide_eq_false hij, Bool.xor_false]

theorem runs_set (h : Shows n bits s) (hi : i < 8 * n) (status : Bool) :
    Runs (set i status) s fun _ t => Shows n (Function.update bits i status) t := by
  cases status with
  | true => exact runs_setTrue h hi
  | false => exact runs_setFalse h hi

theorem runs_setNumber (h : Shows n bits s) (hk : k < n) (number : UInt8) :
    Runs (setNumber k number) s fun _ t =>
      Shows n (fun i => if i / 8 = k then bit number (i % 8) else bits i) t := by
  obtain ⟨bytes, rfl, howns, hpacks⟩ := h
  refine (runs_writeByte howns hk).mono ?_
  intro _ t ht
  refine ⟨_, List.length_set, ht, hpacks.set hk ?_ ?_⟩
  · intro j hj
    rw [if_pos (by omega)]
    congr 1
    omega
  · exact fun i hi => if_neg hi

theorem runs_indexOf {charId bitId index size : Int} {Q : Int → State → Prop}
    (hsize : IsInt size) (h : Names charId bitId index) (hinside : Inside size index) :
    Runs (indexOf charId bitId) s Q ↔ Q index s := by
  obtain ⟨hproduct, rfl⟩ := h
  have hsum : IsInt (charId * 8 + bitId) := by
    obtain ⟨hlow, hhigh⟩ := hinside
    have hmax := hsize.2
    constructor <;> omega
  simp only [indexOf, runs_bind, runs_int hproduct, runs_int hsum]

end

/-- What the bits become by a call. -/
def after (op : Op) (bits : Nat → Bool) (i : Nat) : Bool := (writes i op).getD (bits i)

theorem after_lastWritten (ops : List Op) (op : Op) :
    after op (lastWritten ops) = lastWritten (ops ++ [op]) := by
  funext i
  simp only [after, lastWritten, List.filterMap_append, List.filterMap_cons, List.filterMap_nil]
  cases writes i op with
  | none => simp
  | some b => simp

section
variable {n : Nat} {s : State} {size : Int} {bits : Nat → Bool}

theorem shows_congr {bits' : Nat → Bool} (h : Shows n bits s) (heq : ∀ i, bits i = bits' i) :
    Shows n bits' s :=
  funext heq ▸ h

theorem update_eq_after (bits : Nat → Bool) (op : Op) {i : Nat} {b : Bool}
    (hop : ∀ j, writes j op = if (i : Int) = j then some b else none) :
    Function.update bits i b = after op bits := by
  funext j
  rw [after, hop]
  by_cases hij : i = j
  · subst hij
    simp
  · rw [Function.update_of_ne (Ne.symm hij), if_neg (by omega)]
    rfl

theorem step_shows (hsize : IsInt size) (hn : size = 8 * n) (h : Shows n bits s) {op : Op}
    (hlegal : Legal size op) : Runs (step op) s fun _ t => Shows n (after op bits) t := by
  have hbelow : ∀ i : Nat, Inside size i → i < 8 * n := by
    intro i hi
    have hlt := hi.2
    omega
  cases op with
  | set index status =>
    obtain ⟨i, rfl⟩ := Int.eq_ofNat_of_zero_le hlegal.1
    simp only [step, runs_bind, runs_pure, ← update_eq_after bits (.set i status) fun _ => rfl]
    exact runs_set h (hbelow i hlegal) status
  | setAt charId bitId status =>
    obtain ⟨index, hnames, hinside⟩ := hlegal
    obtain ⟨i, rfl⟩ := Int.eq_ofNat_of_zero_le hinside.1
    simp only [step, setAt, runs_bind, runs_pure, runs_indexOf hsize hnames hinside]
    rw [← update_eq_after bits (.setAt charId bitId status) (i := i) (b := status)]
    · exact runs_set h (hbelow i hinside) status
    · intro j
      rw [writes, hnames.2]
  | setTrue index =>
    obtain ⟨i, rfl⟩ := Int.eq_ofNat_of_zero_le hlegal.1
    simp only [step, runs_bind, runs_pure, ← update_eq_after bits (.setTrue i) fun _ => rfl]
    exact runs_setTrue h (hbelow i hlegal)
  | setFalse index =>
    obtain ⟨i, rfl⟩ := Int.eq_ofNat_of_zero_le hlegal.1
    simp only [step, runs_bind, runs_pure, ← update_eq_after bits (.setFalse i) fun _ => rfl]
    exact runs_setFalse h (hbelow i hlegal)
  | setNumber index number =>
    obtain ⟨k, rfl⟩ := Int.eq_ofNat_of_zero_le hlegal.1
    simp only [step, runs_bind, runs_pure]
    refine (runs_setNumber h ?_ number).mono ?_
    · have hlt := hlegal.2
      omega
    · intro _ t ht
      apply shows_congr ht
      intro i
      simp only [after, writes]
      by_cases hik : i / 8 = k
      · rw [if_pos hik, if_pos (by omega)]
        rfl
      · rw [if_neg hik, if_neg (by omega)]
        rfl
  | get index =>
    obtain ⟨i, rfl⟩ := Int.eq_ofNat_of_zero_le hlegal.1
    simp only [step, runs_bind, runs_pure]
    refine (runs_get h (hbelow i hlegal)).mono ?_
    intro b t ht
    rw [ht.1]
    exact h
  | getAt charId bitId =>
    obtain ⟨index, hnames, hinside⟩ := hlegal
    obtain ⟨i, rfl⟩ := Int.eq_ofNat_of_zero_le hinside.1
    simp only [step, getAt, runs_bind, runs_pure, runs_indexOf hsize hnames hinside]
    refine (runs_get h (hbelow i hinside)).mono ?_
    intro b t ht
    rw [ht.1]
    exact h

/-- The array is as long as the quotient, and all its bytes are 0. -/
theorem runs_construct_zeros (hn : size.tdiv 8 = n) : Runs (construct size) start fun _ s =>
    ∃ a, s.object = ⟨some a, n, size⟩ ∧
      s.heap.cells a = some ((List.replicate n (0 : UInt8)).map some) := by
  have hzeros : ∀ (i : Nat) (x : UInt8), (List.replicate n (0 : UInt8))[i]? = some x → x = 0 := by
    intro i x hx
    exact List.eq_of_mem_replicate (List.mem_of_getElem? hx)
  simp only [construct, newCells, hn, Int.toNat_natCast, runs_bind, runs_new, runs_setObject]
  refine (runs_overwrite (List.replicate n 0) List.length_replicate (k := 0)
    (d := List.replicate n none) (a := start.heap.next) ?_ ?_ ?_).mpr ?_
  · simp
  · simp
  · intro i x t hx hobject _ _
    obtain rfl := hzeros i x hx
    rw [writeByte, bind_eq (show getObject t = .ok (t.object, t) from rfl), hobject, Nat.zero_add]
  · refine ⟨start.heap.next, rfl, ?_⟩
    simp [overwriteAt, overwrite_start, written]

theorem runs_construct (hn : size = 8 * n) :
    Runs (construct size) start fun _ t => Shows n (fun _ => false) t := by
  have hquotient : size.tdiv 8 = n := by
    rw [hn]
    exact Int.mul_tdiv_cancel_left n (by omega)
  refine (runs_construct_zeros hquotient).mono ?_
  intro _ t ht
  obtain ⟨a, hobject, ha⟩ := ht
  refine ⟨List.replicate n 0, List.length_replicate, ⟨a, ?_, ha⟩, ?_⟩
  · rw [hobject, List.length_replicate, hn]
  · intro k byte hbyte j _
    obtain rfl := List.eq_of_mem_replicate (List.mem_of_getElem? hbyte)
    simp [bit]

/-- After any calls inside the map, every bit has the value last written to it, through either
overload of `get`. -/
theorem run_lastWritten (hsize : IsInt size) (hnonneg : 0 ≤ size) (hbytes : 8 ∣ size)
    (ops : List Op) (hlegal : ∀ op ∈ ops, Legal size op) :
    Runs (run size ops) start fun _ s => ∀ i : Nat, Inside size i →
      Runs (get i) s (fun b t => t = s ∧ b = lastWritten ops i) ∧
      ∀ charId bitId, Names charId bitId i →
        Runs (getAt charId bitId) s fun b t => t = s ∧ b = lastWritten ops i := by
  obtain ⟨m, hm⟩ := hbytes
  obtain ⟨n, rfl⟩ := Int.eq_ofNat_of_zero_le (a := m) (by omega)
  rw [run, runs_bind]
  refine (runs_construct hm).mono ?_
  intro _ s hs
  have hrun : Runs (runAll step ops) s fun _ t => Shows n (lastWritten ops) t := by
    apply runs_all (fun pre _ t => Shows n (lastWritten pre) t) ops
    · intro pre op post rs t hops ht
      rw [← after_lastWritten]
      exact step_shows hsize hm ht (hlegal op (by simp [hops]))
    · exact hs
  refine hrun.mono ?_
  intro _ t ht i hi
  have hbelow : i < 8 * n := by
    have hlt := hi.2
    omega
  refine ⟨runs_get ht hbelow, ?_⟩
  intro charId bitId hnames
  rw [getAt, runs_bind, runs_indexOf hsize hnames hi]
  exact runs_get ht hbelow

/-- The sample run of the program. -/
def sample : List Op :=
  [.set 0 true, .setAt 1 1 true, .setAt 2 3 true, .get 0, .get 9, .get 19, .getAt 2 3, .get 20,
    .setNumber 7 255]

theorem run_lastWritten_sample : Runs (run 64 sample) start fun _ s => ∀ i : Nat, Inside 64 i →
    Runs (get i) s (fun b t => t = s ∧ b = lastWritten sample i) ∧
    ∀ charId bitId, Names charId bitId i →
      Runs (getAt charId bitId) s fun b t => t = s ∧ b = lastWritten sample i :=
  run_lastWritten (by decide) (by decide) (by decide) _ (by
    simp [sample, Legal, Names, Inside, IsInt])

end

end LanguageTest.BitMap
