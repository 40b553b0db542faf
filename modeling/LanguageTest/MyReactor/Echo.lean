import LanguageTest.Library.Strings
import LanguageTest.MyReactor.Server
import Mathlib.Data.List.TakeWhile

namespace LanguageTest.ReactorEcho
open ReactorServer (recvBufSize testSend)

/-- The bytes that one call of `recv` writes to the buffer. -/
structure Chunk where
  bytes : List UInt8
  nonempty : bytes ≠ []
  fits : bytes.length ≤ recvBufSize

/-- What a call of `recv` on the client answers. -/
inductive Answer where
  | data (chunk : Chunk)
  | closed
  | wouldBlock
  | error

/-- The answers of the calls to come, and as history the replies given to `send` and whether the
client was closed. -/
structure State where
  answers : List Answer
  sent : List (List UInt8)
  closed : Bool

def recv : Program State Answer := do
  let s ← get
  match s.answers with
  | [] => pure .wouldBlock
  | answer :: answers =>
    set { s with answers := answers }
    pure answer

def closeClient : Program State Unit := do
  set { (← get) with closed := true }

def send (clientMsg : List UInt8) : Program State Unit := do
  let s ← get
  set { s with sent := s.sent ++ [clientMsg] }

/-- `buf` after `memset` and `recv`. -/
def buf (chunk : Chunk) : List UInt8 :=
  chunk.bytes ++ List.replicate (recvBufSize - chunk.bytes.length) 0

/-- The loop around `recv`, with the message unless the client is gone. -/
def receive (fuel : Nat) : Program State (Option (List UInt8)) :=
  loop (fun clientMsg => do
    match ← recv with
    | .data chunk => pure (.again (clientMsg ++ (← cString (buf chunk))))
    | .wouldBlock => pure (.done (some clientMsg))
    | .closed | .error =>
      closeClient
      pure (.done none)) fuel []

/-- What `workerThread` does for a client that it took from the list. -/
def handle (fuel : Nat) : Program State Unit := do
  match ← receive fuel with
  | none => pure ()
  | some clientMsg => send (clientMsg ++ testSend)

section
variable {s : State} {chunk : Chunk} {chunks : List Chunk} {answers : List Answer} {fuel : Nat}
  {beyond : List UInt8}

theorem zero_mem_buf : 0 ∈ buf chunk ↔ chunk.bytes.length < recvBufSize ∨ 0 ∈ chunk.bytes := by
  have hpos : recvBufSize - chunk.bytes.length ≠ 0 ↔ chunk.bytes.length < recvBufSize := by omega
  rw [buf, List.mem_append, List.mem_replicate, and_iff_left rfl, hpos, or_comm]

theorem takeWhile_buf :
    (buf chunk).takeWhile (· ≠ 0) = chunk.bytes.takeWhile (· ≠ 0) := by
  have hzeros (n : Nat) : (List.replicate n (0 : UInt8)).takeWhile (· ≠ 0) = [] := by
    cases n <;> simp [List.replicate_succ]
  rw [buf, List.takeWhile_append, hzeros, List.append_nil, ite_eq_right_iff]
  exact fun hlength => ((List.takeWhile_prefix _).eq_of_length hlength).symm

/-- Where the buffer is not read beyond its end it does not matter what is there. -/
theorem bufString_eq (h : 0 ∈ buf chunk) :
    ReactorServer.bufString chunk.bytes beyond = (buf chunk).takeWhile (· ≠ 0) := by
  rw [ReactorServer.bufString, takeWhile_buf]
  split_ifs with hlt
  · rfl
  · have hzero := (zero_mem_buf.mp h).resolve_left hlt
    rw [List.takeWhile_append, if_neg]
    intro hlength
    have heq := (List.takeWhile_prefix (· ≠ (0 : UInt8))).eq_of_length hlength
    rw [← heq] at hzero
    exact absurd (List.mem_takeWhile_imp hzero) (by simp)

theorem runs_recv {answer : Answer} {Q : Answer → State → Prop}
    (h : s.answers = answer :: answers) :
    Runs recv s Q ↔ Q answer { s with answers := answers } := by
  rw [recv, runs_bind, runs_get, h, runs_bind, runs_set, runs_pure]

/-- The loop reads a C string for every chunk. -/
theorem runs_receive {clientMsg : List UInt8} {Q : Option (List UInt8) → State → Prop}
    (h : s.answers = chunks.map .data ++ .wouldBlock :: answers) (hf : chunks.length < fuel) :
    Runs (loop (fun clientMsg => do
      match ← recv with
      | .data chunk => pure (.again (clientMsg ++ (← cString (buf chunk))))
      | .wouldBlock => pure (.done (some clientMsg))
      | .closed | .error =>
        closeClient
        pure (.done none)) fuel clientMsg) s Q ↔
      (∀ chunk ∈ chunks, 0 ∈ buf chunk) ∧
        Q (some (clientMsg ++ chunks.flatMap fun chunk => (buf chunk).takeWhile (· ≠ 0)))
          { s with answers := answers } := by
  induction chunks generalizing clientMsg fuel s with
  | nil =>
    obtain ⟨fuel, rfl⟩ := Nat.exists_eq_add_of_lt hf
    rw [runs_loop_succ, runs_bind, runs_recv h, runs_pure]
    simp
  | cons chunk chunks ih =>
    obtain ⟨fuel, rfl⟩ := Nat.exists_eq_add_of_lt hf
    rw [runs_loop_succ, runs_bind, runs_recv h, runs_bind, runs_cString, runs_pure,
      List.forall_mem_cons, and_assoc]
    refine and_congr_right fun _ => ?_
    refine (ih rfl (by rw [List.length_cons]; omega)).trans ?_
    rw [List.flatMap_cons, List.append_assoc]

/-- The reply is what the client sent, and the text behind it, exactly when no chunk has a null
character or fills the buffer. -/
theorem handle_echo_iff (s : State) (chunks : List Chunk) (answers : List Answer) (fuel : Nat)
    (h : s.answers = chunks.map .data ++ .wouldBlock :: answers) (hf : chunks.length < fuel) :
    (Runs (handle fuel) s fun _ t => t.sent = s.sent ++ [chunks.flatMap Chunk.bytes ++ testSend]) ↔
      ∀ chunk ∈ chunks, chunk.bytes.length < recvBufSize ∧ 0 ∉ chunk.bytes := by
  have hstart : ∀ chunk ∈ chunks, (buf chunk).takeWhile (· ≠ 0) <+: chunk.bytes := by
    intro chunk _
    rw [takeWhile_buf]
    exact List.takeWhile_prefix _
  have hself (chunk : Chunk) :
      (buf chunk).takeWhile (· ≠ 0) = chunk.bytes ↔ 0 ∉ chunk.bytes := by
    rw [takeWhile_buf, List.takeWhile_eq_self_iff]
    constructor
    · intro hall hzero
      simpa using hall 0 hzero
    · intro hzero c hc
      simpa using fun hc0 : c = 0 => hzero (hc0 ▸ hc)
  rw [handle, runs_bind, receive, runs_receive h hf]
  simp only [send, runs_bind, runs_get, runs_set, List.nil_append, List.append_cancel_left_eq,
    List.cons.injEq, and_true, List.append_cancel_right_eq]
  rw [flatMap_eq_flatMap_iff hstart, ← forall₂_and]
  refine forall₂_congr fun chunk _ => ?_
  rw [zero_mem_buf, hself]
  constructor
  · exact fun hboth => ⟨hboth.1.resolve_right hboth.2, hboth.2⟩
  · exact fun hboth => ⟨Or.inl hboth.1, hboth.2⟩

/-- A client sends `hi`, and again `hi`. -/
def samplePart : Chunk := ⟨[104, 105], by decide, by decide⟩

def sampleState : State where
  answers := [.data samplePart, .data samplePart, .wouldBlock]
  sent := []
  closed := false

theorem handle_echo_iff_sample :
    (Runs (handle 3) sampleState fun _ t =>
      t.sent = [] ++ [[samplePart, samplePart].flatMap Chunk.bytes ++ testSend]) ↔
      ∀ chunk ∈ [samplePart, samplePart], chunk.bytes.length < recvBufSize ∧ 0 ∉ chunk.bytes :=
  handle_echo_iff sampleState [samplePart, samplePart] [] 3 rfl (by decide)

/-- What follows a null character in a chunk is lost. -/
theorem handle_echo_drops : ∃ (s : State) (chunks : List Chunk) (fuel : Nat),
    s.answers = chunks.map .data ++ [.wouldBlock] ∧ chunks.length < fuel ∧
      ¬ Runs (handle fuel) s fun _ t =>
        t.sent = s.sent ++ [chunks.flatMap Chunk.bytes ++ testSend] := by
  refine ⟨⟨[.data ⟨[97, 0, 98], by decide, by decide⟩, .wouldBlock], [], false⟩,
    [⟨[97, 0, 98], by decide, by decide⟩], 2, rfl, by decide, ?_⟩
  rw [runs_of_ok (t := ⟨[], [97 :: testSend], false⟩) rfl]
  intro hsent
  have hlength := congrArg List.length (List.singleton_inj.mp hsent)
  rw [List.length_append, List.length_cons] at hlength
  exact absurd (hlength.trans (Nat.add_comm 3 _)) (by omega)

end

end LanguageTest.ReactorEcho
