import Distrans.Channel.Channel
import Distrans.Frame.Codec
import Distrans.Lib.Loop

/-!
# Stop-and-wait and go-back-N

`crates/workload/src/baselines.rs`: two schemes with a fixed timeout over a pair of channels.
Chunks are numbered by index; an acknowledgement is a frame with the flag `FLAG_ACK`, and its
sequence number is the next chunk the receiver expects.

A scheme is written over any `Medium`, of which `channelMedium` is the one of the source.  A run
ends in its result and the final values of its variables, the channels among them.
-/

set_option autoImplicit false

namespace Distrans.Workload

open Machine

/-- A channel, by what the schemes do with it. -/
structure Medium (κ : Type) where
  send : κ → List U8 → Exec κ
  advance : κ → Tick → Exec (κ × List (List U8))

def channelMedium (b : Build) : Medium Channel where
  send c datagram := do
    let (c, _) ← c.send b datagram
    .ok c
  advance c target := c.advance target

def FLAG_ACK : U16 := 1

structure ArqConfig where
  segmentSize : Nat
  rto : U64
  maxRetries : U32

structure RunResult where
  delivered : List U8
  ticksUsed : U64
  completed : Bool
  deriving DecidableEq, Repr

/-- `data.chunks(n)`: pieces of `n` elements, the last one perhaps shorter. -/
def chunksOf {α : Type} (n : Nat) (data : List α) : List (List α) :=
  (List.range ((data.length + n - 1) / n)).map fun i => (data.drop (n * i)).take n

/-- The chunks both schemes send. -/
def ArqConfig.chunks (config : ArqConfig) (data : List U8) : List (List U8) :=
  chunksOf (max config.segmentSize 1) data

def segment (seq : U32) (payload : List U8) : Frame :=
  { frameType := 0, sequence := seq, flags := 0, payload }

def acknowledgement (nextExpected : U32) : Frame :=
  { frameType := 0, sequence := nextExpected, flags := FLAG_ACK, payload := [] }

def dataFrame (seq : U32) (payload : List U8) : List U8 := (segment seq payload).encode

def ackFrame (nextExpected : U32) : List U8 := (acknowledgement nextExpected).encode

variable {κ : Type}

/-! ## The receiver -/

/-- The variables of the receiver, which is the same in both schemes. -/
structure Receiver where
  expected : U32 := 0
  delivered : List U8 := []
  deriving DecidableEq, Repr

/-- One datagram: in order or not, the cumulative point goes back. -/
def receive (b : Build) (M : Medium κ) (s : κ × Receiver) (datagram : List U8) :
    Exec (κ × Receiver) := do
  match ← Frame.decode datagram with
  | .error _ => .ok s
  | .ok f =>
    let receiver ← (if f.sequence = s.2.expected then do
        let expected ← b.add s.2.expected 1#32
        .ok { expected, delivered := s.2.delivered ++ f.payload }
      else .ok s.2)
    let back ← M.send s.1 (ackFrame receiver.expected)
    .ok (back, receiver)

/-- Everything that has arrived at the receiver. -/
def hear (b : Build) (M : Medium κ) (now : Tick) (fwd back : κ) (receiver : Receiver) :
    Exec (κ × κ × Receiver) := do
  let (fwd, datagrams) ← M.advance fwd now
  let (back, receiver) ← datagrams.foldlM (receive b M) (back, receiver)
  .ok (fwd, back, receiver)

/-! ## Stop-and-wait -/

/-- The variables of `run_stop_and_wait`. -/
structure StopAndWait (κ : Type) where
  fwd : κ
  back : κ
  nextSeq : U32 := 0
  unacked : Option (U32 × List U8 × Tick) := none
  retries : U32 := 0
  receiver : Receiver := {}
  tick : U64 := 0
  /-- The chunks handed to `fwd` so far, for the history of the run. -/
  transmitted : List U32 := []

namespace StopAndWait

def result (s : StopAndWait κ) (completed : Bool) : RunResult :=
  ⟨s.receiver.delivered, s.tick, completed⟩

/-- One datagram at the sender. -/
def onAck (b : Build) (s : StopAndWait κ) (datagram : List U8) : Exec (StopAndWait κ) := do
  match ← Frame.decode datagram with
  | .error _ => .ok s
  | .ok f =>
    if f.flags &&& FLAG_ACK ≠ 0 then
      match s.unacked with
      | none => .ok s
      | some (seq, _, _) => do
        let next ← b.add seq 1#32
        if f.sequence = next then .ok { s with unacked := none, retries := 0 } else .ok s
    else .ok s

/-- The clock, and everything that has arrived at the receiver. -/
def listen (b : Build) (M : Medium κ) (s : StopAndWait κ) : Exec (StopAndWait κ) := do
  let tick ← b.add s.tick 1#64
  let (fwd, back, receiver) ← hear b M tick s.fwd s.back s.receiver
  .ok { s with fwd, back, receiver, tick }

/-- Everything that has arrived at the sender. -/
def heed (b : Build) (M : Medium κ) (s : StopAndWait κ) : Exec (StopAndWait κ) := do
  let (back, datagrams) ← M.advance s.back s.tick
  datagrams.foldlM (onAck b) { s with back }

/-- The next chunk, or the one that is overdue once more; after too many retries the run ends. -/
def transmit (b : Build) (M : Medium κ) (chunks : List (List U8)) (config : ArqConfig)
    (s : StopAndWait κ) : Exec (StopAndWait κ ⊕ RunResult × StopAndWait κ) :=
  if s.unacked = none ∧ s.nextSeq.toNat < chunks.length then do
    let chunk ← index chunks s.nextSeq.toNat
    let fwd ← M.send s.fwd (dataFrame s.nextSeq chunk)
    let nextSeq ← b.add s.nextSeq 1#32
    .ok (.inl { s with
      fwd, nextSeq
      unacked := some (s.nextSeq, chunk, s.tick)
      transmitted := s.transmitted ++ [s.nextSeq] })
  else match s.unacked with
  | none => .ok (.inl s)
  | some (seq, chunk, sentAt) =>
    if config.rto ≤ satSub s.tick sentAt then do
      let retries ← b.add s.retries 1#32
      let s := { s with retries }
      if config.maxRetries < retries then .ok (.inr (s.result false, s)) else do
      let fwd ← M.send s.fwd (dataFrame seq chunk)
      .ok (.inl { s with
        fwd
        unacked := some (seq, chunk, s.tick)
        transmitted := s.transmitted ++ [seq] })
    else .ok (.inl s)

/-- One turn of the loop. -/
def turn (b : Build) (M : Medium κ) (chunks : List (List U8)) (config : ArqConfig)
    (maxTicks : U64) (s : StopAndWait κ) : Exec (StopAndWait κ ⊕ RunResult × StopAndWait κ) := do
  let s ← s.listen b M
  let s ← s.heed b M
  match ← s.transmit b M chunks config with
  | .inr r => .ok (.inr r)
  | .inl s =>
    let done := s.unacked = none ∧ s.nextSeq.toNat = chunks.length
    if done ∨ maxTicks ≤ s.tick then .ok (.inr (s.result (decide done), s)) else .ok (.inl s)

end StopAndWait

def runStopAndWait (b : Build) (M : Medium κ) (data : List U8) (fwd back : κ) (config : ArqConfig)
    (maxTicks : U64) : Exec (RunResult × StopAndWait κ) :=
  -- the clock ends the loop
  loop (StopAndWait.turn b M (config.chunks data) config maxTicks) (maxTicks.toNat + 1)
    { fwd, back }

/-! ## Go-back-N -/

/-- The variables of `run_go_back_n`. -/
structure GoBackN (κ : Type) where
  fwd : κ
  back : κ
  base : U32 := 0
  nextSeq : U32 := 0
  oldestSentAt : Option Tick := none
  retries : U32 := 0
  receiver : Receiver := {}
  tick : U64 := 0

namespace GoBackN

def result (s : GoBackN κ) (completed : Bool) : RunResult :=
  ⟨s.receiver.delivered, s.tick, completed⟩

/-- One datagram at the sender: only an acknowledgement of something new counts. -/
def onAck (s : GoBackN κ) (datagram : List U8) : Exec (GoBackN κ) := do
  match ← Frame.decode datagram with
  | .error _ => .ok s
  | .ok f =>
    if f.flags &&& FLAG_ACK ≠ 0 ∧ s.base < f.sequence then
      .ok { s with
        base := f.sequence
        retries := 0
        oldestSentAt := if f.sequence < s.nextSeq then some s.tick else none }
    else .ok s

/-- The clock, and everything that has arrived at the receiver. -/
def listen (b : Build) (M : Medium κ) (s : GoBackN κ) : Exec (GoBackN κ) := do
  let tick ← b.add s.tick 1#64
  let (fwd, back, receiver) ← hear b M tick s.fwd s.back s.receiver
  .ok { s with fwd, back, receiver, tick }

/-- Everything that has arrived at the sender. -/
def heed (M : Medium κ) (s : GoBackN κ) : Exec (GoBackN κ) := do
  let (back, datagrams) ← M.advance s.back s.tick
  datagrams.foldlM onAck { s with back }

/-- One turn of the `while` loop that sends what the window has room for. -/
def sendNext (b : Build) (M : Medium κ) (chunks : List (List U8)) (window : Nat)
    (s : GoBackN κ) : Exec (GoBackN κ ⊕ GoBackN κ) := do
  let limit ← b.add s.base (BitVec.ofNat 32 window)
  if s.nextSeq < limit ∧ s.nextSeq.toNat < chunks.length then do
    let chunk ← index chunks s.nextSeq.toNat
    let fwd ← M.send s.fwd (dataFrame s.nextSeq chunk)
    let nextSeq ← b.add s.nextSeq 1#32
    .ok (.inl { s with fwd, nextSeq, oldestSentAt := s.oldestSentAt.or (some s.tick) })
  else .ok (.inr s)

/-- The `while` loop: it sends no chunk twice. -/
def sendWindow (b : Build) (M : Medium κ) (chunks : List (List U8)) (window : Nat)
    (s : GoBackN κ) : Exec (GoBackN κ) :=
  loop (sendNext b M chunks window) (chunks.length + 1) s

/-- The whole window once more. -/
def resend (M : Medium κ) (chunks : List (List U8)) (s : GoBackN κ) : Exec κ :=
  (List.range' s.base.toNat (s.nextSeq.toNat - s.base.toNat)).foldlM (fun fwd seq => do
    let chunk ← index chunks seq
    M.send fwd (dataFrame (BitVec.ofNat 32 seq) chunk)) s.fwd

/-- The timer of the oldest chunk; after too many retries the run ends. -/
def timeout (b : Build) (M : Medium κ) (chunks : List (List U8)) (config : ArqConfig)
    (s : GoBackN κ) : Exec (GoBackN κ ⊕ RunResult × GoBackN κ) :=
  match s.oldestSentAt with
  | none => .ok (.inl s)
  | some sentAt =>
    if config.rto ≤ satSub s.tick sentAt then do
      let retries ← b.add s.retries 1#32
      let s := { s with retries }
      if config.maxRetries < retries then .ok (.inr (s.result false, s)) else do
      let fwd ← s.resend M chunks
      .ok (.inl { s with fwd, oldestSentAt := some s.tick })
    else .ok (.inl s)

/-- One turn of the loop. -/
def turn (b : Build) (M : Medium κ) (chunks : List (List U8)) (config : ArqConfig) (window : Nat)
    (maxTicks : U64) (s : GoBackN κ) : Exec (GoBackN κ ⊕ RunResult × GoBackN κ) := do
  let s ← s.listen b M
  let s ← s.heed M
  let s ← s.sendWindow b M chunks window
  match ← s.timeout b M chunks config with
  | .inr r => .ok (.inr r)
  | .inl s =>
    let done := s.base.toNat = chunks.length
    if done ∨ maxTicks ≤ s.tick then .ok (.inr (s.result (decide done), s)) else .ok (.inl s)

end GoBackN

def runGoBackN (b : Build) (M : Medium κ) (data : List U8) (fwd back : κ) (config : ArqConfig)
    (window : Nat) (maxTicks : U64) : Exec (RunResult × GoBackN κ) :=
  loop (GoBackN.turn b M (config.chunks data) config window maxTicks) (maxTicks.toNat + 1)
    { fwd, back }

/-! ## Chunks -/

theorem chunksOf_take {α : Type} (n : Nat) (data : List α) : ∀ k : Nat,
    ((List.range k).map fun i => (data.drop (n * i)).take n).flatten = data.take (n * k)
  | 0 => by simp
  | k + 1 => by
    rw [List.range_succ, List.map_append, List.flatten_append, chunksOf_take n data k, Nat.mul_succ,
      List.take_add]
    simp

/-- The chunks are the data, cut up. -/
theorem flatten_chunks (config : ArqConfig) (data : List U8) :
    (config.chunks data).flatten = data := by
  have hn : 0 < max config.segmentSize 1 := by omega
  rw [ArqConfig.chunks, chunksOf, chunksOf_take]
  refine List.take_of_length_le ?_
  generalize max config.segmentSize 1 = n at hn
  have := Nat.div_add_mod (data.length + n - 1) n
  have := Nat.mod_lt (data.length + n - 1) hn
  omega

theorem chunks_eq_nil {config : ArqConfig} {data : List U8} :
    config.chunks data = [] ↔ data = [] := by
  have hn : 0 < max config.segmentSize 1 := by omega
  constructor
  · intro h
    rw [← flatten_chunks config data, h]
    rfl
  · rintro rfl
    rw [ArqConfig.chunks, chunksOf, List.length_nil, Nat.zero_add,
      Nat.div_eq_of_lt (Nat.sub_lt hn Nat.one_pos)]
    rfl

end Distrans.Workload
