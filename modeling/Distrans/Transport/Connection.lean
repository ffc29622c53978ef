import Distrans.Channel.Tick
import Distrans.Frame.Codec
import Distrans.Lib.OrdMap
import Distrans.Transport.Rto
import Distrans.Transport.Segment

/-!
# The connection state machine

`crates/transport/src/connection.rs`, function by function: data model, frame builders, sending,
receiving, timers.  Every method takes the connection and returns the new one with the datagrams
to send; a call that does not return is a `Fault`.

* Integer arithmetic follows the build's overflow policy (`Build`); only the event counters of
  `Stats`, which nothing reads back, are plain naturals.
* `usize` quantities are naturals; `as u32` is truncation (`BitVec.ofNat 32`).
* The two loops of the source that are not over a collection carry fuel: `trySendLoop` one unit
  per queued byte, `drainLoop` one per buffered segment.  Running out is the fault `hang`; it
  happens exactly when the source loops without progress (`segment_size = 0`).
-/

set_option autoImplicit false

namespace Distrans

open Machine

abbrev Datagram := List U8

def FLAG_SYN : U16 := 1#16
def FLAG_ACK : U16 := 2#16
def FLAG_FIN : U16 := 4#16

inductive FailureReason where
  | tooManyRetries
  deriving DecidableEq, Repr

inductive State where
  | listening
  | synSent
  | synReceived
  | established
  | closing
  | closed
  | failed (r : FailureReason)
  deriving DecidableEq, Repr

structure Config where
  segmentSize : Nat
  recvWindowCapacity : U32
  minRto : U64
  maxRto : U64
  maxRetries : U32
  fastRetransmitDupAcks : U32
  deriving DecidableEq, Repr

structure Stats where
  dataSegmentsSent : Nat
  dataSegmentsRetransmitted : Nat
  ackSegmentsSent : Nat
  controlRetransmissions : Nat
  bytesSentApp : Nat
  bytesDeliveredApp : Nat
  duplicateBytesReceived : Nat
  fastRetransmits : Nat
  congestionEvents : Nat
  deriving DecidableEq, Repr

def Stats.zero : Stats := ⟨0, 0, 0, 0, 0, 0, 0, 0, 0⟩

structure PendingControl where
  sentAt : Tick
  attempts : U32
  deriving DecidableEq, Repr

structure UnackedSegment where
  data : List U8
  sentAt : Tick
  retransmitCount : U32
  sacked : Bool
  deriving DecidableEq, Repr

structure Connection where
  config : Config
  state : State
  now : Tick
  rto : RtoEstimator
  stats : Stats
  handshake : Option PendingControl
  -- send side
  sendQueue : List U8
  nextSeq : U32
  sendBase : U32
  unacked : OrdMap U32 UnackedSegment
  closeRequested : Bool
  finPending : Option PendingControl
  finAcked : Bool
  peerWindow : U32
  cwnd : U32
  ssthresh : U32
  dupAckCount : U32
  -- receive side
  expectedSeq : U32
  recvBuffer : OrdMap U32 (List U8)
  delivered : List U8
  peerFinSeen : Bool

/-- `segment_size as u32`. -/
def Config.segment32 (cfg : Config) : U32 := BitVec.ofNat 32 cfg.segmentSize

/-- `data.len() as u32`. -/
def len32 (data : List U8) : U32 := BitVec.ofNat 32 data.length

def encodeFrame (sequence : U32) (flags : U16) (payload : List U8) : Datagram :=
  Frame.encode { frameType := 0, sequence, flags, payload }

namespace Connection

def blank (b : Build) (config : Config) (now : Tick) (state : State) : Exec Connection := do
  let doubled ← b.mul 2#32 config.segment32
  .ok {
    config, state, now
    rto := RtoEstimator.new config.minRto config.maxRto
    stats := Stats.zero
    handshake := none
    sendQueue := []
    nextSeq := 0
    sendBase := 0
    unacked := OrdMap.empty
    closeRequested := false
    finPending := none
    finAcked := false
    peerWindow := config.segment32
    cwnd := max doubled 1#32
    ssthresh := BitVec.allOnes 32
    dupAckCount := 0
    expectedSeq := 0
    recvBuffer := OrdMap.empty
    delivered := []
    peerFinSeen := false }

/-- `self.now = self.now.max(now)`. -/
def advance (c : Connection) (now : Tick) : Connection := { c with now := max c.now now }

/-- Time since `sentAt`, zero if that lies ahead. -/
def since (c : Connection) (sentAt : Tick) : U64 := satSub c.now sentAt

def isFailed (c : Connection) : Bool :=
  match c.state with
  | .failed _ => true
  | _ => false

def isClosed (c : Connection) : Bool :=
  match c.state with
  | .closed => true
  | _ => false

/-- Whether the peer's FIN has been seen. -/
def peerClosed (c : Connection) : Bool := c.peerFinSeen

/-- `Established | Closing`: the states that carry data. -/
def isOpen (c : Connection) : Bool :=
  match c.state with
  | .established | .closing => true
  | _ => false

/-! ## Windows -/

def inFlightBytes (b : Build) (c : Connection) : Exec U32 :=
  b.sum (c.unacked.values.map fun s => len32 s.data)

def effectiveWindow (c : Connection) : U32 := min c.peerWindow c.cwnd

def advertisedWindow (b : Build) (c : Connection) : Exec U32 := do
  let buffered ← b.sum (c.recvBuffer.values.map len32)
  let held ← b.add buffered (len32 c.delivered)
  .ok (satSub c.config.recvWindowCapacity held)

/-! ## Frame builders -/

/-- The inner loop of `current_sack_ranges`: extend the run that ends at `stop`. -/
def extendRun (b : Build) (stop : U32) :
    List (U32 × List U8) → Exec (U32 × List (U32 × List U8))
  | [] => .ok (stop, [])
  | (nextStart, nextData) :: rest => do
    let following ← b.add stop 1#32
    if nextStart = following then do
      let past ← b.add nextStart (len32 nextData)
      let stop' ← b.sub past 1#32
      extendRun b stop' rest
    else .ok (stop, (nextStart, nextData) :: rest)

/-- The outer loop: at most `n` more ranges. -/
def sackRuns (b : Build) : Nat → List (U32 × List U8) → Exec (List SackRange)
  | 0, _ => .ok []
  | _, [] => .ok []
  | n + 1, (start, data) :: rest => do
    let past ← b.add start (len32 data)
    let stop ← b.sub past 1#32
    let (stop', rest') ← extendRun b stop rest
    let ranges ← sackRuns b n rest'
    .ok (⟨start, stop'⟩ :: ranges)

def currentSackRanges (b : Build) (c : Connection) : Exec (List SackRange) :=
  sackRuns b MAX_SACK_RANGES c.recvBuffer.entries

/-- The header every segment carries. -/
def header (b : Build) (c : Connection) (finAck : Bool) : Exec SegmentHeader := do
  let window ← c.advertisedWindow b
  let sack ← c.currentSackRanges b
  .ok { ack := c.expectedSeq, finAck, window, sack }

def headerBytes (b : Build) (c : Connection) : Exec (List U8) := do
  let h ← c.header b false
  .ok h.encode

def buildSyn (b : Build) (c : Connection) : Exec Datagram := do
  let h ← c.headerBytes b
  .ok (encodeFrame 0 FLAG_SYN h)

def buildSynack (b : Build) (c : Connection) : Exec Datagram := do
  let h ← c.headerBytes b
  .ok (encodeFrame 0 (FLAG_SYN ||| FLAG_ACK) h)

def buildHandshakeAck (b : Build) (c : Connection) : Exec Datagram := do
  let h ← c.headerBytes b
  .ok (encodeFrame 0 FLAG_ACK h)

def buildFin (b : Build) (c : Connection) : Exec Datagram := do
  let h ← c.headerBytes b
  .ok (encodeFrame c.sendBase (FLAG_FIN ||| FLAG_ACK) h)

def buildPureAck (b : Build) (c : Connection) (finAck : Bool) : Exec Datagram := do
  let h ← c.header b finAck
  .ok (encodeFrame c.sendBase FLAG_ACK h.encode)

def buildDataFrame (seq : U32) (data headerBytes : List U8) : Datagram :=
  encodeFrame seq FLAG_ACK (headerBytes ++ data)

/-! ## Construction -/

def connect (b : Build) (config : Config) (now : Tick) : Exec (Connection × Datagram) := do
  let c ← blank b config now .synSent
  let c := { c with handshake := some ⟨now, 1⟩ }
  let syn ← c.buildSyn b
  .ok (c, syn)

def listen (b : Build) (config : Config) (now : Tick) : Exec Connection :=
  blank b config now .listening

/-! ## Sending -/

/-- How many bytes `try_send_more` may admit now; at least one when nothing is in flight. -/
def admissionCap (b : Build) (c : Connection) : Exec U32 := do
  let inFlight ← c.inFlightBytes b
  let available := satSub c.effectiveWindow inFlight
  .ok (if inFlight = 0 then max available 1#32 else available)

/-- Cut `chunkLen` bytes off the queue into a new segment. -/
def cutSegment (b : Build) (c : Connection) (chunkLen : Nat) : Exec (Connection × Datagram) := do
  let data := c.sendQueue.take chunkLen
  let seq := c.nextSeq
  let nextSeq ← b.add c.nextSeq (BitVec.ofNat 32 chunkLen)
  let c := { c with sendQueue := c.sendQueue.drop chunkLen, nextSeq }
  let h ← c.headerBytes b
  let c := { c with
    unacked := c.unacked.insert seq ⟨data, c.now, 0, false⟩
    stats := { c.stats with dataSegmentsSent := c.stats.dataSegmentsSent + 1 } }
  .ok (c, buildDataFrame seq data h)

/-- The loop of `try_send_more`. -/
def trySendLoop (b : Build) : Nat → Connection → Exec (Connection × List Datagram)
  | 0, _ => .error .hang
  | fuel + 1, c =>
    if c.sendQueue.isEmpty then .ok (c, []) else do
    let cap ← c.admissionCap b
    if cap = 0 then .ok (c, []) else do
    let chunkLen := min (min c.config.segmentSize c.sendQueue.length) cap.toNat
    let (c, d) ← c.cutSegment b chunkLen
    let (c, out) ← trySendLoop b fuel c
    .ok (c, d :: out)

def trySendMore (b : Build) (c : Connection) : Exec (Connection × List Datagram) :=
  if c.isOpen then trySendLoop b (c.sendQueue.length + 1) c else .ok (c, [])

def maybeSendFin (b : Build) (c : Connection) : Exec (Connection × Option Datagram) :=
  if c.closeRequested ∧ c.finPending = none ∧ c.finAcked = false ∧ c.state = .established ∧
      c.sendQueue.isEmpty ∧ c.unacked.isEmpty then do
    let c := { c with state := .closing, finPending := some ⟨c.now, 1⟩ }
    let fin ← c.buildFin b
    .ok (c, some fin)
  else .ok (c, none)

def checkFullyClosed (c : Connection) : Connection :=
  if c.state = .closing ∧ c.finAcked ∧ c.peerFinSeen then { c with state := .closed } else c

def drainAndMaybeFin (b : Build) (c : Connection) : Exec (Connection × List Datagram) := do
  let (c, out) ← c.trySendMore b
  let (c, fin) ← c.maybeSendFin b
  .ok (c.checkFullyClosed, out ++ fin.toList)

def send (b : Build) (c : Connection) (now : Tick) (data : List U8) :
    Exec (Connection × List Datagram) :=
  let c := c.advance now
  { c with
    sendQueue := c.sendQueue ++ data
    stats := { c.stats with bytesSentApp := c.stats.bytesSentApp + data.length } }.drainAndMaybeFin b

def close (b : Build) (c : Connection) (now : Tick) : Exec (Connection × List Datagram) :=
  { c.advance now with closeRequested := true }.drainAndMaybeFin b

def recv (c : Connection) : Connection × List U8 := ({ c with delivered := [] }, c.delivered)

/-! ## Receiving -/

/-- Remove the newly acked segments, sampling the RTT of those sent once (Karn's rule). -/
def ackSegments (b : Build) (now : Tick) :
    List U32 → OrdMap U32 UnackedSegment → RtoEstimator →
    Exec (OrdMap U32 UnackedSegment × RtoEstimator)
  | [], unacked, rto => .ok (unacked, rto)
  | seq :: rest, unacked, rto =>
    match unacked.get? seq with
    | none => ackSegments b now rest unacked rto
    | some seg => do
      let rto ← (if seg.retransmitCount = 0 then rto.onSample b (satSub now seg.sentAt) else .ok rto)
      ackSegments b now rest (unacked.erase seq) rto

/-- The AIMD increase after `ackedBytes` newly acked bytes. -/
def grownCwnd (b : Build) (c : Connection) (ackedBytes : U32) : Exec U32 :=
  if c.cwnd < c.ssthresh then .ok (satAdd c.cwnd ackedBytes) else do
  let seg : U64 := BitVec.ofNat 64 c.config.segmentSize
  let square ← b.mul seg seg
  let increment := max (square / (max c.cwnd 1#32).setWidth 64) 1#64
  .ok (satAdd c.cwnd (increment.setWidth 32))

/-- The new-ack branch of `apply_ack`. -/
def ackAdvance (b : Build) (c : Connection) (header : SegmentHeader) : Exec Connection := do
  let ackedBytes ← b.sub header.ack c.sendBase
  let (unacked, rto) ← ackSegments b c.now (c.unacked.below header.ack) c.unacked c.rto
  let c := { c with unacked, rto, sendBase := header.ack, dupAckCount := 0 }
  let cwnd ← c.grownCwnd b ackedBytes
  .ok { c with cwnd }

/-- Halve the congestion window: `(cwnd / 2).max(2 * segment_size)`. -/
def halvedWindow (b : Build) (c : Connection) : Exec U32 := do
  let floor ← b.mul 2#32 c.config.segment32
  .ok (max (c.cwnd / 2#32) floor)

/-- Fast retransmit of the oldest unacked segment. -/
def fastRetransmit (b : Build) (c : Connection) : Exec (Connection × Option Datagram) := do
  let ssthresh ← c.halvedWindow b
  let c := { c with
    dupAckCount := 0, ssthresh, cwnd := ssthresh
    stats := { c.stats with
      fastRetransmits := c.stats.fastRetransmits + 1
      congestionEvents := c.stats.congestionEvents + 1 } }
  let unacked ← c.unacked.mapFirst fun seg => do
    let n ← b.add seg.retransmitCount 1#32
    .ok { seg with retransmitCount := n, sentAt := c.now }
  let c := { c with unacked }
  match unacked.entries with
  | [] => .ok (c, none)
  | (seq, seg) :: _ => do
    let c := { c with stats := { c.stats with
      dataSegmentsRetransmitted := c.stats.dataSegmentsRetransmitted + 1 } }
    let h ← c.headerBytes b
    .ok (c, some (buildDataFrame seq seg.data h))

/-- The end of `apply_ack`: selective acks and `fin_ack`. -/
def ackMarks (c : Connection) (header : SegmentHeader) : Exec Connection := do
  let unacked ← header.sack.foldlM
    (fun m r => m.mapRange r.start r.stop fun seg => { seg with sacked := true }) c.unacked
  let c := { c with unacked }
  .ok (if header.finAck then { c with finAcked := true, finPending := none }.checkFullyClosed else c)

def applyAck (b : Build) (c : Connection) (header : SegmentHeader) :
    Exec (Connection × Option Datagram) :=
  if c.sendBase < header.ack then do
    let c ← c.ackAdvance b header
    let c ← c.ackMarks header
    .ok (c, none)
  else if header.ack = c.sendBase ∧ c.unacked.isEmpty = false then do
    let dups ← b.add c.dupAckCount 1#32
    let c := { c with dupAckCount := dups }
    if dups = c.config.fastRetransmitDupAcks then do
      let (c, resent) ← c.fastRetransmit b
      match resent with
      -- the source returns here, before the selective acks and `fin_ack` are looked at
      | some d => .ok (c, some d)
      | none => do
        let c ← c.ackMarks header
        .ok (c, none)
    else do
      let c ← c.ackMarks header
      .ok (c, none)
  else do
    let c ← c.ackMarks header
    .ok (c, none)

/-- Move buffered segments that have become contiguous into the in-order stream. -/
def drainLoop (b : Build) : Nat → Connection → Exec Connection
  | 0, _ => .error .hang
  | fuel + 1, c =>
    match c.recvBuffer.firstFrom c.expectedSeq with
    | none => .ok c
    | some (k, _) =>
      if k ≠ c.expectedSeq then .ok c else
      match c.recvBuffer.get? k with
      | none => .error .unwrapNone
      | some v => do
        let expectedSeq ← b.add c.expectedSeq (len32 v)
        drainLoop b fuel { c with
          recvBuffer := c.recvBuffer.erase k
          expectedSeq
          stats := { c.stats with bytesDeliveredApp := c.stats.bytesDeliveredApp + v.length }
          delivered := c.delivered ++ v }

def deliverData (b : Build) (c : Connection) (seq : U32) (data : List U8) : Exec Connection :=
  if data.isEmpty then .ok c else do
  let stop ← b.add seq (len32 data)
  if stop ≤ c.expectedSeq then
    .ok { c with stats := { c.stats with
      duplicateBytesReceived := c.stats.duplicateBytesReceived + data.length } }
  else if seq ≤ c.expectedSeq then do
    let skip ← b.sub c.expectedSeq seq
    let fresh ← slice data skip.toNat data.length
    drainLoop b (c.recvBuffer.entries.length + 1) { c with
      stats := { c.stats with
        duplicateBytesReceived := c.stats.duplicateBytesReceived + skip.toNat
        bytesDeliveredApp := c.stats.bytesDeliveredApp + (data.length - skip.toNat) }
      delivered := c.delivered ++ fresh
      expectedSeq := stop }
  else .ok { c with recvBuffer := c.recvBuffer.insert seq data }

/-- Finish the handshake: sample its RTT if it was sent once, enter `Established`. -/
def completeHandshake (b : Build) (c : Connection) : Exec Connection := do
  let rto ← (match c.handshake with
    | some h => if h.attempts = 1 then c.rto.onSample b (c.since h.sentAt) else .ok c.rto
    | none => .ok c.rto)
  .ok { c with rto, handshake := none, state := .established }

/-- The `match self.state` of `on_datagram`.  The flag is `true` where the source returns
    from the arm, `false` where it falls through to the shared block. -/
def handshakeArm (b : Build) (c : Connection) (isSyn isAck : Bool) :
    Exec (Bool × Connection × List Datagram) :=
  match c.state with
  | .listening =>
    if isSyn && !isAck then do
      let c := { c with state := .synReceived, handshake := some ⟨c.now, 1⟩ }
      let d ← c.buildSynack b
      .ok (true, c, [d])
    else .ok (false, c, [])
  | .synReceived =>
    if isSyn && !isAck then do
      let d ← c.buildSynack b
      .ok (true, c, [d])
    else if isAck && !isSyn then do
      let c ← c.completeHandshake b
      .ok (false, c, [])
    else .ok (false, c, [])
  | .synSent =>
    if isSyn && isAck then do
      let c ← c.completeHandshake b
      let d ← c.buildHandshakeAck b
      .ok (false, c, [d])
    else .ok (false, c, [])
  | .established | .closing =>
    if isSyn && isAck then do
      let d ← c.buildHandshakeAck b
      .ok (false, c, [d])
    else .ok (false, c, [])
  | _ => .ok (false, c, [])

/-- The shared `Established | Closing` block of `on_datagram`. -/
def openBlock (b : Build) (c : Connection) (sequence : U32) (header : SegmentHeader)
    (app : List U8) (isAck isFin : Bool) : Exec (Connection × List Datagram) := do
  let (c, resent) ← (if isAck then c.applyAck b header else .ok (c, none))
  let c ← (if app.isEmpty then .ok c else c.deliverData b sequence app)
  let c := if isFin then { c with peerFinSeen := true } else c
  if app.isEmpty && !isFin then do
    let (c, out) ← c.drainAndMaybeFin b
    .ok (c, resent.toList ++ out)
  else do
    let c := { c with stats := { c.stats with ackSegmentsSent := c.stats.ackSegmentsSent + 1 } }
    let ack ← c.buildPureAck b isFin
    let (c, out) ← c.drainAndMaybeFin b
    .ok (c, resent.toList ++ ack :: out)

/-- `on_datagram` after the datagram and its header have been decoded. -/
def onSegment (b : Build) (c : Connection) (sequence : U32) (flags : U16)
    (header : SegmentHeader) (app : List U8) : Exec (Connection × List Datagram) := do
  let c := { c with peerWindow := header.window }
  let isSyn := flags &&& FLAG_SYN != 0#16
  let isAck := flags &&& FLAG_ACK != 0#16
  let isFin := flags &&& FLAG_FIN != 0#16
  if c.state = .closed ∧ isFin then do
    let ack ← c.buildPureAck b true
    .ok (c, [ack])
  else do
    let (returns, c, out) ← c.handshakeArm b isSyn isAck
    if returns then .ok (c, out)
    else if c.isOpen then do
      let (c, out') ← c.openBlock b sequence header app isAck isFin
      .ok (c, out ++ out')
    else .ok (c, out)

def onDatagram (b : Build) (c : Connection) (now : Tick) (datagram : Datagram) :
    Exec (Connection × List Datagram) := do
  let c := c.advance now
  match ← Frame.decode datagram with
  | .error _ => .ok (c, [])
  | .ok f =>
    match ← SegmentHeader.decode f.payload with
    | none => .ok (c, [])
    | some (header, app) => c.onSegment b f.sequence f.flags header app

/-! ## Timers -/

def tickHandshake (b : Build) (c : Connection) : Exec (Connection × List Datagram) :=
  match c.handshake with
  | none => .ok (c, [])
  | some h => do
    let rto ← c.rto.current b
    if c.since h.sentAt < rto then .ok (c, []) else do
    let attempts ← b.add h.attempts 1#32
    if c.config.maxRetries < attempts then
      .ok ({ c with state := .failed .tooManyRetries, handshake := none }, [])
    else do
      let est ← c.rto.onTimeout b
      let c := { c with
        rto := est, handshake := some ⟨c.now, attempts⟩
        stats := { c.stats with controlRetransmissions := c.stats.controlRetransmissions + 1 } }
      let d ← (match c.state with
        | .synSent => c.buildSyn b
        | .synReceived => c.buildSynack b
        | _ => .error .unreachable)
      .ok (c, [d])

/-- One segment in the timeout sweep: a SACKed one is left alone. -/
def resend (b : Build) (now : Tick) (seg : UnackedSegment) : Exec UnackedSegment :=
  if seg.sacked then .ok seg else do
  let n ← b.add seg.retransmitCount 1#32
  .ok { seg with retransmitCount := n, sentAt := now }

/-- The data timer, keyed to the oldest unacked segment. -/
def tickData (b : Build) (c : Connection) : Exec (Connection × List Datagram) :=
  match c.unacked.entries with
  | [] => .ok (c, [])
  | (_, oldest) :: _ => do
    let rto ← c.rto.current b
    if c.since oldest.sentAt < rto then .ok (c, []) else do
    let est ← c.rto.onTimeout b
    let ssthresh ← c.halvedWindow b
    let c := { c with
      rto := est, ssthresh, cwnd := c.config.segment32, dupAckCount := 0
      stats := { c.stats with congestionEvents := c.stats.congestionEvents + 1 } }
    let h ← c.headerBytes b
    let unacked ← c.unacked.mapM fun _ seg => resend b c.now seg
    let resent := unacked.entries.filter fun e => !e.2.sacked
    let out := resent.map fun e => buildDataFrame e.1 e.2.data h
    let c := { c with
      unacked
      stats := { c.stats with
        dataSegmentsRetransmitted := c.stats.dataSegmentsRetransmitted + resent.length } }
    if resent.any fun e => c.config.maxRetries < e.2.retransmitCount then
      .ok ({ c with state := .failed .tooManyRetries, unacked := OrdMap.empty }, out)
    else .ok (c, out)

def tickFin (b : Build) (c : Connection) : Exec (Connection × List Datagram) :=
  match c.finPending with
  | none => .ok (c, [])
  | some f => do
    let rto ← c.rto.current b
    if c.since f.sentAt < rto then .ok (c, []) else do
    let attempts ← b.add f.attempts 1#32
    if c.config.maxRetries < attempts then
      .ok ({ c with state := .failed .tooManyRetries, finPending := none }, [])
    else do
      let est ← c.rto.onTimeout b
      let c := { c with
        rto := est, finPending := some ⟨c.now, attempts⟩
        stats := { c.stats with controlRetransmissions := c.stats.controlRetransmissions + 1 } }
      let d ← c.buildFin b
      .ok (c, [d])

/-- The `Established | Closing` arm of `on_tick`. -/
def tickOpen (b : Build) (c : Connection) : Exec (Connection × List Datagram) := do
  let (c, out₁) ← c.tickData b
  if c.isFailed then .ok (c, out₁) else do
  let (c, out₂) ← c.tickFin b
  if c.isFailed then .ok (c, out₁ ++ out₂) else do
  let (c, out₃) ← c.drainAndMaybeFin b
  .ok (c, out₁ ++ out₂ ++ out₃)

def onTick (b : Build) (c : Connection) (now : Tick) : Exec (Connection × List Datagram) :=
  let c := c.advance now
  match c.state with
  | .synSent | .synReceived => c.tickHandshake b
  | .established | .closing => c.tickOpen b
  | _ => .ok (c, [])

end Connection

end Distrans
