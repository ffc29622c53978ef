import Distrans.Lib.SelectiveRepeat
import Distrans.Lib.Tiling
import Distrans.Transport.System

/-!
# One direction of a connection as selective repeat

`Flow cs s X Y` says that the stream from `X` to `Y` runs the abstract protocol `SelRep`: the
stream has been cut into the pieces `cs`, the protocol state is `s`, and

* `SendRep` — the sender's queue, sequence numbers and retransmission buffer represent `cs` and
  `s.base`;
* `RecvRep` — the receiver's in-order stream and reorder buffer represent `s.next` and `s.held`;
* `DataOk`, `HeaderOk`, `Advertised` — every data segment in the network is a piece of `cs`,
  every header a reported acknowledgement with a window the receiver has room for;
* `FinRep`, `FinFact` — no end-of-stream mark exists anywhere before the stream it ends has
  been received.

Two endpoints are `Linked` when both directions are flows.  The lemmas of this module say what
a move of one endpoint does to a flow; `Report` adds what it says when it emits a segment, and
`FlowStep` applies both to the code.
-/

set_option autoImplicit false

namespace Distrans

open Machine OrdMap Tiling

/-! ## What a datagram carries -/

/-- The frame, the header and the application bytes of a datagram that decodes. -/
structure Carries (d : Datagram) (f : Frame) (h : SegmentHeader) (app : List U8) : Prop where
  frame : Frame.decode d = .ok (.ok f)
  header : SegmentHeader.decode f.payload = .ok (some (h, app))

theorem carries_encodeFrame {seq : U32} {flags : U16} {h h' : SegmentHeader} {data app : List U8}
    {f : Frame} (hc : Carries (encodeFrame seq flags (h.encode ++ data)) f h' app) :
    f.sequence = seq ∧ f.flags = flags ∧ h' = { h with sack := h.sack.take MAX_SACK_RANGES } ∧
      app = data := by
  by_cases hlen : (h.encode ++ data).length < 2 ^ 32
  · have hf := hc.frame
    rw [encodeFrame, Frame.decode_encode hlen] at hf
    cases hf
    have hh := hc.header
    rw [SegmentHeader.decode_encode_append] at hh
    cases hh
    exact ⟨rfl, rfl, rfl, rfl⟩
  · obtain ⟨e, he⟩ := Frame.decode_encode_long (f := ⟨0, seq, flags, h.encode ++ data⟩)
      (Nat.not_lt.mp hlen)
    have hf := hc.frame
    rw [encodeFrame, he] at hf
    cases hf

/-- A frame with no application bytes. -/
theorem carries_encodeFrame_nil {seq : U32} {flags : U16} {h h' : SegmentHeader} {app : List U8}
    {f : Frame} (hc : Carries (encodeFrame seq flags h.encode) f h' app) :
    f.sequence = seq ∧ f.flags = flags ∧ h' = { h with sack := h.sack.take MAX_SACK_RANGES } ∧
      app = [] := by
  rw [show h.encode = h.encode ++ [] by simp] at hc
  exact carries_encodeFrame hc

/-- The segment a call delivers, if any. -/
def Call.segment? : Call → Option (Frame × SegmentHeader × List U8)
  | .onDatagram _ d =>
    match Frame.decode d with
    | .ok (.ok f) =>
      match SegmentHeader.decode f.payload with
      | .ok (some (h, app)) => some (f, h, app)
      | _ => none
    | _ => none
  | _ => none

theorem Carries.segment?_eq {d : Datagram} {f : Frame} {h : SegmentHeader} {app : List U8}
    (hc : Carries d f h app) (now : Tick) : (Call.onDatagram now d).segment? = some (f, h, app) := by
  simp only [Call.segment?, hc.frame, hc.header]

/-! ## Representation -/

/-- The retransmission buffer as positioned data. -/
def Connection.segments (c : Connection) : List (Nat × List U8) :=
  c.unacked.entries.map fun e => (e.1.toNat, e.2.data)

variable {cs : List (List U8)} {s s' : SelRep} {X Y : Endpoint} {c' : Connection}

/-- The piece at `k` has been reported by some acknowledgement. -/
def Reported (cs : List (List U8)) (s : SelRep) (k : U32) : Prop :=
  ∃ m, m < cs.length ∧ k.toNat = pos cs m ∧ ∃ a ∈ s.acks, m ∈ a.2

/-- `e` is a piece that the receiver holds out of order. -/
def HeldTile (cs : List (List U8)) (held : Set Nat) (e : U32 × List U8) : Prop :=
  ∃ m ∈ held, cs[m]? = some e.2 ∧ e.1.toNat = pos cs m

structure SendRep (cs : List (List U8)) (s : SelRep) (X : Endpoint) : Prop where
  nonempty : ∀ c ∈ cs, c ≠ []
  cut : s.cut = cs.length
  stream : X.sent = cs.flatten ++ X.conn.sendQueue
  nextSeq : X.conn.nextSeq.toNat = cs.flatten.length
  sendBase : X.conn.sendBase.toNat = pos cs s.base
  tiles : X.conn.segments = layout cs s.base ∨ (X.conn.isFailed ∧ X.conn.unacked.entries = [])
  sacked : ∀ k seg, (k, seg) ∈ X.conn.unacked.entries → seg.sacked → Reported cs s k
  fits : X.sent.length < 2 ^ 32
  segment_pos : 1 ≤ X.conn.config.segmentSize

structure RecvRep (cs : List (List U8)) (s : SelRep) (Y : Endpoint) : Prop where
  expectedSeq : Y.conn.expectedSeq.toNat = pos cs s.next
  stream : Y.received ++ Y.conn.delivered = (cs.take s.next).flatten
  buffer : ∀ e, e ∈ Y.conn.recvBuffer.entries ↔ HeldTile cs s.held e

/-- A segment's data is a piece of the stream, under its own position. -/
def DataOk (cs : List (List U8)) (seq : U32) (data : List U8) : Prop :=
  data = [] ∨ ∃ m, cs[m]? = some data ∧ seq.toNat = pos cs m

/-- A range that covers a run of pieces, all in `S`. -/
def SackOk (cs : List (List U8)) (S : Set Nat) (r : SackRange) : Prop :=
  ∃ i k, i < k ∧ k ≤ cs.length ∧ r.start.toNat = pos cs i ∧ r.stop.toNat + 1 = pos cs k ∧
    ∀ m, i ≤ m → m < k → m ∈ S

/-- A header that reports one of the protocol's acknowledgements. -/
def HeaderOk (cs : List (List U8)) (s : SelRep) (h : SegmentHeader) : Prop :=
  ∃ a ∈ s.acks, h.ack.toNat = pos cs a.1 ∧ ∀ r ∈ h.sack, SackOk cs a.2 r

/-- A window that promises no more than `Y`'s capacity beyond what its application has read. -/
def Advertised (Y : Endpoint) (h : SegmentHeader) : Prop :=
  h.window = 0 ∨
    h.ack.toNat + h.window.toNat ≤ Y.received.length + Y.conn.config.recvWindowCapacity.toNat

/-- `X` has called `close`, and `Y` has in order all that `X` sent before that. -/
def FinFact (X Y : Endpoint) : Prop :=
  ∃ n, X.closedAt = some n ∧ n ≤ Y.conn.expectedSeq.toNat

structure FinRep (X Y : Endpoint) : Prop where
  closedAt_le : ∀ n, X.closedAt = some n → n ≤ X.sent.length
  requested : X.conn.closeRequested → X.closedAt.isSome
  pending : X.conn.finPending.isSome → FinFact X Y
  acked : X.conn.finAcked → FinFact X Y
  seen : Y.conn.peerFinSeen → FinFact X Y
  closed_acked : X.conn.state = .closed → X.conn.finAcked
  closed_seen : Y.conn.state = .closed → Y.conn.peerFinSeen

/-- The stream from `X` to `Y`, cut into `cs`, in protocol state `s`. -/
structure Flow (cs : List (List U8)) (s : SelRep) (X Y : Endpoint) : Prop where
  inv : s.Inv
  send : SendRep cs s X
  recv : RecvRep cs s Y
  fin : FinRep X Y
  data : ∀ d ∈ X.emitted, ∀ f h app, Carries d f h app →
    DataOk cs f.sequence app ∧ (f.flags &&& FLAG_FIN ≠ 0#16 → FinFact X Y)
  acks : ∀ d ∈ Y.emitted, ∀ f h app, Carries d f h app →
    HeaderOk cs s h ∧ (h.finAck → FinFact X Y)
  windows : ∀ d ∈ Y.emitted, ∀ f h app, Carries d f h app → Advertised Y h

/-- Both directions are flows. -/
def Linked (X Y : Endpoint) : Prop :=
  ∃ cs s cs' s', Flow cs s X Y ∧ Flow cs' s' Y X

theorem Linked.symm (h : Linked X Y) : Linked Y X := by
  obtain ⟨cs, s, cs', s', h₁, h₂⟩ := h
  exact ⟨cs', s', cs, s, h₂, h₁⟩

/-! ## Reading a flow -/

theorem SendRep.length_le (h : SendRep cs s X) : cs.flatten.length ≤ X.sent.length := by
  rw [h.stream, List.length_append]; omega

theorem SendRep.pos_fits (h : SendRep cs s X) (i : Nat) : pos cs i < 2 ^ 32 := by
  have := h.length_le
  have := h.fits
  have := pos_le_total cs i
  omega

theorem Flow.next_le (h : Flow cs s X Y) : s.next ≤ cs.length := by
  rw [← h.send.cut]; exact h.inv.next_le

theorem Flow.base_le (h : Flow cs s X Y) : s.base ≤ cs.length :=
  Nat.le_trans h.inv.base_le h.next_le

theorem Flow.sendBase_le (h : Flow cs s X Y) :
    X.conn.sendBase.toNat ≤ Y.conn.expectedSeq.toNat := by
  rw [h.send.sendBase, h.recv.expectedSeq]
  exact pos_mono cs h.inv.base_le

theorem Flow.expectedSeq_le (h : Flow cs s X Y) :
    Y.conn.expectedSeq.toNat ≤ X.conn.nextSeq.toNat := by
  rw [h.send.nextSeq, h.recv.expectedSeq]
  exact pos_le_total cs _

/-- A live sender's buffer is exactly the layout from `base`. -/
theorem SendRep.live (h : SendRep cs s X) (hf : X.conn.isFailed = false) :
    X.conn.segments = layout cs s.base := by
  rcases h.tiles with h | ⟨h, _⟩
  · exact h
  · rw [hf] at h; cases h

/-- Every buffered segment is a piece at or above `base`. -/
theorem SendRep.mem_tile (h : SendRep cs s X) {k : U32} {seg : UnackedSegment}
    (hm : (k, seg) ∈ X.conn.unacked.entries) :
    ∃ m, s.base ≤ m ∧ cs[m]? = some seg.data ∧ k.toNat = pos cs m := by
  rcases h.tiles with ht | ⟨_, he⟩
  · refine (mem_layout rfl).mp (?_ : (k.toNat, seg.data) ∈ layout cs s.base)
    rw [← ht]
    exact List.mem_map.mpr ⟨_, hm, rfl⟩
  · rw [he] at hm; cases hm

/-! ## What only grows -/

theorem DataOk.concat {seq : U32} {data : List U8} (h : DataOk cs seq data) (c : List U8) :
    DataOk (cs ++ [c]) seq data := by
  rcases h with h | ⟨m, hm, hp⟩
  · exact Or.inl h
  · exact Or.inr ⟨m, getElem?_concat c hm, by
      rw [hp, pos_append [c] (Nat.le_of_lt (lt_of_getElem? hm))]⟩

theorem SackOk.concat {S : Set Nat} {r : SackRange} (h : SackOk cs S r) (c : List U8) :
    SackOk (cs ++ [c]) S r := by
  obtain ⟨i, k, hik, hk, h1, h2, h3⟩ := h
  refine ⟨i, k, hik, by simp; omega, ?_, ?_, h3⟩
  · rw [h1, pos_append [c] (by omega)]
  · rw [h2, pos_append [c] hk]

theorem HeaderOk.concat (hi : s.Inv) (hcut : s.cut = cs.length) {h : SegmentHeader}
    (hh : HeaderOk cs s h) (c : List U8) : HeaderOk (cs ++ [c]) { s with cut := s.cut + 1 } h := by
  obtain ⟨a, ha, h1, h2⟩ := hh
  have hle : a.1 ≤ cs.length := by
    rw [← hcut]; exact Nat.le_trans (hi.acks_le a ha) hi.next_le
  exact ⟨a, ha, by rw [h1, pos_append [c] hle], fun r hr => (h2 r hr).concat c⟩

theorem HeaderOk.mono {h : SegmentHeader} (hh : HeaderOk cs s h) (hle : s.acks ⊆ s'.acks) :
    HeaderOk cs s' h := by
  obtain ⟨a, ha, h1, h2⟩ := hh
  exact ⟨a, hle ha, h1, h2⟩

theorem Reported.mono {k : U32} (h : Reported cs s k) (hle : s.acks ⊆ s'.acks) :
    Reported cs s' k := by
  obtain ⟨m, hm, hk, a, ha, hma⟩ := h
  exact ⟨m, hm, hk, a, hle ha, hma⟩

theorem Reported.concat {k : U32} (h : Reported cs s k) (c : List U8) :
    Reported (cs ++ [c]) { s with cut := s.cut + 1 } k := by
  obtain ⟨m, hm, hk, hrest⟩ := h
  exact ⟨m, by simp; omega, by rw [hk, pos_append [c] (Nat.le_of_lt hm)], hrest⟩

theorem FinFact.mono {X' Y' : Endpoint} (h : FinFact X Y) (hx : X'.closedAt = X.closedAt)
    (hy : Y.conn.expectedSeq.toNat ≤ Y'.conn.expectedSeq.toNat) : FinFact X' Y' := by
  obtain ⟨n, hn, hle⟩ := h
  exact ⟨n, by rw [hx, hn], Nat.le_trans hle hy⟩

theorem Advertised.mono {Y' : Endpoint} {h : SegmentHeader} (ha : Advertised Y h)
    (hr : Y.received.length ≤ Y'.received.length) (hc : Y'.conn.config = Y.conn.config) :
    Advertised Y' h := by
  rcases ha with h0 | hle
  · exact Or.inl h0
  · refine Or.inr ?_
    rw [hc]
    omega

/-! ## Moves of one endpoint

A move changes the connection and emits nothing. -/

def Endpoint.move (e : Endpoint) (c : Connection) : Endpoint := { e with conn := c }

def Endpoint.emit (e : Endpoint) (out : List Datagram) : Endpoint :=
  { e with emitted := e.emitted ++ out }

theorem Endpoint.put_eq (e : Endpoint) (c : Connection) (out : List Datagram) :
    e.put c out = (e.move c).emit out := rfl

@[simp] theorem Endpoint.put_nil (e : Endpoint) (c : Connection) : e.put c [] = e.move c := by
  simp [put, move]

/-- The sender's part of a connection keeps its representation: segments may be marked, and a
    connection that fails may drop them. -/
structure SendKeeps (cs : List (List U8)) (s : SelRep) (c c' : Connection) : Prop where
  config : c'.config = c.config
  sendQueue : c'.sendQueue = c.sendQueue
  nextSeq : c'.nextSeq = c.nextSeq
  sendBase : c'.sendBase = c.sendBase
  unacked : EntriesRel (fun k v v' => v'.data = v.data ∧ (v'.sacked → v.sacked ∨ Reported cs s k))
      c.unacked.entries c'.unacked.entries ∨ (c'.isFailed ∧ c'.unacked.entries = [])
  failed : c.isFailed → c'.isFailed

theorem SendRep.keep (h : SendRep cs s X) (hk : SendKeeps cs s X.conn c') :
    SendRep cs s (X.move c') where
  nonempty := h.nonempty
  cut := h.cut
  stream := by show X.sent = _ ++ c'.sendQueue; rw [hk.sendQueue]; exact h.stream
  nextSeq := by rw [← h.nextSeq, ← hk.nextSeq]; rfl
  sendBase := by rw [← h.sendBase, ← hk.sendBase]; rfl
  tiles := by
    rcases hk.unacked with hu | hu
    · have hseg : (X.move c').conn.segments = X.conn.segments :=
        hu.map_eq _ _ fun k v v' hv => by simp [hv.1]
      rcases h.tiles with ht | ⟨hf, he⟩
      · exact Or.inl (hseg.trans ht)
      · have hlen : c'.unacked.entries.map (·.1) = [] := by rw [hu.keys, he]; rfl
        exact Or.inr ⟨hk.failed hf, List.map_eq_nil_iff.mp hlen⟩
    · exact Or.inr hu
  sacked := fun k seg hm hs => by
    rcases hk.unacked with hu | ⟨_, he⟩
    · obtain ⟨v, hv, _, hor⟩ := hu.mem hm
      rcases hor hs with hv' | hr
      · exact h.sacked k v hv hv'
      · exact hr
    · have hm' : (k, seg) ∈ c'.unacked.entries := hm
      rw [he] at hm'; cases hm'
  fits := h.fits
  segment_pos := by show 1 ≤ c'.config.segmentSize; rw [hk.config]; exact h.segment_pos

/-- The receiver's part of a connection is unchanged. -/
structure RecvKeeps (c c' : Connection) : Prop where
  config : c'.config = c.config
  expectedSeq : c'.expectedSeq = c.expectedSeq
  recvBuffer : c'.recvBuffer = c.recvBuffer
  delivered : c'.delivered = c.delivered

theorem RecvRep.keep (h : RecvRep cs s Y) (hk : RecvKeeps Y.conn c') : RecvRep cs s (Y.move c') where
  expectedSeq := by rw [← h.expectedSeq, ← hk.expectedSeq]; rfl
  stream := by rw [← h.stream, ← hk.delivered]; rfl
  buffer := fun e => by rw [← h.buffer, ← hk.recvBuffer]; rfl

/-- The sender of a flow moves. -/
theorem Flow.moveSender (h : Flow cs s X Y) (hk : SendKeeps cs s X.conn c')
    (hreq : c'.closeRequested → X.closedAt.isSome) (hpend : c'.finPending.isSome → FinFact X Y)
    (hacked : c'.finAcked → FinFact X Y) (hclosed : c'.state = .closed → c'.finAcked) :
    Flow cs s (X.move c') Y where
  inv := h.inv
  send := h.send.keep hk
  recv := h.recv
  fin := { h.fin with
    requested := hreq, pending := hpend, acked := hacked, closed_acked := hclosed }
  data := h.data
  acks := h.acks
  windows := h.windows

/-- The receiver of a flow moves. -/
theorem Flow.moveReceiver (h : Flow cs s X Y) (hk : RecvKeeps Y.conn c')
    (hseen : c'.peerFinSeen → FinFact X Y) (hclosed : c'.state = .closed → c'.peerFinSeen) :
    Flow cs s X (Y.move c') := by
  have hmono : FinFact X Y → FinFact X (Y.move c') := fun hf =>
    hf.mono rfl (by rw [← hk.expectedSeq]; exact Nat.le_refl _)
  exact {
    inv := h.inv
    send := h.send
    recv := h.recv.keep hk
    fin := { h.fin with
      pending := fun hp => hmono (h.fin.pending hp)
      acked := fun ha => hmono (h.fin.acked ha)
      seen := fun hs => hmono (hseen hs)
      closed_seen := hclosed }
    data := fun d hd f hh app hc =>
      ⟨(h.data d hd f hh app hc).1, fun hfin => hmono ((h.data d hd f hh app hc).2 hfin)⟩
    acks := fun d hd f hh app hc =>
      ⟨(h.acks d hd f hh app hc).1, fun hfin => hmono ((h.acks d hd f hh app hc).2 hfin)⟩
    windows := fun d hd f hh app hc =>
      (h.windows d hd f hh app hc).mono (Nat.le_refl _) hk.config }

/-- The connection moves in no way that either flow can notice. -/
structure Quiet (c c' : Connection) : Prop where
  config : c'.config = c.config
  sendQueue : c'.sendQueue = c.sendQueue
  nextSeq : c'.nextSeq = c.nextSeq
  sendBase : c'.sendBase = c.sendBase
  unacked : EntriesRel (fun _ v v' => v'.data = v.data ∧ v'.sacked = v.sacked)
      c.unacked.entries c'.unacked.entries ∨ (c'.isFailed ∧ c'.unacked.entries = [])
  failed : c.isFailed → c'.isFailed
  expectedSeq : c'.expectedSeq = c.expectedSeq
  recvBuffer : c'.recvBuffer = c.recvBuffer
  delivered : c'.delivered = c.delivered
  closeRequested : c'.closeRequested = c.closeRequested
  finPending : c'.finPending.isSome → c.finPending.isSome
  finAcked : c'.finAcked = c.finAcked
  peerFinSeen : c'.peerFinSeen = c.peerFinSeen
  closed : c'.state = .closed → c.state = .closed

/-- Timers, estimator, windows and counters are nothing to the flows. -/
theorem Quiet.timers (c : Connection) (now : Tick) (rto : RtoEstimator) (stats : Stats)
    (handshake : Option PendingControl) (peerWindow cwnd ssthresh dupAckCount : U32) :
    Quiet c { c with now, rto, stats, handshake, peerWindow, cwnd, ssthresh, dupAckCount } :=
  ⟨rfl, rfl, rfl, rfl, Or.inl (.refl (fun _ _ => ⟨rfl, rfl⟩) _), id, rfl, rfl, rfl, rfl, id, rfl,
    rfl, id⟩

theorem Linked.quiet (h : Linked X Y) (hq : Quiet X.conn c') : Linked (X.move c') Y := by
  obtain ⟨cs, s, cs', s', h₁, h₂⟩ := h
  refine ⟨cs, s, cs', s', h₁.moveSender ⟨hq.config, hq.sendQueue, hq.nextSeq, hq.sendBase, ?_,
    hq.failed⟩ ?_ ?_ ?_ ?_, h₂.moveReceiver
    ⟨hq.config, hq.expectedSeq, hq.recvBuffer, hq.delivered⟩ ?_ ?_⟩
  · exact hq.unacked.imp (EntriesRel.imp fun _ _ _ hv =>
      ⟨hv.1, fun hs => Or.inl (by rw [← hv.2]; exact hs)⟩) id
  · rw [hq.closeRequested]; exact h₁.fin.requested
  · exact fun hp => h₁.fin.pending (hq.finPending hp)
  · rw [hq.finAcked]; exact h₁.fin.acked
  · rw [hq.finAcked]; exact fun hc => h₁.fin.closed_acked (hq.closed hc)
  · rw [hq.peerFinSeen]; exact h₂.fin.seen
  · rw [hq.peerFinSeen]; exact fun hc => h₂.fin.closed_seen (hq.closed hc)

end Distrans
