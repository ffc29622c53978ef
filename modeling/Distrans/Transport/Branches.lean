import Distrans.Transport.Connection

/-!
# The branches of the connection

What a call of a function has done when it returns, one constructor for each way through its body:
the guards it has passed, what it has computed, the new connection and the datagrams.  Every proof
about a function is a case analysis over its branches.
-/

set_option autoImplicit false

namespace Distrans

open Machine OrdMap

variable {b : Build} {c c' : Connection} {out : List Datagram}

theorem isOpen_cases (h : c.isOpen) : c.state = .established ∨ c.state = .closing := by
  unfold Connection.isOpen at h
  split at h
  · rename_i hst; exact Or.inl hst
  · rename_i hst; exact Or.inr hst
  · cases h

/-! ## Sending -/

/-- What cutting a segment does; the header does not depend on the send side. -/
theorem cutSegment_spec {n : Nat} {d : Datagram} (h : c.cutSegment b n = .ok (c', d)) :
    ∃ nextSeq bytes, b.add c.nextSeq (BitVec.ofNat 32 n) = .ok nextSeq ∧ c.headerBytes b = .ok bytes ∧
      d = Connection.buildDataFrame c.nextSeq (c.sendQueue.take n) bytes ∧
      c' = { c with
        sendQueue := c.sendQueue.drop n, nextSeq
        unacked := c.unacked.insert c.nextSeq ⟨c.sendQueue.take n, c.now, 0, false⟩
        stats := { c.stats with dataSegmentsSent := c.stats.dataSegmentsSent + 1 } } := by
  obtain ⟨nextSeq, hseq, h⟩ := bind_eq_ok.mp h
  obtain ⟨bytes, hbytes, h⟩ := bind_eq_ok.mp h
  cases h
  exact ⟨nextSeq, bytes, hseq, hbytes, rfl, rfl⟩

/-- One round of the sending loop: stop, or cut a chunk the cap admits and go on. -/
theorem trySendLoop_cases {fuel : Nat} (hseg : 1 ≤ c.config.segmentSize)
    (h : c.trySendLoop b (fuel + 1) = .ok (c', out)) : (c' = c ∧ out = [] ∧
      (c.sendQueue = [] ∨ c.admissionCap b = .ok 0)) ∨
    ∃ n cap c₁ d out₁, c.admissionCap b = .ok cap ∧ 0 < n ∧ n ≤ c.sendQueue.length ∧
      n ≤ cap.toNat ∧ n ≤ c.config.segmentSize ∧ c.cutSegment b n = .ok (c₁, d) ∧
      c₁.trySendLoop b fuel = .ok (c', out₁) ∧ out = d :: out₁ := by
  simp only [Connection.trySendLoop] at h
  split at h
  · rename_i hq
    cases h
    exact Or.inl ⟨rfl, rfl, Or.inl (by simpa using hq)⟩
  · rename_i hq
    obtain ⟨cap, hcap, h⟩ := bind_eq_ok.mp h
    split at h
    · rename_i h0
      cases h
      exact Or.inl ⟨rfl, rfl, Or.inr (by rw [hcap, h0])⟩
    · rename_i hcap0
      obtain ⟨⟨c₁, d⟩, hcut, h⟩ := bind_eq_ok.mp h
      obtain ⟨⟨c₂, out₂⟩, hrec, h⟩ := bind_eq_ok.mp h
      cases h
      have hqlen : 0 < c.sendQueue.length := by
        rw [List.length_pos_iff]; simpa using hq
      have hcap' : 0 < cap.toNat := by
        rcases Nat.eq_zero_or_pos cap.toNat with h0 | h0
        · exact absurd (BitVec.eq_of_toNat_eq h0) hcap0
        · exact h0
      exact Or.inr ⟨_, cap, c₁, d, out₂, hcap, by omega, by omega, by omega, by omega, hcut, hrec, rfl⟩

theorem trySendLoop_keeps {P : Connection → Prop}
    (hcut : ∀ {c c' : Connection} {n : Nat} {d : Datagram}, P c → n ≤ c.sendQueue.length → n < 2 ^ 32 →
      c.cutSegment b n = .ok (c', d) → P c') :
    ∀ {fuel : Nat} {c c' : Connection} {out : List Datagram}, c.trySendLoop b fuel = .ok (c', out) →
      P c → P c'
  | 0, _, _, _, h, _ => by cases h
  | fuel + 1, c, c', out, h, hc => by
    simp only [Connection.trySendLoop] at h
    split at h
    · cases h; exact hc
    · obtain ⟨cap, _, h⟩ := bind_eq_ok.mp h
      split at h
      · cases h; exact hc
      · obtain ⟨⟨c₁, d⟩, h₁, h⟩ := bind_eq_ok.mp h
        obtain ⟨⟨c₂, out₂⟩, hrec, h⟩ := bind_eq_ok.mp h
        cases h
        have hcap := cap.isLt
        exact trySendLoop_keeps hcut hrec (hcut hc (by omega) (by omega) h₁)

/-- What every cut keeps, sending keeps. -/
theorem trySendMore_keeps {P : Connection → Prop}
    (hcut : ∀ {c c' : Connection} {n : Nat} {d : Datagram}, P c → n ≤ c.sendQueue.length → n < 2 ^ 32 →
      c.cutSegment b n = .ok (c', d) → P c')
    (h : c.trySendMore b = .ok (c', out)) (hc : P c) : P c' := by
  unfold Connection.trySendMore at h
  split at h
  · exact trySendLoop_keeps hcut h hc
  · cases h; exact hc

/-- `maybe_send_fin`: nothing, or the FIN and `Closing`. -/
inductive SendFin (b : Build) (c : Connection) : Connection → Option Datagram → Prop
  | skip : ¬ (c.closeRequested ∧ c.finPending = none ∧ c.finAcked = false ∧ c.state = .established ∧
      c.sendQueue.isEmpty ∧ c.unacked.isEmpty) → SendFin b c c none
  | sent {d : Datagram} : c.closeRequested → c.finPending = none → c.finAcked = false →
      c.state = .established → c.sendQueue.isEmpty → c.unacked.isEmpty → c.buildFin b = .ok d →
      SendFin b c { c with state := .closing, finPending := some ⟨c.now, 1⟩ } (some d)

theorem maybeSendFin_branch {fin : Option Datagram} (h : c.maybeSendFin b = .ok (c', fin)) :
    SendFin b c c' fin := by
  unfold Connection.maybeSendFin at h
  split at h
  · rename_i hcond
    obtain ⟨hreq, hnone, hack, hst, hq, hu⟩ := hcond
    obtain ⟨d, hd, h⟩ := bind_eq_ok.mp h
    cases h
    exact .sent hreq hnone hack hst hq hu hd
  · rename_i hcond
    cases h
    exact .skip hcond

/-! ## Acknowledgements -/

/-- `ackSegments` removes the given keys. -/
theorem ackSegments_spec {now : Tick} : ∀ {ks : List U32} {u u' : OrdMap U32 UnackedSegment}
    {r r' : RtoEstimator}, Connection.ackSegments b now ks u r = .ok (u', r') → u' = u.eraseAll ks
  | [], _, _, _, _, h => by cases h; rfl
  | k :: ks, u, u', r, r', h => by
    simp only [Connection.ackSegments] at h
    show u' = (u.erase k).eraseAll ks
    split at h
    · rename_i hk
      rw [ackSegments_spec h, erase_of_get?_none hk]
    · obtain ⟨r₁, _, h⟩ := bind_eq_ok.mp h
      exact ackSegments_spec h

/-- What an acknowledgement of something new does. -/
theorem ackAdvance_spec {h : SegmentHeader} (hr : c.ackAdvance b h = .ok c') :
    ∃ n r w, b.sub h.ack c.sendBase = .ok n ∧
      Connection.ackSegments b c.now (c.unacked.below h.ack) c.unacked c.rto =
        .ok (c.unacked.eraseAll (c.unacked.below h.ack), r) ∧
      c.grownCwnd b n = .ok w ∧ c' = { c with
        unacked := c.unacked.eraseAll (c.unacked.below h.ack), rto := r, sendBase := h.ack
        dupAckCount := 0, cwnd := w } := by
  obtain ⟨n, hn, hr⟩ := bind_eq_ok.mp hr
  obtain ⟨⟨u, r⟩, hu, hr⟩ := bind_eq_ok.mp hr
  obtain ⟨w, hw, hr⟩ := bind_eq_ok.mp hr
  cases hr
  obtain rfl := ackSegments_spec hu
  exact ⟨n, r, w, hn, hu, hw, rfl⟩

/-- The selective acks of a header are marked, and its `fin_ack` settles the FIN. -/
inductive AckMarks (h : SegmentHeader) (c : Connection) : Connection → Prop
  | marked {u : OrdMap U32 UnackedSegment} : h.finAck = false →
      h.sack.foldlM (fun m r => m.mapRange r.start r.stop fun seg => { seg with sacked := true })
        c.unacked = .ok u → AckMarks h c { c with unacked := u }
  | finAcked {u : OrdMap U32 UnackedSegment} : h.finAck →
      h.sack.foldlM (fun m r => m.mapRange r.start r.stop fun seg => { seg with sacked := true })
        c.unacked = .ok u →
      AckMarks h c
        (Connection.checkFullyClosed { c with unacked := u, finAcked := true, finPending := none })

theorem ackMarks_branch {h : SegmentHeader} (hr : c.ackMarks h = .ok c') : AckMarks h c c' := by
  obtain ⟨u, hu, hr⟩ := bind_eq_ok.mp hr
  dsimp only at hr
  split at hr
  · rename_i hfa
    cases hr
    exact .finAcked hfa hu
  · rename_i hfa
    cases hr
    exact .marked (Bool.eq_false_of_not_eq_true hfa) hu

/-- A segment that is sent again at `now`, or left alone. -/
def SentAgain (b : Build) (now : Tick) (seg seg' : UnackedSegment) : Prop :=
  seg' = seg ∨ ∃ n, b.add seg.retransmitCount 1#32 = .ok n ∧
    seg' = { seg with retransmitCount := n, sentAt := now }

theorem SentAgain.data {now : Tick} {seg seg' : UnackedSegment} (h : SentAgain b now seg seg') :
    seg'.data = seg.data ∧ seg'.sacked = seg.sacked := by
  rcases h with rfl | ⟨n, _, rfl⟩ <;> exact ⟨rfl, rfl⟩

theorem SentAgain.sentAt {now : Tick} {seg seg' : UnackedSegment} (h : SentAgain b now seg seg') :
    seg'.sentAt = seg.sentAt ∨ seg'.sentAt = now := by
  rcases h with rfl | ⟨n, _, rfl⟩
  · exact Or.inl rfl
  · exact Or.inr rfl

/-- A fast retransmit does so with the oldest segment, -/
theorem fast_again {now : Tick} {m u : OrdMap U32 UnackedSegment} (hu : m.mapFirst (fun seg => do
      let n ← b.add seg.retransmitCount 1#32
      .ok { seg with retransmitCount := n, sentAt := now }) = .ok u) :
    EntriesRel (fun _ => SentAgain b now) m.entries u.entries :=
  (mapFirst_rel hu).imp fun k seg seg' hv => hv.imp id fun hv => by
    obtain ⟨n, hn, hv⟩ := bind_eq_ok.mp hv
    cases hv
    exact ⟨n, hn, rfl⟩

/-- and a sweep with those that are not marked. -/
theorem resend_again {now : Tick} {seg seg' : UnackedSegment}
    (h : Connection.resend b now seg = .ok seg') : SentAgain b now seg seg' := by
  unfold Connection.resend at h
  split at h
  · cases h
    exact Or.inl rfl
  · obtain ⟨n, hn, h⟩ := bind_eq_ok.mp h
    cases h
    exact Or.inr ⟨n, hn, rfl⟩

theorem sweep_again {now : Tick} {m u : OrdMap U32 UnackedSegment}
    (hu : m.mapM (fun _ seg => Connection.resend b now seg) = .ok u) :
    EntriesRel (fun _ => SentAgain b now) m.entries u.entries :=
  (mapM_rel hu).imp fun _ _ _ hv => resend_again hv

/-- `fast_retransmit` halves the window whether or not there is a segment to send again. -/
inductive FastRetransmit (b : Build) (c : Connection) : Connection → Option Datagram → Prop
  | nothing {w : U32} {u : OrdMap U32 UnackedSegment} : c.halvedWindow b = .ok w →
      c.unacked.mapFirst (fun seg => do
        let n ← b.add seg.retransmitCount 1#32
        .ok { seg with retransmitCount := n, sentAt := c.now }) = .ok u → u.entries = [] →
      FastRetransmit b c { c with
        dupAckCount := 0, ssthresh := w, cwnd := w, unacked := u
        stats := { c.stats with
          fastRetransmits := c.stats.fastRetransmits + 1
          congestionEvents := c.stats.congestionEvents + 1 } } none
  | oldest {w k : U32} {seg : UnackedSegment} {rest : List (U32 × UnackedSegment)}
      {u : OrdMap U32 UnackedSegment} {bytes : List U8} : c.halvedWindow b = .ok w →
      c.unacked.mapFirst (fun seg => do
        let n ← b.add seg.retransmitCount 1#32
        .ok { seg with retransmitCount := n, sentAt := c.now }) = .ok u → u.entries = (k, seg) :: rest →
      c.headerBytes b = .ok bytes →
      FastRetransmit b c { c with
        dupAckCount := 0, ssthresh := w, cwnd := w, unacked := u
        stats := { c.stats with
          fastRetransmits := c.stats.fastRetransmits + 1
          congestionEvents := c.stats.congestionEvents + 1
          dataSegmentsRetransmitted := c.stats.dataSegmentsRetransmitted + 1 } }
        (some (Connection.buildDataFrame k seg.data bytes))

theorem fastRetransmit_branch {resent : Option Datagram} (hr : c.fastRetransmit b = .ok (c', resent)) :
    FastRetransmit b c c' resent := by
  obtain ⟨w, hw, hr⟩ := bind_eq_ok.mp hr
  obtain ⟨u, hu, hr⟩ := bind_eq_ok.mp hr
  dsimp only at hr
  split at hr
  · rename_i hnil
    cases hr
    exact .nothing hw hu hnil
  · rename_i k seg rest hes
    obtain ⟨bytes, hb, hr⟩ := bind_eq_ok.mp hr
    cases hr
    exact .oldest hw hu hes hb

/-- With something in flight there is a segment to send again. -/
theorem fastRetransmit_some (hne : c.unacked.isEmpty = false) {resent : Option Datagram}
    (hr : c.fastRetransmit b = .ok (c', resent)) : (∃ d, resent = some d) ∧
      ∀ e ∈ c.unacked.entries.head?, ∃ n, b.add e.2.retransmitCount 1#32 = .ok n := by
  cases fastRetransmit_branch hr with
  | nothing _ hu hnil =>
    obtain ⟨e, he⟩ := exists_head hne
    obtain ⟨v, _, hhead⟩ := mapFirst_head hu he
    rw [hnil] at hhead
    cases hhead
  | oldest _ hu =>
    refine ⟨⟨_, rfl⟩, fun e he => ?_⟩
    obtain ⟨v, hv, _⟩ := mapFirst_head hu he
    obtain ⟨n, hn, _⟩ := bind_eq_ok.mp hv
    exact ⟨n, hn⟩

/-- `apply_ack`: only the duplicate that triggers a fast retransmit returns before the marks. -/
inductive ApplyAck (b : Build) (h : SegmentHeader) (c : Connection) :
    Connection → Option Datagram → Prop
  | advance {c₁ c' : Connection} : c.sendBase < h.ack → c.ackAdvance b h = .ok c₁ →
      c₁.ackMarks h = .ok c' → ApplyAck b h c c' none
  | duplicate {n : U32} {c' : Connection} : h.ack = c.sendBase → c.unacked.isEmpty = false →
      b.add c.dupAckCount 1#32 = .ok n → n ≠ c.config.fastRetransmitDupAcks →
      Connection.ackMarks { c with dupAckCount := n } h = .ok c' → ApplyAck b h c c' none
  | resend {n : U32} {c' : Connection} {d : Datagram} : h.ack = c.sendBase → c.unacked.isEmpty = false →
      b.add c.dupAckCount 1#32 = .ok n → n = c.config.fastRetransmitDupAcks →
      Connection.fastRetransmit b { c with dupAckCount := n } = .ok (c', some d) →
      ApplyAck b h c c' (some d)
  | stale {c' : Connection} : ¬ c.sendBase < h.ack →
      ¬ (h.ack = c.sendBase ∧ c.unacked.isEmpty = false) → c.ackMarks h = .ok c' →
      ApplyAck b h c c' none

theorem applyAck_branch {h : SegmentHeader} {resent : Option Datagram}
    (hr : c.applyAck b h = .ok (c', resent)) : ApplyAck b h c c' resent := by
  unfold Connection.applyAck at hr
  split at hr
  · rename_i hadv
    obtain ⟨c₁, h₁, hr⟩ := bind_eq_ok.mp hr
    obtain ⟨c₂, h₂, hr⟩ := bind_eq_ok.mp hr
    cases hr
    exact .advance hadv h₁ h₂
  · rename_i hadv
    split at hr
    · rename_i hdup
      obtain ⟨n, hn, hr⟩ := bind_eq_ok.mp hr
      dsimp only at hr
      split at hr
      · rename_i hk
        obtain ⟨⟨c₁, r₁⟩, hfast, hr⟩ := bind_eq_ok.mp hr
        obtain ⟨⟨d, rfl⟩, _⟩ := fastRetransmit_some (c := { c with dupAckCount := n }) hdup.2 hfast
        cases hr
        exact .resend hdup.1 hdup.2 hn hk hfast
      · rename_i hk
        obtain ⟨c₁, h₁, hr⟩ := bind_eq_ok.mp hr
        cases hr
        exact .duplicate hdup.1 hdup.2 hn hk h₁
    · rename_i hdup
      obtain ⟨c₁, h₁, hr⟩ := bind_eq_ok.mp hr
      cases hr
      exact .stale hadv hdup h₁

/-! ## Delivery -/

/-- One round of the draining loop: stop, or move the expected entry over and go on. -/
theorem drainLoop_cases {fuel : Nat} (h : c.drainLoop b (fuel + 1) = .ok c') : c' = c ∨
    ∃ v expectedSeq, (c.expectedSeq, v) ∈ c.recvBuffer.entries ∧
      b.add c.expectedSeq (len32 v) = .ok expectedSeq ∧
      Connection.drainLoop b fuel { c with
        recvBuffer := c.recvBuffer.erase c.expectedSeq
        expectedSeq
        stats := { c.stats with bytesDeliveredApp := c.stats.bytesDeliveredApp + v.length }
        delivered := c.delivered ++ v } = .ok c' := by
  simp only [Connection.drainLoop] at h
  split at h
  · cases h; exact Or.inl rfl
  · rename_i k v hfirst
    obtain ⟨hmem, _, _⟩ := firstFrom_some hfirst
    split at h
    · cases h; exact Or.inl rfl
    · rename_i hk
      have hk' : k = c.expectedSeq := by simpa using hk
      subst hk'
      rw [get?_of_mem hmem] at h
      obtain ⟨expectedSeq, hseq, h⟩ := bind_eq_ok.mp h
      exact Or.inr ⟨v, expectedSeq, hmem, hseq, h⟩

/-- `deliver_data`, by where the payload lies: nowhere, below `expected_seq`, across it, above it. -/
inductive DeliverData (b : Build) (c : Connection) (seq : U32) (data : List U8) : Connection → Prop
  | empty : data = [] → DeliverData b c seq data c
  | old {stop : U32} : data ≠ [] → b.add seq (len32 data) = .ok stop → stop ≤ c.expectedSeq →
      DeliverData b c seq data { c with stats := { c.stats with
        duplicateBytesReceived := c.stats.duplicateBytesReceived + data.length } }
  | next {stop skip : U32} {fresh : List U8} {c' : Connection} : data ≠ [] →
      b.add seq (len32 data) = .ok stop → c.expectedSeq < stop → seq ≤ c.expectedSeq →
      b.sub c.expectedSeq seq = .ok skip → slice data skip.toNat data.length = .ok fresh →
      Connection.drainLoop b (c.recvBuffer.entries.length + 1) { c with
        stats := { c.stats with
          duplicateBytesReceived := c.stats.duplicateBytesReceived + skip.toNat
          bytesDeliveredApp := c.stats.bytesDeliveredApp + (data.length - skip.toNat) }
        delivered := c.delivered ++ fresh
        expectedSeq := stop } = .ok c' → DeliverData b c seq data c'
  | early {stop : U32} : data ≠ [] → b.add seq (len32 data) = .ok stop → c.expectedSeq < stop →
      c.expectedSeq < seq →
      DeliverData b c seq data { c with recvBuffer := c.recvBuffer.insert seq data }

theorem deliverData_branch {seq : U32} {data : List U8} (h : c.deliverData b seq data = .ok c') :
    DeliverData b c seq data c' := by
  unfold Connection.deliverData at h
  split at h
  · rename_i hnil
    cases h
    exact .empty (by simpa using hnil)
  · rename_i hdata
    have hne : data ≠ [] := by simpa using hdata
    obtain ⟨stop, hstop, h⟩ := bind_eq_ok.mp h
    split at h
    · rename_i hold
      cases h
      exact .old hne hstop hold
    · rename_i hnew
      split at h
      · rename_i hcov
        obtain ⟨skip, hskip, h⟩ := bind_eq_ok.mp h
        obtain ⟨fresh, hfresh, h⟩ := bind_eq_ok.mp h
        exact .next hne hstop (not_le.mp hnew) hcov hskip hfresh h
      · rename_i hgap
        cases h
        exact .early hne hstop (not_le.mp hnew) (not_le.mp hgap)

/-- Delivering an empty payload does nothing. -/
theorem deliverData_guard {seq : U32} {app : List U8} :
    (if app.isEmpty then .ok c else c.deliverData b seq app) = c.deliverData b seq app := by
  split
  · rename_i hnil
    unfold Connection.deliverData
    rw [if_pos hnil]
  · rfl

/-! ## Segments -/

/-- The segment reaches the shared `Established | Closing` block. -/
def Connection.admits (c : Connection) (isSyn isAck : Bool) : Bool :=
  match c.state with
  | .synReceived => isAck && !isSyn
  | .synSent => isSyn && isAck
  | .established | .closing => true
  | _ => false

theorem admits_of_isOpen (ho : c.isOpen) (isSyn isAck : Bool) : c.admits isSyn isAck = true := by
  rcases isOpen_cases ho with hst | hst <;> rw [Connection.admits, hst]

/-- The connection after the payload: a FIN is noted, an answer counted. -/
def Connection.noted (c : Connection) (isFin answered : Bool) : Connection :=
  { c with
    peerFinSeen := c.peerFinSeen || isFin
    stats := { c.stats with ackSegmentsSent := c.stats.ackSegmentsSent + answered.toNat } }

theorem noted_fin (answered : Bool) : c.noted true answered = { c with
    peerFinSeen := true
    stats := { c.stats with ackSegmentsSent := c.stats.ackSegmentsSent + answered.toNat } } := by
  simp [Connection.noted]

theorem noted_plain (answered : Bool) : c.noted false answered = { c with
    stats := { c.stats with ackSegmentsSent := c.stats.ackSegmentsSent + answered.toNat } } := by
  simp [Connection.noted]

/-- The handshake's part of `on_segment`; the flag is the early return of a greeted listener. -/
inductive HandshakeArm (b : Build) (c : Connection) (isSyn isAck : Bool) :
    Bool → Connection → List Datagram → Prop
  | greet {d : Datagram} : c.state = .listening → (isSyn && !isAck) = true →
      c.buildSynack b = .ok d →
      HandshakeArm b c isSyn isAck true
        { c with state := .synReceived, handshake := some ⟨c.now, 1⟩ } [d]
  | regreet {d : Datagram} : c.state = .synReceived → (isSyn && !isAck) = true →
      c.buildSynack b = .ok d → HandshakeArm b c isSyn isAck true c [d]
  | accept {c' : Connection} : c.state = .synReceived → (isAck && !isSyn) = true →
      c.completeHandshake b = .ok c' → HandshakeArm b c isSyn isAck false c' []
  | connect {c' : Connection} {d : Datagram} : c.state = .synSent → (isSyn && isAck) = true →
      c.completeHandshake b = .ok c' → c'.buildHandshakeAck b = .ok d →
      HandshakeArm b c isSyn isAck false c' [d]
  | confirm {d : Datagram} : c.isOpen → (isSyn && isAck) = true → c.buildHandshakeAck b = .ok d →
      HandshakeArm b c isSyn isAck false c [d]
  | pass : (c.isOpen → (isSyn && isAck) = false) → (c.isOpen = false → c.admits isSyn isAck = false) →
      (c.state = .listening ∨ c.state = .synReceived → (isSyn && !isAck) = false) →
      HandshakeArm b c isSyn isAck false c []

theorem handshakeArm_branch {isSyn isAck returns : Bool}
    (h : c.handshakeArm b isSyn isAck = .ok (returns, c', out)) :
    HandshakeArm b c isSyn isAck returns c' out := by
  unfold Connection.handshakeArm at h
  split at h
  · rename_i hst
    split at h
    · rename_i hsyn
      obtain ⟨d, hd, h⟩ := bind_eq_ok.mp h
      cases h
      exact .greet hst hsyn hd
    · rename_i hsyn
      cases h
      refine .pass (fun ho => ?_) (fun _ => ?_) (fun _ => by simpa using hsyn)
      · simp [Connection.isOpen, hst] at ho
      · simp [Connection.admits, hst]
  · rename_i hst
    split at h
    · rename_i hsyn
      obtain ⟨d, hd, h⟩ := bind_eq_ok.mp h
      cases h
      exact .regreet hst hsyn hd
    · rename_i hsyn
      split at h
      · rename_i hack
        obtain ⟨c₁, h₁, h⟩ := bind_eq_ok.mp h
        cases h
        exact .accept hst hack h₁
      · rename_i hack
        cases h
        refine .pass (fun ho => ?_) (fun _ => ?_) (fun _ => by simpa using hsyn)
        · simp [Connection.isOpen, hst] at ho
        · simpa [Connection.admits, hst] using hack
  · rename_i hst
    split at h
    · rename_i hack
      obtain ⟨c₁, h₁, h⟩ := bind_eq_ok.mp h
      obtain ⟨d, hd, h⟩ := bind_eq_ok.mp h
      cases h
      exact .connect hst hack h₁ hd
    · rename_i hack
      cases h
      refine .pass (fun ho => ?_) (fun _ => ?_) (fun hor => ?_)
      · simp [Connection.isOpen, hst] at ho
      · simpa [Connection.admits, hst] using hack
      · simp [hst] at hor
  iterate 2
    · rename_i hst
      split at h
      · rename_i hack
        obtain ⟨d, hd, h⟩ := bind_eq_ok.mp h
        cases h
        exact .confirm (by simp [Connection.isOpen, hst]) hack hd
      · rename_i hack
        cases h
        refine .pass (fun _ => by simpa using hack) (fun ho => ?_) (fun hor => ?_)
        · simp [Connection.isOpen, hst] at ho
        · simp [hst] at hor
  · rename_i hl hr hs he hc
    cases h
    refine .pass (fun ho => ?_) (fun _ => ?_) (fun hor => ?_)
    · rcases isOpen_cases ho with hst | hst
      · exact absurd hst he
      · exact absurd hst hc
    · unfold Connection.admits
      split <;> simp_all
    · rcases hor with hst | hst
      · exact absurd hst hl
      · exact absurd hst hr

theorem completeHandshake_spec (h : c.completeHandshake b = .ok c') :
    ∃ r, c' = { c with rto := r, handshake := none, state := .established } := by
  obtain ⟨r, _, h⟩ := bind_eq_ok.mp h
  cases h
  exact ⟨r, rfl⟩

theorem completeHandshake_isOpen (h : c.completeHandshake b = .ok c') : c'.isOpen := by
  obtain ⟨r, rfl⟩ := completeHandshake_spec h
  rfl

/-- What the handshake lets through into the shared block is what the connection admits. -/
theorem handshakeArm_admits_eq {isSyn isAck returns : Bool}
    (h : c.handshakeArm b isSyn isAck = .ok (returns, c', out)) :
    c.admits isSyn isAck = (!returns && c'.isOpen) := by
  cases handshakeArm_branch h with
  | greet hst => rw [Connection.admits, hst]; rfl
  | regreet hst hsyn =>
    rw [Connection.admits, hst]
    cases isSyn <;> cases isAck <;> simp at hsyn ⊢
  | accept hst hack h₁ => rw [Connection.admits, hst, completeHandshake_isOpen h₁]; exact hack
  | connect hst hack h₁ => rw [Connection.admits, hst, completeHandshake_isOpen h₁]; exact hack
  | confirm ho => rw [admits_of_isOpen ho, ho]; rfl
  | pass _ hadm =>
    cases ho : c.isOpen with
    | true => exact admits_of_isOpen ho _ _
    | false => exact hadm ho

/-- The shared block: acknowledgement, payload, answer, drain. -/
theorem openBlock_parts {seq : U32} {h : SegmentHeader} {app : List U8} {isAck isFin : Bool}
    (hr : c.openBlock b seq h app isAck isFin = .ok (c', out)) :
    ∃ c₁ resent c₂ acks out₄,
      (if isAck then c.applyAck b h else .ok (c, none)) = .ok (c₁, resent) ∧
      c₁.deliverData b seq app = .ok c₂ ∧
      (if app.isEmpty && !isFin then acks = [] else
        ∃ ack, (c₂.noted isFin true).buildPureAck b isFin = .ok ack ∧ acks = [ack]) ∧
      (c₂.noted isFin !(app.isEmpty && !isFin)).drainAndMaybeFin b = .ok (c', out₄) ∧
      out = resent.toList ++ acks ++ out₄ := by
  obtain ⟨⟨c₁, resent⟩, h₁, hr⟩ := bind_eq_ok.mp hr
  obtain ⟨c₂, h₂, hr⟩ := bind_eq_ok.mp hr
  rw [deliverData_guard] at h₂
  have hseen : (if isFin then { c₂ with peerFinSeen := true } else c₂) = c₂.noted isFin false := by
    cases isFin <;> simp [Connection.noted]
  dsimp only at hr
  rw [hseen] at hr
  split at hr
  · rename_i hplain
    obtain ⟨⟨c₄, out₄⟩, h₄, hr⟩ := bind_eq_ok.mp hr
    cases hr
    refine ⟨c₁, resent, c₂, [], out₄, h₁, h₂, by rw [if_pos hplain], ?_, by simp⟩
    rw [hplain]
    exact h₄
  · rename_i hplain
    obtain ⟨ack, hack, hr⟩ := bind_eq_ok.mp hr
    obtain ⟨⟨c₄, out₄⟩, h₄, hr⟩ := bind_eq_ok.mp hr
    cases hr
    refine ⟨c₁, resent, c₂, [ack], out₄, h₁, h₂, ?_, ?_, by simp⟩
    · rw [if_neg hplain]
      exact ⟨ack, hack, rfl⟩
    · rw [Bool.eq_false_of_not_eq_true hplain]
      exact h₄

/-- `on_segment`: a FIN to a closed side, a segment that ends with the handshake, or one for the
shared block. -/
inductive OnSegment (b : Build) (c : Connection) (seq : U32) (flags : U16) (h : SegmentHeader)
    (app : List U8) : Connection → List Datagram → Prop
  | closed {ack : Datagram} : c.state = .closed → (flags &&& FLAG_FIN != 0#16) = true →
      c.buildPureAck b true = .ok ack →
      OnSegment b c seq flags h app { c with peerWindow := h.window } [ack]
  | handshake {returns : Bool} {c' : Connection} {out : List Datagram} :
      ¬ (c.state = .closed ∧ (flags &&& FLAG_FIN != 0#16) = true) →
      Connection.handshakeArm b { c with peerWindow := h.window } (flags &&& FLAG_SYN != 0#16)
        (flags &&& FLAG_ACK != 0#16) = .ok (returns, c', out) →
      c.admits (flags &&& FLAG_SYN != 0#16) (flags &&& FLAG_ACK != 0#16) = false →
      OnSegment b c seq flags h app c' out
  | block {c₁ c' : Connection} {out₁ out₂ : List Datagram} :
      ¬ (c.state = .closed ∧ (flags &&& FLAG_FIN != 0#16) = true) →
      Connection.handshakeArm b { c with peerWindow := h.window } (flags &&& FLAG_SYN != 0#16)
        (flags &&& FLAG_ACK != 0#16) = .ok (false, c₁, out₁) → c₁.isOpen →
      c₁.openBlock b seq h app (flags &&& FLAG_ACK != 0#16) (flags &&& FLAG_FIN != 0#16) =
        .ok (c', out₂) → OnSegment b c seq flags h app c' (out₁ ++ out₂)

theorem onSegment_branch {seq : U32} {flags : U16} {h : SegmentHeader} {app : List U8}
    (hr : c.onSegment b seq flags h app = .ok (c', out)) : OnSegment b c seq flags h app c' out := by
  unfold Connection.onSegment at hr
  dsimp only at hr
  split at hr
  · rename_i hcl
    obtain ⟨ack, hack, hr⟩ := bind_eq_ok.mp hr
    cases hr
    exact .closed hcl.1 hcl.2 hack
  · rename_i hcl
    obtain ⟨⟨returns, c₁, out₁⟩, h₁, hr⟩ := bind_eq_ok.mp hr
    have hadm := handshakeArm_admits_eq (c := { c with peerWindow := h.window }) h₁
    dsimp only at hr
    split at hr
    · rename_i hret
      cases hr
      rw [hret] at hadm
      exact .handshake hcl h₁ hadm
    · rename_i hret
      have hret' : returns = false := Bool.eq_false_of_not_eq_true hret
      subst hret'
      split at hr
      · rename_i ho
        obtain ⟨⟨c₂, out₂⟩, h₂, hr⟩ := bind_eq_ok.mp hr
        cases hr
        exact .block hcl h₁ ho h₂
      · rename_i ho
        cases hr
        rw [Bool.eq_false_of_not_eq_true ho] at hadm
        exact .handshake hcl h₁ hadm

/-! ## Timers -/

/-- A timer started at `sentAt` is due. -/
def Connection.Due (b : Build) (c : Connection) (sentAt : Tick) : Prop :=
  ∃ rto, c.rto.current b = .ok rto ∧ rto ≤ c.since sentAt

theorem not_due {rto : U64} {sentAt : Tick} (h : c.rto.current b = .ok rto)
    (hlt : c.since sentAt < rto) : ¬ c.Due b sentAt := by
  rintro ⟨rto', h', hle⟩
  rw [h] at h'
  cases h'
  exact absurd hlt (not_lt.mpr hle)

/-- The handshake timer: not due, out of attempts, or the greeting again. -/
inductive HandshakeTick (b : Build) (c : Connection) : Connection → List Datagram → Prop
  | idle : (∀ p, c.handshake = some p → ¬ c.Due b p.sentAt) → HandshakeTick b c c []
  | fail {p : PendingControl} {n : U32} : c.handshake = some p → c.Due b p.sentAt →
      b.add p.attempts 1#32 = .ok n → c.config.maxRetries < n →
      HandshakeTick b c { c with state := .failed .tooManyRetries, handshake := none } []
  | retry {p : PendingControl} {n : U32} {est : RtoEstimator} {d : Datagram} :
      c.handshake = some p → c.Due b p.sentAt → b.add p.attempts 1#32 = .ok n →
      n ≤ c.config.maxRetries → c.rto.onTimeout b = .ok est →
      c.state = .synSent ∧ c.buildSyn b = .ok d ∨ c.state = .synReceived ∧ c.buildSynack b = .ok d →
      HandshakeTick b c { c with
        rto := est, handshake := some ⟨c.now, n⟩
        stats := { c.stats with controlRetransmissions := c.stats.controlRetransmissions + 1 } } [d]

theorem tickHandshake_branch (h : c.tickHandshake b = .ok (c', out)) : HandshakeTick b c c' out := by
  unfold Connection.tickHandshake at h
  split at h
  · rename_i hp
    cases h
    refine .idle fun p hp' => ?_
    rw [hp] at hp'
    cases hp'
  · rename_i p hp
    obtain ⟨rto, hrto, h⟩ := bind_eq_ok.mp h
    split at h
    · rename_i hlt
      cases h
      refine .idle fun p' hp' => ?_
      rw [hp] at hp'
      cases hp'
      exact not_due hrto hlt
    · rename_i hlt
      have hdue : c.Due b p.sentAt := ⟨rto, hrto, not_lt.mp hlt⟩
      obtain ⟨n, hn, h⟩ := bind_eq_ok.mp h
      split at h
      · rename_i hmax
        cases h
        exact .fail hp hdue hn hmax
      · rename_i hmax
        obtain ⟨est, hest, h⟩ := bind_eq_ok.mp h
        obtain ⟨d, hd, h⟩ := bind_eq_ok.mp h
        cases h
        refine .retry hp hdue hn (not_lt.mp hmax) hest ?_
        dsimp only at hd
        split at hd
        · rename_i hst
          exact Or.inl ⟨hst, hd⟩
        · rename_i hst
          exact Or.inr ⟨hst, hd⟩
        · cases hd

/-- The timer of the oldest segment.  The sweep counts first and fails afterwards, so what it has sent
again is sent in both cases. -/
inductive DataTick (b : Build) (c : Connection) : Connection → List Datagram → Prop
  | idle : (∀ e ∈ c.unacked.entries.head?, ¬ c.Due b e.2.sentAt) → DataTick b c c []
  | fail {k : U32} {seg : UnackedSegment} {rest : List (U32 × UnackedSegment)} {est : RtoEstimator}
      {w : U32} {bytes : List U8} {u : OrdMap U32 UnackedSegment} :
      c.unacked.entries = (k, seg) :: rest → c.Due b seg.sentAt → c.rto.onTimeout b = .ok est →
      c.halvedWindow b = .ok w → c.headerBytes b = .ok bytes →
      c.unacked.mapM (fun _ s => Connection.resend b c.now s) = .ok u →
      DataTick b c { c with
          state := .failed .tooManyRetries, unacked := OrdMap.empty
          rto := est, ssthresh := w, cwnd := c.config.segment32, dupAckCount := 0
          stats := { c.stats with
            congestionEvents := c.stats.congestionEvents + 1
            dataSegmentsRetransmitted := c.stats.dataSegmentsRetransmitted +
              (u.entries.filter fun e => !e.2.sacked).length } }
        ((u.entries.filter fun e => !e.2.sacked).map fun e =>
          Connection.buildDataFrame e.1 e.2.data bytes)
  | sweep {k : U32} {seg : UnackedSegment} {rest : List (U32 × UnackedSegment)} {est : RtoEstimator}
      {w : U32} {bytes : List U8} {u : OrdMap U32 UnackedSegment} :
      c.unacked.entries = (k, seg) :: rest → c.Due b seg.sentAt → c.rto.onTimeout b = .ok est →
      c.halvedWindow b = .ok w → c.headerBytes b = .ok bytes →
      c.unacked.mapM (fun _ s => Connection.resend b c.now s) = .ok u →
      (∀ e ∈ u.entries, e.2.sacked = false → e.2.retransmitCount ≤ c.config.maxRetries) →
      DataTick b c { c with
          unacked := u, rto := est, ssthresh := w, cwnd := c.config.segment32, dupAckCount := 0
          stats := { c.stats with
            congestionEvents := c.stats.congestionEvents + 1
            dataSegmentsRetransmitted := c.stats.dataSegmentsRetransmitted +
              (u.entries.filter fun e => !e.2.sacked).length } }
        ((u.entries.filter fun e => !e.2.sacked).map fun e =>
          Connection.buildDataFrame e.1 e.2.data bytes)

theorem tickData_branch (h : c.tickData b = .ok (c', out)) : DataTick b c c' out := by
  unfold Connection.tickData at h
  split at h
  · rename_i hnil
    cases h
    refine .idle fun e he => ?_
    rw [hnil] at he
    cases he
  · rename_i k seg rest hes
    obtain ⟨rto, hrto, h⟩ := bind_eq_ok.mp h
    split at h
    · rename_i hlt
      cases h
      refine .idle fun e he => ?_
      rw [hes] at he
      cases he
      exact not_due hrto hlt
    · rename_i hlt
      have hdue : c.Due b seg.sentAt := ⟨rto, hrto, not_lt.mp hlt⟩
      obtain ⟨est, hest, h⟩ := bind_eq_ok.mp h
      obtain ⟨w, hw, h⟩ := bind_eq_ok.mp h
      obtain ⟨bytes, hbytes, h⟩ := bind_eq_ok.mp h
      obtain ⟨u, hu, h⟩ := bind_eq_ok.mp h
      dsimp only at h
      split at h
      · cases h
        exact .fail hes hdue hest hw hbytes hu
      · rename_i hany
        cases h
        refine .sweep hes hdue hest hw hbytes hu fun e he hs => ?_
        by_contra hgt
        refine hany (List.any_eq_true.mpr ⟨e, List.mem_filter.mpr ⟨he, by simp [hs]⟩, ?_⟩)
        simpa using hgt

/-- The FIN timer, like that of the handshake. -/
inductive FinTick (b : Build) (c : Connection) : Connection → List Datagram → Prop
  | idle : (∀ p, c.finPending = some p → ¬ c.Due b p.sentAt) → FinTick b c c []
  | fail {p : PendingControl} {n : U32} : c.finPending = some p → c.Due b p.sentAt →
      b.add p.attempts 1#32 = .ok n → c.config.maxRetries < n →
      FinTick b c { c with state := .failed .tooManyRetries, finPending := none } []
  | retry {p : PendingControl} {n : U32} {est : RtoEstimator} {d : Datagram} :
      c.finPending = some p → c.Due b p.sentAt → b.add p.attempts 1#32 = .ok n →
      n ≤ c.config.maxRetries → c.rto.onTimeout b = .ok est → c.buildFin b = .ok d →
      FinTick b c { c with
        rto := est, finPending := some ⟨c.now, n⟩
        stats := { c.stats with controlRetransmissions := c.stats.controlRetransmissions + 1 } } [d]

theorem tickFin_branch (h : c.tickFin b = .ok (c', out)) : FinTick b c c' out := by
  unfold Connection.tickFin at h
  split at h
  · rename_i hp
    cases h
    refine .idle fun p hp' => ?_
    rw [hp] at hp'
    cases hp'
  · rename_i p hp
    obtain ⟨rto, hrto, h⟩ := bind_eq_ok.mp h
    split at h
    · rename_i hlt
      cases h
      refine .idle fun p' hp' => ?_
      rw [hp] at hp'
      cases hp'
      exact not_due hrto hlt
    · rename_i hlt
      have hdue : c.Due b p.sentAt := ⟨rto, hrto, not_lt.mp hlt⟩
      obtain ⟨n, hn, h⟩ := bind_eq_ok.mp h
      split at h
      · rename_i hmax
        cases h
        exact .fail hp hdue hn hmax
      · rename_i hmax
        obtain ⟨est, hest, h⟩ := bind_eq_ok.mp h
        obtain ⟨d, hd, h⟩ := bind_eq_ok.mp h
        cases h
        exact .retry hp hdue hn (not_lt.mp hmax) hest hd

/-- The three parts of a tick in an open state. -/
theorem tickOpen_parts (h : c.tickOpen b = .ok (c', out)) :
    ∃ c₁ out₁, c.tickData b = .ok (c₁, out₁) ∧
      ((c₁.isFailed ∧ c' = c₁ ∧ out = out₁) ∨ c₁.isFailed = false ∧
        ∃ c₂ out₂, c₁.tickFin b = .ok (c₂, out₂) ∧
          ((c₂.isFailed ∧ c' = c₂ ∧ out = out₁ ++ out₂) ∨ c₂.isFailed = false ∧
            ∃ out₃, c₂.drainAndMaybeFin b = .ok (c', out₃) ∧ out = out₁ ++ out₂ ++ out₃)) := by
  obtain ⟨⟨c₁, out₁⟩, h₁, h⟩ := bind_eq_ok.mp h
  refine ⟨c₁, out₁, h₁, ?_⟩
  dsimp only at h
  split at h
  · rename_i hf
    cases h; exact Or.inl ⟨hf, rfl, rfl⟩
  · rename_i hf
    obtain ⟨⟨c₂, out₂⟩, h₂, h⟩ := bind_eq_ok.mp h
    refine Or.inr ⟨by simpa using hf, c₂, out₂, h₂, ?_⟩
    dsimp only at h
    split at h
    · rename_i hf
      cases h; exact Or.inl ⟨hf, rfl, rfl⟩
    · rename_i hf
      obtain ⟨⟨c₃, out₃⟩, h₃, h⟩ := bind_eq_ok.mp h
      cases h
      exact Or.inr ⟨by simpa using hf, out₃, h₃, rfl⟩

/-- `on_tick`, by state. -/
inductive OnTick (b : Build) (c : Connection) (now : Tick) : Connection → List Datagram → Prop
  | handshake {c' : Connection} {out : List Datagram} : c.state = .synSent ∨ c.state = .synReceived →
      (c.advance now).tickHandshake b = .ok (c', out) → OnTick b c now c' out
  | opened {c' : Connection} {out : List Datagram} : c.isOpen →
      (c.advance now).tickOpen b = .ok (c', out) → OnTick b c now c' out
  | rest : c.state ≠ .synSent → c.state ≠ .synReceived → c.isOpen = false →
      OnTick b c now (c.advance now) []

theorem onTick_branch {now : Tick} (h : c.onTick b now = .ok (c', out)) : OnTick b c now c' out := by
  unfold Connection.onTick at h
  dsimp only at h
  split at h
  · rename_i hst
    exact .handshake (Or.inl hst) h
  · rename_i hst
    exact .handshake (Or.inr hst) h
  · rename_i hst
    exact .opened (by rw [Connection.isOpen, show c.state = _ from hst]) h
  · rename_i hst
    exact .opened (by rw [Connection.isOpen, show c.state = _ from hst]) h
  · rename_i hs hr he hc
    cases h
    refine .rest hs hr ?_
    unfold Connection.isOpen
    split
    · rename_i hst
      exact absurd hst he
    · rename_i hst
      exact absurd hst hc
    · rfl

end Distrans
