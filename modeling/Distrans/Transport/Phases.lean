import Distrans.Transport.Accepts

/-!
# The phases of a datagram

What `on_datagram` does with a segment: one that is not admitted changes the handshake alone; an
admitted one is acknowledged, delivered, noted and answered, and then the queue is drained
(`onSegment_parts`).  `Connection.ackOf` is the header a call hands to `apply_ack`.
-/

set_option autoImplicit false

namespace Distrans

open Machine OrdMap

variable {b : Build} {c c' : Connection} {out : List Datagram}

/-- The acknowledgement a call hands to `apply_ack`. -/
def Connection.ackOf (c : Connection) (a : Call) : Option SegmentHeader :=
  a.segment?.bind fun s =>
    let isAck := s.1.flags &&& FLAG_ACK != 0#16
    if isAck && c.admits (s.1.flags &&& FLAG_SYN != 0#16) isAck then some s.2.1 else none

theorem headerBytes_congr (hcfg : c'.config = c.config) (he : c'.expectedSeq = c.expectedSeq)
    (hb : c'.recvBuffer = c.recvBuffer) (hd : c'.delivered = c.delivered) :
    c'.headerBytes b = c.headerBytes b := by
  simp only [Connection.headerBytes, Connection.header, Connection.advertisedWindow,
    Connection.currentSackRanges, hcfg, he, hb, hd]

/-- What `drain_and_maybe_fin` may change. -/
theorem drainAndMaybeFin_fields (hr : c.drainAndMaybeFin b = .ok (c', out)) :
    ∃ st fp q n u sent, c' = { c with
      state := st, finPending := fp, sendQueue := q, nextSeq := n, unacked := u
      stats := { c.stats with dataSegmentsSent := sent } } := by
  obtain ⟨⟨c₁, out₁⟩, h₁, hr⟩ := bind_eq_ok.mp hr
  obtain ⟨⟨c₂, fin⟩, h₂, hr⟩ := bind_eq_ok.mp hr
  cases hr
  have hsent : ∃ q n u sent, c₁ = { c with
      sendQueue := q, nextSeq := n, unacked := u
      stats := { c.stats with dataSegmentsSent := sent } } := by
    refine trySendMore_keeps (P := fun c₁ => ∃ q n u sent, c₁ = { c with
      sendQueue := q, nextSeq := n, unacked := u
      stats := { c.stats with dataSegmentsSent := sent } }) ?_ h₁ ⟨_, _, _, _, rfl⟩
    rintro c₁ c₂ n d ⟨q, m, u, sent, rfl⟩ _ _ hcut
    obtain ⟨nextSeq, bytes, _, _, _, rfl⟩ := cutSegment_spec hcut
    exact ⟨_, _, _, _, rfl⟩
  obtain ⟨q, n, u, sent, rfl⟩ := hsent
  have hfin : ∃ st fp, c₂ = { c with
      state := st, finPending := fp, sendQueue := q, nextSeq := n, unacked := u
      stats := { c.stats with dataSegmentsSent := sent } } := by
    cases maybeSendFin_branch h₂ <;> exact ⟨_, _, rfl⟩
  obtain ⟨st, fp, rfl⟩ := hfin
  unfold Connection.checkFullyClosed
  split <;> exact ⟨_, _, _, _, _, _, rfl⟩

section

variable {h : SegmentHeader} {app : List U8} {seq : U32} {flags : U16}

/-- In an open connection the handshake has nothing left to do. -/
theorem handshakeArm_open (ho : c.isOpen) {isSyn isAck returns : Bool}
    (hr : c.handshakeArm b isSyn isAck = .ok (returns, c', out)) : c' = c := by
  cases handshakeArm_branch hr with
  | greet hst | accept hst | connect hst => simp [Connection.isOpen, hst] at ho
  | regreet | confirm | pass => rfl

/-- An open side does not answer a segment without SYN from the handshake. -/
theorem handshakeArm_quiet (ho : c.isOpen) {isAck returns : Bool}
    (hr : c.handshakeArm b false isAck = .ok (returns, c', out)) : c' = c ∧ out = [] := by
  cases handshakeArm_branch hr with
  | greet hst | regreet hst | accept hst => simp [Connection.isOpen, hst] at ho
  | connect _ hsyn | confirm _ hsyn => cases hsyn
  | pass => exact ⟨rfl, rfl⟩

/-- A segment that is not admitted changes the handshake alone; an admitted one goes on into the
    shared block. -/
theorem onSegment_parts (hr : c.onSegment b seq flags h app = .ok (c', out)) :
    (c.admits (flags &&& FLAG_SYN != 0#16) (flags &&& FLAG_ACK != 0#16) = false ∧
      ∃ st hs r, c' = { c with peerWindow := h.window, state := st, handshake := hs, rto := r }) ∨
    (c.admits (flags &&& FLAG_SYN != 0#16) (flags &&& FLAG_ACK != 0#16) = true ∧
      ∃ c₁ out₁ out₂, Connection.handshakeArm b { c with peerWindow := h.window }
          (flags &&& FLAG_SYN != 0#16) (flags &&& FLAG_ACK != 0#16) = .ok (false, c₁, out₁) ∧
        c₁.isOpen ∧
        c₁.openBlock b seq h app (flags &&& FLAG_ACK != 0#16) (flags &&& FLAG_FIN != 0#16) =
          .ok (c', out₂) ∧ out = out₁ ++ out₂) := by
  cases onSegment_branch hr with
  | closed hst => exact Or.inl ⟨by rw [Connection.admits, hst], _, _, _, rfl⟩
  | handshake _ h₁ hno => exact Or.inl ⟨hno, handshakeArm_fields h₁⟩
  | block _ h₁ ho h₂ =>
    exact Or.inr ⟨handshakeArm_admits (c := { c with peerWindow := h.window }) h₁ ho,
      _, _, _, h₁, ho, h₂, rfl⟩

end

section Admitted

variable {d : Datagram} {f : Frame} {h : SegmentHeader} {app : List U8} {now : Tick}

theorem ackOf_admitted (hcar : Carries d f h app)
    (hack : (f.flags &&& FLAG_ACK != 0#16) = true)
    (hadm : c.admits (f.flags &&& FLAG_SYN != 0#16) (f.flags &&& FLAG_ACK != 0#16) = true) :
    c.ackOf (.onDatagram now d) = some h := by
  simp only [Connection.ackOf, hcar.segment?_eq now, Option.bind_some]
  rw [hadm, hack]
  rfl

/-- A segment that is admitted. -/
theorem onDatagram_admitted (hcar : Carries d f h app)
    (hadm : c.admits (f.flags &&& FLAG_SYN != 0#16) (f.flags &&& FLAG_ACK != 0#16) = true)
    (hr : c.onDatagram b now d = .ok (c', out)) : ∃ c₁ out₁ out₂,
      Connection.handshakeArm b { c.advance now with peerWindow := h.window }
        (f.flags &&& FLAG_SYN != 0#16) (f.flags &&& FLAG_ACK != 0#16) = .ok (false, c₁, out₁) ∧
      c₁.openBlock b f.sequence h app (f.flags &&& FLAG_ACK != 0#16) (f.flags &&& FLAG_FIN != 0#16) =
          .ok (c', out₂) ∧
      out = out₁ ++ out₂ := by
  rw [hcar.onDatagram] at hr
  rcases onSegment_parts hr with ⟨hno, _⟩ | ⟨_, c₁, out₁, out₂, harm, _, hblock, hout⟩
  · have hadm' : (c.advance now).admits (f.flags &&& FLAG_SYN != 0#16) (f.flags &&& FLAG_ACK != 0#16) = true :=
      hadm
    rw [hadm'] at hno
    cases hno
  · exact ⟨c₁, out₁, out₂, harm, hblock, hout⟩

/-- What an open connection does with a segment. -/
theorem onDatagram_open (ho : c.isOpen) (hc : Carries d f h app)
    (hr : c.onDatagram b now d = .ok (c', out)) :
    ∃ c₁ resent c₂ answered out₄,
      (if f.flags &&& FLAG_ACK != 0#16 then
        Connection.applyAck b { c.advance now with peerWindow := h.window } h
        else .ok ({ c.advance now with peerWindow := h.window }, none)) = .ok (c₁, resent) ∧
      c₁.deliverData b f.sequence app = .ok c₂ ∧
      (c₂.noted (f.flags &&& FLAG_FIN != 0#16) answered).drainAndMaybeFin b = .ok (c', out₄) := by
  obtain ⟨c₁, out₁, out₂, harm, hblock, _⟩ := onDatagram_admitted hc (admits_of_isOpen ho _ _) hr
  have hc₁ := handshakeArm_open (c := { c.advance now with peerWindow := h.window }) ho harm
  subst hc₁
  obtain ⟨c₂, resent, c₃, acks, out₄, hap, hdel, _, hdrain, _⟩ := openBlock_parts hblock
  exact ⟨c₂, resent, c₃, _, out₄, hap, hdel, hdrain⟩

end Admitted

/-- What a call does to the receive side: nothing, hand the stream over, or one delivery, which
    is answered unless it is empty. -/
theorem call_receives {e e' : Endpoint} {a : Call} (hseg : 1 ≤ e.conn.config.segmentSize)
    (hr : e.call b a = .ok e') :
    RecvKeeps e.conn e'.conn ∨ (a = .recv ∧ e'.conn = { e.conn with delivered := [] }) ∨
    ∃ f h app c₁ c₂, a.segment? = some (f, h, app) ∧ app.length < 2 ^ 32 ∧ RecvKeeps e.conn c₁ ∧
      c₁.deliverData b f.sequence app = .ok c₂ ∧
      (app ≠ [] → ∃ isFin ack, (c₂.noted isFin true).buildPureAck b isFin = .ok ack) ∧
      RecvKeeps c₂ e'.conn := by
  cases a with
  | send now data =>
    obtain ⟨⟨c', out⟩, hc, hr⟩ := bind_eq_ok.mp hr
    cases hr
    unfold Connection.send at hc
    have hm : Moves b none _ c' := drainAndMaybeFin_moves (by exact hseg) hc
    have hk := hm.recvKeeps
    exact Or.inl ⟨hk.config, hk.expectedSeq, hk.recvBuffer, hk.delivered⟩
  | close now =>
    obtain ⟨⟨c', out⟩, hc, hr⟩ := bind_eq_ok.mp hr
    cases hr
    unfold Connection.close at hc
    have hm : Moves b none _ c' := drainAndMaybeFin_moves (by exact hseg) hc
    have hk := hm.recvKeeps
    exact Or.inl ⟨hk.config, hk.expectedSeq, hk.recvBuffer, hk.delivered⟩
  | recv =>
    cases hr
    exact Or.inr (Or.inl ⟨rfl, rfl⟩)
  | onTick now =>
    obtain ⟨⟨c', out⟩, hc, hr⟩ := bind_eq_ok.mp hr
    cases hr
    have hm : Moves b none (e.conn.advance now) c' := onTick_moves hseg hc
    have hk := hm.recvKeeps
    exact Or.inl ⟨hk.config, hk.expectedSeq, hk.recvBuffer, hk.delivered⟩
  | onDatagram now d =>
    obtain ⟨⟨c', out⟩, hc, hr⟩ := bind_eq_ok.mp hr
    cases hr
    rcases onDatagram_cases hc with ⟨rfl, _⟩ | ⟨f, h, app, hcar, hs⟩
    · exact Or.inl ⟨rfl, rfl, rfl, rfl⟩
    rcases onSegment_parts hs with ⟨_, st, hs', r, rfl⟩ | ⟨_, c₁, out₁, out₂, h₁, ho, h₂, _⟩
    · exact Or.inl ⟨rfl, rfl, rfl, rfl⟩
    · obtain ⟨st, hs', r, rfl⟩ := handshakeArm_fields h₁
      obtain ⟨c₂, resent, c₃, acks, out₄, hap, hdel, hans, hdrain, _⟩ := openBlock_parts h₂
      have hk₂ := ack_recv hap
      have hcfg₃ : c₃.config = e.conn.config := by
        obtain ⟨buf, ex, st', del, rfl⟩ := (deliverData_delivers hdel).fields
        exact hk₂.config
      refine Or.inr (Or.inr ⟨f, h, app, c₂, c₃, hcar.segment?_eq now, hcar.length_lt,
        ⟨hk₂.config, hk₂.expectedSeq, hk₂.recvBuffer, hk₂.delivered⟩, hdel, fun hne => ?_, ?_⟩)
      · rw [if_neg (by simp [hne])] at hans
        obtain ⟨ack, hack, _⟩ := hans
        exact ⟨_, ack, hack⟩
      · have hm : Moves b none _ c' := drainAndMaybeFin_moves (by rw [← hcfg₃] at hseg; exact hseg) hdrain
        have hk := hm.recvKeeps
        exact ⟨hk.config, hk.expectedSeq, hk.recvBuffer, hk.delivered⟩

end Distrans
