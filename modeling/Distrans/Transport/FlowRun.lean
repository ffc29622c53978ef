import Distrans.Transport.FlowStep

/-!
# Both flows along a run

The entry points of the connection (`onDatagram`, `onTick`, `send`, `close`, `recv`) keep two
endpoints `Linked`, whatever datagram of the peer is delivered and whenever.  From it, by
induction over the run:

* `call_linked` — one call, one step;
* `reach_linked` — **every reachable pair of connections is linked** while fewer than `2 ^ 32`
  bytes are sent in each direction.
-/

set_option autoImplicit false

namespace Distrans

open Machine OrdMap Tiling

variable {b : Build} {X Y : Endpoint} {c' : Connection} {out : List Datagram}

/-! ## Handshake -/

/-- A live connection changes state, but does not close. -/
theorem Linked.enter (h : Linked X Y) (hf : X.conn.isFailed = false) {st : State}
    (hst : st ≠ .closed) (hs : Option PendingControl) (r : RtoEstimator) :
    Linked (X.move { X.conn with state := st, handshake := hs, rto := r }) Y :=
  h.quiet ⟨rfl, rfl, rfl, rfl, Or.inl (.refl (fun _ _ => ⟨rfl, rfl⟩) _),
    fun hc => absurd hc (by rw [hf]; decide), rfl, rfl, rfl, rfl, id, rfl, rfl,
    fun hc => absurd hc hst⟩

theorem completeHandshake_linked (h : Linked X Y) (hf : X.conn.isFailed = false)
    (hr : X.conn.completeHandshake b = .ok c') : Linked (X.move c') Y ∧ c'.isOpen := by
  obtain ⟨r, _, hr⟩ := bind_eq_ok.mp hr
  cases hr
  exact ⟨h.enter hf (by decide) _ _, rfl⟩

theorem handshakeArm_linked (h : Linked X Y) {isSyn isAck returns : Bool}
    (hr : X.conn.handshakeArm b isSyn isAck = .ok (returns, c', out)) :
    Linked (X.put c' out) Y := by
  cases handshakeArm_branch hr with
  | greet hst _ hd =>
    have hf : X.conn.isFailed = false := by simp [Connection.isFailed, hst]
    exact buildSynack_linked (h.enter hf (by decide) _ X.conn.rto) hd
  | regreet _ _ hd => exact buildSynack_linked h hd
  | accept hst _ h₁ =>
    have hf : X.conn.isFailed = false := by simp [Connection.isFailed, hst]
    rw [Endpoint.put_nil]
    exact (completeHandshake_linked h hf h₁).1
  | connect hst _ h₁ hd =>
    have hf : X.conn.isFailed = false := by simp [Connection.isFailed, hst]
    exact buildHandshakeAck_linked (completeHandshake_linked h hf h₁).1 hd
  | confirm _ _ hd => exact buildHandshakeAck_linked h hd
  | pass =>
    rw [Endpoint.put_self]; exact h

/-! ## A datagram arrives -/

section Incoming

variable {d : Datagram} {f : Frame} {hdr : SegmentHeader} {app : List U8}

/-- A FIN the peer has emitted is seen. -/
theorem Linked.seeFin (h : Linked X Y) (hd : d ∈ Y.emitted) (hc : Carries d f hdr app)
    (hfin : f.flags &&& FLAG_FIN ≠ 0#16) : Linked (X.move { X.conn with peerFinSeen := true }) Y := by
  obtain ⟨cs, s, cs', s', h₁, h₂⟩ := h
  exact ⟨cs, s, cs', s',
    h₁.moveSender ⟨rfl, rfl, rfl, rfl, Or.inl (.refl (fun _ _ => ⟨rfl, Or.inl⟩) _), id⟩
      h₁.fin.requested h₁.fin.pending h₁.fin.acked h₁.fin.closed_acked,
    h₂.moveReceiver ⟨rfl, rfl, rfl, rfl⟩ (fun _ => (h₂.data d hd f hdr app hc).2 hfin) (fun _ => rfl)⟩

theorem openBlock_linked (h : Linked X Y) (ho : X.conn.isOpen) (hd : d ∈ Y.emitted)
    (hc : Carries d f hdr app) {isAck isFin : Bool} (hfin : isFin → f.flags &&& FLAG_FIN ≠ 0#16)
    (hr : X.conn.openBlock b f.sequence hdr app isAck isFin = .ok (c', out)) :
    Linked (X.put c' out) Y := by
  obtain ⟨c₁, resent, c₂, acks, out₄, h₁, h₂, hans, hdrain, rfl⟩ := openBlock_parts hr
  have hack : Linked (X.put c₁ resent.toList) Y := by
    split at h₁
    · exact applyAck_linked h (isFailed_of_isOpen ho) hd hc h₁
    · cases h₁
      rw [Option.toList_none, Endpoint.put_self]; exact h
  have hdel : Linked (X.put c₂ resent.toList) Y :=
    deliverData_linked (X := X.put c₁ resent.toList) hack hd hc h₂
  have hseen : ∀ answered, Linked (X.put (c₂.noted isFin answered) resent.toList) Y := by
    intro answered
    have hcount : ∀ {c : Connection} (st : Stats), Linked (X.put c resent.toList) Y →
        Linked (X.put { c with stats := st } resent.toList) Y := fun st h => h.quiet (.timers ..)
    cases isFin with
    | true =>
      rw [noted_fin]
      exact hcount _ (hdel.seeFin (X := X.put c₂ resent.toList) hd hc (hfin rfl))
    | false =>
      rw [noted_plain]
      exact hcount _ hdel
  have hacks : Linked (X.put (c₂.noted isFin !(app.isEmpty && !isFin)) (resent.toList ++ acks)) Y := by
    split at hans
    · rw [hans, List.append_nil]
      exact hseen _
    · rename_i hplain
      obtain ⟨ack, hb, rfl⟩ := hans
      rw [Bool.eq_false_of_not_eq_true hplain]
      have := buildPureAck_linked (hseen true) (fun hf => by simp [Connection.noted, hf]) hb
      simpa [Endpoint.put, Endpoint.emit, Endpoint.move] using this
  have := drainAndMaybeFin_linked hacks hdrain
  rwa [Endpoint.put_put] at this

theorem onSegment_linked (h : Linked X Y) (hd : d ∈ Y.emitted) (hc : Carries d f hdr app)
    (hr : X.conn.onSegment b f.sequence f.flags hdr app = .ok (c', out)) :
    Linked (X.put c' out) Y := by
  have hwin : Linked (X.move { X.conn with peerWindow := hdr.window }) Y := h.quiet (.timers ..)
  cases onSegment_branch hr with
  | closed hst _ hack =>
    refine buildPureAck_linked hwin (fun _ => ?_) hack
    obtain ⟨_, _, _, _, _, h₂⟩ := h
    exact h₂.fin.closed_seen hst
  | handshake _ h₁ =>
    have harm := handshakeArm_linked hwin h₁
    exact harm
  | block _ h₁ ho h₂ =>
    have := openBlock_linked (handshakeArm_linked hwin h₁) ho hd hc (fun hf => by simpa using hf) h₂
    rw [Endpoint.put_put] at this
    exact this

end Incoming

/-- A datagram is dropped or it carries a segment. -/
theorem onDatagram_cases {c : Connection} {now : Tick} {d : Datagram}
    (h : c.onDatagram b now d = .ok (c', out)) : (c' = c.advance now ∧ out = []) ∨
    ∃ f hdr app, Carries d f hdr app ∧
      (c.advance now).onSegment b f.sequence f.flags hdr app = .ok (c', out) := by
  obtain ⟨r, hframe, h⟩ := bind_eq_ok.mp h
  split at h
  · cases h; exact Or.inl ⟨rfl, rfl⟩
  · rename_i f
    obtain ⟨r, hheader, h⟩ := bind_eq_ok.mp h
    split at h
    · cases h; exact Or.inl ⟨rfl, rfl⟩
    · rename_i hdr app
      exact Or.inr ⟨f, hdr, app, ⟨hframe, hheader⟩, h⟩

theorem Linked.advance (h : Linked X Y) (now : Tick) : Linked (X.move (X.conn.advance now)) Y :=
  h.quiet (.timers ..)

theorem onDatagram_linked (h : Linked X Y) {d : Datagram} (hd : d ∈ Y.emitted) {now : Tick}
    (hr : X.conn.onDatagram b now d = .ok (c', out)) : Linked (X.put c' out) Y := by
  rcases onDatagram_cases hr with ⟨rfl, rfl⟩ | ⟨f, hdr, app, hc, hseg⟩
  · rw [Endpoint.put_nil]; exact h.advance now
  · exact onSegment_linked (X := X.move (X.conn.advance now)) (h.advance now) hd hc hseg

/-! ## Timers -/

theorem tickHandshake_linked (h : Linked X Y) (hr : X.conn.tickHandshake b = .ok (c', out)) :
    Linked (X.put c' out) Y := by
  cases tickHandshake_branch hr with
  | idle => rw [Endpoint.put_self]; exact h
  | fail =>
    rw [Endpoint.put_nil]
    exact h.quiet ⟨rfl, rfl, rfl, rfl, Or.inl (.refl (fun _ _ => ⟨rfl, rfl⟩) _), fun _ => rfl,
      rfl, rfl, rfl, rfl, id, rfl, rfl, fun hc => by cases hc⟩
  | @retry p n est d _ _ _ _ _ hd =>
    rw [Endpoint.put_eq]
    have hq : Linked (X.move { X.conn with
        rto := est, handshake := some ⟨X.conn.now, n⟩
        stats := { X.conn.stats with
          controlRetransmissions := X.conn.stats.controlRetransmissions + 1 } }) Y :=
      h.quiet (.timers ..)
    rcases hd with ⟨_, hd⟩ | ⟨_, hd⟩
    · exact buildSyn_linked hq hd
    · exact buildSynack_linked hq hd

/-- Retransmission of any part of the buffer. -/
theorem Linked.emitSegments {bytes : List U8} : ∀ {es : List (U32 × UnackedSegment)}
    {X : Endpoint}, Linked X Y → X.conn.headerBytes b = .ok bytes →
    (∀ e ∈ es, e ∈ X.conn.unacked.entries) →
    Linked (X.emit (es.map fun e => Connection.buildDataFrame e.1 e.2.data bytes)) Y
  | [], X, h, _, _ => by
    have : X.emit [] = X := by simp [Endpoint.emit]
    rw [List.map_nil, this]; exact h
  | e :: es, X, h, hb, hes => by
    obtain ⟨hdr, hh, rfl⟩ := headerBytes_spec hb
    have hone := h.emit hh (fun hf => by cases hf) (Or.inr ⟨e.2, hes e List.mem_cons_self, rfl⟩)
      (fun hf => absurd (show FLAG_ACK &&& FLAG_FIN = 0#16 from rfl) hf)
    have hrest := Linked.emitSegments hone hb fun e' he' => hes e' (List.mem_cons_of_mem _ he')
    have hcat : ∀ (o o' : List Datagram), (X.emit o).emit o' = X.emit (o ++ o') := fun o o' => by
      simp [Endpoint.emit]
    rw [hcat] at hrest
    exact hrest

theorem tickData_linked (h : Linked X Y) (hr : X.conn.tickData b = .ok (c', out)) :
    Linked (X.put c' out) Y := by
  have hout : ∀ (est : RtoEstimator) (w : U32) (st : Stats) {bytes : List U8}
      {u : OrdMap U32 UnackedSegment}, X.conn.headerBytes b = .ok bytes →
      X.conn.unacked.mapM (fun _ s => Connection.resend b X.conn.now s) = .ok u →
      Linked ((X.move { X.conn with
          rto := est, ssthresh := w, cwnd := X.conn.config.segment32, dupAckCount := 0
          stats := st, unacked := u }).emit ((u.entries.filter fun e => !e.2.sacked).map fun e =>
            Connection.buildDataFrame e.1 e.2.data bytes)) Y := by
    intro est w st bytes u hb hu
    have hrel := (sweep_again hu).imp fun _ _ _ hv => hv.data
    have hswept : Linked (X.move { X.conn with
        rto := est, ssthresh := w, cwnd := X.conn.config.segment32, dupAckCount := 0
        stats := st, unacked := u }) Y :=
      h.quiet ⟨rfl, rfl, rfl, rfl, Or.inl hrel, id, rfl, rfl, rfl, rfl, id, rfl, rfl, id⟩
    exact hswept.emitSegments hb fun e he => List.mem_of_mem_filter he
  cases tickData_branch hr with
  | idle => rw [Endpoint.put_self]; exact h
  | @fail _ _ _ est w _ _ _ _ _ _ hb hu =>
    exact (hout est w X.conn.stats hb hu).quiet ⟨rfl, rfl, rfl, rfl, Or.inr ⟨rfl, rfl⟩, fun _ => rfl, rfl,
      rfl, rfl, rfl, id, rfl, rfl, fun hc => by cases hc⟩
  | @sweep _ _ _ est w _ _ _ _ _ _ hb hu => exact hout est w _ hb hu

theorem tickFin_linked (h : Linked X Y) (hr : X.conn.tickFin b = .ok (c', out)) :
    Linked (X.put c' out) Y := by
  cases tickFin_branch hr with
  | idle => rw [Endpoint.put_self]; exact h
  | fail =>
    rw [Endpoint.put_nil]
    exact h.quiet ⟨rfl, rfl, rfl, rfl, Or.inl (.refl (fun _ _ => ⟨rfl, rfl⟩) _), fun _ => rfl,
      rfl, rfl, rfl, rfl, (fun hc => by cases hc), rfl, rfl, (fun hc => by cases hc)⟩
  | @retry p n est d hp _ _ _ _ hd =>
    rw [Endpoint.put_eq]
    have hq : Linked (X.move { X.conn with
        rto := est, finPending := some ⟨X.conn.now, n⟩
        stats := { X.conn.stats with
          controlRetransmissions := X.conn.stats.controlRetransmissions + 1 } }) Y :=
      h.quiet ⟨rfl, rfl, rfl, rfl, Or.inl (.refl (fun _ _ => ⟨rfl, rfl⟩) _), id, rfl, rfl, rfl,
        rfl, fun _ => by rw [hp]; rfl, rfl, rfl, id⟩
    exact buildFin_linked hq rfl hd

theorem tickOpen_linked (h : Linked X Y) (hr : X.conn.tickOpen b = .ok (c', out)) :
    Linked (X.put c' out) Y := by
  obtain ⟨c₁, out₁, h₁, hr⟩ := tickOpen_parts hr
  have hl₁ := tickData_linked h h₁
  rcases hr with ⟨_, rfl, rfl⟩ | ⟨_, c₂, out₂, h₂, hr⟩
  · exact hl₁
  · have hl₂ := tickFin_linked hl₁ h₂
    rw [Endpoint.put_put] at hl₂
    rcases hr with ⟨_, rfl, rfl⟩ | ⟨_, out₃, h₃, rfl⟩
    · exact hl₂
    · have hl₃ := drainAndMaybeFin_linked hl₂ h₃
      rw [Endpoint.put_put] at hl₃
      exact hl₃

theorem onTick_linked (h : Linked X Y) {now : Tick} (hr : X.conn.onTick b now = .ok (c', out)) :
    Linked (X.put c' out) Y := by
  have hadv := h.advance now
  cases onTick_branch hr with
  | handshake _ hr => exact tickHandshake_linked (X := X.move (X.conn.advance now)) hadv hr
  | opened _ hr => exact tickOpen_linked (X := X.move (X.conn.advance now)) hadv hr
  | rest => rw [Endpoint.put_nil]; exact hadv

/-! ## Calls and runs -/

/-- Bytes handed to `send` extend the queue. -/
theorem Linked.enqueue (h : Linked X Y) {data : List U8}
    (hfits : (X.sent ++ data).length < 2 ^ 32) (st : Stats) (now : Tick) :
    Linked { X with
      sent := X.sent ++ data
      conn := { X.conn with now, sendQueue := X.conn.sendQueue ++ data, stats := st } } Y := by
  obtain ⟨cs, s, cs', s', h₁, h₂⟩ := h
  refine ⟨cs, s, cs', s', ?_, ?_⟩
  · exact {
      inv := h₁.inv
      send := { h₁.send with
        stream := by
          show X.sent ++ data = cs.flatten ++ (X.conn.sendQueue ++ data)
          rw [h₁.send.stream, List.append_assoc]
        fits := hfits }
      recv := h₁.recv
      fin := { h₁.fin with
        closedAt_le := fun n hn => by
          have := h₁.fin.closedAt_le n hn
          show n ≤ (X.sent ++ data).length
          rw [List.length_append]; omega }
      data := h₁.data
      acks := h₁.acks
      windows := h₁.windows }
  · exact {
      inv := h₂.inv
      send := h₂.send
      recv := ⟨h₂.recv.expectedSeq, h₂.recv.stream, h₂.recv.buffer⟩
      fin := { h₂.fin with }
      data := h₂.data
      acks := h₂.acks
      windows := h₂.windows }

theorem FinFact.markClosed (h : FinFact X Y) (n : Nat) (c : Connection) :
    FinFact { X with closedAt := X.closedAt.or (some n), conn := c } Y := by
  obtain ⟨m, hm, hle⟩ := h
  exact ⟨m, by simp [hm], hle⟩

/-- `close` is requested: the stream is marked where it stands, unless it has been before. -/
theorem Linked.requestClose (h : Linked X Y) (now : Tick) :
    Linked { X with
      closedAt := X.closedAt.or (some X.sent.length)
      conn := { X.conn with now, closeRequested := true } } Y := by
  obtain ⟨cs, s, cs', s', h₁, h₂⟩ := h
  refine ⟨cs, s, cs', s', ?_, ?_⟩
  · exact {
      inv := h₁.inv
      send := { h₁.send with }
      recv := h₁.recv
      fin := {
        closedAt_le := fun n hn => by
          cases hc : X.closedAt with
          | none => simp [hc] at hn; show n ≤ X.sent.length; omega
          | some m => simp [hc] at hn; exact h₁.fin.closedAt_le n (by rw [hc, hn])
        requested := fun _ => by cases X.closedAt <;> simp
        pending := fun hp => (h₁.fin.pending hp).markClosed _ _
        acked := fun hp => (h₁.fin.acked hp).markClosed _ _
        seen := fun hp => (h₁.fin.seen hp).markClosed _ _
        closed_acked := h₁.fin.closed_acked
        closed_seen := h₁.fin.closed_seen }
      data := fun d hd f hh app hc =>
        ⟨(h₁.data d hd f hh app hc).1, fun hf => ((h₁.data d hd f hh app hc).2 hf).markClosed _ _⟩
      acks := fun d hd f hh app hc =>
        ⟨(h₁.acks d hd f hh app hc).1, fun hf => ((h₁.acks d hd f hh app hc).2 hf).markClosed _ _⟩
      windows := h₁.windows }
  · exact {
      inv := h₂.inv
      send := h₂.send
      recv := ⟨h₂.recv.expectedSeq, h₂.recv.stream, h₂.recv.buffer⟩
      fin := { h₂.fin with }
      data := h₂.data
      acks := h₂.acks
      windows := h₂.windows }

/-- `recv` moves the delivered bytes to the application. -/
theorem Linked.recv (h : Linked X Y) :
    Linked { X with
      received := X.received ++ X.conn.delivered
      conn := { X.conn with delivered := [] } } Y := by
  obtain ⟨cs, s, cs', s', h₁, h₂⟩ := h
  refine ⟨cs, s, cs', s', ?_, ?_⟩
  · exact {
      inv := h₁.inv
      send := { h₁.send with }
      recv := h₁.recv
      fin := { h₁.fin with }
      data := h₁.data
      acks := h₁.acks
      windows := h₁.windows }
  · exact {
      inv := h₂.inv
      send := h₂.send
      recv := ⟨h₂.recv.expectedSeq, by
        show X.received ++ X.conn.delivered ++ [] = _
        rw [List.append_nil]; exact h₂.recv.stream, h₂.recv.buffer⟩
      fin := { h₂.fin with }
      data := h₂.data
      acks := h₂.acks
      windows := fun d hd f hh app hc => (h₂.windows d hd f hh app hc).mono (by
        show X.received.length ≤ (X.received ++ X.conn.delivered).length
        rw [List.length_append]; omega) rfl }

/-- One call keeps the flows. -/
theorem call_linked {X' : Endpoint} {a : Call} (h : Linked X Y)
    (hlegal : ∀ now d, a = .onDatagram now d → d ∈ Y.emitted)
    (hfits : X'.sent.length < 2 ^ 32) (hr : X.call b a = .ok X') : Linked X' Y := by
  cases a with
  | send now data =>
    obtain ⟨⟨c', out⟩, hc, hr⟩ := bind_eq_ok.mp hr
    cases hr
    have hl := drainAndMaybeFin_linked (h.enqueue hfits _ (max X.conn.now now)) hc
    exact hl
  | close now =>
    obtain ⟨⟨c', out⟩, hc, hr⟩ := bind_eq_ok.mp hr
    cases hr
    have hl := drainAndMaybeFin_linked (h.requestClose (max X.conn.now now)) hc
    exact hl
  | recv =>
    cases hr
    rw [Endpoint.put_nil]; exact h.recv
  | onTick now =>
    obtain ⟨⟨c', out⟩, hc, hr⟩ := bind_eq_ok.mp hr
    cases hr
    exact onTick_linked h hc
  | onDatagram now d =>
    obtain ⟨⟨c', out⟩, hc, hr⟩ := bind_eq_ok.mp hr
    cases hr
    exact onDatagram_linked h (hlegal now d rfl) hc

/-- Nothing sent, nothing received, nothing in the network. -/
theorem blank_flow {cfg cfg' : Config} {t t' : Tick} {st st' : State} {c c' : Connection}
    (hc : Connection.blank b cfg t st = .ok c) (hc' : Connection.blank b cfg' t' st' = .ok c')
    (hst : st ≠ .closed) (hst' : st' ≠ .closed) (hseg : 1 ≤ cfg.segmentSize) :
    Flow [] SelRep.init (Endpoint.fresh c []) (Endpoint.fresh c' []) := by
  obtain ⟨w, _, hc⟩ := bind_eq_ok.mp hc
  obtain ⟨w', _, hc'⟩ := bind_eq_ok.mp hc'
  cases hc; cases hc'
  refine ⟨.init, ⟨?_, rfl, rfl, rfl, rfl, Or.inl rfl, ?_, ?_, hseg⟩, ⟨rfl, rfl, fun e => ?_⟩,
    ⟨?_, ?_, ?_, ?_, ?_, ?_, ?_⟩, ?_, ?_, ?_⟩
  · intro c hc; cases hc
  · intro k seg hm; cases hm
  · show 0 < 2 ^ 32; decide
  · constructor
    · intro he; cases he
    · rintro ⟨m, hm, _⟩; cases hm
  · intro n hn; cases hn
  · intro hq; cases hq
  · intro hq; cases hq
  · intro hq; cases hq
  · intro hq; cases hq
  · exact fun hq => absurd hq hst
  · exact fun hq => absurd hq hst'
  · intro d hd; cases hd
  · intro d hd; cases hd
  · intro d hd; cases hd

theorem start_linked {ccfg scfg : Config} {t t' : Tick} {p : Pair}
    (hseg : 1 ≤ ccfg.segmentSize) (hseg' : 1 ≤ scfg.segmentSize)
    (h : Pair.start b ccfg scfg t t' = .ok p) : Linked p.client p.server := by
  obtain ⟨⟨c, syn⟩, hc, h⟩ := bind_eq_ok.mp h
  obtain ⟨s, hs, h⟩ := bind_eq_ok.mp h
  cases h
  obtain ⟨c₀, hc₀, hc⟩ := bind_eq_ok.mp hc
  obtain ⟨d, hd, hc⟩ := bind_eq_ok.mp hc
  cases hc
  have hl : Linked (Endpoint.fresh c₀ []) (Endpoint.fresh s []) :=
    ⟨_, _, _, _, blank_flow hc₀ hs (by decide) (by decide) hseg,
      blank_flow hs hc₀ (by decide) (by decide) hseg'⟩
  exact buildSyn_linked (X := (Endpoint.fresh c₀ []).move { c₀ with handshake := some ⟨t, 1⟩ })
    (hl.quiet (.timers ..)) hd

theorem step_linked {p p' : Pair} {s : Side} {a : Call} (h : Linked (p.get s) (p.get s.peer))
    (hlegal : p.Legal s a) (hfits : (p'.get s).sent.length < 2 ^ 32) (hr : p.step b s a = .ok p') :
    Linked (p'.get s) (p'.get s.peer) := by
  obtain ⟨e, he, rfl⟩ := Pair.step_inv hr
  rw [Pair.get_set_self] at hfits
  rw [Pair.get_set_self, Pair.get_set_peer]
  exact call_linked h (fun now d ha => by subst ha; exact hlegal) hfits he

theorem Pair.linked_iff {p : Pair} (s : Side) :
    Linked (p.get s) (p.get s.peer) ↔ Linked p.client p.server := by
  cases s with
  | client => exact Iff.rfl
  | server => exact ⟨Linked.symm, Linked.symm⟩

/-- Fewer than `2 ^ 32` bytes have been sent in each direction. -/
def Pair.Fits (p : Pair) : Prop :=
  p.client.sent.length < 2 ^ 32 ∧ p.server.sent.length < 2 ^ 32

instance Pair.decidableFits (p : Pair) : Decidable p.Fits := inferInstanceAs (Decidable (_ ∧ _))

theorem Pair.fits_get {p : Pair} (h : p.Fits) (s : Side) : (p.get s).sent.length < 2 ^ 32 := by
  cases s with
  | client => exact h.1
  | server => exact h.2

theorem Pair.fits_of_step {p p' : Pair} {s : Side} {a : Call} (hr : p.step b s a = .ok p')
    (h : p'.Fits) : p.Fits := by
  obtain ⟨e, he, rfl⟩ := Pair.step_inv hr
  have hle := Endpoint.call_sent_le he
  cases s with
  | client => exact ⟨Nat.lt_of_le_of_lt hle h.1, h.2⟩
  | server => exact ⟨h.1, Nat.lt_of_le_of_lt hle h.2⟩

/-- **Both directions of every reachable pair are flows.** -/
theorem reach_linked {ccfg scfg : Config} (hseg : 1 ≤ ccfg.segmentSize)
    (hseg' : 1 ≤ scfg.segmentSize) {p : Pair} (h : Pair.Reach b ccfg scfg p) (hfits : p.Fits) :
    ∀ s : Side, Linked (p.get s) (p.get s.peer) := by
  induction h with
  | start h => exact fun s => (Pair.linked_iff s).mpr (start_linked hseg hseg' h)
  | @step p p' t a _ hlegal _ hr ih =>
    have hl := step_linked (ih (Pair.fits_of_step hr hfits) t) hlegal (Pair.fits_get hfits t) hr
    exact fun s => (Pair.linked_iff s).mpr ((Pair.linked_iff t).mp hl)

end Distrans
