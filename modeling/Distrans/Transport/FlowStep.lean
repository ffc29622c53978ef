import Distrans.Transport.Branches
import Distrans.Transport.Report

/-!
# The connection keeps its flows

Each function of the connection state machine, as events of the abstract protocol: `cutSegment`
cuts a piece, `ackAdvance` learns an acknowledgement, `ackMarks` marks reported pieces,
`deliverData` accepts one, every frame builder reports the receiver's state.  Everything else is
`Quiet`.

`call_linked` puts them together for any call on one endpoint, and `reach_linked` follows a run:
**in every reachable state both directions of the pair are flows**, whatever the network does.
-/

set_option autoImplicit false

namespace Distrans

open Machine OrdMap Tiling

variable {b : Build} {cs : List (List U8)} {s : SelRep} {X Y : Endpoint} {c' : Connection}
  {out : List Datagram}

/-! ## Cutting a segment -/

theorem HeldTile.concat_iff (hi : s.Inv) (hcut : s.cut = cs.length) (d : List U8)
    (e : U32 × List U8) : HeldTile (cs ++ [d]) s.held e ↔ HeldTile cs s.held e := by
  constructor
  · rintro ⟨m, hm, hd, hp⟩
    have hlt : m < cs.length := by rw [← hcut]; exact hi.held_lt m hm
    rw [List.getElem?_append_left hlt] at hd
    exact ⟨m, hm, hd, by rw [hp, pos_append [d] (Nat.le_of_lt hlt)]⟩
  · rintro ⟨m, hm, hd, hp⟩
    have hlt := lt_of_getElem? hd
    exact ⟨m, hm, getElem?_concat d hd, by rw [hp, pos_append [d] (Nat.le_of_lt hlt)]⟩

/-- The first `n` queued bytes become the next piece. -/
theorem Flow.cut (h : Flow cs s X Y) (hf : X.conn.isFailed = false) {n : Nat} {nextSeq : U32}
    {st : Stats} {seg : UnackedSegment} (hn : 0 < n) (hq : n ≤ X.conn.sendQueue.length)
    (hseq : b.add X.conn.nextSeq (BitVec.ofNat 32 n) = .ok nextSeq)
    (hdata : seg.data = X.conn.sendQueue.take n) (hsack : seg.sacked = false) :
    Flow (cs ++ [seg.data]) { s with cut := s.cut + 1 }
      (X.move { X.conn with
        sendQueue := X.conn.sendQueue.drop n, nextSeq
        unacked := X.conn.unacked.insert X.conn.nextSeq seg, stats := st }) Y := by
  have hlen : seg.data.length = n := by rw [hdata, List.length_take]; omega
  have hsent : X.sent = (cs ++ [seg.data]).flatten ++ X.conn.sendQueue.drop n := by
    rw [h.send.stream, List.flatten_append]
    simp [hdata]
  have hfit := h.send.fits
  have htot : (cs ++ [seg.data]).flatten.length = cs.flatten.length + n := by simp [hlen]
  have hle : (cs ++ [seg.data]).flatten.length ≤ X.sent.length := by
    rw [hsent, List.length_append]; omega
  have hnext : nextSeq.toNat = cs.flatten.length + n := by
    rw [Build.add_ofNat_toNat hseq (by rw [h.send.nextSeq]; omega), h.send.nextSeq]
  -- the new segment goes to the end of the buffer
  have hlast : ∀ e ∈ X.conn.unacked.entries, e.1 < X.conn.nextSeq := by
    intro e he
    obtain ⟨m, _, hd, hp⟩ := h.send.mem_tile (show (e.1, e.2) ∈ X.conn.unacked.entries from he)
    have hlt := pos_lt h.send.nonempty (lt_of_getElem? hd) (Nat.le_refl _)
    rw [pos_length, ← hp, ← h.send.nextSeq] at hlt
    exact hlt
  have hins := entries_insert_of_gt (v := seg) hlast
  refine {
    inv := (SelRep.Step.cut s).inv h.inv
    send := ?_
    recv := ?_
    fin := ⟨h.fin.closedAt_le, h.fin.requested, h.fin.pending, h.fin.acked, h.fin.seen,
      h.fin.closed_acked, h.fin.closed_seen⟩
    data := fun d hd f hh app hc => ⟨(h.data d hd f hh app hc).1.concat _, (h.data d hd f hh app hc).2⟩
    acks := fun d hd f hh app hc =>
      ⟨(h.acks d hd f hh app hc).1.concat h.inv h.send.cut _, (h.acks d hd f hh app hc).2⟩
    windows := h.windows }
  · refine {
      nonempty := fun c hc => ?_
      cut := by simp [h.send.cut]
      stream := hsent
      nextSeq := by rw [htot]; exact hnext
      sendBase := by rw [pos_append _ h.base_le]; exact h.send.sendBase
      tiles := Or.inl ?_
      sacked := fun k v hm hs => ?_
      fits := hfit
      segment_pos := h.send.segment_pos }
    · rcases List.mem_append.mp hc with hc | hc
      · exact h.send.nonempty c hc
      · rw [List.mem_singleton.mp hc, ← List.length_pos_iff, hlen]; exact hn
    · show (X.conn.unacked.insert X.conn.nextSeq seg).entries.map _ = _
      rw [hins, List.map_append, layout_concat _ h.base_le, ← h.send.live hf]
      simp [Connection.segments, h.send.nextSeq]
    · have hm' : (k, v) ∈ (X.conn.unacked.insert X.conn.nextSeq seg).entries := hm
      rw [hins] at hm'
      rcases List.mem_append.mp hm' with hm' | hm'
      · exact (h.send.sacked k v hm' hs).concat _
      · cases List.mem_singleton.mp hm'
        rw [hsack] at hs; cases hs
  · refine ⟨?_, ?_, fun e => ?_⟩
    · rw [pos_append _ h.next_le]; exact h.recv.expectedSeq
    · rw [List.take_append_of_le_length h.next_le]; exact h.recv.stream
    · rw [h.recv.buffer]
      exact (HeldTile.concat_iff h.inv h.send.cut _ e).symm

/-- What the sender's other direction sees of a cut: nothing. -/
theorem Linked.cut (h : Linked X Y) (hf : X.conn.isFailed = false) {n : Nat} {nextSeq : U32}
    {st : Stats} {seg : UnackedSegment} (hn : 0 < n) (hq : n ≤ X.conn.sendQueue.length)
    (hseq : b.add X.conn.nextSeq (BitVec.ofNat 32 n) = .ok nextSeq)
    (hdata : seg.data = X.conn.sendQueue.take n) (hsack : seg.sacked = false) :
    Linked (X.move { X.conn with
      sendQueue := X.conn.sendQueue.drop n, nextSeq
      unacked := X.conn.unacked.insert X.conn.nextSeq seg, stats := st }) Y := by
  obtain ⟨cs, s, cs', s', h₁, h₂⟩ := h
  exact ⟨_, _, cs', s', h₁.cut hf hn hq hseq hdata hsack,
    h₂.moveReceiver ⟨rfl, rfl, rfl, rfl⟩ h₂.fin.seen h₂.fin.closed_seen⟩

/-! ## Learning an acknowledgement -/

/-- A cumulative acknowledgement above `sendBase` that the peer has reported. -/
theorem Flow.learn (h : Flow cs s X Y) (hf : X.conn.isFailed = false) {hdr : SegmentHeader}
    (hok : HeaderOk cs s hdr) (hadv : X.conn.sendBase < hdr.ack) {u : OrdMap U32 UnackedSegment}
    {r : RtoEstimator} {w : U32} (hu : u = X.conn.unacked.eraseAll (X.conn.unacked.below hdr.ack)) :
    ∃ s', Flow cs s' (X.move { X.conn with
        unacked := u, rto := r, sendBase := hdr.ack, dupAckCount := 0, cwnd := w }) Y ∧
      s'.acks = s.acks := by
  obtain ⟨a, ha, hack, _⟩ := hok
  have hle : a.1 ≤ cs.length := Nat.le_trans (h.inv.acks_le a ha) h.next_le
  have hbase : s.base ≤ a.1 := by
    have : X.conn.sendBase.toNat < hdr.ack.toNat := hadv
    rw [h.send.sendBase, hack] at this
    exact (pos_le_iff h.send.nonempty h.base_le).mp (Nat.le_of_lt this)
  have hent : u.entries = X.conn.unacked.entries.filter (hdr.ack ≤ ·.1) := by
    rw [hu, entries_eraseAll_below]
  refine ⟨{ s with base := a.1 }, ?_, rfl⟩
  exact {
    inv := (SelRep.Step.learn ha hbase).inv h.inv
    send := { h.send with
      sendBase := hack
      tiles := Or.inl (by
        show u.entries.map _ = _
        rw [hent, ← filter_layout h.send.nonempty hle rfl hbase, ← h.send.live hf,
          Connection.segments, List.filter_map]
        congr 1
        refine List.filter_congr fun e _ => ?_
        simp only [Function.comp_apply, ← hack]
        rfl)
      sacked := fun k v hm hs => by
        have hm' : (k, v) ∈ u.entries := hm
        rw [hent] at hm'
        exact h.send.sacked k v (List.mem_of_mem_filter hm') hs }
    recv := ⟨h.recv.expectedSeq, h.recv.stream, h.recv.buffer⟩
    fin := { h.fin with }
    data := h.data
    acks := h.acks
    windows := h.windows }

/-! ## Accepting a piece -/

/-- The receiver takes piece `m`: its new state represents the outcome. -/
theorem Flow.accept (h : Flow cs s X Y) {m n : Nat} {held : Set Nat} (hm : m < cs.length)
    (ha : SelRep.Accept s m n held)
    (hrecv : RecvRep cs { s with next := n, held } (Y.move c'))
    (hseen : c'.peerFinSeen = Y.conn.peerFinSeen) (hstate : c'.state = Y.conn.state)
    (hcfg : c'.config = Y.conn.config) : Flow cs { s with next := n, held } X (Y.move c') := by
  have hmono : FinFact X Y → FinFact X (Y.move c') := fun hf =>
    hf.mono rfl (by
      rw [h.recv.expectedSeq, hrecv.expectedSeq]; exact pos_mono cs ha.next_le)
  exact {
    inv := (SelRep.Step.accept (by rw [h.send.cut]; exact hm) ha).inv h.inv
    send := ⟨h.send.nonempty, h.send.cut, h.send.stream, h.send.nextSeq, h.send.sendBase,
      h.send.tiles, h.send.sacked, h.send.fits, h.send.segment_pos⟩
    recv := hrecv
    fin := { h.fin with
      pending := fun hp => hmono (h.fin.pending hp)
      acked := fun hp => hmono (h.fin.acked hp)
      seen := fun hp => hmono (h.fin.seen (by rw [← hseen]; exact hp))
      closed_seen := fun hc => by
        show c'.peerFinSeen = true
        rw [hseen]; exact h.fin.closed_seen (by rw [← hstate]; exact hc) }
    data := fun d hd f hh app hc =>
      ⟨(h.data d hd f hh app hc).1, fun hfin => hmono ((h.data d hd f hh app hc).2 hfin)⟩
    acks := fun d hd f hh app hc =>
      ⟨(h.acks d hd f hh app hc).1, fun hfin => hmono ((h.acks d hd f hh app hc).2 hfin)⟩
    windows := fun d hd f hh app hc =>
      (h.windows d hd f hh app hc).mono (Nat.le_refl _) hcfg }

/-! ## Frames without data -/

theorem headerBytes_spec {c : Connection} {bytes : List U8} (h : c.headerBytes b = .ok bytes) :
    ∃ hdr, c.header b false = .ok hdr ∧ bytes = hdr.encode := by
  obtain ⟨hdr, hh, h⟩ := bind_eq_ok.mp h
  cases h
  exact ⟨hdr, hh, rfl⟩

theorem Linked.emitControl (h : Linked X Y) {bytes : List U8} {seq : U32} {flags : U16}
    (hb : X.conn.headerBytes b = .ok bytes)
    (hfin : flags &&& FLAG_FIN ≠ 0#16 → X.conn.finPending.isSome) :
    Linked (X.emit [encodeFrame seq flags bytes]) Y := by
  obtain ⟨hdr, hh, rfl⟩ := headerBytes_spec hb
  rw [show hdr.encode = hdr.encode ++ [] by simp]
  exact h.emit hh (fun hf => by cases hf) (Or.inl rfl) hfin

theorem buildSyn_linked (h : Linked X Y) {d : Datagram} (hd : X.conn.buildSyn b = .ok d) :
    Linked (X.emit [d]) Y := by
  obtain ⟨bytes, hb, hd⟩ := bind_eq_ok.mp hd
  cases hd
  exact h.emitControl hb (fun hf => absurd rfl hf)

theorem buildSynack_linked (h : Linked X Y) {d : Datagram} (hd : X.conn.buildSynack b = .ok d) :
    Linked (X.emit [d]) Y := by
  obtain ⟨bytes, hb, hd⟩ := bind_eq_ok.mp hd
  cases hd
  exact h.emitControl hb (fun hf => absurd rfl hf)

theorem buildHandshakeAck_linked (h : Linked X Y) {d : Datagram}
    (hd : X.conn.buildHandshakeAck b = .ok d) : Linked (X.emit [d]) Y := by
  obtain ⟨bytes, hb, hd⟩ := bind_eq_ok.mp hd
  cases hd
  exact h.emitControl hb (fun hf => absurd rfl hf)

/-- A FIN goes out only while one is pending. -/
theorem buildFin_linked (h : Linked X Y) {d : Datagram} (hp : X.conn.finPending.isSome)
    (hd : X.conn.buildFin b = .ok d) : Linked (X.emit [d]) Y := by
  obtain ⟨bytes, hb, hd⟩ := bind_eq_ok.mp hd
  cases hd
  exact h.emitControl hb (fun _ => hp)

/-- `fin_ack` goes out only after a FIN has been seen. -/
theorem buildPureAck_linked (h : Linked X Y) {fa : Bool} {d : Datagram}
    (hfa : fa → X.conn.peerFinSeen) (hd : X.conn.buildPureAck b fa = .ok d) :
    Linked (X.emit [d]) Y := by
  obtain ⟨hdr, hh, hd⟩ := bind_eq_ok.mp hd
  cases hd
  rw [show hdr.encode = hdr.encode ++ [] by simp]
  exact h.emit hh hfa (Or.inl rfl) (fun hf => absurd rfl hf)

/-! ## Sending -/

theorem isFailed_of_isOpen {c : Connection} (h : c.isOpen = true) : c.isFailed = false := by
  rcases isOpen_cases h with hst | hst <;> rw [Connection.isFailed, hst]

theorem cutSegment_linked (h : Linked X Y) (hf : X.conn.isFailed = false) {n : Nat} {d : Datagram}
    (hn : 0 < n) (hq : n ≤ X.conn.sendQueue.length) (hr : X.conn.cutSegment b n = .ok (c', d)) :
    Linked (X.put c' [d]) Y ∧ c'.state = X.conn.state := by
  obtain ⟨nextSeq, bytes, hseq, hb, rfl, rfl⟩ := cutSegment_spec hr
  obtain ⟨hdr, hh, rfl⟩ := headerBytes_spec hb
  refine ⟨?_, rfl⟩
  rw [Endpoint.put_eq]
  refine Linked.emit (h.cut hf hn hq hseq rfl rfl) hh (fun hf => by cases hf)
    (Or.inr ⟨_, mem_insert.mpr (Or.inl rfl), rfl⟩) (fun hf => absurd rfl hf)

theorem trySendLoop_linked : ∀ {fuel : Nat} {X : Endpoint} {c' : Connection} {out : List Datagram},
    Linked X Y → X.conn.isFailed = false → X.conn.trySendLoop b fuel = .ok (c', out) →
    Linked (X.put c' out) Y ∧ c'.state = X.conn.state
  | 0, _, _, _, _, _, hr => by cases hr
  | fuel + 1, X, c', out, h, hf, hr => by
    have hseg : 1 ≤ X.conn.config.segmentSize := by
      obtain ⟨_, _, _, _, h₁, _⟩ := h
      exact h₁.send.segment_pos
    rcases trySendLoop_cases hseg hr with ⟨rfl, rfl, _⟩ |
      ⟨n, cap, c₁, d, out₁, _, hn, hq, _, _, hcut, hrec, rfl⟩
    · exact ⟨by rw [Endpoint.put_self]; exact h, rfl⟩
    · obtain ⟨h₁, hst⟩ := cutSegment_linked h hf hn hq hcut
      obtain ⟨h₂, hst₂⟩ := trySendLoop_linked (X := X.put c₁ [d]) h₁
        (by simp only [Endpoint.put_conn, Connection.isFailed] at hf ⊢; rw [hst]; exact hf) hrec
      rw [Endpoint.put_put] at h₂
      exact ⟨h₂, hst₂.trans hst⟩

theorem trySendMore_linked (h : Linked X Y) (hr : X.conn.trySendMore b = .ok (c', out)) :
    Linked (X.put c' out) Y := by
  unfold Connection.trySendMore at hr
  split at hr
  · rename_i ho
    exact (trySendLoop_linked h (isFailed_of_isOpen ho) hr).1
  · cases hr
    rw [Endpoint.put_self]; exact h

/-- Everything has been cut and acknowledged, so the peer has it all. -/
theorem Flow.drained (h : Flow cs s X Y) (hf : X.conn.isFailed = false)
    (hq : X.conn.sendQueue = []) (hu : X.conn.unacked.entries = []) :
    Y.conn.expectedSeq.toNat = X.sent.length := by
  have hlay : layout cs s.base = [] := by
    rw [← h.send.live hf, Connection.segments, hu]; rfl
  have hbase : s.base = cs.length := by
    rcases Nat.lt_or_ge s.base cs.length with hlt | hge
    · rw [layout_cons hlt] at hlay; cases hlay
    · have := h.base_le; omega
  have hnext : s.next = cs.length := by
    have := h.inv.base_le
    have := h.next_le
    omega
  rw [h.recv.expectedSeq, hnext, pos_length, h.send.stream, hq, List.append_nil]

theorem maybeSendFin_linked (h : Linked X Y) {fin : Option Datagram}
    (hr : X.conn.maybeSendFin b = .ok (c', fin)) : Linked (X.put c' fin.toList) Y := by
  cases maybeSendFin_branch hr with
  | skip =>
    rw [Option.toList_none, Endpoint.put_self]; exact h
  | sent hreq _ hack hst hq hu hd =>
    have hf : X.conn.isFailed = false := by simp [Connection.isFailed, hst]
    have hmove : Linked (X.move { X.conn with
        state := .closing, finPending := some ⟨X.conn.now, 1⟩ }) Y := by
      obtain ⟨cs, s, cs', s', h₁, h₂⟩ := h
      have hdr := h₁.drained hf (by simpa using hq) (isEmpty_iff.mp hu)
      have hfin : FinFact X Y := by
        obtain ⟨n, hn⟩ := Option.isSome_iff_exists.mp (h₁.fin.requested hreq)
        exact ⟨n, hn, by rw [hdr]; exact h₁.fin.closedAt_le n hn⟩
      exact ⟨cs, s, cs', s',
        h₁.moveSender ⟨rfl, rfl, rfl, rfl, Or.inl (.refl (fun _ _ => ⟨rfl, Or.inl⟩) _),
          fun hc => by rw [hf] at hc; cases hc⟩ h₁.fin.requested (fun _ => hfin) h₁.fin.acked
          (fun hc => by cases hc),
        h₂.moveReceiver ⟨rfl, rfl, rfl, rfl⟩ h₂.fin.seen (fun hc => by cases hc)⟩
    exact buildFin_linked hmove rfl hd

theorem checkFullyClosed_linked (h : Linked X Y) :
    Linked (X.move X.conn.checkFullyClosed) Y := by
  unfold Connection.checkFullyClosed
  split
  · rename_i hcond
    obtain ⟨hst, hack, hseen⟩ := hcond
    obtain ⟨cs, s, cs', s', h₁, h₂⟩ := h
    exact ⟨cs, s, cs', s',
      h₁.moveSender ⟨rfl, rfl, rfl, rfl, Or.inl (.refl (fun _ _ => ⟨rfl, Or.inl⟩) _),
        fun hc => by simp [Connection.isFailed, hst] at hc⟩ h₁.fin.requested h₁.fin.pending
        h₁.fin.acked (fun _ => hack),
      h₂.moveReceiver ⟨rfl, rfl, rfl, rfl⟩ h₂.fin.seen (fun _ => hseen)⟩
  · exact h

theorem drainAndMaybeFin_linked (h : Linked X Y)
    (hr : X.conn.drainAndMaybeFin b = .ok (c', out)) : Linked (X.put c' out) Y := by
  obtain ⟨⟨c₁, out₁⟩, h₁, hr⟩ := bind_eq_ok.mp hr
  obtain ⟨⟨c₂, fin⟩, h₂, hr⟩ := bind_eq_ok.mp hr
  cases hr
  have hl := maybeSendFin_linked (X := X.put c₁ out₁) (trySendMore_linked h h₁) h₂
  rw [Endpoint.put_put] at hl
  exact checkFullyClosed_linked hl

/-! ## Acknowledgements

The header comes from a datagram the peer has emitted. -/

section Incoming

variable {d : Datagram} {f : Frame} {hdr : SegmentHeader} {app : List U8}

theorem ackAdvance_linked (h : Linked X Y) (hf : X.conn.isFailed = false) (hd : d ∈ Y.emitted)
    (hc : Carries d f hdr app) (hadv : X.conn.sendBase < hdr.ack)
    (hr : X.conn.ackAdvance b hdr = .ok c') : Linked (X.move c') Y ∧ c'.state = X.conn.state := by
  obtain ⟨_, r, w, _, _, _, rfl⟩ := ackAdvance_spec hr
  obtain ⟨cs, s, cs', s', h₁, h₂⟩ := h
  obtain ⟨s₁, hl, _⟩ := h₁.learn hf (h₁.acks d hd f hdr app hc).1 hadv (r := r) (w := w) rfl
  exact ⟨⟨cs, s₁, cs', s', hl, h₂.moveReceiver ⟨rfl, rfl, rfl, rfl⟩ h₂.fin.seen h₂.fin.closed_seen⟩, rfl⟩

/-- A range that covers held pieces marks only reported ones. -/
theorem sackRange_reported (hne : ∀ c ∈ cs, c ≠ []) {a : Nat × Set Nat} (ha : a ∈ s.acks)
    {r : SackRange} (hr : SackOk cs a.2 r) {k : U32} {m : Nat} {data : List U8}
    (hm : cs[m]? = some data) (hk : k.toNat = pos cs m) (hlo : r.start ≤ k) (hhi : k ≤ r.stop) :
    Reported cs s k := by
  obtain ⟨i, j, hij, hj, hstart, hstop, hrun⟩ := hr
  have hlt := lt_of_getElem? hm
  have hlo' : r.start.toNat ≤ k.toNat := hlo
  have hhi' : k.toNat ≤ r.stop.toNat := hhi
  have him : i ≤ m := (pos_le_iff hne (by omega)).mp (by omega)
  have hmj : m < j := by
    by_contra hge
    have := pos_mono cs (show j ≤ m by omega)
    omega
  exact ⟨m, hlt, hk, a, ha, hrun m him hmj⟩

/-- Marking the reported ranges one after the other. -/
theorem sackMarks_spec {c : Connection} (hne : ∀ c ∈ cs, c ≠ []) {a : Nat × Set Nat}
    (ha : a ∈ s.acks) : ∀ {rs : List SackRange} {u u' : OrdMap U32 UnackedSegment},
    (∀ r ∈ rs, SackOk cs a.2 r) →
    (∀ k v, (k, v) ∈ u.entries → ∃ m, cs[m]? = some v.data ∧ k.toNat = pos cs m) →
    EntriesRel (fun k v v' => v'.data = v.data ∧ (v'.sacked → v.sacked ∨ Reported cs s k))
      c.unacked.entries u.entries →
    rs.foldlM (fun m r => m.mapRange r.start r.stop fun seg => { seg with sacked := true }) u =
      .ok u' →
    EntriesRel (fun k v v' => v'.data = v.data ∧ (v'.sacked → v.sacked ∨ Reported cs s k))
      c.unacked.entries u'.entries
  | [], _, _, _, _, hrel, h => by cases h; exact hrel
  | r :: rs, u, u', hok, htile, hrel, h => by
    rw [List.foldlM_cons] at h
    obtain ⟨u₁, hu₁, h⟩ := bind_eq_ok.mp h
    have hrel₁ := mapRange_rel hu₁
    refine sackMarks_spec hne ha (fun r' hr' => hok r' (List.mem_cons_of_mem _ hr'))
      (fun k v hm => ?_) ?_ h
    · obtain ⟨v₀, hm₀, hv⟩ := hrel₁.mem hm
      have hdata : v.data = v₀.data := by
        rcases hv with rfl | ⟨_, _, rfl⟩ <;> rfl
      rw [hdata]; exact htile k v₀ hm₀
    · refine hrel.trans_mem hrel₁ fun k v v₁ v₂ hm₁ hv hv₁ => ?_
      rcases hv₁ with rfl | ⟨hlo, hhi, rfl⟩
      · exact hv
      · obtain ⟨m, hm, hk⟩ := htile k v₁ hm₁
        exact ⟨hv.1, fun _ => Or.inr
          (sackRange_reported hne ha (hok r List.mem_cons_self) hm hk hlo hhi)⟩

theorem ackMarks_linked (h : Linked X Y) (hd : d ∈ Y.emitted) (hc : Carries d f hdr app)
    (hr : X.conn.ackMarks hdr = .ok c') : Linked (X.move c') Y := by
  have hmarks : ∀ {u : OrdMap U32 UnackedSegment}, hdr.sack.foldlM (fun m r =>
      m.mapRange r.start r.stop fun seg => { seg with sacked := true }) X.conn.unacked = .ok u →
      Linked (X.move { X.conn with unacked := u }) Y := by
    intro u hu
    obtain ⟨cs, s, cs', s', h₁, h₂⟩ := h
    obtain ⟨⟨a, ha, _, hsack⟩, _⟩ := h₁.acks d hd f hdr app hc
    have hrel := sackMarks_spec (c := X.conn) h₁.send.nonempty ha hsack (fun k v hm => by
      obtain ⟨m, _, hm', hk⟩ := h₁.send.mem_tile hm
      exact ⟨m, hm', hk⟩) (.refl (fun _ _ => ⟨rfl, Or.inl⟩) _) hu
    exact ⟨cs, s, cs', s',
      h₁.moveSender ⟨rfl, rfl, rfl, rfl, Or.inl hrel, id⟩ h₁.fin.requested h₁.fin.pending
        h₁.fin.acked h₁.fin.closed_acked,
      h₂.moveReceiver ⟨rfl, rfl, rfl, rfl⟩ h₂.fin.seen h₂.fin.closed_seen⟩
  cases ackMarks_branch hr with
  | marked _ hu => exact hmarks hu
  | @finAcked u hfa hu =>
    refine checkFullyClosed_linked
      (X := X.move { X.conn with unacked := u, finAcked := true, finPending := none }) ?_
    obtain ⟨cs, s, cs', s', h₁, h₂⟩ := hmarks hu
    obtain ⟨_, hfin⟩ := h₁.acks d hd f hdr app hc
    exact ⟨cs, s, cs', s',
      h₁.moveSender ⟨rfl, rfl, rfl, rfl, Or.inl (.refl (fun _ _ => ⟨rfl, Or.inl⟩) _), id⟩
        h₁.fin.requested (fun hp => by cases hp) (fun _ => hfin hfa) (fun _ => rfl),
      h₂.moveReceiver ⟨rfl, rfl, rfl, rfl⟩ h₂.fin.seen h₂.fin.closed_seen⟩

theorem fastRetransmit_linked (h : Linked X Y) {resent : Option Datagram}
    (hr : X.conn.fastRetransmit b = .ok (c', resent)) :
    Linked (X.put c' resent.toList) Y ∧ c'.state = X.conn.state := by
  have hq : ∀ {u : OrdMap U32 UnackedSegment} (w : U32) (st : Stats), X.conn.unacked.mapFirst (fun seg => do
      let n ← b.add seg.retransmitCount 1#32
      .ok { seg with retransmitCount := n, sentAt := X.conn.now }) = .ok u →
      Linked (X.move { X.conn with
        dupAckCount := 0, ssthresh := w, cwnd := w, unacked := u, stats := st }) Y := by
    intro u w st hu
    have hrel := (fast_again hu).imp fun _ _ _ hv => hv.data
    exact h.quiet ⟨rfl, rfl, rfl, rfl, Or.inl hrel, id, rfl, rfl, rfl, rfl, id, rfl, rfl, id⟩
  cases fastRetransmit_branch hr with
  | nothing _ hu =>
    rw [Option.toList_none, Endpoint.put_nil]
    exact ⟨hq _ _ hu, rfl⟩
  | @oldest w k seg rest u bytes _ hu hes hb =>
    obtain ⟨hdr, hh, rfl⟩ := headerBytes_spec hb
    refine ⟨?_, rfl⟩
    rw [Endpoint.put_eq]
    exact (hq _ _ hu).emit hh (fun hf => by cases hf)
      (Or.inr ⟨seg, by show (k, seg) ∈ u.entries; rw [hes]; exact List.mem_cons_self, rfl⟩)
      (fun hf => absurd rfl hf)

theorem applyAck_linked (h : Linked X Y) (hf : X.conn.isFailed = false) (hd : d ∈ Y.emitted)
    (hc : Carries d f hdr app) {resent : Option Datagram}
    (hr : X.conn.applyAck b hdr = .ok (c', resent)) : Linked (X.put c' resent.toList) Y := by
  have hdup : ∀ n, Linked (X.move { X.conn with dupAckCount := n }) Y := fun n => h.quiet (.timers ..)
  cases applyAck_branch hr with
  | @advance c₁ _ hadv h₁ h₂ =>
    rw [Option.toList_none, Endpoint.put_nil]
    exact ackMarks_linked (X := X.move c₁) (ackAdvance_linked h hf hd hc hadv h₁).1 hd hc h₂
  | @duplicate n _ _ _ _ _ h₂ =>
    rw [Option.toList_none, Endpoint.put_nil]
    exact ackMarks_linked (X := X.move { X.conn with dupAckCount := n }) (hdup n) hd hc h₂
  | @resend n _ _ _ _ _ _ hfast => exact (fastRetransmit_linked (hdup n) hfast).1
  | stale _ _ h₂ =>
    rw [Option.toList_none, Endpoint.put_nil]
    exact ackMarks_linked h hd hc h₂

end Incoming

/-! ## Delivery -/

/-- Halfway through draining: the pieces below `n` are in order, the others still held. -/
structure Draining (cs : List (List U8)) (s : SelRep) (Y : Endpoint) (n : Nat) (c : Connection) :
    Prop where
  expectedSeq : c.expectedSeq.toNat = pos cs n
  stream : Y.received ++ c.delivered = (cs.take n).flatten
  buffer : ∀ e, e ∈ c.recvBuffer.entries ↔ HeldTile cs {k | k ∈ s.held ∧ n ≤ k} e
  next_lt : s.next < n
  le_length : n ≤ cs.length
  run : ∀ k, s.next < k → k < n → k ∈ s.held

variable {c : Connection} {n : Nat}

/-- If piece `n` is held, the buffer has it under the expected sequence number. -/
theorem Draining.entry (hd : Draining cs s Y n c) (hi : s.Inv) (hcut : s.cut = cs.length)
    (hn : n ∈ s.held) : ∃ v, (c.expectedSeq, v) ∈ c.recvBuffer.entries := by
  have hlt : n < cs.length := by rw [← hcut]; exact hi.held_lt n hn
  exact ⟨cs[n], (hd.buffer _).mpr
    ⟨n, ⟨hn, Nat.le_refl n⟩, List.getElem?_eq_getElem hlt, hd.expectedSeq⟩⟩

/-- One round of the loop moves piece `n` over. -/
theorem Draining.next (hd : Draining cs s Y n c) (hne : ∀ c ∈ cs, c ≠ [])
    (hfit : ∀ i, pos cs i < 2 ^ 32) {v : List U8} (hm : (c.expectedSeq, v) ∈ c.recvBuffer.entries)
    {expectedSeq : U32} {st : Stats} (hadd : b.add c.expectedSeq (len32 v) = .ok expectedSeq) :
    Draining cs s Y (n + 1) { c with
      recvBuffer := c.recvBuffer.erase c.expectedSeq, expectedSeq, stats := st
      delivered := c.delivered ++ v } := by
  obtain ⟨m, ⟨hheld, hnm⟩, hv, hp⟩ := (hd.buffer _).mp hm
  have hmlt := lt_of_getElem? hv
  have hmn : m = n :=
    pos_inj hne (Nat.le_of_lt hmlt) hd.le_length (hp.symm.trans hd.expectedSeq)
  subst hmn
  refine ⟨piece_end hfit hv hp hadd, ?_, fun e => ?_, Nat.lt_succ_of_lt hd.next_lt, hmlt,
    fun k h1 h2 => ?_⟩
  · show Y.received ++ (c.delivered ++ v) = _
    rw [← List.append_assoc, hd.stream, take_succ_flatten hmlt]
    rw [List.getElem?_eq_getElem hmlt, Option.some.injEq] at hv
    rw [hv]
  · show e ∈ (c.recvBuffer.erase c.expectedSeq).entries ↔ _
    rw [mem_erase, hd.buffer]
    constructor
    · rintro ⟨⟨k, ⟨hk, hmk⟩, hke, hkp⟩, hne'⟩
      refine ⟨k, ⟨hk, ?_⟩, hke, hkp⟩
      rcases Nat.eq_or_lt_of_le hmk with rfl | hlt
      · exact absurd (BitVec.eq_of_toNat_eq (hkp.trans hp.symm)) hne'
      · exact hlt
    · rintro ⟨k, ⟨hk, hmk⟩, hke, hkp⟩
      refine ⟨⟨k, ⟨hk, Nat.le_of_succ_le hmk⟩, hke, hkp⟩, fun heq => ?_⟩
      have := pos_inj hne (Nat.le_of_lt hmlt) (Nat.le_of_lt (lt_of_getElem? hke))
        (by rw [← hp, ← hkp, heq])
      have : m + 1 ≤ k := hmk
      omega
  · rcases Nat.lt_succ_iff_lt_or_eq.mp h2 with h2 | rfl
    · exact hd.run k h1 h2
    · exact hheld

/-- The loop stops at the first piece that is not held. -/
theorem drainLoop_spec (hi : s.Inv) (hcut : s.cut = cs.length) (hne : ∀ c ∈ cs, c ≠ [])
    (hfit : ∀ i, pos cs i < 2 ^ 32) : ∀ {fuel n : Nat} {c c' : Connection},
    Draining cs s Y n c → c.drainLoop b fuel = .ok c' → ∃ n', n' ∉ s.held ∧ Draining cs s Y n' c'
  | 0, _, _, _, _, h => by cases h
  | fuel + 1, n, c, c', hd, h => by
    simp only [Connection.drainLoop] at h
    split at h
    · rename_i hnone
      cases h
      refine ⟨n, fun hn => ?_, hd⟩
      obtain ⟨v, hv⟩ := hd.entry hi hcut hn
      exact absurd (firstFrom_none hnone _ hv) (lt_irrefl _)
    · rename_i k v₀ hsome
      obtain ⟨hmem, hle, hmin⟩ := firstFrom_some hsome
      split at h
      · rename_i hk
        cases h
        refine ⟨n, fun hn => ?_, hd⟩
        obtain ⟨v, hv⟩ := hd.entry hi hcut hn
        exact hk (le_antisymm (hmin _ hv (le_refl _)) hle)
      · rename_i hk
        have hk' : k = c.expectedSeq := not_not.mp hk
        rw [hk'] at hmem h
        rw [get?_of_mem hmem] at h
        obtain ⟨expectedSeq, hadd, h⟩ := bind_eq_ok.mp h
        exact drainLoop_spec hi hcut hne hfit (hd.next hne hfit hmem hadd) h

/-- Delivery touches the receive side only. -/
structure Delivers (c c' : Connection) : Prop where
  fields : ∃ buffer expectedSeq stats delivered,
    c' = { c with recvBuffer := buffer, expectedSeq, stats, delivered }

theorem Delivers.trans {c₁ c₂ : Connection} (h : Delivers c c₁) (h' : Delivers c₁ c₂) :
    Delivers c c₂ := by
  obtain ⟨_, _, _, _, rfl⟩ := h
  obtain ⟨w, x, y, z, rfl⟩ := h'
  exact ⟨w, x, y, z, rfl⟩

theorem drainLoop_delivers : ∀ {fuel : Nat} {c c' : Connection},
    c.drainLoop b fuel = .ok c' → Delivers c c'
  | 0, _, _, h => by cases h
  | fuel + 1, c, c', h => by
    rcases drainLoop_cases h with rfl | ⟨v, expectedSeq, _, _, h⟩
    · exact ⟨_, _, _, _, rfl⟩
    · exact Delivers.trans ⟨_, _, _, _, rfl⟩ (drainLoop_delivers h)

theorem deliverData_delivers {seq : U32} {data : List U8}
    (h : c.deliverData b seq data = .ok c') : Delivers c c' := by
  cases deliverData_branch h with
  | empty => exact ⟨_, _, _, _, rfl⟩
  | old => exact ⟨_, _, _, _, rfl⟩
  | next _ _ _ _ _ _ hdrain => exact Delivers.trans ⟨_, _, _, _, rfl⟩ (drainLoop_delivers hdrain)
  | early => exact ⟨_, _, _, _, rfl⟩

/-- A later piece is held, under its own position. -/
theorem RecvRep.hold (h : RecvRep cs s Y) (hne : ∀ c ∈ cs, c ≠ []) {m : Nat} {seq : U32}
    {data : List U8} (hm : cs[m]? = some data) (hseq : seq.toNat = pos cs m) :
    RecvRep cs { s with held := insert m s.held }
      (Y.move { Y.conn with recvBuffer := Y.conn.recvBuffer.insert seq data }) := by
  have hmlt := lt_of_getElem? hm
  refine ⟨h.expectedSeq, h.stream, fun e => ?_⟩
  show e ∈ (Y.conn.recvBuffer.insert seq data).entries ↔ _
  rw [mem_insert, h.buffer]
  constructor
  · rintro (rfl | ⟨⟨k, hk, hrest⟩, _⟩)
    · exact ⟨m, Set.mem_insert _ _, hm, hseq⟩
    · exact ⟨k, Set.mem_insert_of_mem _ hk, hrest⟩
  · rintro ⟨k, hk, hke, hkp⟩
    by_cases hkm : k = m
    · subst hkm
      refine Or.inl (Prod.ext (BitVec.eq_of_toNat_eq (hkp.trans hseq.symm)) ?_)
      rw [hm] at hke
      exact (Option.some.inj hke).symm
    · have hk' : k ∈ s.held := hk.resolve_left hkm
      refine Or.inr ⟨⟨k, hk', hke, hkp⟩, fun heq => hkm ?_⟩
      exact pos_inj hne (Nat.le_of_lt (lt_of_getElem? hke)) (Nat.le_of_lt hmlt)
        (by rw [← hkp, ← hseq, heq])

/-- The piece expected next is taken, and the pieces held behind it may follow. -/
theorem RecvRep.draining (h : RecvRep cs s Y) (hi : s.Inv) {data : List U8}
    (hm : cs[s.next]? = some data) {stop : U32} (hstop : stop.toNat = pos cs (s.next + 1))
    (st : Stats) : Draining cs s Y (s.next + 1) { Y.conn with
      stats := st, delivered := Y.conn.delivered ++ data, expectedSeq := stop } := by
  have hmlt := lt_of_getElem? hm
  refine ⟨hstop, ?_, fun e => ?_, Nat.lt_succ_self _, hmlt, fun k h1 h2 => by omega⟩
  · show Y.received ++ (Y.conn.delivered ++ data) = _
    rw [List.getElem?_eq_getElem hmlt, Option.some.injEq] at hm
    rw [← List.append_assoc, h.stream, take_succ_flatten hmlt, hm]
  · show e ∈ Y.conn.recvBuffer.entries ↔ _
    rw [h.buffer]
    constructor
    · rintro ⟨k, hk, hrest⟩
      exact ⟨k, ⟨hk, hi.held_gt k hk⟩, hrest⟩
    · rintro ⟨k, hk, hrest⟩
      exact ⟨k, hk.1, hrest⟩

/-- When the loop stops, the next piece is missing. -/
theorem Draining.recvRep {c' : Connection} {n : Nat} (hd : Draining cs s Y n c') (hn : n ∉ s.held) :
    RecvRep cs { s with next := n, held := {k | k ∈ s.held ∧ n < k} } (Y.move c') := by
  refine ⟨hd.expectedSeq, hd.stream, fun e => ?_⟩
  show e ∈ c'.recvBuffer.entries ↔ _
  rw [hd.buffer]
  constructor
  · rintro ⟨k, ⟨hk, hnk⟩, hrest⟩
    exact ⟨k, ⟨hk, lt_of_le_of_ne hnk fun heq => hn (by rw [heq]; exact hk)⟩, hrest⟩
  · rintro ⟨k, ⟨hk, hnk⟩, hrest⟩
    exact ⟨k, ⟨hk, Nat.le_of_lt hnk⟩, hrest⟩

/-- Delivering a piece of the stream is accepting it. -/
theorem RecvRep.deliver (h : RecvRep cs s Y) (hi : s.Inv) (hcut : s.cut = cs.length)
    (hne : ∀ c ∈ cs, c ≠ []) (hfit : ∀ i, pos cs i < 2 ^ 32) {m : Nat} {seq : U32} {data : List U8}
    (hm : cs[m]? = some data) (hseq : seq.toNat = pos cs m)
    (hr : Y.conn.deliverData b seq data = .ok c') :
    ∃ n held, SelRep.Accept s m n held ∧ RecvRep cs { s with next := n, held } (Y.move c') := by
  have hmlt := lt_of_getElem? hm
  have hex := h.expectedSeq
  -- a piece that ends beyond what is in order is not before the next one
  have hle : ∀ {stop : U32}, b.add seq (len32 data) = .ok stop → Y.conn.expectedSeq < stop →
      s.next ≤ m := by
    intro stop hstop hnew
    have hstop' : stop.toNat = pos cs (m + 1) := piece_end hfit hm hseq hstop
    have hnew' : Y.conn.expectedSeq.toNat < stop.toNat := hnew
    by_contra hlt
    have := pos_mono cs (show m + 1 ≤ s.next by omega)
    omega
  cases deliverData_branch hr with
  | empty hdata => exact absurd hdata (hne data (List.mem_of_getElem? hm))
  | @old stop _ hstop hold =>
    have hstop' : stop.toNat = pos cs (m + 1) := piece_end hfit hm hseq hstop
    have hold' : pos cs (m + 1) ≤ pos cs s.next := by rw [← hstop', ← hex]; exact hold
    refine ⟨_, _, .stale ?_, h.expectedSeq, h.stream, h.buffer⟩
    exact (pos_le_iff hne hmlt).mp hold'
  | @next stop skip fresh _ _ hstop hnew hcov hskip hfresh hdrain =>
    -- the piece expected next: the whole of it is fresh
    have hcov' : seq.toNat ≤ Y.conn.expectedSeq.toNat := hcov
    have hmn : m = s.next :=
      Nat.le_antisymm ((pos_le_iff hne (Nat.le_of_lt hmlt)).mp (by omega)) (hle hstop hnew)
    subst hmn
    have hskip' : skip.toNat = 0 := by rw [Build.sub_toNat hskip hcov']; omega
    have hfresh' : fresh = data := by
      rw [hskip', slice_ok (Nat.zero_le _) (Nat.le_refl _)] at hfresh
      cases hfresh; simp
    subst hfresh'
    obtain ⟨n, hn, hdr⟩ := drainLoop_spec hi hcut hne hfit
      (h.draining hi hm (piece_end hfit hm hseq hstop) _) hdrain
    exact ⟨n, _, .fill rfl hdr.next_lt hdr.run hn, hdr.recvRep hn⟩
  | early _ hstop hnew hgap =>
    have hgap' : Y.conn.expectedSeq.toNat < seq.toNat := hgap
    have hlt : s.next < m := by
      rcases Nat.eq_or_lt_of_le (hle hstop hnew) with rfl | hlt
      · omega
      · exact hlt
    exact ⟨_, _, .hold hlt, h.hold hne hm hseq⟩

/-- The flow goes on with the piece accepted. -/
theorem Flow.deliver (h : Flow cs s X Y) {seq : U32} {data : List U8} (hok : DataOk cs seq data)
    (hr : Y.conn.deliverData b seq data = .ok c') : ∃ s', Flow cs s' X (Y.move c') := by
  obtain ⟨buf, ex, st, del, hfields⟩ := (deliverData_delivers hr).fields
  rcases hok with rfl | ⟨m, hm, hseq⟩
  · have hnil : Except.ok Y.conn = Except.ok c' := hr
    cases hnil
    exact ⟨s, h⟩
  · obtain ⟨n, held, hacc, hrecv⟩ :=
      h.recv.deliver h.inv h.send.cut h.send.nonempty h.send.pos_fits hm hseq hr
    exact ⟨_, h.accept (lt_of_getElem? hm) hacc hrecv (by rw [hfields]) (by rw [hfields])
      (by rw [hfields])⟩

theorem deliverData_linked (h : Linked X Y) {d : Datagram} {f : Frame} {hdr : SegmentHeader}
    {app : List U8} (hd : d ∈ Y.emitted) (hc : Carries d f hdr app)
    (hr : X.conn.deliverData b f.sequence app = .ok c') : Linked (X.move c') Y := by
  obtain ⟨cs, s, cs', s', h₁, h₂⟩ := h
  obtain ⟨s₂, h₂'⟩ := h₂.deliver (h₂.data d hd f hdr app hc).1 hr
  obtain ⟨buf, ex, st, del, rfl⟩ := (deliverData_delivers hr).fields
  exact ⟨cs, s, cs', s₂,
    h₁.moveSender ⟨rfl, rfl, rfl, rfl, Or.inl (.refl (fun _ _ => ⟨rfl, Or.inl⟩) _), id⟩
      h₁.fin.requested h₁.fin.pending h₁.fin.acked h₁.fin.closed_acked, h₂'⟩

end Distrans
