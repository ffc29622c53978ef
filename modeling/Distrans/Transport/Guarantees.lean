import Distrans.Transport.Invariants

/-!
# What a connection guarantees

The consequences of `reach_linked` for the two applications, in every reachable state of a pair
of connections while fewer than `2 ^ 32` bytes are sent in each direction.

* `stream_safety` — what a side has received is exactly the first `expected_seq` bytes of what
  the other side sent.
* `nothing_lost` — a side that has not failed still holds every byte the peer has not taken in
  order: the stream is the part below `send_base`, the retransmission buffer and the queue.
* `end_of_stream` — a side that has seen a FIN, or has closed, has the whole stream.
* `sack_truthful` — a segment marked SACKed is held by the peer, the oldest one is never marked,
  and so a timeout re-sends the segment at `send_base` and leaves out only what the peer has.
-/

set_option autoImplicit false

namespace Distrans

open Machine OrdMap Tiling

variable {b : Build} {cs : List (List U8)} {s : SelRep} {X Y : Endpoint}
  {ccfg scfg : Config} {p : Pair}

/-- The bytes a side has put in order: read by the application or waiting to be read. -/
def Endpoint.inOrder (e : Endpoint) : List U8 := e.received ++ e.conn.delivered

/-! ## A run to try the statements on -/

def sampleConfig : Config where
  segmentSize := 2
  recvWindowCapacity := 8
  minRto := 2
  maxRto := 64
  maxRetries := 3
  fastRetransmitDupAcks := 3

/-- Handshake; the client sends five bytes and closes; its first two segments arrive in the
    wrong order, the first one twice. -/
def sampleRun : List (Side × Act) :=
  [(.server, .deliver 1 0), (.client, .deliver 2 0), (.server, .deliver 3 1),
   (.client, .send 3 [1, 2, 3, 4, 5]), (.client, .close 3), (.server, .deliver 4 3),
   (.client, .deliver 5 1), (.server, .deliver 6 2), (.server, .recv), (.server, .deliver 7 2)]

/-- The rest arrives, the server closes too, and both FINs are acknowledged. -/
def sampleEnd : List (Side × Act) :=
  [(.client, .deliver 8 2), (.server, .deliver 9 4), (.client, .deliver 10 4),
   (.server, .deliver 11 5), (.client, .deliver 12 5), (.server, .close 13),
   (.client, .deliver 14 6), (.server, .deliver 15 6)]

/-! ## The stream -/

theorem Flow.inOrder (h : Flow cs s X Y) :
    Y.inOrder = X.sent.take Y.conn.expectedSeq.toNat ∧
      Y.conn.expectedSeq.toNat ≤ X.sent.length := by
  have hle := h.expectedSeq_le
  have hlen := h.send.length_le
  rw [h.send.nextSeq] at hle
  refine ⟨?_, by omega⟩
  rw [Endpoint.inOrder, h.recv.stream, flatten_take, h.recv.expectedSeq, h.send.stream,
    List.take_append_of_le_length (pos_le_total cs _)]

/-- **Stream prefix safety**: no gap, no duplicate, no reordering, no invented byte. -/
theorem stream_safety (hseg : 1 ≤ ccfg.segmentSize) (hseg' : 1 ≤ scfg.segmentSize)
    (h : Pair.Reach b ccfg scfg p) (hfits : p.Fits) (t : Side) :
    (p.get t).received ++ (p.get t).conn.delivered =
        (p.get t.peer).sent.take (p.get t).conn.expectedSeq.toNat ∧
      (p.get t).conn.expectedSeq.toNat ≤ (p.get t.peer).sent.length := by
  obtain ⟨_, _, _, _, _, hf⟩ := reach_linked hseg hseg' h hfits t
  exact hf.inOrder

theorem stream_safety_sample : ∃ p, Pair.Reach .checked sampleConfig sampleConfig p ∧
    p.server.conn.expectedSeq = 4 ∧
    p.server.received ++ p.server.conn.delivered = p.client.sent.take 4 := by
  have hrun : Pair.plays .checked sampleConfig sampleConfig sampleRun
      (fun p => decide (p.Fits ∧ p.server.conn.expectedSeq = 4)) = true := by decide +kernel
  obtain ⟨p, hp, ht⟩ := Pair.plays_reach hrun
  obtain ⟨hfits, hex⟩ := of_decide_eq_true ht
  have h := (stream_safety (by decide) (by decide) hp hfits .server).1
  exact ⟨p, hp, hex, h.trans (by simp only [Pair.get, Side.peer, hex]; rfl)⟩

/-- **No accepted byte is lost** while the sender is alive. -/
theorem nothing_lost (hseg : 1 ≤ ccfg.segmentSize) (hseg' : 1 ≤ scfg.segmentSize)
    (h : Pair.Reach b ccfg scfg p) (hfits : p.Fits) (t : Side)
    (halive : (p.get t).conn.isFailed = false) :
    (p.get t).conn.sendBase ≤ (p.get t.peer).conn.expectedSeq ∧
    (p.get t.peer).conn.expectedSeq ≤ (p.get t).conn.nextSeq ∧
    Tiles (p.get t).conn.sendBase.toNat (p.get t).conn.segments (p.get t).conn.nextSeq.toNat ∧
    (p.get t).sent.take (p.get t).conn.sendBase.toNat ++
        ((p.get t).conn.unacked.values.map (·.data)).flatten ++ (p.get t).conn.sendQueue =
      (p.get t).sent := by
  obtain ⟨cs, s, _, _, hf, _⟩ := reach_linked hseg hseg' h hfits t
  have hseg := hf.send.live halive
  refine ⟨hf.sendBase_le, hf.expectedSeq_le, ?_, ?_⟩
  · rw [hseg, hf.send.sendBase, hf.send.nextSeq]
    exact tiles_layout hf.send.nonempty rfl hf.base_le
  · have hdata : (p.get t).conn.unacked.values.map (·.data) =
        (layout cs s.base).map (·.2) := by
      rw [← hseg, Connection.segments, OrdMap.values, List.map_map, List.map_map]; rfl
    rw [hdata, hf.send.sendBase, hf.send.stream, List.take_append_of_le_length (pos_le_total cs _),
      take_append_layout]

theorem nothing_lost_sample : ∃ p, Pair.Reach .checked sampleConfig sampleConfig p ∧
    p.client.conn.unacked.entries.length = 2 ∧ p.client.conn.sendQueue.length = 1 ∧
    Tiles p.client.conn.sendBase.toNat p.client.conn.segments p.client.conn.nextSeq.toNat := by
  have hrun : Pair.plays .checked sampleConfig sampleConfig sampleRun
      (fun p => decide (p.Fits ∧ p.client.conn.isFailed = false ∧
        p.client.conn.unacked.entries.length = 2 ∧ p.client.conn.sendQueue.length = 1)) = true := by
    decide +kernel
  obtain ⟨p, hp, ht⟩ := Pair.plays_reach hrun
  obtain ⟨hfits, halive, hlen, hq⟩ := of_decide_eq_true ht
  exact ⟨p, hp, hlen, hq, (nothing_lost (by decide) (by decide) hp hfits .client halive).2.2.1⟩

/-! ## The end of the stream -/

/-- `X` has called `close`, and all it had sent by then is in `Y`'s in-order stream. -/
def StreamEnded (X Y : Endpoint) : Prop :=
  ∃ n, X.closedAt = some n ∧ n ≤ X.sent.length ∧ X.sent.take n <+: Y.inOrder

theorem Flow.ended (h : Flow cs s X Y) (hfin : FinFact X Y) : StreamEnded X Y := by
  obtain ⟨n, hn, hle⟩ := hfin
  refine ⟨n, hn, h.fin.closedAt_le n hn, ?_⟩
  rw [h.inOrder.1]
  exact List.take_prefix_take_left hle

/-- **End of stream is sound.** -/
theorem end_of_stream (hseg : 1 ≤ ccfg.segmentSize) (hseg' : 1 ≤ scfg.segmentSize)
    (h : Pair.Reach b ccfg scfg p) (hfits : p.Fits) (t : Side) :
    ((p.get t).conn.peerClosed → StreamEnded (p.get t.peer) (p.get t)) ∧
    ((p.get t).conn.state = .closed →
      StreamEnded (p.get t) (p.get t.peer) ∧ StreamEnded (p.get t.peer) (p.get t)) := by
  obtain ⟨cs, s, cs', s', hf, hf'⟩ := reach_linked hseg hseg' h hfits t
  refine ⟨fun hp => hf'.ended (hf'.fin.seen hp), fun hc => ⟨?_, ?_⟩⟩
  · exact hf.ended (hf.fin.acked (hf.fin.closed_acked hc))
  · exact hf'.ended (hf'.fin.seen (hf'.fin.closed_seen hc))

theorem end_of_stream_sample : ∃ p, Pair.Reach .checked sampleConfig sampleConfig p ∧
    p.server.conn.peerClosed ∧ p.client.conn.state = .closed ∧
    StreamEnded p.client p.server ∧ StreamEnded p.server p.client := by
  have hrun : Pair.plays .checked sampleConfig sampleConfig (sampleRun ++ sampleEnd)
      (fun p => decide (p.Fits ∧ p.server.conn.peerClosed ∧ p.client.conn.state = .closed)) =
      true := by decide +kernel
  obtain ⟨p, hp, ht⟩ := Pair.plays_reach hrun
  obtain ⟨hfits, hseen, hclosed⟩ := of_decide_eq_true ht
  have hs := (end_of_stream (by decide) (by decide) hp hfits .server).1 hseen
  have hc := (end_of_stream (by decide) (by decide) hp hfits .client).2 hclosed
  exact ⟨p, hp, hseen, hclosed, hs, hc.2⟩

/-! ## Selective acknowledgements -/

/-- `Y` has the bytes `data` at `k`: in its reorder buffer or in its in-order stream. -/
def HeldBy (Y : Endpoint) (k : U32) (data : List U8) : Prop :=
  (k, data) ∈ Y.conn.recvBuffer.entries ∨
    (k.toNat + data.length ≤ Y.conn.expectedSeq.toNat ∧
      (Y.inOrder.drop k.toNat).take data.length = data)

theorem Flow.sacked_held (h : Flow cs s X Y) {k : U32} {seg : UnackedSegment}
    (hm : (k, seg) ∈ X.conn.unacked.entries) (hs : seg.sacked) : HeldBy Y k seg.data := by
  obtain ⟨m, _, hdata, hk⟩ := h.send.mem_tile hm
  obtain ⟨m', hm', hk', a, ha, hma⟩ := h.send.sacked k seg hm hs
  have hmm : m' = m := pos_inj h.send.nonempty (Nat.le_of_lt hm')
    (Nat.le_of_lt (lt_of_getElem? hdata)) (hk'.symm.trans hk)
  subst hmm
  rcases h.inv.reported_has a ha _ hma with hlt | hheld
  · refine Or.inr ⟨?_, ?_⟩
    · rw [h.recv.expectedSeq, hk, ← pos_succ_of_getElem? hdata]
      exact pos_mono cs hlt
    · rw [Endpoint.inOrder, h.recv.stream, hk]
      exact slice_piece hdata hlt
  · exact Or.inl ((h.recv.buffer _).mpr ⟨m', hheld, hdata, hk⟩)

/-- The oldest segment starts at `send_base` and is not marked. -/
theorem Flow.oldest (h : Flow cs s X Y) {k : U32} {seg : UnackedSegment}
    {rest : List (U32 × UnackedSegment)} (he : X.conn.unacked.entries = (k, seg) :: rest) :
    k = X.conn.sendBase ∧ seg.sacked = false := by
  have hne := h.send.nonempty
  have hk : k.toNat = pos cs s.base ∧ s.base < cs.length := by
    rcases h.send.tiles with ht | ⟨_, hnil⟩
    · rw [Connection.segments, he, List.map_cons] at ht
      rcases Nat.lt_or_ge s.base cs.length with hlt | hge
      · rw [layout_cons hlt] at ht
        exact ⟨(Prod.mk.inj (List.cons.inj ht).1).1, hlt⟩
      · rw [layout_of_ge hge] at ht; cases ht
    · rw [hnil] at he; cases he
  refine ⟨BitVec.eq_of_toNat_eq (by rw [hk.1, h.send.sendBase]), ?_⟩
  by_contra hs
  obtain ⟨m, hm, hkm, a, ha, hma⟩ := h.send.sacked k seg (by rw [he]; exact List.mem_cons_self)
    (by simpa using hs)
  have hmb : m = s.base :=
    pos_inj hne (Nat.le_of_lt hm) (Nat.le_of_lt hk.2) (hkm.symm.trans hk.1)
  rw [hmb] at hma
  exact h.inv.base_not_reported ha hma

/-! ## What a timeout re-sends -/

variable {c c' : Connection} {out : List Datagram}

/-- The sweep of a due data timer. -/
theorem tickData_due {k : U32} {seg : UnackedSegment} {rest : List (U32 × UnackedSegment)}
    (he : c.unacked.entries = (k, seg) :: rest) (hdue : c.Due b seg.sentAt)
    (h : c.tickData b = .ok (c', out)) :
    ∃ bytes u, c.unacked.mapM (fun _ s => Connection.resend b c.now s) = .ok u ∧
      out = (u.entries.filter fun e => !e.2.sacked).map
        (fun e => Connection.buildDataFrame e.1 e.2.data bytes) ∧
      (c'.isFailed ∨ (c'.unacked = u ∧ c'.state = c.state ∧
        ∀ e ∈ u.entries, e.2.sacked = false → e.2.retransmitCount ≤ c.config.maxRetries)) := by
  cases tickData_branch h with
  | idle hidle => exact absurd hdue (hidle (k, seg) (by rw [he]; exact rfl))
  | fail _ _ _ _ _ hu => exact ⟨_, _, hu, rfl, Or.inl rfl⟩
  | sweep _ _ _ _ _ hu hle => exact ⟨_, _, hu, rfl, Or.inr ⟨rfl, rfl, hle⟩⟩

/-- What the sweep does to an unmarked segment. -/
theorem resend_unmarked {now : Tick} {seg seg' : UnackedSegment} (hs : seg.sacked = false)
    (h : Connection.resend b now seg = .ok seg') :
    b.add seg.retransmitCount 1#32 = .ok seg'.retransmitCount ∧ seg'.sentAt = now ∧
      seg'.sacked = false ∧ seg'.data = seg.data := by
  unfold Connection.resend at h
  rw [if_neg (by simp [hs])] at h
  obtain ⟨n, hn, h⟩ := bind_eq_ok.mp h
  cases h
  exact ⟨hn, rfl, hs, rfl⟩

/-- The data timer runs from now, for the segment at `k`. -/
def Armed (k : U32) (c : Connection) : Prop :=
  c.isFailed ∨ ∃ seg rest, c.unacked.entries = (k, seg) :: rest ∧ seg.sacked = false ∧
    seg.sentAt = c.now

/-- Without a datagram arriving, an armed timer stays so within the call. -/
theorem Armed.move {k : U32} (hok : SendOk c) (h : Armed k c) (hm : Move b none c c') :
    Armed k c' := by
  rcases h with hf | ⟨seg, rest, he, hs, hat⟩
  · cases hm with
    | startFin hst => simp [Connection.isFailed, hst] at hf
    | close hst => simp [Connection.isFailed, hst] at hf
    | failHandshake | failData | failFin => exact Or.inl rfl
    | synReceived hh | establish hh | deliver hh => cases hh
    | _ => exact Or.inl hf
  · cases hm with
    | @cut n =>
      have hins := entries_insert_of_gt (v := ⟨c.sendQueue.take n, c.now, 0, false⟩) hok.lt_nextSeq
      rw [he] at hins
      exact Or.inr ⟨seg, _, hins, hs, hat⟩
    | @sweep u est w w' st _ hu =>
      have hrel := mapM_rel hu
      rw [he] at hrel
      obtain ⟨es, hes⟩ : ∃ es, u.entries = es := ⟨_, rfl⟩
      rw [hes] at hrel
      cases hrel with
      | cons hr _ =>
        obtain ⟨_, h1, h2, _⟩ := resend_unmarked hs hr
        exact Or.inr ⟨_, _, hes, h2, h1⟩
    | failHandshake | failData | failFin => exact Or.inl rfl
    | synReceived hh | establish hh | dup hh | fast hh | deliver hh | seeFin hh => cases hh
    | learn hh | mark hh | finAck hh => cases hh
    | _ => exact Or.inr ⟨seg, rest, he, hs, hat⟩

theorem Armed.moves {k : U32} (hok : SendOk c) (h : Armed k c) (hm : Moves b none c c') :
    Armed k c' :=
  (hm.preserves (P := fun c => SendOk c ∧ Armed k c)
    (fun hc hm => ⟨hc.1.move hm, hc.2.move hc.1 hm⟩) ⟨hok, h⟩).2

/-- The retransmission timer fires at the tick `now`. -/
def Connection.RtoFires (b : Build) (c : Connection) (now : Tick) : Prop :=
  c.isOpen ∧ ∃ k seg rest, c.unacked.entries = (k, seg) :: rest ∧ (c.advance now).Due b seg.sentAt

/-- A firing timer re-sends the segment at `send_base`, is armed again unless the connection
    fails, and leaves out only what the peer has. -/
theorem Flow.timeout (h : Flow cs s X Y) {now : Tick} (hfire : X.conn.RtoFires b now)
    (hr : X.conn.onTick b now = .ok (c', out)) :
    (∃ seg bytes, (X.conn.sendBase, seg) ∈ X.conn.unacked.entries ∧
      Connection.buildDataFrame X.conn.sendBase seg.data bytes ∈ out) ∧
    (c'.isFailed ∨ ∃ seg rest, c'.unacked.entries = (X.conn.sendBase, seg) :: rest ∧
      seg.sentAt = c'.now) ∧
    ∀ k seg, (k, seg) ∈ X.conn.unacked.entries →
      (∃ bytes, Connection.buildDataFrame k seg.data bytes ∈ out) ∨ HeldBy Y k seg.data := by
  obtain ⟨ho, k, seg, rest, he, hdue⟩ := hfire
  obtain ⟨rfl, hs⟩ := h.oldest he
  rw [onTick_open b ho] at hr
  obtain ⟨c₁, out₁, h₁, hr⟩ := tickOpen_parts hr
  obtain ⟨bytes, u, hu, hout, hc₁⟩ := tickData_due (c := X.conn.advance now) he hdue h₁
  have hrel := mapM_rel hu
  have hsub : ∀ d ∈ out₁, d ∈ out := by
    rcases hr with ⟨_, _, rfl⟩ | ⟨_, c₂, out₂, _, ⟨_, _, rfl⟩ | ⟨_, out₃, _, rfl⟩⟩ <;>
      simp_all
  -- an unmarked segment is re-sent
  have hresent : ∀ k seg, (k, seg) ∈ X.conn.unacked.entries → seg.sacked = false →
      Connection.buildDataFrame k seg.data bytes ∈ out := by
    intro k seg hm hs
    obtain ⟨seg', hm', hr'⟩ := hrel.mem_left hm
    obtain ⟨_, _, hs', hd⟩ := resend_unmarked hs hr'
    refine hsub _ ?_
    rw [hout, List.mem_map]
    exact ⟨(k, seg'), List.mem_filter.mpr ⟨hm', by simp [hs']⟩, by rw [hd]⟩
  have hmem : (X.conn.sendBase, seg) ∈ X.conn.unacked.entries := by
    rw [he]; exact List.mem_cons_self
  refine ⟨⟨seg, bytes, hmem, hresent _ _ hmem hs⟩, ?_, fun k seg hm => ?_⟩
  · have hsend : SendOk (X.conn.advance now) := h.sendOk.of_segments rfl rfl rfl
    have hm₁ : Moves b none (X.conn.advance now) c₁ := tickData_moves h₁
    have hsend₁ : SendOk c₁ := hm₁.preserves SendOk.move hsend
    have harmed : Armed X.conn.sendBase c₁ := by
      rcases hc₁ with hf | ⟨hu', _, _⟩
      · exact Or.inl hf
      · have hrel' := hrel
        rw [show (X.conn.advance now).unacked.entries = _ from he, ← hu'] at hrel'
        obtain ⟨es, hes⟩ : ∃ es, c₁.unacked.entries = es := ⟨_, rfl⟩
        rw [hes] at hrel'
        cases hrel' with
        | cons hr' _ =>
          obtain ⟨_, hat, hs', _⟩ := resend_unmarked hs hr'
          exact Or.inr ⟨_, _, hes, hs', by rw [hat, hm₁.now]⟩
    have hrest : Moves b none c₁ c' := by
      rcases hr with ⟨_, rfl, _⟩ | ⟨_, c₂, out₂, h₂, ⟨_, rfl, _⟩ | ⟨_, out₃, h₃, _⟩⟩
      · exact .refl
      · exact tickFin_moves h₂
      · have hm₂ : Moves b none c₁ c₂ := tickFin_moves h₂
        refine hm₂.trans (drainAndMaybeFin_moves ?_ h₃)
        rw [hm₂.config, hm₁.config]
        exact h.send.segment_pos
    rcases harmed.moves hsend₁ hrest with hf | ⟨seg', rest', he', _, hat⟩
    · exact Or.inl hf
    · exact Or.inr ⟨seg', rest', he', hat⟩
  · by_cases hsack : seg.sacked
    · exact Or.inr (h.sacked_held hm hsack)
    · exact Or.inl ⟨bytes, hresent k seg hm (by simpa using hsack)⟩

/-- **SACK flags are truthful, and the timer segment is never SACKed.** -/
theorem sack_truthful (hseg : 1 ≤ ccfg.segmentSize) (hseg' : 1 ≤ scfg.segmentSize)
    (h : Pair.Reach b ccfg scfg p) (hfits : p.Fits) (t : Side) :
    (∀ k seg, (k, seg) ∈ (p.get t).conn.unacked.entries → seg.sacked →
      HeldBy (p.get t.peer) k seg.data) ∧
    (∀ k seg rest, (p.get t).conn.unacked.entries = (k, seg) :: rest → seg.sacked = false) ∧
    ∀ now c' out, (p.get t).conn.RtoFires b now → (p.get t).conn.onTick b now = .ok (c', out) →
      (∃ seg bytes, ((p.get t).conn.sendBase, seg) ∈ (p.get t).conn.unacked.entries ∧
        Connection.buildDataFrame (p.get t).conn.sendBase seg.data bytes ∈ out) ∧
      (c'.isFailed ∨ ∃ seg rest, c'.unacked.entries = ((p.get t).conn.sendBase, seg) :: rest ∧
        seg.sentAt = c'.now) ∧
      ∀ k seg, (k, seg) ∈ (p.get t).conn.unacked.entries →
        (∃ bytes, Connection.buildDataFrame k seg.data bytes ∈ out) ∨
          HeldBy (p.get t.peer) k seg.data := by
  obtain ⟨cs, s, _, _, hf, _⟩ := reach_linked hseg hseg' h hfits t
  exact ⟨fun k seg hm hs => hf.sacked_held hm hs, fun k seg rest he => (hf.oldest he).2,
    fun now c' out hfire hr => hf.timeout hfire hr⟩

theorem sack_truthful_sample : ∃ p, Pair.Reach .checked sampleConfig sampleConfig p ∧
    ∃ k seg, (k, seg) ∈ p.client.conn.unacked.entries ∧ seg.sacked ∧ HeldBy p.server k seg.data := by
  have hrun : Pair.plays .checked sampleConfig sampleConfig sampleRun
      (fun p => decide (p.Fits ∧ ∃ e ∈ p.client.conn.unacked.entries, e.2.sacked = true)) =
      true := by decide +kernel
  obtain ⟨p, hp, ht⟩ := Pair.plays_reach hrun
  obtain ⟨hfits, e, he, hs⟩ := of_decide_eq_true ht
  exact ⟨p, hp, e.1, e.2, he, hs,
    (sack_truthful (by decide) (by decide) hp hfits .client).1 e.1 e.2 he hs⟩

end Distrans
