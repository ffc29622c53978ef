import Distrans.Transport.Ledger

/-!
# What a connection emits is framed

* `call_frames` — **every datagram that a call emits is an encoded frame**, and its payload is no
  longer than a header and a segment.
-/

set_option autoImplicit false

namespace Distrans

open Machine OrdMap

variable {b : Build} {c c' c₁ : Connection} {out out' : List Datagram} {d : Datagram} {n : Nat}

/-- An encoded frame, whose payload is a header and at most `n` bytes. -/
def Framed (n : Nat) (d : Datagram) : Prop :=
  ∃ f : Frame, f.payload.length ≤ 42 + n ∧ d = f.encode

/-- No segment is longer than `n`. -/
structure Short (n : Nat) (c : Connection) : Prop where
  size : c.config.segmentSize = n
  pos : 1 ≤ n
  segments : ∀ e ∈ c.unacked.entries, e.2.data.length ≤ n

/-- Segments stay short, and what is emitted is framed. -/
def Frames (c : Connection) (out : List Datagram) (c' : Connection) : Prop :=
  ∀ n, Short n c → Short n c' ∧ ∀ d ∈ out, Framed n d

namespace Frames

theorem trans (h : Frames c out c₁) (h' : Frames c₁ out' c') : Frames c (out ++ out') c' := by
  intro n hs
  obtain ⟨hs₁, hout⟩ := h n hs
  obtain ⟨hs', hout'⟩ := h' n hs₁
  refine ⟨hs', fun d hd => ?_⟩
  rcases List.mem_append.mp hd with hd | hd
  · exact hout d hd
  · exact hout' d hd

/-- What is in flight is what was in flight before, or less. -/
theorem kept (hcfg : c'.config = c.config)
    (hun : ∀ e' ∈ c'.unacked.entries, ∃ e ∈ c.unacked.entries, e'.2.data = e.2.data)
    (hout : ∀ n, Short n c → ∀ d ∈ out, Framed n d) : Frames c out c' := by
  intro n hs
  refine ⟨⟨by rw [hcfg, hs.size], hs.pos, fun e' he' => ?_⟩, hout n hs⟩
  obtain ⟨e, he, heq⟩ := hun e' he'
  rw [heq]
  exact hs.segments e he

theorem same (hcfg : c'.config = c.config) (hun : c'.unacked = c.unacked)
    (hout : ∀ d ∈ out, Framed 0 d) : Frames c out c' := by
  refine kept hcfg (fun e he => ⟨e, by rw [← hun]; exact he, rfl⟩) fun n _ d hd => ?_
  obtain ⟨f, hlen, heq⟩ := hout d hd
  exact ⟨f, by omega, heq⟩

theorem quiet (hcfg : c'.config = c.config) (hun : c'.unacked = c.unacked) : Frames c [] c' :=
  same hcfg hun fun d hd => by cases hd

theorem refl (c : Connection) : Frames c [] c := quiet rfl rfl

theorem after (h : Frames c₁ out c') (hcfg : c₁.config = c.config) (hun : c₁.unacked = c.unacked) :
    Frames c out c' := (quiet hcfg hun).trans h

/-- A frame without data. -/
theorem bare (hcfg : c'.config = c.config) (hun : c'.unacked = c.unacked) (hd : Framed 0 d) :
    Frames c [d] c' := by
  refine same hcfg hun fun d' hd' => ?_
  rw [List.mem_singleton.mp hd']
  exact hd

end Frames

/-! ## Frames -/

theorem framed_encode (h : SegmentHeader) (seq : U32) (flags : U16) (data : List U8) :
    Framed data.length (encodeFrame seq flags (h.encode ++ data)) := by
  refine ⟨_, ?_, rfl⟩
  rw [List.length_append]
  exact Nat.add_le_add_right (SegmentHeader.encode_length_le h) _

theorem framed_bare (h : SegmentHeader) (seq : U32) (flags : U16) :
    Framed 0 (encodeFrame seq flags h.encode) := by
  have := framed_encode h seq flags []
  rwa [List.append_nil] at this

theorem framed_control {seq : U32} {flags : U16}
    (hd : (c.headerBytes b >>= fun h => Except.ok (encodeFrame seq flags h)) = .ok d) :
    Framed 0 d := by
  obtain ⟨bytes, hb, hd⟩ := bind_eq_ok.mp hd
  cases hd
  obtain ⟨hdr, _, rfl⟩ := headerBytes_spec hb
  exact framed_bare hdr seq flags

theorem framed_ack {finAck : Bool} (hd : c.buildPureAck b finAck = .ok d) : Framed 0 d := by
  obtain ⟨hdr, _, hd⟩ := bind_eq_ok.mp hd
  cases hd
  exact framed_bare hdr c.sendBase FLAG_ACK

theorem framed_data {bytes data : List U8} (hb : c.headerBytes b = .ok bytes) (seq : U32)
    (hlen : data.length ≤ n) : Framed n (Connection.buildDataFrame seq data bytes) := by
  obtain ⟨hdr, _, rfl⟩ := headerBytes_spec hb
  obtain ⟨f, hf, heq⟩ := framed_encode hdr seq FLAG_ACK data
  exact ⟨f, by omega, heq⟩

/-! ## Sending -/

theorem cutSegment_frames (hle : n ≤ c.config.segmentSize) (h : c.cutSegment b n = .ok (c', d)) :
    Frames c [d] c' := by
  obtain ⟨nextSeq, bytes, _, hbytes, rfl, rfl⟩ := cutSegment_spec h
  intro m hs
  have hlen : (c.sendQueue.take n).length ≤ m := by
    rw [List.length_take, ← hs.size]
    exact Nat.le_trans (Nat.min_le_left _ _) hle
  refine ⟨⟨hs.size, hs.pos, fun e he => ?_⟩, fun d hd => ?_⟩
  · rcases mem_insert.mp he with rfl | ⟨he, _⟩
    · exact hlen
    · exact hs.segments e he
  · rw [List.mem_singleton.mp hd]
    exact framed_data hbytes _ hlen

theorem trySendLoop_frames : ∀ {fuel : Nat} {c c' : Connection} {out : List Datagram},
    c.trySendLoop b fuel = .ok (c', out) → Frames c out c'
  | 0, _, _, _, h => by cases h
  | fuel + 1, c, c', out, h => by
    intro n hs
    rcases trySendLoop_cases (by rw [hs.size]; exact hs.pos) h with ⟨rfl, rfl, _⟩ |
      ⟨m, cap, c₁, d, out₁, _, _, _, _, hm, hcut, hrec, rfl⟩
    · exact Frames.refl _ n hs
    · exact (cutSegment_frames hm hcut).trans (trySendLoop_frames hrec) n hs

theorem checkFullyClosed_frames (c : Connection) : Frames c [] c.checkFullyClosed := by
  unfold Connection.checkFullyClosed
  split <;> exact Frames.quiet rfl rfl

theorem maybeSendFin_frames {fin : Option Datagram} (h : c.maybeSendFin b = .ok (c', fin)) :
    Frames c fin.toList c' := by
  cases maybeSendFin_branch h with
  | skip => exact .refl c
  | sent _ _ _ _ _ _ hd => exact .bare rfl rfl (framed_control hd)

theorem drainAndMaybeFin_frames (h : c.drainAndMaybeFin b = .ok (c', out)) : Frames c out c' := by
  obtain ⟨⟨c₁, out₁⟩, h₁, h⟩ := bind_eq_ok.mp h
  obtain ⟨⟨c₂, fin⟩, h₂, h⟩ := bind_eq_ok.mp h
  cases h
  have hsent : Frames c out₁ c₁ := by
    unfold Connection.trySendMore at h₁
    split at h₁
    · exact trySendLoop_frames h₁
    · cases h₁
      exact .refl c
  have hfin := (hsent.trans (maybeSendFin_frames h₂)).trans (checkFullyClosed_frames c₂)
  rwa [List.append_nil] at hfin

/-! ## Receiving -/

theorem ackMarks_frames {h : SegmentHeader} (hr : c.ackMarks h = .ok c') : Frames c [] c' := by
  have hmarks : ∀ {u : OrdMap U32 UnackedSegment},
      h.sack.foldlM (fun m r => m.mapRange r.start r.stop fun seg => { seg with sacked := true })
        c.unacked = .ok u → Frames c [] { c with unacked := u } := by
    intro u hu
    refine Frames.kept rfl (fun e he => ?_) fun _ _ d hd => by cases hd
    obtain ⟨v, hv, s, hs⟩ := (sackMarks_rel hu).mem he
    exact ⟨(e.1, v), hv, by rw [hs]⟩
  cases ackMarks_branch hr with
  | marked _ hu => exact hmarks hu
  | @finAcked u _ hu =>
    have hsettled : Frames { c with unacked := u } []
      { c with unacked := u, finAcked := true, finPending := none } := .quiet rfl rfl
    exact (hmarks hu).trans (hsettled.trans (checkFullyClosed_frames _))

theorem fastRetransmit_frames {resent : Option Datagram}
    (hr : c.fastRetransmit b = .ok (c', resent)) : Frames c resent.toList c' := by
  have hagain : ∀ {u : OrdMap U32 UnackedSegment}, c.unacked.mapFirst (fun seg => do
        let n ← b.add seg.retransmitCount 1#32
        .ok { seg with retransmitCount := n, sentAt := c.now }) = .ok u →
      ∀ e' ∈ u.entries, ∃ e ∈ c.unacked.entries, e'.2.data = e.2.data := by
    intro u hu e' he'
    obtain ⟨v, hv, ha⟩ := (fast_again hu).mem he'
    exact ⟨(e'.1, v), hv, ha.data.1⟩
  cases fastRetransmit_branch hr with
  | nothing _ hu _ => exact Frames.kept rfl (hagain hu) fun _ _ d hd => by cases hd
  | @oldest w k seg rest u bytes _ hu hes hb =>
    refine Frames.kept rfl (hagain hu) fun n hs d hd => ?_
    obtain ⟨e, he, heq⟩ := hagain hu (k, seg) (by rw [hes]; exact List.mem_cons_self)
    rw [List.mem_singleton.mp hd]
    exact framed_data hb k (by rw [show seg.data = e.2.data from heq]; exact hs.segments e he)

theorem applyAck_frames {h : SegmentHeader} {resent : Option Datagram}
    (hr : c.applyAck b h = .ok (c', resent)) : Frames c resent.toList c' := by
  cases applyAck_branch hr with
  | advance _ h₁ h₂ =>
    obtain ⟨_, r, w, _, _, _, rfl⟩ := ackAdvance_spec h₁
    have hlearned : Frames c [] { c with
        unacked := c.unacked.eraseAll (c.unacked.below h.ack), rto := r, sendBase := h.ack
        dupAckCount := 0, cwnd := w } := by
      refine .kept rfl (fun e he => ?_) fun _ _ d hd => by cases hd
      have he' : e ∈ (c.unacked.eraseAll (c.unacked.below h.ack)).entries := he
      rw [entries_eraseAll] at he'
      exact ⟨e, (List.mem_filter.mp he').1, rfl⟩
    exact hlearned.trans (ackMarks_frames h₂)
  | @duplicate n _ _ _ _ _ h₂ =>
    have hquiet : Frames c [] { c with dupAckCount := n } := .quiet rfl rfl
    exact hquiet.trans (ackMarks_frames h₂)
  | @resend n _ d _ _ _ _ hfast =>
    have hquiet : Frames c [] { c with dupAckCount := n } := .quiet rfl rfl
    exact hquiet.trans (fastRetransmit_frames hfast)
  | stale _ _ h₂ => exact ackMarks_frames h₂

theorem completeHandshake_frames (h : c.completeHandshake b = .ok c') : Frames c [] c' := by
  obtain ⟨r, rfl⟩ := completeHandshake_spec h
  exact .quiet rfl rfl

theorem handshakeArm_frames {isSyn isAck returns : Bool}
    (hr : c.handshakeArm b isSyn isAck = .ok (returns, c', out)) : Frames c out c' := by
  cases handshakeArm_branch hr with
  | greet _ _ hd | regreet _ _ hd | confirm _ _ hd => exact .bare rfl rfl (framed_control hd)
  | accept _ _ h₁ => exact completeHandshake_frames h₁
  | connect _ _ h₁ hd =>
    exact (completeHandshake_frames h₁).trans (.bare rfl rfl (framed_control hd))
  | pass => exact .refl c

theorem deliverData_frames {seq : U32} {data : List U8} (h : c.deliverData b seq data = .ok c') :
    Frames c [] c' := by
  obtain ⟨_, _, _, _, rfl⟩ := (deliverData_delivers h).fields
  exact .quiet rfl rfl

theorem openBlock_frames {h : SegmentHeader} {seq : U32} {app : List U8} {isAck isFin : Bool}
    (hr : c.openBlock b seq h app isAck isFin = .ok (c', out)) : Frames c out c' := by
  obtain ⟨c₁, resent, c₂, acks, out₄, hap, hdel, hans, hdrain, rfl⟩ := openBlock_parts hr
  have hacked : Frames c resent.toList c₁ := by
    split at hap
    · exact applyAck_frames hap
    · cases hap
      exact .refl c
  have hanswered : Frames c₁ acks c₂ := by
    have htaken := deliverData_frames hdel
    split at hans
    · rw [hans]
      exact htaken
    · obtain ⟨ack, hb, rfl⟩ := hans
      exact htaken.trans (.bare rfl rfl (framed_ack hb))
  have hnoted : ∀ f a, Frames c₂ [] (c₂.noted f a) := fun f a => .quiet rfl rfl
  rw [List.append_assoc]
  exact hacked.trans (hanswered.trans ((hnoted _ _).trans (drainAndMaybeFin_frames hdrain)))

theorem onSegment_frames {h : SegmentHeader} {seq : U32} {flags : U16} {app : List U8}
    (hr : c.onSegment b seq flags h app = .ok (c', out)) : Frames c out c' := by
  have hwindow : Frames c [] { c with peerWindow := h.window } := .quiet rfl rfl
  cases onSegment_branch hr with
  | closed _ _ hb => exact .bare rfl rfl (framed_ack hb)
  | handshake _ h₁ => exact hwindow.trans (handshakeArm_frames h₁)
  | block _ h₁ _ h₂ => exact (hwindow.trans (handshakeArm_frames h₁)).trans (openBlock_frames h₂)

theorem advance_frames (c : Connection) (now : Tick) : Frames c [] (c.advance now) := .quiet rfl rfl

theorem onDatagram_frames {now : Tick} (h : c.onDatagram b now d = .ok (c', out)) :
    Frames c out c' := by
  rcases onDatagram_cases h with ⟨rfl, rfl⟩ | ⟨f, hdr, app, _, hs⟩
  · exact advance_frames c now
  · exact (advance_frames c now).trans (onSegment_frames hs)

/-! ## Timers -/

theorem tickHandshake_frames (h : c.tickHandshake b = .ok (c', out)) : Frames c out c' := by
  cases tickHandshake_branch h with
  | idle => exact .refl c
  | fail => exact .quiet rfl rfl
  | retry _ _ _ _ _ hd =>
    refine .bare rfl rfl ?_
    rcases hd with ⟨_, hd⟩ | ⟨_, hd⟩ <;> exact framed_control hd

/-- What is swept is what was in flight. -/
theorem sweep_frames {u : OrdMap U32 UnackedSegment} {bytes : List U8}
    (hu : c.unacked.mapM (fun _ s => Connection.resend b c.now s) = .ok u)
    (hb : c.headerBytes b = .ok bytes) :
    (∀ e' ∈ u.entries, ∃ e ∈ c.unacked.entries, e'.2.data = e.2.data) ∧
    ∀ n, Short n c → ∀ d ∈ (u.entries.filter fun e => !e.2.sacked).map fun e =>
      Connection.buildDataFrame e.1 e.2.data bytes, Framed n d := by
  have hold : ∀ e' ∈ u.entries, ∃ e ∈ c.unacked.entries, e'.2.data = e.2.data := by
    intro e' he'
    obtain ⟨v, hv, ha⟩ := (sweep_again hu).mem he'
    exact ⟨(e'.1, v), hv, ha.data.1⟩
  refine ⟨hold, fun n hs d hd => ?_⟩
  obtain ⟨e', he', rfl⟩ := List.mem_map.mp hd
  obtain ⟨e, he, heq⟩ := hold e' (List.mem_filter.mp he').1
  exact framed_data hb _ (by rw [heq]; exact hs.segments e he)

theorem tickData_frames (h : c.tickData b = .ok (c', out)) : Frames c out c' := by
  cases tickData_branch h with
  | idle => exact .refl c
  | fail _ _ _ _ hb hu =>
    exact .kept rfl (fun e he => by cases he) (sweep_frames hu hb).2
  | sweep _ _ _ _ hb hu => exact .kept rfl (sweep_frames hu hb).1 (sweep_frames hu hb).2

theorem tickFin_frames (h : c.tickFin b = .ok (c', out)) : Frames c out c' := by
  cases tickFin_branch h with
  | idle => exact .refl c
  | fail => exact .quiet rfl rfl
  | retry _ _ _ _ _ hd => exact .bare rfl rfl (framed_control hd)

theorem onTick_frames {now : Tick} (h : c.onTick b now = .ok (c', out)) : Frames c out c' := by
  have hadv := advance_frames c now
  cases onTick_branch h with
  | handshake _ h => exact hadv.trans (tickHandshake_frames h)
  | opened _ h =>
    obtain ⟨c₁, out₁, h₁, hr⟩ := tickOpen_parts h
    have hd₁ := hadv.trans (tickData_frames h₁)
    rcases hr with ⟨_, rfl, rfl⟩ | ⟨_, c₂, out₂, h₂, hr⟩
    · exact hd₁
    · have hd₂ := hd₁.trans (tickFin_frames h₂)
      rcases hr with ⟨_, rfl, rfl⟩ | ⟨_, out₃, h₃, rfl⟩
      · exact hd₂
      · exact hd₂.trans (drainAndMaybeFin_frames h₃)
  | rest => exact hadv

/-! ## Calls -/

/-- **What a call emits is framed.** -/
theorem call_frames {e e' : Endpoint} {a : Call} (h : e.call b a = .ok e') :
    ∃ out, e'.emitted = e.emitted ++ out ∧ Frames e.conn out e'.conn := by
  cases a with
  | recv =>
    cases h
    exact ⟨[], rfl, .quiet rfl rfl⟩
  | send now data =>
    obtain ⟨⟨c', out⟩, hc, h⟩ := bind_eq_ok.mp h
    cases h
    unfold Connection.send at hc
    have hdrain := drainAndMaybeFin_frames hc
    exact ⟨out, rfl, hdrain.after rfl rfl⟩
  | close now =>
    obtain ⟨⟨c', out⟩, hc, h⟩ := bind_eq_ok.mp h
    cases h
    unfold Connection.close at hc
    have hdrain := drainAndMaybeFin_frames hc
    exact ⟨out, rfl, hdrain.after rfl rfl⟩
  | onTick now =>
    obtain ⟨⟨c', out⟩, hc, h⟩ := bind_eq_ok.mp h
    cases h
    exact ⟨out, rfl, onTick_frames hc⟩
  | onDatagram now d =>
    obtain ⟨⟨c', out⟩, hc, h⟩ := bind_eq_ok.mp h
    cases h
    exact ⟨out, rfl, onDatagram_frames hc⟩

/-- **Every datagram that an endpoint has emitted is framed**, from its birth on. -/
structure Framing (n : Nat) (e : Endpoint) : Prop where
  short : Short n e.conn
  framed : ∀ d ∈ e.emitted, Framed n d

theorem Framing.call {e e' : Endpoint} {a : Call} (hf : Framing n e) (h : e.call b a = .ok e') :
    Framing n e' := by
  obtain ⟨out, hout, hframes⟩ := call_frames h
  obtain ⟨hshort, hnew⟩ := hframes n hf.short
  refine ⟨hshort, fun d hd => ?_⟩
  rw [hout, List.mem_append] at hd
  exact hd.elim (hf.framed d) (hnew d)

theorem Born.framing {cfg : Config} {e : Endpoint} (hseg : 1 ≤ cfg.segmentSize) (h : Born b cfg e) :
    Framing cfg.segmentSize e := by
  cases h with
  | client h =>
    obtain ⟨c₀, hc₀, h⟩ := bind_eq_ok.mp h
    obtain ⟨d, hd, h⟩ := bind_eq_ok.mp h
    obtain ⟨w, _, hc₀⟩ := bind_eq_ok.mp hc₀
    cases hc₀
    cases h
    refine ⟨⟨rfl, hseg, fun e he => by cases he⟩, fun d' hd' => ?_⟩
    obtain ⟨f, hlen, heq⟩ := framed_control hd
    rw [List.mem_singleton.mp hd']
    exact ⟨f, by omega, heq⟩
  | server h =>
    obtain ⟨w, _, h⟩ := bind_eq_ok.mp h
    cases h
    exact ⟨⟨rfl, hseg, fun e he => by cases he⟩, fun d hd => by cases hd⟩

end Distrans
