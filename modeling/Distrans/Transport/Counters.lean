import Distrans.Transport.Accepts

/-!
# What a call adds to the counters

Retry counters and statistics only count what happens, and little happens in one call.  `Counts`
bounds them all; `call_counts` says how far one call can move the bounds.  In a run of fewer than
`2 ^ 32 - 1` calls none of them leaves its word (`Counts.stats`).
-/

set_option autoImplicit false

namespace Distrans

open Machine OrdMap Tiling

variable {b : Build} {c c' : Connection} {out : List Datagram}

/-- The sum never exceeds the exact one. -/
theorem add_toNat_le {w : Nat} {x y r : BitVec w} (h : b.add x y = .ok r) :
    r.toNat ≤ x.toNat + y.toNat := by
  rw [Build.fit_toNat h]
  exact Nat.mod_le _ _

/-- Limits for the counters of a connection. -/
structure Limits where
  /-- Data retransmissions of one segment, duplicate acknowledgements, congestion events. -/
  data : Nat
  /-- Retransmissions of one control segment, acknowledgements sent. -/
  control : Nat
  /-- Segments retransmitted, duplicate bytes. -/
  volume : Nat
  /-- Bytes passed to `send`. -/
  sent : Nat
  /-- Bytes returned by `recv`. -/
  read : Nat

structure Counts (l : Limits) (c : Connection) : Prop where
  dups : c.dupAckCount.toNat ≤ l.data
  resent : ∀ e ∈ c.unacked.entries, e.2.retransmitCount.toNat ≤ l.data
  handshake : ∀ p, c.handshake = some p → p.attempts.toNat ≤ l.control + 1
  fin : ∀ p, c.finPending = some p → p.attempts.toNat ≤ l.control + 1
  fastRetransmits : c.stats.fastRetransmits ≤ l.data
  congestionEvents : c.stats.congestionEvents ≤ l.data
  ackSegments : c.stats.ackSegmentsSent ≤ l.control
  controlSegments : c.stats.controlRetransmissions ≤ l.control
  resentSegments : c.stats.dataSegmentsRetransmitted ≤ l.volume
  duplicateBytes : c.stats.duplicateBytesReceived ≤ l.volume
  dataSegments : c.stats.dataSegmentsSent + c.sendQueue.length ≤ l.sent
  sentBytes : c.stats.bytesSentApp ≤ l.sent
  deliveredBytes : c.stats.bytesDeliveredApp = l.read + c.delivered.length

variable {l l' : Limits}

/-- Limits may be raised, except for what has been read. -/
structure Limits.Le (l l' : Limits) : Prop where
  data : l.data ≤ l'.data
  control : l.control ≤ l'.control
  volume : l.volume ≤ l'.volume
  sent : l.sent ≤ l'.sent
  read : l.read = l'.read

theorem Counts.mono (h : Counts l c) (hle : l.Le l') : Counts l' c where
  dups := Nat.le_trans h.dups hle.data
  resent := fun e he => Nat.le_trans (h.resent e he) hle.data
  handshake := fun p hp => Nat.le_trans (h.handshake p hp) (Nat.succ_le_succ hle.control)
  fin := fun p hp => Nat.le_trans (h.fin p hp) (Nat.succ_le_succ hle.control)
  fastRetransmits := Nat.le_trans h.fastRetransmits hle.data
  congestionEvents := Nat.le_trans h.congestionEvents hle.data
  ackSegments := Nat.le_trans h.ackSegments hle.control
  controlSegments := Nat.le_trans h.controlSegments hle.control
  resentSegments := Nat.le_trans h.resentSegments hle.volume
  duplicateBytes := Nat.le_trans h.duplicateBytes hle.volume
  dataSegments := Nat.le_trans h.dataSegments hle.sent
  sentBytes := Nat.le_trans h.sentBytes hle.sent
  deliveredBytes := by rw [← hle.read]; exact h.deliveredBytes

/-! ## Sending -/

theorem cutSegment_counts (h : Counts l c) {n : Nat} {d : Datagram} (hn : 0 < n)
    (hq : n ≤ c.sendQueue.length) (hr : c.cutSegment b n = .ok (c', d)) : Counts l c' := by
  obtain ⟨nextSeq, bytes, _, _, _, rfl⟩ := cutSegment_spec hr
  refine { h with resent := fun e he => ?_, dataSegments := ?_ }
  · rcases mem_insert.mp he with rfl | ⟨he, _⟩
    · exact Nat.zero_le _
    · exact h.resent e he
  · have := h.dataSegments
    simp only [List.length_drop]
    omega

theorem trySendLoop_counts : ∀ {fuel : Nat} {c c' : Connection} {out : List Datagram}, Counts l c →
    1 ≤ c.config.segmentSize → c.trySendLoop b fuel = .ok (c', out) → Counts l c'
  | 0, _, _, _, _, _, hr => by cases hr
  | fuel + 1, c, c', out, h, hseg, hr => by
    rcases trySendLoop_cases hseg hr with ⟨rfl, _, _⟩ |
      ⟨n, cap, c₁, d, out₁, _, hn, hq, _, _, hcut, hrec, _⟩
    · exact h
    · exact trySendLoop_counts (cutSegment_counts h hn hq hcut)
        (by rw [(cutSegment_state hcut).2]; exact hseg) hrec

theorem checkFullyClosed_counts (h : Counts l c) : Counts l c.checkFullyClosed := by
  unfold Connection.checkFullyClosed
  split
  · exact { h with }
  · exact h

theorem drainAndMaybeFin_counts (h : Counts l c) (hseg : 1 ≤ c.config.segmentSize)
    (hr : c.drainAndMaybeFin b = .ok (c', out)) : Counts l c' := by
  obtain ⟨⟨c₁, out₁⟩, h₁, hr⟩ := bind_eq_ok.mp hr
  obtain ⟨⟨c₂, fin⟩, h₂, hr⟩ := bind_eq_ok.mp hr
  cases hr
  have hc₁ : Counts l c₁ := by
    unfold Connection.trySendMore at h₁
    split at h₁
    · exact trySendLoop_counts h hseg h₁
    · cases h₁; exact h
  refine checkFullyClosed_counts ?_
  cases maybeSendFin_branch h₂ with
  | skip => exact hc₁
  | sent => exact { hc₁ with fin := fun p hp => by cases hp; exact Nat.le_add_left 1 _ }

/-! ## Receiving -/

theorem completeHandshake_counts (h : Counts l c) (hr : c.completeHandshake b = .ok c') :
    Counts l c' := by
  obtain ⟨r, rfl⟩ := completeHandshake_spec hr
  exact { h with handshake := fun p hp => by cases hp }

theorem handshakeArm_counts (h : Counts l c) {isSyn isAck returns : Bool}
    (hr : c.handshakeArm b isSyn isAck = .ok (returns, c', out)) : Counts l c' := by
  cases handshakeArm_branch hr with
  | greet => exact { h with handshake := fun p hp => by cases hp; exact Nat.le_add_left 1 _ }
  | accept _ _ h₁ => exact completeHandshake_counts h h₁
  | connect _ _ h₁ => exact completeHandshake_counts h h₁
  | regreet | confirm | pass => exact h

section Incoming

variable {hdr : SegmentHeader} {app : List U8}

theorem ackAdvance_counts (h : Counts l c) (hr : c.ackAdvance b hdr = .ok c') : Counts l c' := by
  obtain ⟨_, r, w, _, _, _, rfl⟩ := ackAdvance_spec hr
  refine { h with dups := Nat.zero_le _, resent := fun e he => ?_ }
  have he' : e ∈ (c.unacked.eraseAll (c.unacked.below hdr.ack)).entries := he
  rw [entries_eraseAll] at he'
  exact h.resent e (List.mem_of_mem_filter he')

/-- Marking a segment leaves its counter alone. -/
theorem sackMarks_resent {n : Nat} : ∀ {rs : List SackRange} {u u' : OrdMap U32 UnackedSegment},
    (∀ e ∈ u.entries, e.2.retransmitCount.toNat ≤ n) →
    rs.foldlM (fun m r => m.mapRange r.start r.stop fun seg => { seg with sacked := true }) u =
      .ok u' → ∀ e ∈ u'.entries, e.2.retransmitCount.toNat ≤ n
  | [], u, u', h, hr => by cases hr; exact h
  | r :: rs, u, u', h, hr => by
    rw [List.foldlM_cons] at hr
    obtain ⟨u₁, hu₁, hr⟩ := bind_eq_ok.mp hr
    refine sackMarks_resent (fun e he => ?_) hr
    obtain ⟨v, hv, hrel⟩ := (mapRange_rel hu₁).mem (show (e.1, e.2) ∈ u₁.entries from he)
    rcases hrel with heq | ⟨_, _, heq⟩ <;> rw [heq] <;> exact h _ hv

theorem ackMarks_counts (h : Counts l c) (hr : c.ackMarks hdr = .ok c') : Counts l c' := by
  cases ackMarks_branch hr with
  | marked _ hu => exact { h with resent := sackMarks_resent h.resent hu }
  | finAcked _ hu =>
    refine checkFullyClosed_counts { h with resent := sackMarks_resent h.resent hu, fin := fun p hp => ?_ }
    cases hp

/-- The data counters go up by one. -/
def Limits.retry (l : Limits) : Limits := { l with data := l.data + 1, volume := l.volume + 1 }

theorem Limits.le_retry (l : Limits) : l.Le l.retry :=
  ⟨Nat.le_succ _, Nat.le_refl _, Nat.le_succ _, Nat.le_refl _, rfl⟩

/-- Sending segments again raises each counter by one at most. -/
theorem again_resent {n : Nat} {now : Tick} {m u : OrdMap U32 UnackedSegment}
    (h : ∀ e ∈ m.entries, e.2.retransmitCount.toNat ≤ n)
    (hu : EntriesRel (fun _ => SentAgain b now) m.entries u.entries) :
    ∀ e ∈ u.entries, e.2.retransmitCount.toNat ≤ n + 1 := by
  intro e he
  obtain ⟨v, hv, hagain⟩ := hu.mem (show (e.1, e.2) ∈ u.entries from he)
  have hle := h _ hv
  rcases hagain with heq | ⟨m, hm, heq⟩
  · rw [heq]; exact Nat.le_succ_of_le hle
  · rw [heq]
    exact Nat.le_trans (add_toNat_le hm) (Nat.succ_le_succ hle)

theorem fastRetransmit_counts (h : Counts l { c with dupAckCount := 0 }) {resent : Option Datagram}
    (hr : c.fastRetransmit b = .ok (c', resent)) : Counts l.retry c' := by
  have hup := h.mono l.le_retry
  cases fastRetransmit_branch hr with
  | nothing _ hu =>
    exact { hup with
      resent := again_resent h.resent (fast_again hu)
      fastRetransmits := Nat.succ_le_succ h.fastRetransmits
      congestionEvents := Nat.succ_le_succ h.congestionEvents }
  | oldest _ hu =>
    exact { hup with
      resent := again_resent h.resent (fast_again hu)
      fastRetransmits := Nat.succ_le_succ h.fastRetransmits
      congestionEvents := Nat.succ_le_succ h.congestionEvents
      resentSegments := Nat.succ_le_succ h.resentSegments }

theorem applyAck_counts (h : Counts l c) {resent : Option Datagram}
    (hr : c.applyAck b hdr = .ok (c', resent)) : Counts l.retry c' := by
  have hup := h.mono l.le_retry
  cases applyAck_branch hr with
  | advance _ h₁ h₂ => exact ackMarks_counts (ackAdvance_counts hup h₁) h₂
  | duplicate _ _ hd _ h₂ =>
    refine ackMarks_counts ?_ h₂
    refine { hup with dups := ?_ }
    have := add_toNat_le hd
    have := h.dups
    simp only [Limits.retry, show (1#32).toNat = 1 from rfl] at *
    omega
  | resend _ _ _ _ hfast => exact fastRetransmit_counts { h with dups := Nat.zero_le _ } hfast
  | stale _ _ h₂ => exact ackMarks_counts hup h₂

/-- Draining moves bytes that have been counted when they came. -/
theorem drainLoop_counts : ∀ {fuel : Nat} {c c' : Connection}, Counts l c →
    c.drainLoop b fuel = .ok c' → Counts l c'
  | 0, _, _, _, hr => by cases hr
  | fuel + 1, c, c', h, hr => by
    rcases drainLoop_cases hr with rfl | ⟨v, expectedSeq, _, _, hr⟩
    · exact h
    · refine drainLoop_counts ?_ hr
      refine { h with deliveredBytes := ?_ }
      have := h.deliveredBytes
      simp only [List.length_append]
      omega

/-- The volume goes up by `n`. -/
def Limits.take (l : Limits) (n : Nat) : Limits := { l with volume := l.volume + n }

theorem Limits.le_take (l : Limits) (n : Nat) : l.Le (l.take n) :=
  ⟨Nat.le_refl _, Nat.le_refl _, Nat.le_add_right _ _, Nat.le_refl _, rfl⟩

theorem deliverData_counts (h : Counts l c) {seq : U32} {data : List U8}
    (hr : c.deliverData b seq data = .ok c') : Counts (l.take data.length) c' := by
  have hup := h.mono (l.le_take data.length)
  have hdup := h.duplicateBytes
  have hdel := h.deliveredBytes
  cases deliverData_branch hr with
  | empty => exact hup
  | old => exact { hup with duplicateBytes := Nat.add_le_add_right hdup _ }
  | next _ _ _ _ _ hfresh hdrain =>
    have hlen := (slice_length hfresh).1
    have hskip := slice_le hfresh
    refine drainLoop_counts ?_ hdrain
    refine { hup with duplicateBytes := ?_, deliveredBytes := ?_ }
    · simp only [Limits.take]; omega
    · simp only [Limits.take, List.length_append]; omega
  | early => exact { hup with }

theorem openBlock_counts (h : Counts l c) (hseg : 1 ≤ c.config.segmentSize) {seq : U32}
    {isAck isFin : Bool} (ho : c.isOpen)
    (hr : c.openBlock b seq hdr app isAck isFin = .ok (c', out)) :
    Counts { l with
      data := l.data + 1, control := l.control + 1, volume := l.volume + 1 + app.length } c' := by
  obtain ⟨c₁, resent, c₂, _, out₄, h₁, h₂, _, h₄, _⟩ := openBlock_parts hr
  have hack : Counts l.retry c₁ := by
    split at h₁
    · exact applyAck_counts h h₁
    · cases h₁; exact h.mono l.le_retry
  have hm₁ := ack_moves ho h₁
  have hseg₂ : 1 ≤ c₂.config.segmentSize := by
    obtain ⟨buf, ex, st, del, rfl⟩ := (deliverData_delivers h₂).fields
    show 1 ≤ c₁.config.segmentSize
    rw [hm₁.config]; exact hseg
  have hdel := deliverData_counts hack h₂
  have hup : Counts { l with
      data := l.data + 1, control := l.control + 1, volume := l.volume + 1 + app.length } c₂ :=
    hdel.mono ⟨Nat.le_refl _, Nat.le_succ _, Nat.le_refl _, Nat.le_refl _, rfl⟩
  refine drainAndMaybeFin_counts ?_ (by exact hseg₂) h₄
  exact { hup with ackSegments := Nat.add_le_add hdel.ackSegments (Bool.toNat_le _) }

/-- The limits after one call, whose own bytes raise the last two. -/
def Limits.call (l : Limits) : Limits :=
  { l with data := l.data + 1, control := l.control + 1, volume := l.volume + 2 ^ 32 }

theorem Limits.le_call (l : Limits) : l.Le l.call :=
  ⟨Nat.le_succ _, Nat.le_succ _, Nat.le_add_right _ _, Nat.le_refl _, rfl⟩

theorem onSegment_counts (h : Counts l c) (hseg : 1 ≤ c.config.segmentSize) {seq : U32} {flags : U16}
    (hlen : app.length < 2 ^ 32) (hr : c.onSegment b seq flags hdr app = .ok (c', out)) :
    Counts l.call c' := by
  have h₀ : Counts l { c with peerWindow := hdr.window } := { h with }
  cases onSegment_branch hr with
  | closed => exact h₀.mono l.le_call
  | handshake _ h₁ => exact (handshakeArm_counts h₀ h₁).mono l.le_call
  | block _ h₁ ho h₂ =>
    have hk := handshakeArm_recv h₁
    refine (openBlock_counts (handshakeArm_counts h₀ h₁) (by rw [hk.config]; exact hseg) ho h₂).mono
      ⟨Nat.le_refl _, Nat.le_refl _, ?_, Nat.le_refl _, rfl⟩
    simp only [Limits.call]
    omega

end Incoming

/-! ## Timers -/

theorem tickHandshake_counts (h : Counts l c) (hr : c.tickHandshake b = .ok (c', out)) :
    Counts { l with control := l.control + 1 } c' := by
  have hup : Counts { l with control := l.control + 1 } c :=
    h.mono ⟨Nat.le_refl _, Nat.le_succ _, Nat.le_refl _, Nat.le_refl _, rfl⟩
  cases tickHandshake_branch hr with
  | idle => exact hup
  | fail => exact { hup with handshake := fun p hp => by cases hp }
  | retry hp _ hadd =>
    refine { hup with handshake := fun p' hp' => ?_, controlSegments := ?_ }
    · cases hp'
      exact Nat.le_trans (add_toNat_le hadd) (Nat.succ_le_succ (h.handshake _ hp))
    · exact Nat.succ_le_succ h.controlSegments

theorem tickFin_counts (h : Counts l c) (hr : c.tickFin b = .ok (c', out)) :
    Counts { l with control := l.control + 1 } c' := by
  have hup : Counts { l with control := l.control + 1 } c :=
    h.mono ⟨Nat.le_refl _, Nat.le_succ _, Nat.le_refl _, Nat.le_refl _, rfl⟩
  cases tickFin_branch hr with
  | idle => exact hup
  | fail => exact { hup with fin := fun p hp => by cases hp }
  | retry hp _ hadd =>
    refine { hup with fin := fun p' hp' => ?_, controlSegments := ?_ }
    · cases hp'
      exact Nat.le_trans (add_toNat_le hadd) (Nat.succ_le_succ (h.fin _ hp))
    · exact Nat.succ_le_succ h.controlSegments

/-- What a sweep re-sends. -/
theorem sweep_length {u : OrdMap U32 UnackedSegment}
    (hu : c.unacked.mapM (fun _ s => Connection.resend b c.now s) = .ok u) :
    (u.entries.filter fun e => !e.2.sacked).length ≤ c.unacked.entries.length := by
  have hkeys : u.entries.length = c.unacked.entries.length := by
    simpa using congrArg List.length (mapM_rel hu).keys
  have := List.length_filter_le (fun e : U32 × UnackedSegment => !e.2.sacked) u.entries
  omega

theorem tickData_counts (h : Counts l c) {n : Nat} (hn : c.unacked.entries.length ≤ n)
    (hr : c.tickData b = .ok (c', out)) :
    Counts { l with data := l.data + 1, volume := l.volume + n } c' := by
  have hup : Counts { l with data := l.data + 1, volume := l.volume + n } c :=
    h.mono ⟨Nat.le_succ _, Nat.le_refl _, Nat.le_add_right _ _, Nat.le_refl _, rfl⟩
  cases tickData_branch hr with
  | idle => exact hup
  | fail _ _ _ _ _ hu =>
    exact { hup with
      dups := Nat.zero_le _
      resent := fun e he => by cases he
      congestionEvents := Nat.succ_le_succ h.congestionEvents
      resentSegments := Nat.add_le_add h.resentSegments (Nat.le_trans (sweep_length hu) hn) }
  | sweep _ _ _ _ _ hu =>
    exact { hup with
      dups := Nat.zero_le _
      resent := again_resent h.resent (sweep_again hu)
      congestionEvents := Nat.succ_le_succ h.congestionEvents
      resentSegments := Nat.add_le_add h.resentSegments (Nat.le_trans (sweep_length hu) hn) }

/-- There are no more segments than bytes. -/
theorem SendOk.length_lt (h : SendOk c) : c.unacked.entries.length < 2 ^ 32 := by
  obtain ⟨a, ht⟩ := h.tiles
  have hlen := ht.length_le
  have hlt := c.nextSeq.isLt
  rw [Connection.segments, List.length_map] at hlen
  omega

theorem tickOpen_counts (h : Counts l c) (hs : SendOk c) (hseg : 1 ≤ c.config.segmentSize)
    (hr : c.tickOpen b = .ok (c', out)) : Counts l.call c' := by
  obtain ⟨c₁, out₁, h₁, hr⟩ := tickOpen_parts hr
  have hc₁ := tickData_counts h (Nat.le_of_lt hs.length_lt) h₁
  have hm₁ : Moves b none c c₁ := tickData_moves h₁
  rcases hr with ⟨_, rfl, _⟩ | ⟨_, c₂, out₂, h₂, hr⟩
  · exact hc₁.mono ⟨Nat.le_refl _, Nat.le_succ _, Nat.le_refl _, Nat.le_refl _, rfl⟩
  · have hc₂ : Counts l.call c₂ := tickFin_counts hc₁ h₂
    have hm₂ := hm₁.trans (tickFin_moves h₂)
    rcases hr with ⟨_, rfl, _⟩ | ⟨_, out₃, h₃, _⟩
    · exact hc₂
    · exact drainAndMaybeFin_counts hc₂ (by rw [hm₂.config]; exact hseg) h₃

theorem onTick_counts (h : Counts l c) (hs : SendOk c) (hseg : 1 ≤ c.config.segmentSize) {now : Tick}
    (hr : c.onTick b now = .ok (c', out)) : Counts l.call c' := by
  have h₀ : Counts l (c.advance now) := { h with }
  have hs₀ : SendOk (c.advance now) := hs.of_segments rfl rfl rfl
  have hle : Limits.Le { l with control := l.control + 1 } l.call :=
    ⟨Nat.le_succ _, Nat.le_refl _, Nat.le_add_right _ _, Nat.le_refl _, rfl⟩
  cases onTick_branch hr with
  | handshake _ hr => exact (tickHandshake_counts h₀ hr).mono hle
  | opened _ hr => exact tickOpen_counts h₀ hs₀ hseg hr
  | rest => exact h₀.mono l.le_call

/-! ## Calls -/

/-- The limits after `n` calls. -/
def Limits.after (n : Nat) (e : Endpoint) : Limits :=
  ⟨n, n, n * 2 ^ 32, e.sent.length, e.received.length⟩

theorem Limits.after_succ (n : Nat) (e : Endpoint) :
    Limits.after (n + 1) e = (Limits.after n e).call := by
  simp only [Limits.after, Limits.call, Nat.succ_mul]

theorem Counts.later {e : Endpoint} {n m : Nat} (h : Counts (.after n e) e.conn) (hle : n ≤ m) :
    Counts (.after m e) e.conn :=
  h.mono ⟨hle, hle, Nat.mul_le_mul_right _ hle, Nat.le_refl _, rfl⟩

theorem call_counts {e e' : Endpoint} {a : Call} {n : Nat} (h : Counts (.after n e) e.conn)
    (hs : SendOk e.conn) (hseg : 1 ≤ e.conn.config.segmentSize) (hr : e.call b a = .ok e') :
    Counts (.after (n + 1) e') e'.conn := by
  cases a with
  | send now data =>
    obtain ⟨⟨c', out⟩, hc, hr⟩ := bind_eq_ok.mp hr
    cases hr
    have hseg' := h.dataSegments
    have hsent := h.sentBytes
    have hraise : Limits.Le (.after n e) (.after (n + 1) { e with sent := e.sent ++ data }) := by
      constructor <;> simp [Limits.after, Nat.succ_mul]
    have hup := h.mono hraise
    unfold Connection.send at hc
    refine drainAndMaybeFin_counts ?_ ?_ hc
    · refine { hup with dataSegments := ?_, sentBytes := ?_ }
      · show e.conn.stats.dataSegmentsSent + (e.conn.sendQueue ++ data).length ≤ (e.sent ++ data).length
        simp only [Limits.after] at hseg'
        simp only [List.length_append]
        omega
      · show e.conn.stats.bytesSentApp + data.length ≤ (e.sent ++ data).length
        simp only [Limits.after] at hsent
        simp only [List.length_append]
        omega
    · exact hseg
  | close now =>
    obtain ⟨⟨c', out⟩, hc, hr⟩ := bind_eq_ok.mp hr
    cases hr
    have hup : Counts (.after (n + 1) e) e.conn := h.later (Nat.le_succ n)
    unfold Connection.close at hc
    refine drainAndMaybeFin_counts ?_ ?_ hc
    · exact { hup with }
    · exact hseg
  | recv =>
    cases hr
    have hup : Counts (.after (n + 1) e) e.conn := h.later (Nat.le_succ n)
    refine { hup with deliveredBytes := ?_ }
    have := h.deliveredBytes
    simp only [Limits.after, Endpoint.put, List.length_append, List.length_nil] at *
    omega
  | onTick now =>
    obtain ⟨⟨c', out⟩, hc, hr⟩ := bind_eq_ok.mp hr
    cases hr
    have hcount := onTick_counts h hs hseg hc
    rw [← Limits.after_succ] at hcount
    exact hcount
  | onDatagram now d =>
    obtain ⟨⟨c', out⟩, hc, hr⟩ := bind_eq_ok.mp hr
    cases hr
    have h₀ : Counts (.after n e) (e.conn.advance now) := { h with }
    rcases onDatagram_cases hc with ⟨rfl, rfl⟩ | ⟨f, hdr, app, hcar, hseg₁⟩
    · exact Counts.mono h₀ ⟨Nat.le_succ _, Nat.le_succ _, Nat.mul_le_mul_right _ (Nat.le_succ _),
        Nat.le_refl _, rfl⟩
    · have hcount := onSegment_counts h₀ hseg hcar.length_lt hseg₁
      rw [← Limits.after_succ] at hcount
      exact hcount

end Distrans
