import Distrans.Transport.Returns

/-!
# Processing a segment

Decoding is total, but the fields of a segment whose checksum is right go unchecked into range
queries and sequence arithmetic.  `Accepts` collects what they must satisfy when the segment is
processed: `onSegment_returns` is the one direction (in order, and the connection consistent: the
call returns), `onSegment_inOrder` the other one.
-/

set_option autoImplicit false

namespace Distrans

open Machine OrdMap

variable {b : Build} {c c' : Connection} {out : List Datagram}

/-! ## What a segment must satisfy -/

/-- The duplicate acknowledgement that triggers the fast retransmit. -/
def Connection.Resends (c : Connection) (h : SegmentHeader) : Prop :=
  h.ack = c.sendBase ∧ c.unacked.isEmpty = false ∧
    c.dupAckCount + 1#32 = c.config.fastRetransmitDupAcks

/-- The acknowledgement fields are in order for `apply_ack`. -/
structure AckFits (b : Build) (c : Connection) (h : SegmentHeader) : Prop where
  /-- Every selective-ack range that is looked at starts before it ends. -/
  ranges : ¬ c.Resends h → ∀ r ∈ h.sack, r.start ≤ r.stop
  /-- The round trips it completes can be scaled. -/
  acked : b = .checked → c.sendBase < h.ack → ∀ e ∈ c.unacked.entries, e.1 < h.ack →
    e.2.retransmitCount = 0 → (c.since e.2.sentAt).toNat < RTT_LIMIT
  /-- The counters it raises are not full. -/
  dups : b = .checked → h.ack = c.sendBase → c.unacked.isEmpty = false →
    c.dupAckCount ≠ BitVec.allOnes 32
  resend : b = .checked → c.Resends h →
    ∀ e ∈ c.unacked.entries.head?, e.2.retransmitCount ≠ BitVec.allOnes 32

/-- The fields of a segment are in order for a connection that admits it. -/
structure InOrder (b : Build) (c : Connection) (f : Frame) (h : SegmentHeader) (app : List U8) :
    Prop where
  ack : f.flags &&& FLAG_ACK ≠ 0#16 → AckFits b c h
  /-- The payload lies within the sequence space. -/
  data : b = .checked → app ≠ [] → f.sequence.toNat + app.length < 2 ^ 32
  /-- The round trip of a handshake it completes can be scaled. -/
  handshake : b = .checked → c.isOpen = false → ∀ p, c.handshake = some p → p.attempts = 1 →
    (c.since p.sentAt).toNat < RTT_LIMIT

/-- The segment carried by `d`, if it is admitted, is in order at the tick `now`. -/
def Accepts (b : Build) (c : Connection) (now : Tick) (d : Datagram) : Prop :=
  ∀ s ∈ (Call.onDatagram now d).segment?,
    c.admits (s.1.flags &&& FLAG_SYN != 0#16) (s.1.flags &&& FLAG_ACK != 0#16) = true →
    InOrder b (c.advance now) s.1 s.2.1 s.2.2

instance decidableResends (c : Connection) (h : SegmentHeader) : Decidable (c.Resends h) :=
  inferInstanceAs (Decidable (_ ∧ _ ∧ _))

instance decidableAckFits (b : Build) (c : Connection) (h : SegmentHeader) :
    Decidable (AckFits b c h) :=
  decidable_of_iff ((¬ c.Resends h → ∀ r ∈ h.sack, r.start ≤ r.stop) ∧
    (b = .checked → c.sendBase < h.ack → ∀ e ∈ c.unacked.entries, e.1 < h.ack →
      e.2.retransmitCount = 0 → (c.since e.2.sentAt).toNat < RTT_LIMIT) ∧
    (b = .checked → h.ack = c.sendBase → c.unacked.isEmpty = false →
      c.dupAckCount ≠ BitVec.allOnes 32) ∧
    (b = .checked → c.Resends h →
      ∀ e ∈ c.unacked.entries.head?, e.2.retransmitCount ≠ BitVec.allOnes 32))
    ⟨fun ⟨h1, h2, h3, h4⟩ => ⟨h1, h2, h3, h4⟩, fun h => ⟨h.ranges, h.acked, h.dups, h.resend⟩⟩

instance decidableInOrder (b : Build) (c : Connection) (f : Frame) (h : SegmentHeader)
    (app : List U8) : Decidable (InOrder b c f h app) :=
  decidable_of_iff ((f.flags &&& FLAG_ACK ≠ 0#16 → AckFits b c h) ∧
    (b = .checked → app ≠ [] → f.sequence.toNat + app.length < 2 ^ 32) ∧
    (b = .checked → c.isOpen = false → ∀ p ∈ c.handshake, p.attempts = 1 →
      (c.since p.sentAt).toNat < RTT_LIMIT))
    ⟨fun ⟨h1, h2, h3⟩ => ⟨h1, h2, h3⟩, fun h => ⟨h.ack, h.data, h.handshake⟩⟩

instance decidableAccepts (b : Build) (c : Connection) (now : Tick) (d : Datagram) :
    Decidable (Accepts b c now d) :=
  inferInstanceAs (Decidable (∀ s ∈ (Call.onDatagram now d).segment?, _ → _))

/-! ## The estimator and the handshake -/

theorem RtoOk.onSample_returns {cfg : Config} {r : RtoEstimator} (h : RtoOk b cfg r) {m : U64}
    (hm : b = .checked → m.toNat < RTT_LIMIT) : ∃ r', r.onSample b m = .ok r' :=
  RtoEstimator.onSample_returns h.track_le hm

theorem completeHandshake_returns (ht : RtoOk b c.config c.rto)
    (hs : b = .checked → ∀ p, c.handshake = some p → p.attempts = 1 →
      (c.since p.sentAt).toNat < RTT_LIMIT) : ∃ c', c.completeHandshake b = .ok c' := by
  refine bind_returns ?_ fun r _ => ⟨_, rfl⟩
  split
  · rename_i p hp
    split
    · rename_i h1
      exact ht.onSample_returns fun hb => hs hb p hp h1
    · exact ⟨_, rfl⟩
  · exact ⟨_, rfl⟩

theorem completeHandshake_fields (h : c.completeHandshake b = .ok c') :
    ∃ st hs r, c' = { c with state := st, handshake := hs, rto := r } := by
  obtain ⟨r, rfl⟩ := completeHandshake_spec h
  exact ⟨_, _, _, rfl⟩

/-- The handshake changes the state, its own timer and the estimator. -/
theorem handshakeArm_fields {isSyn isAck returns : Bool}
    (h : c.handshakeArm b isSyn isAck = .ok (returns, c', out)) :
    ∃ st hs r, c' = { c with state := st, handshake := hs, rto := r } := by
  cases handshakeArm_branch h with
  | greet | regreet | confirm | pass => exact ⟨_, _, _, rfl⟩
  | accept _ _ h₁ => exact completeHandshake_fields h₁
  | connect _ _ h₁ => exact completeHandshake_fields h₁

/-- What leaves the handshake for the shared block was admitted. -/
theorem handshakeArm_admits {isSyn isAck : Bool}
    (h : c.handshakeArm b isSyn isAck = .ok (false, c', out)) (ho : c'.isOpen) :
    c.admits isSyn isAck = true := by
  rw [handshakeArm_admits_eq h, ho]
  rfl

theorem handshakeArm_runs (ht : RtoOk b c.config c.rto) (hr : RecvFits b c) {isSyn isAck : Bool}
    (hs : c.admits isSyn isAck = true → b = .checked → c.isOpen = false →
      ∀ p, c.handshake = some p → p.attempts = 1 → (c.since p.sentAt).toNat < RTT_LIMIT) :
    ∃ r, c.handshakeArm b isSyn isAck = .ok r := by
  -- every frame of the handshake is a header in a frame
  have hframe : ∀ {c' : Connection} {α : Type} {k : List U8 → α}, RecvFits b c' →
      ∃ r, (c'.headerBytes b >>= fun h => Except.ok (k h)) = Except.ok r :=
    fun h => bind_returns h.headerBytes fun _ _ => ⟨_, rfl⟩
  have hdone : c.admits isSyn isAck = true → c.isOpen = false →
      ∃ c₁, c.completeHandshake b = .ok c₁ := fun had ho =>
    completeHandshake_returns ht fun hb => hs had hb ho
  unfold Connection.admits Connection.isOpen at hdone
  unfold Connection.handshakeArm
  split
  · split
    · exact bind_returns (hframe (hr.congr rfl rfl)) fun _ _ => ⟨_, rfl⟩
    · exact ⟨_, rfl⟩
  · rename_i hst
    rw [hst] at hdone
    split
    · exact bind_returns (hframe hr) fun _ _ => ⟨_, rfl⟩
    · split
      · rename_i hack
        exact bind_returns (hdone hack rfl) fun _ _ => ⟨_, rfl⟩
      · exact ⟨_, rfl⟩
  · rename_i hst
    rw [hst] at hdone
    split
    · rename_i hack
      refine bind_returns (hdone hack rfl) fun c₁ h₁ => ?_
      obtain ⟨st, hsk, r, rfl⟩ := completeHandshake_fields h₁
      exact bind_returns (hframe (hr.congr rfl rfl)) fun _ _ => ⟨_, rfl⟩
    · exact ⟨_, rfl⟩
  iterate 2
    · split
      · exact bind_returns (hframe hr) fun _ _ => ⟨_, rfl⟩
      · exact ⟨_, rfl⟩
  · exact ⟨_, rfl⟩

/-! ## Acknowledgements -/

variable {f : Frame} {h : SegmentHeader} {app : List U8}

theorem ackSegments_returns {cfg : Config} {now : Tick} : ∀ {ks : List U32}
    {u : OrdMap U32 UnackedSegment} {r : RtoEstimator}, RtoOk b cfg r →
    (b = .checked → ∀ e ∈ u.entries, e.1 ∈ ks → e.2.retransmitCount = 0 →
      (satSub now e.2.sentAt).toNat < RTT_LIMIT) →
    ∃ res, Connection.ackSegments b now ks u r = .ok res
  | [], _, _, _, _ => ⟨_, rfl⟩
  | k :: ks, u, r, hr, hs => by
    simp only [Connection.ackSegments]
    split
    · exact ackSegments_returns hr fun hb e he hk => hs hb e he (List.mem_cons_of_mem _ hk)
    · rename_i seg hseg
      refine bind_returns ?_ fun r' hr' => ?_
      · split
        · rename_i h0
          exact hr.onSample_returns fun hb =>
            hs hb (k, seg) (mem_of_get? hseg) List.mem_cons_self h0
        · exact ⟨_, rfl⟩
      · have hok : RtoOk b cfg r' := by
          split at hr'
          · exact hr.onSample hr'
          · cases hr'; exact hr
        refine ackSegments_returns hok fun hb e he hk => ?_
        exact hs hb e (mem_erase.mp he).1 (List.mem_cons_of_mem _ hk)

theorem grownCwnd_returns (hseg : c.config.segmentSize < 2 ^ 31) (n : U32) :
    ∃ w, c.grownCwnd b n = .ok w := by
  unfold Connection.grownCwnd
  split
  · exact ⟨_, rfl⟩
  · refine bind_returns (Build.fit_returns fun _ => ?_) fun _ _ => ⟨_, rfl⟩
    have h64 : (BitVec.ofNat 64 c.config.segmentSize).toNat = c.config.segmentSize := by
      rw [BitVec.toNat_ofNat]; omega
    rw [h64]
    calc c.config.segmentSize * c.config.segmentSize
        ≤ 2 ^ 31 * 2 ^ 31 := Nat.mul_le_mul (by omega) (by omega)
      _ < 2 ^ 64 := by decide

theorem ackAdvance_returns (hseg : c.config.segmentSize < 2 ^ 31) (ht : RtoOk b c.config c.rto)
    (hadv : c.sendBase < h.ack)
    (hs : b = .checked → ∀ e ∈ c.unacked.entries, e.1 < h.ack → e.2.retransmitCount = 0 →
      (c.since e.2.sentAt).toNat < RTT_LIMIT) : ∃ c', c.ackAdvance b h = .ok c' := by
  have hle : c.sendBase.toNat ≤ h.ack.toNat := Nat.le_of_lt hadv
  refine bind_returns (Build.sub_returns fun _ => hle) fun n _ => ?_
  refine bind_returns (ackSegments_returns ht fun hb e he hk => ?_) fun res _ => ?_
  · obtain ⟨e', he', heq⟩ := List.mem_map.mp hk
    have hlt : e'.1 < h.ack := by simpa using (List.mem_filter.mp he').2
    exact hs hb e he (by rw [← heq]; exact hlt)
  · exact bind_returns (grownCwnd_returns hseg n) fun _ _ => ⟨_, rfl⟩

theorem sackMarks_returns : ∀ {rs : List SackRange} (u : OrdMap U32 UnackedSegment),
    (∀ r ∈ rs, r.start ≤ r.stop) →
    ∃ u', rs.foldlM (fun m r => m.mapRange r.start r.stop fun seg => { seg with sacked := true })
      u = .ok u'
  | [], u, _ => ⟨u, rfl⟩
  | r :: rs, u, hrs => by
    rw [List.foldlM_cons]
    exact bind_returns (mapRange_ok _ (hrs r List.mem_cons_self)) fun u' _ =>
      sackMarks_returns u' fun r' hr' => hrs r' (List.mem_cons_of_mem _ hr')

theorem ackMarks_returns (hs : ∀ r ∈ h.sack, r.start ≤ r.stop) : ∃ c', c.ackMarks h = .ok c' :=
  bind_returns (sackMarks_returns _ hs) fun _ _ => ⟨_, rfl⟩

theorem fastRetransmit_returns (hw : b = .checked → 2 * c.config.segment32.toNat < 2 ^ 32)
    (hr : RecvFits b c)
    (hs : b = .checked → ∀ e ∈ c.unacked.entries.head?,
      e.2.retransmitCount ≠ BitVec.allOnes 32) : ∃ r, c.fastRetransmit b = .ok r := by
  refine bind_returns (halvedWindow_returns hw) fun w _ => ?_
  refine bind_returns (mapFirst_ok fun e he => ?_) fun u _ => ?_
  · refine bind_returns (Build.add_one_returns fun hb => hs hb e he) fun _ _ => ⟨_, rfl⟩
  · dsimp only
    split
    · exact ⟨_, rfl⟩
    · exact bind_returns (hr.congr rfl rfl).headerBytes fun _ _ => ⟨_, rfl⟩

/-- **Acknowledgements are processed** whatever they acknowledge. -/
theorem applyAck_returns (hseg : c.config.segmentSize < 2 ^ 31) (ht : RtoOk b c.config c.rto)
    (hr : RecvFits b c) (ha : AckFits b c h) : ∃ r, c.applyAck b h = .ok r := by
  have hw : b = .checked → 2 * c.config.segment32.toNat < 2 ^ 32 := by
    intro _
    simp only [Config.segment32, BitVec.toNat_ofNat]
    omega
  unfold Connection.applyAck
  split
  · rename_i hadv
    have hranges := ha.ranges fun hres => (ne_of_gt hadv) hres.1
    refine bind_returns (ackAdvance_returns hseg ht hadv fun hb => ha.acked hb hadv) fun c₁ _ => ?_
    exact bind_returns (ackMarks_returns hranges) fun _ _ => ⟨_, rfl⟩
  · split
    · rename_i hdup
      refine bind_returns (Build.add_one_returns fun hb => ha.dups hb hdup.1 hdup.2) fun n hn => ?_
      dsimp only
      split
      · rename_i hthr
        have hres : c.Resends h := ⟨hdup.1, hdup.2, by rw [← Build.add_eq hn]; exact hthr⟩
        refine bind_returns (fastRetransmit_returns hw (hr.congr rfl rfl)
          fun hb => ha.resend hb hres) fun ⟨c₁, resent⟩ h₁ => ?_
        obtain ⟨⟨d, rfl⟩, _⟩ := fastRetransmit_some (c := { c with dupAckCount := n }) hdup.2 h₁
        exact ⟨_, rfl⟩
      · rename_i hthr
        refine bind_returns (ackMarks_returns (ha.ranges fun hres => hthr ?_)) fun _ _ => ⟨_, rfl⟩
        rw [Build.add_eq hn]
        exact hres.2.2
    · rename_i hdup
      refine bind_returns (ackMarks_returns (ha.ranges fun hres => hdup ⟨hres.1, hres.2.1⟩))
        fun _ _ => ⟨_, rfl⟩

/-! ## The receive side is left alone -/

theorem RecvKeeps.refl (c : Connection) : RecvKeeps c c := ⟨rfl, rfl, rfl, rfl⟩

theorem RecvKeeps.trans {c₁ c₂ : Connection} (h : RecvKeeps c c₁) (h' : RecvKeeps c₁ c₂) :
    RecvKeeps c c₂ :=
  ⟨h'.config.trans h.config, h'.expectedSeq.trans h.expectedSeq, h'.recvBuffer.trans h.recvBuffer,
    h'.delivered.trans h.delivered⟩

theorem RecvKeeps.fits (h : RecvKeeps c c') (hr : RecvFits b c) : RecvFits b c' :=
  hr.congr h.recvBuffer h.delivered

theorem RecvKeeps.heldBytes (h : RecvKeeps c c') : c'.heldBytes = c.heldBytes := by
  simp only [Connection.heldBytes, h.recvBuffer, h.delivered]

/-- Without an arriving segment nothing is received. -/
theorem Moves.recvKeeps (h : Moves b none c c') : RecvKeeps c c' := by
  refine h.preserves (P := fun c' => RecvKeeps c c') (fun {c₁ c₂} hk hm => ?_) (.refl c)
  refine hk.trans ?_
  cases hm with
  | deliver hh => cases hh
  | _ => exact ⟨rfl, rfl, rfl, rfl⟩

theorem handshakeArm_recv {isSyn isAck returns : Bool}
    (hr : c.handshakeArm b isSyn isAck = .ok (returns, c', out)) : RecvKeeps c c' := by
  obtain ⟨st, hsk, r, rfl⟩ := handshakeArm_fields hr
  exact ⟨rfl, rfl, rfl, rfl⟩

theorem checkFullyClosed_recv (c : Connection) : RecvKeeps c c.checkFullyClosed := by
  unfold Connection.checkFullyClosed
  split <;> exact ⟨rfl, rfl, rfl, rfl⟩

theorem ackMarks_recv (hr : c.ackMarks h = .ok c') : RecvKeeps c c' := by
  cases ackMarks_branch hr with
  | marked => exact ⟨rfl, rfl, rfl, rfl⟩
  | @finAcked u =>
    have hfin : RecvKeeps c { c with unacked := u, finAcked := true, finPending := none } :=
      ⟨rfl, rfl, rfl, rfl⟩
    exact hfin.trans (checkFullyClosed_recv _)

theorem fastRetransmit_recv {resent : Option Datagram} (hr : c.fastRetransmit b = .ok (c', resent)) :
    RecvKeeps c c' := by
  cases fastRetransmit_branch hr <;> exact ⟨rfl, rfl, rfl, rfl⟩

theorem ackAdvance_recv (hr : c.ackAdvance b h = .ok c') : RecvKeeps c c' := by
  obtain ⟨_, r, w, _, _, _, rfl⟩ := ackAdvance_spec hr
  exact ⟨rfl, rfl, rfl, rfl⟩

theorem applyAck_recv {resent : Option Datagram} (hr : c.applyAck b h = .ok (c', resent)) :
    RecvKeeps c c' := by
  have hdup : ∀ n, RecvKeeps c { c with dupAckCount := n } := fun _ => ⟨rfl, rfl, rfl, rfl⟩
  cases applyAck_branch hr with
  | advance _ h₁ h₂ => exact (ackAdvance_recv h₁).trans (ackMarks_recv h₂)
  | duplicate _ _ _ _ h₂ => exact (hdup _).trans (ackMarks_recv h₂)
  | resend _ _ _ _ hfast => exact (hdup _).trans (fastRetransmit_recv hfast)
  | stale _ _ h₂ => exact ackMarks_recv h₂

/-! ## Data -/

/-- What is buffered ends within the sequence space. -/
def EndsFit (b : Build) (c : Connection) : Prop :=
  b = .checked → ∀ e ∈ c.recvBuffer.entries, e.1.toNat + e.2.length < 2 ^ 32

theorem RecvFits.ends (h : RecvFits b c) : EndsFit b c := fun hb => (h hb).ends

/-- Draining stops. -/
theorem drainLoop_returns : ∀ {fuel : Nat} {c : Connection}, EndsFit b c →
    c.recvBuffer.entries.length < fuel → ∃ c', c.drainLoop b fuel = .ok c'
  | 0, c, _, hf => by omega
  | fuel + 1, c, hends, hf => by
    simp only [Connection.drainLoop]
    split
    · exact ⟨c, rfl⟩
    · rename_i k v hfirst
      obtain ⟨hmem, _, _⟩ := firstFrom_some hfirst
      split
      · exact ⟨c, rfl⟩
      · rename_i hk
        have hk' : k = c.expectedSeq := by simpa using hk
        rw [get?_of_mem hmem]
        dsimp only
        obtain ⟨expectedSeq, hseq⟩ : ∃ x, b.add c.expectedSeq (len32 v) = .ok x := by
          refine Build.fit_returns fun hb => ?_
          have hend : k.toNat + v.length < 2 ^ 32 := hends hb (k, v) hmem
          rw [len32_toNat (by omega), ← hk']
          exact hend
        have hlt : (c.recvBuffer.erase k).entries.length < fuel := by
          have := length_erase_lt hmem
          simp only at this
          omega
        rw [hseq, ok_bind]
        exact drainLoop_returns (fun hb e he => hends hb e (mem_erase.mp he).1) hlt

/-- Draining moves buffered bytes to the stream. -/
theorem drainLoop_held : ∀ {fuel : Nat} {c c' : Connection}, c.drainLoop b fuel = .ok c' →
    c'.heldBytes = c.heldBytes ∧ ∀ e ∈ c'.recvBuffer.entries, e ∈ c.recvBuffer.entries
  | 0, _, _, h => by cases h
  | fuel + 1, c, c', h => by
    rcases drainLoop_cases h with rfl | ⟨v, expectedSeq, hmem, _, h⟩
    · exact ⟨rfl, fun e he => he⟩
    · obtain ⟨hheld, hsub⟩ := drainLoop_held h
      have hsum : ((c.recvBuffer.erase c.expectedSeq).entries.map fun e => e.2.length).sum + v.length =
          (c.recvBuffer.entries.map fun e => e.2.length).sum :=
        sum_erase (fun e : U32 × List U8 => e.2.length) hmem
      refine ⟨hheld.trans ?_, fun e he => (mem_erase.mp (hsub e he)).1⟩
      show ((c.recvBuffer.erase c.expectedSeq).entries.map fun e => e.2.length).sum +
        (c.delivered ++ v).length = _
      simp only [Connection.heldBytes, List.length_append]
      omega

/-- **Data within the sequence space is taken in.** -/
theorem deliverData_returns (hends : EndsFit b c) {seq : U32} {data : List U8}
    (hlen : data.length < 2 ^ 32)
    (hfit : b = .checked → data ≠ [] → seq.toNat + data.length < 2 ^ 32) :
    ∃ c', c.deliverData b seq data = .ok c' := by
  unfold Connection.deliverData
  split
  · exact ⟨c, rfl⟩
  rename_i hdata
  have hne : data ≠ [] := by simpa using hdata
  have hlen32 := len32_toNat hlen
  obtain ⟨stop, hstop⟩ : ∃ x, b.add seq (len32 data) = .ok x :=
    Build.fit_returns fun hb => by rw [hlen32]; exact hfit hb hne
  rw [hstop, ok_bind]
  split
  · exact ⟨_, rfl⟩
  rename_i hnew
  have hnew' : c.expectedSeq.toNat < stop.toNat := not_le.mp hnew
  split
  · rename_i hcov
    have hcov' : seq.toNat ≤ c.expectedSeq.toNat := hcov
    obtain ⟨skip, hskip, hskipn⟩ := b.sub_ok hcov'
    -- even where the end wraps around it does not come to lie above the expected byte
    have hskip' : skip.toNat ≤ data.length := by
      have hmod := Build.fit_toNat hstop
      rw [hlen32] at hmod
      omega
    rw [hskip, ok_bind, slice_ok hskip' (Nat.le_refl _), ok_bind]
    exact drainLoop_returns (c := { c with
      stats := { c.stats with
        duplicateBytesReceived := c.stats.duplicateBytesReceived + skip.toNat
        bytesDeliveredApp := c.stats.bytesDeliveredApp + (data.length - skip.toNat) }
      delivered := c.delivered ++ (data.take data.length).drop skip.toNat
      expectedSeq := stop }) hends (Nat.lt_succ_self _)
  · exact ⟨_, rfl⟩

/-- A delivery adds at most its length to what is held. -/
theorem deliverData_held {seq : U32} {data : List U8} (h : c.deliverData b seq data = .ok c') :
    c'.heldBytes ≤ c.heldBytes + data.length ∧
      ∀ e ∈ c'.recvBuffer.entries, e ∈ c.recvBuffer.entries ∨ e = (seq, data) ∧ data ≠ [] := by
  cases deliverData_branch h with
  | empty | old => exact ⟨Nat.le_add_right _ _, fun e he => Or.inl he⟩
  | next _ _ _ _ _ hfresh hdrain =>
    obtain ⟨hheld, hsub⟩ := drainLoop_held hdrain
    have hlen := (slice_length hfresh).1
    refine ⟨?_, fun e he => Or.inl (hsub e he)⟩
    rw [hheld]
    simp only [Connection.heldBytes, List.length_append]
    omega
  | early hne =>
    have hsum : ((c.recvBuffer.insert seq data).entries.map fun e => e.2.length).sum ≤
        (c.recvBuffer.entries.map fun e => e.2.length).sum + data.length :=
      sum_insert_le c.recvBuffer seq data fun e => e.2.length
    refine ⟨?_, fun e he => ?_⟩
    · simp only [Connection.heldBytes]
      omega
    · rcases mem_insert.mp he with rfl | ⟨he, _⟩
      · exact Or.inr ⟨rfl, hne⟩
      · exact Or.inl he

/-! ## One segment -/

theorem buildPureAck_returns (hr : RecvFits b c) (fa : Bool) : ∃ d, c.buildPureAck b fa = .ok d :=
  bind_returns (hr.header fa) fun _ _ => ⟨_, rfl⟩

theorem ack_recv {isAck : Bool} {resent : Option Datagram}
    (hr : (if isAck then c.applyAck b h else .ok (c, none)) = .ok (c', resent)) : RecvKeeps c c' := by
  split at hr
  · exact applyAck_recv hr
  · cases hr; exact .refl c

theorem ack_moves {isAck : Bool} {resent : Option Datagram} (ho : c.isOpen)
    (hr : (if isAck then c.applyAck b h else .ok (c, none)) = .ok (c', resent)) :
    Moves b (some h) c c' := by
  split at hr
  · exact applyAck_moves ho hr
  · cases hr; exact .refl

/-- The receive side still fits after the acknowledgement and the payload. -/
def Takes (b : Build) (c : Connection) (seq : U32) (h : SegmentHeader) (app : List U8)
    (isAck : Bool) : Prop :=
  ∀ c₁ resent c₂, (if isAck then c.applyAck b h else .ok (c, none)) = .ok (c₁, resent) →
    c₁.deliverData b seq app = .ok c₂ → RecvFits b c₂

theorem openBlock_returns (hseg : 1 ≤ c.config.segmentSize) (hseg' : c.config.segmentSize < 2 ^ 31)
    (ht : RtoOk b c.config c.rto) (hs : SendOk c) (hr : RecvFits b c) (ho : c.isOpen)
    (hlen : app.length < 2 ^ 32) {seq : U32} {isAck isFin : Bool} (htake : Takes b c seq h app isAck)
    (hack : isAck = true → AckFits b c h)
    (hdata : b = .checked → app ≠ [] → seq.toNat + app.length < 2 ^ 32) :
    ∃ r, c.openBlock b seq h app isAck isFin = .ok r := by
  refine bind_returns (x := if isAck then c.applyAck b h else .ok (c, none)) ?_
    fun ⟨c₁, resent⟩ h₁ => ?_
  · split
    · rename_i hia
      exact applyAck_returns hseg' ht hr (hack hia)
    · exact ⟨_, rfl⟩
  have hm₁ := ack_moves ho h₁
  have hk₁ := ack_recv h₁
  obtain ⟨c₂, h₂⟩ := deliverData_returns (hk₁.fits hr).ends hlen hdata
  have hr₂ := htake c₁ resent c₂ h₁ h₂
  obtain ⟨buf, ex, st, del, rfl⟩ := (deliverData_delivers h₂).fields
  have hs₁ : SendOk c₁ := hm₁.preserves SendOk.move hs
  have hseg₁ : 1 ≤ c₁.config.segmentSize := by rw [hm₁.config]; exact hseg
  refine bind_returns ⟨_, deliverData_guard.trans h₂⟩ fun c₂' h₂' => ?_
  rw [deliverData_guard, h₂] at h₂'
  cases h₂'
  -- what is left acknowledges and sends; the FIN mark is nothing to either
  have htail : ∀ (seen : Bool) (st' : Stats), ∃ r, Connection.drainAndMaybeFin b { c₁ with
      recvBuffer := buf, expectedSeq := ex, stats := st', delivered := del, peerFinSeen := seen } =
        .ok r := fun seen st' =>
    drainAndMaybeFin_returns b (hs₁.of_segments rfl rfl rfl) (hr₂.congr rfl rfl) hseg₁
  have hackd : ∀ (seen : Bool) (st' : Stats), ∃ d, Connection.buildPureAck b { c₁ with
      recvBuffer := buf, expectedSeq := ex, stats := st', delivered := del, peerFinSeen := seen }
        isFin = .ok d := fun seen st' => buildPureAck_returns (hr₂.congr rfl rfl) isFin
  cases isFin with
  | true =>
    dsimp only
    rw [if_neg (by simp)]
    exact bind_returns (hackd true _) fun _ _ => bind_returns (htail true _) fun _ _ => ⟨_, rfl⟩
  | false =>
    dsimp only
    split
    · exact bind_returns (htail c₁.peerFinSeen st) fun _ _ => ⟨_, rfl⟩
    · exact bind_returns (hackd c₁.peerFinSeen _) fun _ _ =>
        bind_returns (htail c₁.peerFinSeen _) fun _ _ => ⟨_, rfl⟩

theorem onSegment_returns (hseg : 1 ≤ c.config.segmentSize) (hseg' : c.config.segmentSize < 2 ^ 31)
    (ht : Timers b c) (hs : SendOk c) (hr : RecvFits b c) (hlen : app.length < 2 ^ 32)
    (htake : ∀ c₁ out₁, Connection.handshakeArm b { c with peerWindow := h.window }
      (f.flags &&& FLAG_SYN != 0#16) (f.flags &&& FLAG_ACK != 0#16) = .ok (false, c₁, out₁) →
      c₁.isOpen → Takes b c₁ f.sequence h app (f.flags &&& FLAG_ACK != 0#16))
    (ha : c.admits (f.flags &&& FLAG_SYN != 0#16) (f.flags &&& FLAG_ACK != 0#16) = true →
      InOrder b c f h app) : ∃ r, c.onSegment b f.sequence f.flags h app = .ok r := by
  have ht₀ : Timers b { c with peerWindow := h.window } :=
    ⟨ht.rto, ht.handshake_some, ht.handshake, ht.finPending, ht.sentAt⟩
  have hr₀ : RecvFits b { c with peerWindow := h.window } := hr.congr rfl rfl
  unfold Connection.onSegment
  dsimp only
  split
  · exact bind_returns (buildPureAck_returns hr₀ true) fun _ _ => ⟨_, rfl⟩
  refine bind_returns (handshakeArm_runs ht₀.rto hr₀ fun had => (ha had).handshake)
    fun ⟨returns, c₁, out₁⟩ h₁ => ?_
  dsimp only
  split
  · exact ⟨_, rfl⟩
  rename_i hret
  split
  · rename_i ho
    have hret' : returns = false := by simpa using hret
    subst hret'
    have hadm := handshakeArm_admits h₁ ho
    have hin := ha hadm
    have hm₁ : Moves b (some h) { c with peerWindow := h.window } c₁ := handshakeArm_moves rfl h₁
    have ht₁ : Timers b c₁ := hm₁.preserves Timers.move ht₀
    obtain ⟨st, hsk, r, heq⟩ := handshakeArm_fields h₁
    have hcfg₁ : c₁.config = c.config := by rw [heq]
    have hs₁ : SendOk c₁ := by rw [heq]; exact hs.of_segments rfl rfl rfl
    have hr₁ : RecvFits b c₁ := by rw [heq]; exact hr.congr rfl rfl
    have hack₁ : f.flags &&& FLAG_ACK ≠ 0#16 → AckFits b c₁ h := by
      intro hia
      have hfit := hin.ack hia
      rw [heq]
      exact ⟨hfit.ranges, hfit.acked, hfit.dups, hfit.resend⟩
    exact bind_returns (openBlock_returns (by rw [hcfg₁]; exact hseg) (by rw [hcfg₁]; exact hseg')
      ht₁.rto hs₁ hr₁ ho hlen (htake c₁ out₁ h₁ ho) (fun hia => hack₁ (by simpa using hia)) hin.data)
      fun _ _ => ⟨_, rfl⟩
  · exact ⟨_, rfl⟩

/-! ## Datagrams -/

/-- A frame's payload fits its length field, and so do the application bytes in it. -/
theorem Carries.length_lt {d : Datagram} (hc : Carries d f h app) : app.length < 2 ^ 32 :=
  Nat.lt_of_le_of_lt (SegmentHeader.decode_length_le hc.header) (Frame.decode_length_lt hc.frame)

theorem deliverData_fits {seq : U32} {data : List U8} (hlen : data.length < 2 ^ 32)
    (hne : data ≠ []) (h : c.deliverData .checked seq data = .ok c') :
    seq.toNat + data.length < 2 ^ 32 := by
  unfold Connection.deliverData at h
  rw [if_neg (by simpa using hne)] at h
  obtain ⟨stop, hstop, _⟩ := bind_eq_ok.mp h
  have := (Build.checked_add hstop).1
  rwa [len32_toNat hlen] at this

theorem deliverData_recv (hr : RecvOk c) {seq : U32} {data : List U8} (hlen : data.length < 2 ^ 32)
    (hheld : c.heldBytes + data.length < 2 ^ 32) (h : c.deliverData .checked seq data = .ok c') :
    RecvOk c' ∧ c'.heldBytes ≤ c.heldBytes + data.length := by
  obtain ⟨hle, hmem⟩ := deliverData_held h
  refine ⟨⟨fun e he => ?_, fun e he => ?_, Nat.lt_of_le_of_lt hle hheld⟩, hle⟩
  · rcases hmem e he with he | ⟨rfl, hne⟩
    · exact hr.nonempty e he
    · exact hne
  · rcases hmem e he with he | ⟨rfl, hne⟩
    · exact hr.ends e he
    · exact deliverData_fits hlen hne h

/-- What a connection holds leaves room for the payload of a segment. -/
theorem takes_of_held (hr : RecvFits b c) {seq : U32} {isAck : Bool} (hlen : app.length < 2 ^ 32)
    (hheld : b = .checked → c.heldBytes + app.length < 2 ^ 32) : Takes b c seq h app isAck := by
  intro c₁ resent c₂ h₁ h₂ hb
  subst hb
  have hk := ack_recv h₁
  exact (deliverData_recv (hk.fits hr rfl) hlen (by rw [hk.heldBytes]; exact hheld rfl) h₂).1

/-! ## What a call that returned has accepted -/

theorem ackSegments_lt {now : Tick} : ∀ {ks : List U32} {u : OrdMap U32 UnackedSegment}
    {r : RtoEstimator} {res : OrdMap U32 UnackedSegment × RtoEstimator},
    Connection.ackSegments .checked now ks u r = .ok res →
    ∀ e ∈ u.entries, e.1 ∈ ks → e.2.retransmitCount = 0 →
      (satSub now e.2.sentAt).toNat < RTT_LIMIT
  | [], _, _, _, _, e, _, hk, _ => by cases hk
  | k :: ks, u, r, res, h, e, he, hk, h0 => by
    have hget : u.get? e.1 = some e.2 := get?_of_mem he
    simp only [Connection.ackSegments] at h
    by_cases hek : e.1 = k
    · rw [← hek, hget] at h
      obtain ⟨r', hr', _⟩ := bind_eq_ok.mp h
      rw [if_pos h0] at hr'
      exact (RtoEstimator.onSample_track hr').2
    · have hks : e.1 ∈ ks := (List.mem_cons.mp hk).resolve_left hek
      split at h
      · exact ackSegments_lt h e he hks h0
      · obtain ⟨r', _, h⟩ := bind_eq_ok.mp h
        exact ackSegments_lt h e (mem_erase.mpr ⟨he, hek⟩) hks h0

theorem sackMarks_le : ∀ {rs : List SackRange} {u u' : OrdMap U32 UnackedSegment},
    rs.foldlM (fun m r => m.mapRange r.start r.stop fun seg => { seg with sacked := true })
      u = .ok u' → ∀ r ∈ rs, r.start ≤ r.stop
  | [], _, _, _, r, hr => by cases hr
  | r₀ :: rs, u, u', h, r, hr => by
    rw [List.foldlM_cons] at h
    obtain ⟨u₁, h₁, h⟩ := bind_eq_ok.mp h
    rcases List.mem_cons.mp hr with rfl | hr
    · exact mapRange_le h₁
    · exact sackMarks_le h r hr

theorem ackMarks_le (hr : c.ackMarks h = .ok c') : ∀ r ∈ h.sack, r.start ≤ r.stop := by
  obtain ⟨u, hu, _⟩ := bind_eq_ok.mp hr
  exact sackMarks_le hu

theorem add_one_ne {w : Nat} {x y : BitVec w} (hw : 0 < w) (h : Build.checked.add x 1#w = .ok y) :
    x ≠ BitVec.allOnes w := by
  intro hx
  have hlt := (Build.checked_add h).1
  have hone : (1#w).toNat = 1 := by
    rw [BitVec.toNat_ofNat, Nat.mod_eq_of_lt (Nat.one_lt_two_pow (by omega))]
  rw [hx, BitVec.toNat_allOnes, hone] at hlt
  omega

theorem ackAdvance_lt (hr : c.ackAdvance .checked h = .ok c') : ∀ e ∈ c.unacked.entries,
    e.1 < h.ack → e.2.retransmitCount = 0 → (c.since e.2.sentAt).toNat < RTT_LIMIT := by
  intro e he hlt h0
  obtain ⟨_, r, w, _, hres, _⟩ := ackAdvance_spec hr
  have hmem : e.1 ∈ c.unacked.below h.ack :=
    List.mem_map_of_mem (List.mem_filter.mpr ⟨he, by simpa using hlt⟩)
  exact ackSegments_lt hres e he hmem h0

/-- An acknowledgement that was processed was in order. -/
theorem applyAck_fits {resent : Option Datagram} (hr : c.applyAck b h = .ok (c', resent)) :
    AckFits b c h := by
  have hdups : ∀ {n : U32}, b.add c.dupAckCount 1#32 = .ok n → b = .checked →
      c.dupAckCount ≠ BitVec.allOnes 32 := by
    intro n hn hb
    subst hb
    exact add_one_ne (by decide) hn
  cases applyAck_branch hr with
  | advance hadv h₁ h₂ =>
    have hne : h.ack ≠ c.sendBase := ne_of_gt hadv
    refine ⟨fun _ => ackMarks_le h₂, fun hb _ => ?_, fun _ heq => absurd heq hne,
      fun _ hres => absurd hres.1 hne⟩
    subst hb
    exact ackAdvance_lt h₁
  | duplicate heq hne hn hk h₂ =>
    refine ⟨fun _ => ackMarks_le h₂, fun _ hadv => absurd heq (ne_of_gt hadv),
      fun hb _ _ => hdups hn hb, fun _ hres => ?_⟩
    exact absurd (by rw [Build.add_eq hn]; exact hres.2.2) hk
  | @resend n _ _ heq hne hn hk hfast =>
    have hres : c.Resends h := ⟨heq, hne, by rw [← Build.add_eq hn]; exact hk⟩
    obtain ⟨_, hcount⟩ := fastRetransmit_some (c := { c with dupAckCount := n }) hne hfast
    refine ⟨fun hno => absurd hres hno, fun _ hadv => absurd heq (ne_of_gt hadv),
      fun hb _ _ => hdups hn hb, fun hb _ e he => ?_⟩
    subst hb
    obtain ⟨m, hm⟩ := hcount e he
    exact add_one_ne (by decide) hm
  | stale hadv hdup h₂ =>
    exact ⟨fun _ => ackMarks_le h₂, fun _ h' => absurd h' hadv,
      fun _ heq hne => absurd ⟨heq, hne⟩ hdup, fun _ hres => absurd ⟨hres.1, hres.2.1⟩ hdup⟩

/-- A handshake that was completed had a round trip that can be scaled. -/
theorem completeHandshake_lt (h : c.completeHandshake .checked = .ok c') : ∀ p,
    c.handshake = some p → p.attempts = 1 → (c.since p.sentAt).toNat < RTT_LIMIT := by
  intro p hp h1
  obtain ⟨r, hr, _⟩ := bind_eq_ok.mp h
  rw [hp] at hr
  dsimp only at hr
  rw [if_pos h1] at hr
  exact (RtoEstimator.onSample_track hr).2

/-- An admitted segment passes the handshake into the shared block. -/
theorem handshakeArm_admitted {isSyn isAck returns : Bool} (ha : c.admits isSyn isAck = true)
    (h : c.handshakeArm b isSyn isAck = .ok (returns, c', out)) :
    returns = false ∧ c'.isOpen ∧ (b = .checked → c.isOpen = false → ∀ p, c.handshake = some p →
      p.attempts = 1 → (c.since p.sentAt).toNat < RTT_LIMIT) := by
  rw [handshakeArm_admits_eq h, Bool.and_eq_true, Bool.not_eq_true'] at ha
  refine ⟨ha.1, ha.2, fun hb hno => ?_⟩
  subst hb
  cases handshakeArm_branch h with
  | accept _ _ h₁ => exact completeHandshake_lt h₁
  | connect _ _ h₁ => exact completeHandshake_lt h₁
  | greet => cases ha.1
  | regreet => cases ha.1
  | confirm | pass => rw [ha.2] at hno; cases hno

/-- **A segment that was processed was in order.** -/
theorem onSegment_inOrder (hlen : app.length < 2 ^ 32)
    (hadm : c.admits (f.flags &&& FLAG_SYN != 0#16) (f.flags &&& FLAG_ACK != 0#16) = true)
    (hr : c.onSegment b f.sequence f.flags h app = .ok (c', out)) : InOrder b c f h app := by
  cases onSegment_branch hr with
  | closed hst =>
    rw [Connection.admits, hst] at hadm
    cases hadm
  | handshake _ _ hno =>
    rw [hno] at hadm
    cases hadm
  | block _ h₁ ho h₂ =>
    obtain ⟨_, _, hsample⟩ :=
      handshakeArm_admitted (c := { c with peerWindow := h.window }) hadm h₁
    obtain ⟨st, hs, r, heq⟩ := handshakeArm_fields h₁
    obtain ⟨c₃, resent, c₄, _, _, h₃, h₄, _⟩ := openBlock_parts h₂
    refine ⟨fun hia => ?_, fun hb hne => ?_, hsample⟩
    · rw [if_pos (by simpa using hia)] at h₃
      have hfit := applyAck_fits h₃
      rw [heq] at hfit
      exact ⟨hfit.ranges, hfit.acked, hfit.dups, hfit.resend⟩
    · subst hb
      exact deliverData_fits hlen hne h₄

theorem carries_of_segment? {now : Tick} {d : Datagram}
    (hs : (Call.onDatagram now d).segment? = some (f, h, app)) : Carries d f h app := by
  simp only [Call.segment?] at hs
  split at hs
  · rename_i hframe
    split at hs
    · rename_i hheader
      cases hs
      exact ⟨hframe, hheader⟩
    · cases hs
  · cases hs

theorem Carries.onDatagram {d : Datagram} (hc : Carries d f h app) (now : Tick) :
    c.onDatagram b now d = (c.advance now).onSegment b f.sequence f.flags h app := by
  unfold Connection.onDatagram
  simp only [hc.frame, hc.header, ok_bind]

/-- What carries no segment is dropped. -/
theorem onDatagram_dropped {d : Datagram} (hc : ¬ ∃ f h app, Carries d f h app) (now : Tick) :
    c.onDatagram b now d = .ok (c.advance now, []) := by
  obtain ⟨fr, hframe⟩ := Frame.decode_total d
  unfold Connection.onDatagram
  dsimp only
  rw [hframe, ok_bind]
  cases fr with
  | error err => rfl
  | ok f =>
    obtain ⟨hh, hheader⟩ := SegmentHeader.decode_total f.payload
    dsimp only
    rw [hheader, ok_bind]
    cases hh with
    | none => rfl
    | some s => exact absurd ⟨f, s.1, s.2, hframe, hheader⟩ hc

theorem segment?_dropped {d : Datagram} (hc : ¬ ∃ f h app, Carries d f h app) (now : Tick) :
    (Call.onDatagram now d).segment? = none := by
  cases hs : (Call.onDatagram now d).segment? with
  | none => rfl
  | some s => exact absurd ⟨s.1, s.2.1, s.2.2, carries_of_segment? hs⟩ hc

end Distrans
