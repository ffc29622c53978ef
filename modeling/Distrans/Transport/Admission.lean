import Distrans.Transport.Honest
import Distrans.Transport.Phases
import Distrans.Transport.Robust

/-!
# Admission

`Admits c c' out` says exactly what `try_send_more` does: which segments are cut from the queue,
that they are what is emitted, how far the bytes in flight may go, and that nothing admissible is
held back.

* `admission_exact` — **wherever `try_send_more` runs in an open connection, whatever the peer
  has sent before, it returns and admits exactly that.**
-/

set_option autoImplicit false

namespace Distrans

open Machine OrdMap Tiling

variable {b : Build} {c c' : Connection} {out : List Datagram} {cfg : Config} {e e' : Endpoint}
  {heard : Nat}

/-! ## What a checked run holds

A payload is answered with a header, which adds up all that is held: in a checked build a call
that has returned left it within 32 bits, however much has arrived before. -/

/-- The receive side of a checked run. -/
structure Holds (c : Connection) : Prop where
  recv : RecvOk c
  delivered : c.delivered.length ≤ c.expectedSeq.toNat

theorem Holds.keep (h : Holds c) (hk : RecvKeeps c c') : Holds c' :=
  ⟨h.recv.congr hk.recvBuffer hk.delivered, by rw [hk.delivered, hk.expectedSeq]; exact h.delivered⟩

/-- A header that could be built has added up what is held. -/
theorem header_held {finAck : Bool} {hdr : SegmentHeader}
    (hends : ∀ e ∈ c.recvBuffer.entries, e.2.length < 2 ^ 32) (hdel : c.delivered.length < 2 ^ 32)
    (h : c.header .checked finAck = .ok hdr) : c.heldBytes < 2 ^ 32 := by
  obtain ⟨window, hw, _⟩ := bind_eq_ok.mp h
  obtain ⟨buffered, hb, hw⟩ := bind_eq_ok.mp hw
  obtain ⟨held, hh, _⟩ := bind_eq_ok.mp hw
  have hlens : (c.recvBuffer.values.map len32).map BitVec.toNat =
      c.recvBuffer.entries.map fun e => e.2.length := by
    rw [OrdMap.values, List.map_map, List.map_map]
    exact List.map_congr_left fun e he => len32_toNat (hends e he)
  have hsum := Build.checked_sum hb
  obtain ⟨hlt, _⟩ := Build.checked_add hh
  rw [hlens] at hsum
  rw [len32_toNat hdel] at hlt
  simp only [Connection.heldBytes]
  omega

/-- In a checked build every delivered byte has moved `expected_seq`. -/
theorem drainLoop_delivered : ∀ {fuel : Nat} {c c' : Connection},
    (∀ e ∈ c.recvBuffer.entries, e.2.length < 2 ^ 32) → c.delivered.length ≤ c.expectedSeq.toNat →
    c.drainLoop .checked fuel = .ok c' → c'.delivered.length ≤ c'.expectedSeq.toNat
  | 0, _, _, _, _, h => by cases h
  | fuel + 1, c, c', hlens, hdel, h => by
    rcases drainLoop_cases h with rfl | ⟨v, expectedSeq, hmem, hseq, h⟩
    · exact hdel
    · refine drainLoop_delivered (fun e he => hlens e (mem_erase.mp he).1) ?_ h
      have hv : v.length < 2 ^ 32 := hlens _ hmem
      obtain ⟨_, hnext⟩ := Build.checked_add hseq
      rw [len32_toNat hv] at hnext
      show (c.delivered ++ v).length ≤ expectedSeq.toNat
      rw [List.length_append, hnext]
      omega

theorem deliverData_delivered {seq : U32} {data : List U8}
    (hlens : ∀ e ∈ c.recvBuffer.entries, e.2.length < 2 ^ 32)
    (hdel : c.delivered.length ≤ c.expectedSeq.toNat) (hlen : data.length < 2 ^ 32)
    (h : c.deliverData .checked seq data = .ok c') :
    c'.delivered.length ≤ c'.expectedSeq.toNat := by
  cases deliverData_branch h with
  | empty | old | early => exact hdel
  | @next stop _ fresh _ _ hstop hnew _ hskip hfresh hdrain =>
    refine drainLoop_delivered (by exact hlens) ?_ hdrain
    have hnew' : c.expectedSeq.toNat < stop.toNat := hnew
    obtain ⟨_, hend⟩ := Build.checked_add hstop
    obtain ⟨hle, hsub⟩ := Build.checked_sub hskip
    have hfl := (slice_length hfresh).1
    rw [len32_toNat hlen] at hend
    show (c.delivered ++ fresh).length ≤ stop.toNat
    rw [List.length_append]
    omega

/-- The shared block: what is delivered is added up in the answer. -/
theorem Holds.deliver (h : Holds c) {seq : U32} {app : List U8} (hlen : app.length < 2 ^ 32)
    {isFin finAck : Bool} (hd : c.deliverData .checked seq app = .ok c')
    (hans : app ≠ [] → ∃ ack, (c'.noted isFin true).buildPureAck .checked finAck = .ok ack) :
    Holds c' := by
  have hlens : ∀ e ∈ c.recvBuffer.entries, e.2.length < 2 ^ 32 := fun e he =>
    Nat.lt_of_le_of_lt (Nat.le_add_left _ _) (h.recv.ends e he)
  have hdel := deliverData_delivered hlens h.delivered hlen hd
  by_cases hne : app = []
  · subst hne
    have hnil : Except.ok c = Except.ok c' := hd
    cases hnil
    exact h
  · obtain ⟨ack, hack⟩ := hans hne
    obtain ⟨hdr, hh, _⟩ := bind_eq_ok.mp hack
    obtain ⟨_, hmem⟩ := deliverData_held hd
    have hends : ∀ e ∈ c'.recvBuffer.entries, e.2 ≠ [] ∧ e.1.toNat + e.2.length < 2 ^ 32 := by
      intro e he
      rcases hmem e he with he | ⟨rfl, _⟩
      · exact ⟨h.recv.nonempty e he, h.recv.ends e he⟩
      · exact ⟨hne, deliverData_fits hlen hne hd⟩
    have hexp := c'.expectedSeq.isLt
    have hheld : (c'.noted isFin true).heldBytes < 2 ^ 32 := by
      refine header_held (fun e he => ?_) ?_ hh
      · exact Nat.lt_of_le_of_lt (Nat.le_add_left _ _) (hends e he).2
      · show c'.delivered.length < 2 ^ 32
        omega
    exact ⟨⟨fun e he => (hends e he).1, fun e he => (hends e he).2, hheld⟩, hdel⟩

theorem Holds.call (h : Holds e.conn) (hseg : 1 ≤ e.conn.config.segmentSize) {a : Call}
    (hr : e.call .checked a = .ok e') : Holds e'.conn := by
  rcases call_receives hseg hr with hk | ⟨_, heq⟩ | ⟨f, hdr, app, c₁, c₂, _, hlen, hk₁, hdel, hans, hk₂⟩
  · exact h.keep hk
  · have hheld := h.recv.held
    rw [heq]
    refine ⟨⟨h.recv.nonempty, h.recv.ends, ?_⟩, Nat.zero_le _⟩
    show (e.conn.recvBuffer.entries.map fun e => e.2.length).sum + 0 < 2 ^ 32
    omega
  · by_cases hne : app = []
    · have hans' : app ≠ [] → ∃ ack, (c₂.noted false true).buildPureAck .checked false = .ok ack :=
        fun h' => absurd hne h'
      exact ((h.keep hk₁).deliver hlen hdel hans').keep hk₂
    · obtain ⟨isFin, ack, hack⟩ := hans hne
      exact ((h.keep hk₁).deliver hlen hdel fun _ => ⟨ack, hack⟩).keep hk₂

/-- **In a checked build what a connection holds fits its headers, whatever has arrived.** -/
theorem solo_holds (hseg : 1 ≤ cfg.segmentSize) (h : Solo .checked cfg e heard) :
    e.conn.config = cfg ∧ Holds e.conn := by
  have hblank : ∀ {c : Connection} {t : Tick} {st : State},
      Connection.blank .checked cfg t st = .ok c → c.config = cfg ∧ Holds c := by
    intro c t st hc
    obtain ⟨w, _, hc⟩ := bind_eq_ok.mp hc
    cases hc
    refine ⟨rfl, ⟨fun e he => ?_, fun e he => ?_, by show 0 + 0 < 2 ^ 32; decide⟩, Nat.zero_le _⟩
    · cases he
    · cases he
  induction h with
  | connect h =>
    obtain ⟨c₀, hc₀, h⟩ := bind_eq_ok.mp h
    obtain ⟨d, _, h⟩ := bind_eq_ok.mp h
    cases h
    obtain ⟨hcfg, hh⟩ := hblank hc₀
    exact ⟨hcfg, hh.keep ⟨rfl, rfl, rfl, rfl⟩⟩
  | listen h => exact hblank h
  | step _ hr ih =>
    obtain ⟨hcfg, hh⟩ := ih
    have hseg₀ := hseg
    rw [← hcfg] at hseg₀
    exact ⟨(call_config hseg₀ hr).trans hcfg, hh.call hseg₀ hr⟩

theorem solo_spent (hseg : 1 ≤ cfg.segmentSize) (h : Solo b cfg e heard)
    (hsent : e.sent.length < 2 ^ 32) : e.conn.config = cfg ∧ Spent e.sent.length e.conn := by
  have hblank : ∀ {c : Connection} {t : Tick} {st : State}, Connection.blank b cfg t st = .ok c →
      c.config = cfg ∧ Spent 0 c := by
    intro c t st hc
    obtain ⟨w, _, hc⟩ := bind_eq_ok.mp hc
    cases hc
    exact ⟨rfl, ⟨⟨0, rfl⟩, by show 0 + 0 < 2 ^ 32; decide⟩, rfl⟩
  induction h with
  | connect h =>
    obtain ⟨c₀, hc₀, h⟩ := bind_eq_ok.mp h
    obtain ⟨d, _, h⟩ := bind_eq_ok.mp h
    cases h
    obtain ⟨hcfg, hs⟩ := hblank hc₀
    exact ⟨hcfg, hs.send.of_segments rfl rfl rfl, hs.total⟩
  | listen h => exact hblank h
  | step _ hr ih =>
    obtain ⟨hcfg, hs⟩ := ih (by have := Endpoint.call_sent_le hr; omega)
    have hseg₀ := hseg
    rw [← hcfg] at hseg₀
    exact ⟨(call_config hseg₀ hr).trans hcfg, hs.call hseg₀ hsent hr⟩

/-! ## What `try_send_more` does -/

/-- The queue is cut into the segments `segs`, each of which is emitted and waits to be
    acknowledged; `w` and `w'` are the bytes in flight before and after. -/
structure Admits (b : Build) (c c' : Connection) (out : List Datagram)
    (segs : List (U32 × List U8)) (w w' : U32) : Prop where
  queue : (segs.map (·.2)).flatten ++ c'.sendQueue = c.sendQueue
  /-- Consecutive numbers from the old `next_seq` to the new one, no segment empty. -/
  tiles : Tiles c.nextSeq.toNat (segs.map fun s => (s.1.toNat, s.2)) c'.nextSeq.toNat
  size : ∀ s ∈ segs, s.2.length ≤ c.config.segmentSize
  frames : ∃ bytes, c.headerBytes b = .ok bytes ∧
    out = segs.map fun s => Connection.buildDataFrame s.1 s.2 bytes
  unacked : c'.unacked.entries =
    c.unacked.entries ++ segs.map fun s => (s.1, ⟨s.2, c.now, 0, false⟩)
  before : c.inFlightBytes b = .ok w
  after : c'.inFlightBytes b = .ok w'
  window : w'.toNat ≤ max w.toNat (max c.effectiveWindow.toNat 1)
  /-- Nothing admissible is held back. -/
  full : c'.sendQueue = [] ∨ max 1 c.effectiveWindow.toNat ≤ w'.toNat
  /-- Everything else stays. -/
  frame : c' = { c with
    sendQueue := c'.sendQueue, nextSeq := c'.nextSeq, unacked := c'.unacked
    stats := { c.stats with dataSegmentsSent := c.stats.dataSegmentsSent + segs.length } }

/-- The loop stops: nothing is cut. -/
theorem Admits.stop (hs : SendOk c) (hr : RecvFits b c)
    (hfull : c.sendQueue = [] ∨ c.admissionCap b = .ok 0) : ∃ w, Admits b c c [] [] w w := by
  obtain ⟨w, hw, hwn⟩ := hs.inFlightBytes b
  obtain ⟨bytes, hbytes⟩ := hr.headerBytes
  refine ⟨w, rfl, rfl, (fun _ h => by cases h), ⟨bytes, hbytes, rfl⟩, by simp, hw, hw,
    Nat.le_max_left _ _, hfull.imp id fun hcap => ?_, rfl⟩
  obtain ⟨cap, hcap', hn⟩ := hs.admissionCap b
  rw [hcap] at hcap'
  cases hcap'
  rw [show (0 : U32).toNat = 0 from rfl] at hn
  split at hn <;> omega

/-- The loop cuts one chunk and goes on. -/
theorem Admits.cut {c₁ : Connection} {n : Nat} {cap : U32} {d : Datagram} {out₁ : List Datagram}
    {segs : List (U32 × List U8)} {w₁ w' : U32} (hs : SendOk c) (hs₁ : SendOk c₁)
    (hcap : c.admissionCap b = .ok cap) (hn : 0 < n) (hq : n ≤ c.sendQueue.length)
    (hle : n ≤ cap.toNat) (hsize : n ≤ c.config.segmentSize) (hcut : c.cutSegment b n = .ok (c₁, d))
    (h : Admits b c₁ c' out₁ segs w₁ w') :
    ∃ w, Admits b c c' (d :: out₁) ((c.nextSeq, c.sendQueue.take n) :: segs) w w' := by
  obtain ⟨w, hw, hwn⟩ := hs.inFlightBytes b
  obtain ⟨cap', hcap', hcapn⟩ := hs.admissionCap b
  obtain ⟨w₁', hw₁, hwn₁⟩ := hs₁.inFlightBytes b
  rw [hcap] at hcap'
  rw [h.before] at hw₁
  cases hcap'
  cases hw₁
  obtain ⟨nextSeq, bytes, hseq, hbytes, hd, hc₁⟩ := cutSegment_spec hcut
  have hnext₁ : c₁.nextSeq.toNat = c.nextSeq.toNat + n := by rw [hc₁]; exact hs.nextSeq_cut hq hseq
  have htake : (c.sendQueue.take n).length = n := by rw [List.length_take]; omega
  have hqueue₁ : c₁.sendQueue = c.sendQueue.drop n := by rw [hc₁]
  have hcfg₁ : c₁.config = c.config := by rw [hc₁]
  have heff₁ : c₁.effectiveWindow = c.effectiveWindow := by rw [hc₁]; rfl
  have hbytes₁ : c₁.headerBytes b = .ok bytes := by
    rw [← hbytes, hc₁]
    exact headerBytes_congr rfl rfl rfl rfl
  have hunacked₁ : c₁.unacked.entries =
      c.unacked.entries ++ [(c.nextSeq, ⟨c.sendQueue.take n, c.now, 0, false⟩)] := by
    rw [hc₁]
    exact entries_insert_of_gt hs.lt_nextSeq
  have hflight : w₁.toNat = w.toNat + n := by
    rw [hwn₁, hwn]
    simp only [Connection.inFlight, Connection.segments, hunacked₁, List.map_append, List.sum_append,
      List.map_cons, List.map_nil, List.sum_cons, List.sum_nil, htake, Nat.add_zero]
  have hcapped : w₁.toNat ≤ max w.toNat (max c.effectiveWindow.toNat 1) := by
    rw [← hwn] at hcapn
    split at hcapn <;> omega
  refine ⟨w, ?_, ⟨rfl, ?_, ?_⟩, ?_, ?_, ?_, hw, h.after, ?_, ?_, ?_⟩
  · have hqueue := h.queue
    rw [hqueue₁] at hqueue
    rw [List.map_cons, List.flatten_cons, List.append_assoc, hqueue, List.take_append_drop]
  · show c.sendQueue.take n ≠ []
    intro hnil
    rw [hnil] at htake
    exact absurd htake (Nat.ne_of_lt hn)
  · have htiles := h.tiles
    rw [hnext₁, ← htake] at htiles
    exact htiles
  · intro s hsm
    rcases List.mem_cons.mp hsm with rfl | hsm
    · show (c.sendQueue.take n).length ≤ _
      rw [htake]; exact hsize
    · rw [← hcfg₁]; exact h.size s hsm
  · obtain ⟨bytes', hbytes', hout⟩ := h.frames
    rw [hbytes₁] at hbytes'
    cases hbytes'
    exact ⟨bytes, hbytes, by rw [hout, hd]; rfl⟩
  · have hnow : c₁.now = c.now := by rw [hc₁]
    rw [h.unacked, hunacked₁, List.append_assoc, hnow]
    rfl
  · have hwindow := h.window
    rw [heff₁] at hwindow
    omega
  · have hfull := h.full
    rw [heff₁] at hfull
    exact hfull
  · have hframe := h.frame
    have hstats : c₁.stats.dataSegmentsSent + segs.length =
        c.stats.dataSegmentsSent + (segs.length + 1) := by rw [hc₁]; simp only; omega
    rw [hstats, hc₁] at hframe
    exact hframe

theorem trySendLoop_admits : ∀ {fuel : Nat} {c c' : Connection} {out : List Datagram}, SendOk c →
    RecvFits b c → c.isOpen → 1 ≤ c.config.segmentSize → c.trySendLoop b fuel = .ok (c', out) →
    ∃ segs w w', Admits b c c' out segs w w'
  | 0, _, _, _, _, _, _, _, h => by cases h
  | fuel + 1, c, c', out, hs, hr, ho, hseg, h => by
    rcases trySendLoop_cases hseg h with ⟨rfl, rfl, hfull⟩ |
      ⟨n, cap, c₁, d, out₁, hcap, hn, hq, hle, hsize, hcut, hrec, rfl⟩
    · obtain ⟨w, hw⟩ := Admits.stop hs hr hfull
      exact ⟨[], w, w, hw⟩
    · have hmove : Move b none c c₁ := cutSegment_move ho hcap hn hq hle hcut
      obtain ⟨hst, hcfg⟩ := cutSegment_state hcut
      obtain ⟨segs, w₁, w', hrest⟩ := trySendLoop_admits (hs.move hmove) (hr.move hmove)
        (by rw [isOpen_congr hst]; exact ho) (by rw [hcfg]; exact hseg) hrec
      obtain ⟨w, hw⟩ := hrest.cut hs (hs.move hmove) hcap hn hq hle hsize hcut
      exact ⟨_, w, w', hw⟩

/-- `try_send_more` in an open connection. -/
theorem trySendMore_admits (hs : SendOk c) (hr : RecvFits b c) (ho : c.isOpen)
    (hseg : 1 ≤ c.config.segmentSize) :
    ∃ c' out segs w w', c.trySendMore b = .ok (c', out) ∧ Admits b c c' out segs w w' := by
  unfold Connection.trySendMore
  rw [if_pos ho]
  obtain ⟨⟨c', out⟩, h⟩ := trySendLoop_returns b hs hr ho hseg (Nat.lt_succ_self _)
  obtain ⟨segs, w, w', hadm⟩ := trySendLoop_admits hs hr ho hseg h
  exact ⟨c', out, segs, w, w', h, hadm⟩

/-! ## Where `try_send_more` runs -/

/-- The call `a` in `c` reaches `try_send_more` in the given state. -/
inductive Drains (b : Build) (c : Connection) : Call → Connection → Prop
  | send (now : Tick) (data : List U8) : Drains b c (.send now data) { c.advance now with
      sendQueue := c.sendQueue ++ data
      stats := { c.stats with bytesSentApp := c.stats.bytesSentApp + data.length } }
  | close (now : Tick) : Drains b c (.close now) { c.advance now with closeRequested := true }
  | tick {now : Tick} {c₁ c₂ : Connection} {out₁ out₂ : List Datagram} : c.isOpen →
      (c.advance now).tickData b = .ok (c₁, out₁) → c₁.isFailed = false →
      c₁.tickFin b = .ok (c₂, out₂) → c₂.isFailed = false → Drains b c (.onTick now) c₂
  | segment {now : Tick} {d : Datagram} {f : Frame} {h : SegmentHeader} {app : List U8}
      {c₁ c₂ c₃ : Connection} {out₁ : List Datagram} {resent : Option Datagram} {isFin : Bool} :
      Carries d f h app → isFin = (f.flags &&& FLAG_FIN != 0#16) →
      Connection.handshakeArm b { c.advance now with peerWindow := h.window }
        (f.flags &&& FLAG_SYN != 0#16) (f.flags &&& FLAG_ACK != 0#16) = .ok (false, c₁, out₁) →
      c₁.isOpen →
      (if f.flags &&& FLAG_ACK != 0#16 then c₁.applyAck b h else .ok (c₁, none)) = .ok (c₂, resent) →
      c₂.deliverData b f.sequence app = .ok c₃ →
      ((app.isEmpty && !isFin) = false → ∃ ack, (c₃.noted isFin true).buildPureAck b isFin = .ok ack) →
      Drains b c (.onDatagram now d) (c₃.noted isFin !(app.isEmpty && !isFin))

/-- Between two calls, or where a call reaches `try_send_more`; that call has passed so many
    bytes to `send`. -/
inductive AdmitsAt (b : Build) (e : Endpoint) : Connection → Nat → Prop
  | between : AdmitsAt b e e.conn 0
  | within {a : Call} {c : Connection} : Drains b e.conn a c → AdmitsAt b e c a.sends

/-- A segment of an open connection goes into the shared block. -/
theorem Drains.segment_open {isFin : Bool} {seq : U32} {h : SegmentHeader} {app : List U8}
    {isAck : Bool} {c₁ c₂ : Connection} {resent : Option Datagram}
    (hap : (if isAck then c.applyAck b h else .ok (c, none)) = .ok (c₁, resent))
    (hdel : c₁.deliverData b seq app = .ok c₂)
    (hr : c.openBlock b seq h app isAck isFin = .ok (c', out)) :
    ∃ out₄, (c₂.noted isFin !(app.isEmpty && !isFin)).drainAndMaybeFin b = .ok (c', out₄) := by
  obtain ⟨c₁', resent', c₂', acks, out₄, hap', hdel', _, hdrain, _⟩ := openBlock_parts hr
  rw [hap] at hap'
  cases hap'
  rw [hdel] at hdel'
  cases hdel'
  exact ⟨out₄, hdrain⟩

/-- A call that reaches `try_send_more` ends with it, with the FIN and the closing check. -/
theorem Drains.call {a : Call} (hd : Drains b e.conn a c) (hr : e.call b a = .ok e') :
    ∃ out, c.drainAndMaybeFin b = .ok (e'.conn, out) := by
  cases hd with
  | send now data =>
    obtain ⟨⟨c', out⟩, hc, hr⟩ := bind_eq_ok.mp hr
    cases hr
    exact ⟨out, hc⟩
  | close now =>
    obtain ⟨⟨c', out⟩, hc, hr⟩ := bind_eq_ok.mp hr
    cases hr
    exact ⟨out, hc⟩
  | @tick now c₁ c₂ out₁ out₂ ho h₁ hf₁ h₂ hf₂ =>
    obtain ⟨⟨c', out⟩, hc, hr⟩ := bind_eq_ok.mp hr
    cases hr
    rw [onTick_open b ho] at hc
    obtain ⟨c₁', out₁', h₁', hc⟩ := tickOpen_parts hc
    rw [h₁] at h₁'
    cases h₁'
    rcases hc with ⟨hf, _⟩ | ⟨_, c₂', out₂', h₂', hc⟩
    · rw [hf₁] at hf; cases hf
    · rw [h₂] at h₂'
      cases h₂'
      rcases hc with ⟨hf, _⟩ | ⟨_, out₃, h₃, _⟩
      · rw [hf₂] at hf; cases hf
      · exact ⟨out₃, h₃⟩
  | @segment now d f h app c₁ c₂ c₃ out₁ resent isFin hcar hfin harm ho hap hdel _ =>
    obtain ⟨⟨c', out⟩, hc, hr⟩ := bind_eq_ok.mp hr
    cases hr
    rw [hcar.onDatagram now] at hc
    rcases onSegment_parts hc with ⟨hadm, _⟩ | ⟨_, c₁', out₁', out₂', harm', _, hblock, _⟩
    · have hyes : (e.conn.advance now).admits (f.flags &&& FLAG_SYN != 0#16)
          (f.flags &&& FLAG_ACK != 0#16) = true :=
        handshakeArm_admits (c := { e.conn.advance now with peerWindow := h.window }) harm ho
      rw [hadm] at hyes
      cases hyes
    · rw [harm] at harm'
      cases harm'
      rw [← hfin] at hblock
      exact Drains.segment_open hap hdel hblock

/-- **Where `try_send_more` runs, the send side is in order.** -/
theorem AdmitsAt.sendOk {n : Nat} (hc : AdmitsAt b e c n) (hs : Spent e.sent.length e.conn)
    (hsent : e.sent.length + n < 2 ^ 32) : SendOk c := by
  cases hc with
  | between => exact hs.send
  | @within a _ hd =>
    have hadv : ∀ now, SendOk (e.conn.advance now) := fun now => hs.send.of_segments rfl rfl rfl
    cases hd with
    | send now data =>
      refine ⟨hs.send.tiles, ?_⟩
      have htotal := hs.total
      show e.conn.nextSeq.toNat + (e.conn.sendQueue ++ data).length < 2 ^ 32
      simp only [Call.sends] at hsent
      rw [List.length_append]
      omega
    | close now => exact hs.send.of_segments rfl rfl rfl
    | @tick now c₁ _ out₁ out₂ _ h₁ _ h₂ _ =>
      have hm₁ : Moves b none (e.conn.advance now) c₁ := tickData_moves h₁
      have hm₂ : Moves b none c₁ c := tickFin_moves h₂
      exact (hm₁.trans hm₂).preserves SendOk.move (hadv now)
    | @segment now d f h app c₁ c₂ c₃ out₁ resent isFin _ _ harm ho hap hdel _ =>
      obtain ⟨st, hk, r, heq⟩ := handshakeArm_fields harm
      have hs₁ : SendOk c₁ := by rw [heq]; exact hs.send.of_segments rfl rfl rfl
      have hs₂ : SendOk c₂ := (ack_moves ho hap).preserves SendOk.move hs₁
      obtain ⟨buf, ex, st', del, rfl⟩ := (deliverData_delivers hdel).fields
      exact hs₂.of_segments rfl rfl rfl

/-- **Where `try_send_more` runs, a header can be built.** -/
theorem AdmitsAt.recvFits {n : Nat} (hc : AdmitsAt b e c n) (hh : b = .checked → Holds e.conn) :
    RecvFits b c := by
  intro hb
  subst hb
  have hok := (hh rfl).recv
  cases hc with
  | between => exact hok
  | within hd =>
    cases hd with
    | send now data => exact hok.congr rfl rfl
    | close now => exact hok.congr rfl rfl
    | @tick now c₁ _ out₁ out₂ _ h₁ _ h₂ _ =>
      have hm₁ : Moves .checked none (e.conn.advance now) c₁ := tickData_moves h₁
      have hm₂ : Moves .checked none c₁ c := tickFin_moves h₂
      have hk := (hm₁.trans hm₂).recvKeeps
      exact hok.congr hk.recvBuffer hk.delivered
    | @segment now d f h app c₁ c₂ c₃ out₁ resent isFin hcar _ harm ho hap hdel hans =>
      have hk₁ := handshakeArm_recv harm
      have hk₂ := hk₁.trans (ack_recv hap)
      have hh₂ : Holds c₂ :=
        (hh rfl).keep ⟨hk₂.config, hk₂.expectedSeq, hk₂.recvBuffer, hk₂.delivered⟩
      exact (hh₂.deliver hcar.length_lt hdel fun hne => hans (by simp [hne])).recv.congr rfl rfl

theorem AdmitsAt.config {n : Nat} (hc : AdmitsAt b e c n) : c.config = e.conn.config := by
  cases hc with
  | between => rfl
  | within hd =>
    cases hd with
    | send | close => rfl
    | @tick now c₁ _ out₁ out₂ _ h₁ _ h₂ _ =>
      have hm₁ : Moves b none (e.conn.advance now) c₁ := tickData_moves h₁
      have hm₂ : Moves b none c₁ c := tickFin_moves h₂
      exact (hm₁.trans hm₂).config
    | @segment now d f h app c₁ c₂ c₃ out₁ resent isFin hcar _ harm ho hap hdel hans =>
      have hk₂ := (handshakeArm_recv harm).trans (ack_recv hap)
      obtain ⟨buf, ex, st', del, rfl⟩ := (deliverData_delivers hdel).fields
      exact hk₂.config

/-- **Admission is exact**, between calls and wherever a call runs `try_send_more`, whatever has
    arrived. -/
theorem admission_exact (hseg : 1 ≤ cfg.segmentSize) (h : Solo b cfg e heard) {n : Nat}
    (hc : AdmitsAt b e c n) (hsent : e.sent.length + n < 2 ^ 32) (ho : c.isOpen) :
    ∃ c' out segs w w', c.trySendMore b = .ok (c', out) ∧ Admits b c c' out segs w w' := by
  obtain ⟨hcfg, hs⟩ := solo_spent hseg h (by omega)
  refine trySendMore_admits (hc.sendOk hs hsent) (hc.recvFits fun hb => ?_) ho ?_
  · subst hb
    exact (solo_holds hseg h).2
  · rw [hc.config, hcfg]
    exact hseg

/-- A client that is about to cut two bytes into two segments. -/
theorem admission_exact_sample : ∃ e n c, Solo .checked soloConfig e n ∧
    AdmitsAt .checked e c 2 ∧ c.sendQueue = [1, 2] ∧
    ∃ c' out segs w w', c.trySendMore .checked = .ok (c', out) ∧
      Admits .checked c c' out segs w w' := by
  have hrun : Endpoint.plays .checked soloConfig
      [.onDatagram 2 (crafted 0 (FLAG_SYN ||| FLAG_ACK) 0 [] [])]
      (fun e => decide (e.sent.length + 2 < 2 ^ 32 ∧ e.conn.isOpen = true ∧ e.conn.sendQueue = [])) =
      true := by
    decide +kernel
  obtain ⟨e, he, ht⟩ := Endpoint.plays_solo hrun
  obtain ⟨hsent, ho, hq⟩ := of_decide_eq_true ht
  have hat : AdmitsAt .checked e _ 2 := .within (.send 3 [1, 2])
  exact ⟨e, _, _, he, hat, by simp [hq], admission_exact (by decide) he hat hsent ho⟩

end Distrans
