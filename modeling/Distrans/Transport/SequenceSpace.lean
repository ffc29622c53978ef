import Distrans.Transport.Numbering

/-!
# The sequence space

Sequence numbers are byte offsets in 32 bits, and nothing stops a stream at `2 ^ 32` bytes.

* `sequence_never_wraps` — **as long as every call has room for what it is going to cut
  (`Endpoint.Room`), `next_seq` is the number of bytes cut so far, each new segment is numbered above
  all earlier ones, and no computation with sequence numbers overflows, on either side**; a call
  that returns leaves `next_seq` so if and only if it has that room.
* `sequence_wraps` — with `2 ^ 32` bytes given to `send` a call without room is reached: it panics in
  a checked build, and in the other one `next_seq` starts again from below.
-/

set_option autoImplicit false

namespace Distrans

open Machine OrdMap Tiling

variable {b : Build} {c c' : Connection} {cs : List (List U8)} {X Y e e' : Endpoint} {a : Call} {N : Nat}

/-! ## The receive side -/

/-- What has been received ends at `N` at the latest. -/
structure Below (N : Nat) (c : Connection) : Prop where
  expectedSeq : c.expectedSeq.toNat ≤ N
  nonempty : ∀ e ∈ c.recvBuffer.entries, e.2 ≠ []
  ends : ∀ e ∈ c.recvBuffer.entries, e.1.toNat + e.2.length ≤ N

theorem Below.keep (h : Below N c) (hk : RecvKeeps c c') : Below N c' :=
  ⟨by rw [hk.expectedSeq]; exact h.expectedSeq, by rw [hk.recvBuffer]; exact h.nonempty,
    by rw [hk.recvBuffer]; exact h.ends⟩

theorem Below.mono {M : Nat} (h : Below N c) (hle : N ≤ M) : Below M c :=
  ⟨Nat.le_trans h.expectedSeq hle, h.nonempty, fun e he => Nat.le_trans (h.ends e he) hle⟩

theorem Below.drain (hN : N < 2 ^ 32) : ∀ {fuel : Nat} {c c' : Connection}, Below N c →
    c.drainLoop b fuel = .ok c' → Below N c'
  | 0, _, _, _, h => by cases h
  | fuel + 1, c, c', hb, h => by
    rcases drainLoop_cases h with rfl | ⟨v, expectedSeq, hmem, hadd, h⟩
    · exact hb
    · have hend : c.expectedSeq.toNat + v.length ≤ N := hb.ends _ hmem
      have hlen : (len32 v).toNat = v.length := len32_toNat (by omega)
      have hnext := Build.add_toNat hadd (by omega)
      refine Below.drain hN ⟨?_, fun e he => ?_, fun e he => ?_⟩ h
      · show expectedSeq.toNat ≤ N
        omega
      · exact hb.nonempty e (mem_erase.mp he).1
      · exact hb.ends e (mem_erase.mp he).1

/-- Data that end at `N` at the latest keep it so, -/
theorem Below.deliver (hN : N < 2 ^ 32) (hb : Below N c) {seq : U32} {data : List U8}
    (hfit : data ≠ [] → seq.toNat + data.length ≤ N) (h : c.deliverData b seq data = .ok c') :
    Below N c' := by
  cases deliverData_branch h with
  | empty => exact hb
  | old => exact ⟨hb.expectedSeq, hb.nonempty, hb.ends⟩
  | @next stop _ _ _ hne hstop _ _ _ _ hdrain =>
    have hend := hfit hne
    have hlen : (len32 data).toNat = data.length := len32_toNat (by omega)
    have hstop' := Build.add_toNat hstop (by omega)
    refine Below.drain hN ?_ hdrain
    exact ⟨by show stop.toNat ≤ N; omega, hb.nonempty, hb.ends⟩
  | early hne =>
    refine ⟨hb.expectedSeq, fun e he => ?_, fun e he => ?_⟩
    · rcases mem_insert.mp he with rfl | ⟨he, _⟩
      · exact hne
      · exact hb.nonempty e he
    · rcases mem_insert.mp he with rfl | ⟨he, _⟩
      · exact hfit hne
      · exact hb.ends e he

/-- and are taken in without overflow, -/
theorem Below.deliver_returns (hN : N < 2 ^ 32) (hb : Below N c) {seq : U32} {data : List U8}
    (hlen : data.length < 2 ^ 32) (hfit : data ≠ [] → seq.toNat + data.length ≤ N) :
    ∃ c', c.deliverData b seq data = .ok c' :=
  deliverData_returns (fun _ e he => Nat.lt_of_le_of_lt (hb.ends e he) hN) hlen
    fun _ hne => Nat.lt_of_le_of_lt (hfit hne) hN

/-- and so are the ranges reported. -/
theorem Below.ranges (hN : N < 2 ^ 32) (hb : Below N c) (b : Build) :
    ∃ ranges, c.currentSackRanges b = .ok ranges :=
  sackRuns_returns b fun e he => ⟨hb.nonempty e he, Nat.lt_of_le_of_lt (hb.ends e he) hN⟩

/-! ## One direction of a pair -/

/-- The stream from `X` to `Y`: numbers in order, and nothing received beyond them. -/
structure InSpace (X Y : Endpoint) : Prop where
  numbers : ∃ cs, Numbered cs X.sent X.conn.ledger X.emitted
  received : Below X.conn.nextSeq.toNat Y.conn

/-- The data of a frame lie below `next_seq`. -/
theorem Numbered.frame_le (h : Numbered cs X.sent X.conn.ledger X.emitted) {d : Datagram}
    (hd : d ∈ X.emitted) {seq : U32} {data : List U8} (hdata : data? d = some (seq, data)) :
    seq.toNat + data.length ≤ X.conn.nextSeq.toNat := by
  have hnext : X.conn.nextSeq.toNat = cs.flatten.length := h.nextSeq
  rw [hnext]
  exact (h.frames d hd seq data hdata).end_le

/-- What `X` has emitted reaches `Y` below the numbers of `X`. -/
theorem InSpace.data_le (h : InSpace X Y) {d : Datagram} (hd : d ∈ X.emitted) {f : Frame}
    {hdr : SegmentHeader} {app : List U8} (hc : Carries d f hdr app) (hne : app ≠ []) :
    f.sequence.toNat + app.length ≤ X.conn.nextSeq.toNat := by
  obtain ⟨cs, hnum⟩ := h.numbers
  exact hnum.frame_le hd (hc.data hne)

/-- The sender calls. -/
theorem InSpace.send (h : InSpace X Y) (hcuts : X.conn.ledger.Cuts) (hseg : 1 ≤ X.conn.config.segmentSize)
    (hroom : X.Room b a) (hr : X.call b a = .ok e') : InSpace e' Y := by
  obtain ⟨cs, hnum⟩ := h.numbers
  obtain ⟨ds, hnum'⟩ := hnum.call hcuts hseg hroom hr
  refine ⟨⟨_, hnum'⟩, h.received.mono ?_⟩
  have hold : X.conn.nextSeq.toNat = cs.flatten.length := hnum.nextSeq
  have hnew : e'.conn.nextSeq.toNat = (cs ++ ds).flatten.length := hnum'.nextSeq
  rw [hold, hnew, List.flatten_append, List.length_append]
  exact Nat.le_add_right _ _

/-- The receiver calls. -/
theorem InSpace.receive (h : InSpace X Y) (hseg : 1 ≤ Y.conn.config.segmentSize)
    (hlegal : ∀ now d, a = .onDatagram now d → d ∈ X.emitted) (hr : Y.call b a = .ok e') :
    InSpace X e' := by
  refine ⟨h.numbers, ?_⟩
  rcases call_receives hseg hr with hk | ⟨_, hc⟩ | ⟨f, hdr, app, c₁, c₂, hs, _, hk, hdel, _, hk'⟩
  · exact h.received.keep hk
  · rw [hc]
    exact ⟨h.received.expectedSeq, h.received.nonempty, h.received.ends⟩
  · obtain ⟨now, d, rfl⟩ : ∃ now d, a = .onDatagram now d := by
      cases a with
      | onDatagram now d => exact ⟨now, d, rfl⟩
      | _ => cases hs
    have hcar := carries_of_segment? hs
    refine (Below.deliver X.conn.nextSeq.isLt (h.received.keep hk) (fun hne => ?_) hdel).keep hk'
    exact h.data_le (hlegal now d rfl) hcar hne

/-! ## Runs -/

section Runs

variable {ccfg scfg : Config} {p : Pair}

/-- Every step of a side has room for what it is going to cut. -/
abbrev Pair.Roomy (b : Build) (p : Pair) (s : Side) (a : Call) : Prop := (p.get s).Room b a

theorem blank_below {cfg : Config} {t : Tick} {st : State} (h : Connection.blank b cfg t st = .ok c) :
    Below N c := by
  obtain ⟨w, _, h⟩ := bind_eq_ok.mp h
  cases h
  exact ⟨Nat.zero_le _, (fun e he => by cases he), fun e he => by cases he⟩

theorem Born.below {cfg : Config} (h : Born b cfg e) : Below N e.conn := by
  cases h with
  | client h =>
    obtain ⟨c₀, hc₀, h⟩ := bind_eq_ok.mp h
    obtain ⟨d, _, h⟩ := bind_eq_ok.mp h
    cases h
    exact (blank_below hc₀).keep ⟨rfl, rfl, rfl, rfl⟩
  | server h => exact blank_below h

theorem reach_inSpace (hseg : ∀ s : Side, 1 ≤ (s.config ccfg scfg).segmentSize)
    (hp : Pair.ReachVia b ccfg scfg (Pair.Roomy b) p) : ∀ s : Side, InSpace (p.get s) (p.get s.peer) := by
  induction hp with
  | start h => exact fun s => ⟨⟨[], (start_born h s).numbered⟩, (start_born h s.peer).below⟩
  | @step p p' t a hp hlegal hroom hr ih =>
    obtain ⟨e, he, rfl⟩ := Pair.step_inv hr
    have hsteady := reach_steady hp t
    have hseg' : 1 ≤ (p.get t).conn.config.segmentSize := by rw [hsteady.config]; exact hseg t
    intro s
    rcases s.eq_or_peer t with rfl | rfl
    · rw [Pair.get_set_self, Pair.get_set_peer]
      exact (ih s).send hsteady.cuts hseg' hroom he
    · have hback := ih t.peer
      rw [Pair.peer_peer] at hback ⊢
      rw [Pair.get_set_self, Pair.get_set_peer]
      refine hback.receive hseg' (fun now d ha => ?_) he
      subst ha
      exact hlegal

/-- `next_seq` is the number of bytes cut so far. -/
def Endpoint.Counted (e : Endpoint) : Prop :=
  e.conn.nextSeq.toNat + e.conn.sendQueue.length = e.sent.length

instance Endpoint.decidableCounted (e : Endpoint) : Decidable e.Counted := inferInstanceAs (Decidable (_ = _))

/-- The sequence numbers of the stream from `X` to `Y` count its bytes. -/
structure Unwrapped (b : Build) (X Y : Endpoint) : Prop where
  counted : X.Counted
  /-- What has been cut is what has been sent, each segment under its offset. -/
  segments : ∃ cs : List (List U8), (∀ t ∈ cs, t ≠ []) ∧ X.sent = cs.flatten ++ X.conn.sendQueue ∧
    ∀ (seq : U32) data, Piece cs seq.toNat data ↔ ∃ d ∈ X.emitted, data? d = some (seq, data)
  ascending : Lawful Ascends X.emitted
  -- no computation overflows: cutting, counting what is in flight, taking an acknowledgement,
  -- taking data in and reporting them
  cuts : ∀ a c, Drains b X.conn a c → c.HasRoom → (∃ bytes, c.headerBytes .checked = .ok bytes) →
    ∃ r, c.trySendMore .checked = .ok r
  flight : ∃ w, X.conn.inFlightBytes .checked = .ok w
  acks : ∀ h : SegmentHeader, X.conn.sendBase < h.ack →
    ∃ n, Build.checked.sub h.ack X.conn.sendBase = .ok n
  delivers : ∀ d ∈ X.emitted, ∀ f h app, Carries d f h app → ∀ c, RecvKeeps Y.conn c →
    ∃ c', c.deliverData .checked f.sequence app = .ok c' ∧
      ∃ ranges, c'.currentSackRanges .checked = .ok ranges

theorem InSpace.unwrapped (h : InSpace X Y) (hseg : 1 ≤ X.conn.config.segmentSize) : Unwrapped b X Y := by
  obtain ⟨cs, hnum⟩ := h.numbers
  have hN := X.conn.nextSeq.isLt
  refine ⟨hnum.toCut.length_sent.symm, ⟨cs, hnum.nonempty, hnum.stream, fun seq data => ?_⟩, hnum.ascending,
    fun a c hd hroom hbytes => ?_, ?_, fun hdr hlt => ?_, fun d hd f hdr app hc c hk => ?_⟩
  · refine ⟨hnum.emitted seq data, ?_⟩
    rintro ⟨d, hd, hdata⟩
    exact hnum.frames d hd seq data hdata
  · obtain ⟨ds, log, hdrained⟩ := hnum.drains hd
    have hcfg : c.config = X.conn.config := (AdmitsAt.within hd).config
    unfold Connection.trySendMore
    split
    · obtain ⟨bytes, hbytes⟩ := hbytes
      exact trySendLoop_returns_of_room hdrained.toCut (by rw [hcfg]; exact hseg) hroom hbytes
        (Nat.lt_succ_self _)
    · exact ⟨_, rfl⟩
  · obtain ⟨w, hw, _⟩ := inFlightBytes_returns (Nat.lt_of_le_of_lt hnum.toCut.inFlight_le hN) .checked
    exact ⟨w, hw⟩
  · obtain ⟨n, hn, _⟩ := Build.checked.sub_ok (x := hdr.ack) (y := X.conn.sendBase) (Nat.le_of_lt hlt)
    exact ⟨n, hn⟩
  · have hbelow := h.received.keep hk
    have hfit : app ≠ [] → f.sequence.toNat + app.length ≤ X.conn.nextSeq.toNat := h.data_le hd hc
    obtain ⟨c', hdel⟩ := hbelow.deliver_returns (b := .checked) hN hc.length_lt hfit
    exact ⟨c', hdel, (hbelow.deliver hN hfit hdel).ranges hN .checked⟩

/-- **Sequence numbers do not wrap around** as long as every call has room for what it is going to
    cut; a call that returns leaves `next_seq` the number of bytes cut if and only if it has. -/
theorem sequence_never_wraps (hseg : ∀ s : Side, 1 ≤ (s.config ccfg scfg).segmentSize)
    (hp : Pair.ReachVia b ccfg scfg (Pair.Roomy b) p) (s : Side) :
    Unwrapped b (p.get s) (p.get s.peer) ∧
      ∀ a e, (p.get s).call b a = .ok e → ((p.get s).Room b a ↔ e.Counted) := by
  have hspace := reach_inSpace hseg hp s
  have hsteady := reach_steady hp s
  have hseg' : 1 ≤ (p.get s).conn.config.segmentSize := by rw [hsteady.config]; exact hseg s
  refine ⟨hspace.unwrapped hseg', fun a e hr => ?_⟩
  obtain ⟨cs, hnum⟩ := hspace.numbers
  have hiff := hnum.room_iff hsteady.cuts hseg' hr
  constructor
  · intro hroom
    obtain ⟨ds, hnum'⟩ := hnum.call hsteady.cuts hseg' hroom hr
    exact hnum'.toCut.length_sent.symm
  · intro hcounted
    have hcounted' : e.conn.nextSeq.toNat + e.conn.sendQueue.length = e.sent.length := hcounted
    have hnow := e.conn.nextSeq.isLt
    exact hiff.mpr (by omega)

/-- All that is queued fits, in a form to be computed. -/
def Pair.fitsQueue (p : Pair) (s : Side) (a : Call) : Bool :=
  decide ((p.get s).conn.nextSeq.toNat + ((p.get s).conn.sendQueue.length + a.input.length) < 2 ^ 32)

theorem roomy_of_fitsQueue (p : Pair) (s : Side) (a : Call) (h : p.fitsQueue s a = true) : p.Roomy b s a :=
  room_of_fits (of_decide_eq_true h)

/-- Five bytes in three segments, the last one after an acknowledgement. -/
theorem sequence_never_wraps_sample : ∃ p,
    Pair.ReachVia .checked sampleConfig sampleConfig (Pair.Roomy .checked) p ∧
    p.client.conn.nextSeq = 5 ∧ Unwrapped .checked p.client p.server := by
  have hrun : Pair.playsVia .checked sampleConfig sampleConfig Pair.fitsQueue
      (sampleRun ++ sampleEnd) (fun p => decide (p.client.conn.nextSeq = 5)) = true := by
    decide +kernel
  obtain ⟨p, hp, ht⟩ := Pair.playsVia_reach roomy_of_fitsQueue hrun
  have hseg : ∀ s : Side, 1 ≤ (s.config sampleConfig sampleConfig).segmentSize := by
    intro s
    cases s <;> decide
  exact ⟨p, hp, of_decide_eq_true ht, (sequence_never_wraps hseg hp .client).1⟩

end Runs

/-! ## Without room -/

theorem recvFits_wrapping (c : Connection) : RecvFits .wrapping c := fun hb => by cases hb

/-- Without overflow checks the loop always returns, -/
theorem trySendLoop_wraps {fuel : Nat} (hseg : 1 ≤ c.config.segmentSize) (hf : c.sendQueue.length < fuel) :
    ∃ r, c.trySendLoop .wrapping fuel = .ok r := by
  refine trySendLoop_ends (P := fun _ => True) (fun {c} _ => ?_) (fun {c n cap} _ _ _ _ _ _ => ?_)
    trivial hseg hf
  · obtain ⟨w, hw⟩ := Build.wrapping_sum (c.unacked.values.map fun s => len32 s.data)
    simp only [Connection.admissionCap, Connection.inFlightBytes, hw, ok_bind]
    exact ⟨_, rfl⟩
  · obtain ⟨bytes, hbytes⟩ := (recvFits_wrapping
      { c with sendQueue := c.sendQueue.drop n, nextSeq := c.nextSeq + BitVec.ofNat 32 n }).headerBytes
    simp only [Connection.cutSegment, Build.wrapping_add, hbytes, ok_bind]
    exact ⟨_, _, rfl, trivial⟩

/-- and so does `send`. -/
theorem send_wraps (hseg : 1 ≤ c.config.segmentSize) (now : Tick) (data : List U8) :
    ∃ r, c.send .wrapping now data = .ok r := by
  refine bind_returns ?_ fun r₁ _ => bind_returns (maybeSendFin_returns (recvFits_wrapping _)) fun r₂ _ =>
    ⟨_, rfl⟩
  unfold Connection.trySendMore
  split
  · exact trySendLoop_wraps hseg (Nat.lt_succ_self _)
  · exact ⟨_, rfl⟩

/-- The largest segments and windows there are. -/
def wideConfig : Config where
  segmentSize := 2 ^ 31 - 1
  recvWindowCapacity := BitVec.allOnes 32
  minRto := 2
  maxRto := 64
  maxRetries := 3
  fastRetransmitDupAcks := 3

/-- Handshake; the client sends two bytes, which are acknowledged, read and acknowledged once more. -/
def wideRun : List (Side × Act) :=
  [(.server, .deliver 1 0), (.client, .deliver 2 0), (.server, .deliver 3 1),
   (.client, .send 3 [1, 2]), (.server, .deliver 4 2), (.server, .recv), (.server, .deliver 5 2),
   (.client, .deliver 6 1), (.client, .deliver 7 2)]

/-- Everything has been acknowledged, and nothing holds the sender back. -/
def Connection.idle (c : Connection) : Bool :=
  c.isOpen && decide (c.nextSeq = 2 ∧ c.sendQueue = [] ∧ c.unacked.entries = [] ∧
    c.effectiveWindow = BitVec.allOnes 32)

/-- Then `2 ^ 32 - 2` bytes more have no room. -/
theorem idle_no_room (hi : e.conn.idle = true) {data : List U8} (hlen : data.length = 2 ^ 32 - 2)
    (now : Tick) : ¬ e.Room b (.send now data) := by
  obtain ⟨ho, hi⟩ := Bool.and_eq_true_iff.mp hi
  obtain ⟨hnext, hq, hu, hw⟩ := of_decide_eq_true hi
  intro hroom
  have hroom' : Connection.HasRoom _ := hroom _ (.send now data) ho
  have hflight : e.conn.inFlight = 0 := by
    rw [Connection.inFlight, Connection.segments, hu]
    rfl
  have hadm : e.conn.admissible = 2 ^ 32 - 1 := by
    rw [Connection.admissible, hflight, hw, BitVec.toNat_allOnes]
    rfl
  have hqueued : (e.conn.sendQueue ++ data).length = 2 ^ 32 - 2 := by
    rw [hq, List.nil_append, hlen]
  have hready : e.conn.nextSeq.toNat + min (e.conn.sendQueue ++ data).length e.conn.admissible < 2 ^ 32 :=
    hroom'
  rw [hqueued, hadm, hnext] at hready
  exact absurd hready (by decide)

theorem reach_idle {b : Build}
    (hrun : Pair.playsVia b wideConfig wideConfig Pair.fitsQueue wideRun (fun p => p.client.conn.idle) = true) :
    ∃ p, Pair.ReachVia b wideConfig wideConfig (Pair.Roomy b) p ∧ InSpace p.client p.server ∧
      Steady wideConfig p.client ∧ p.client.conn.idle = true := by
  obtain ⟨p, hp, hidle⟩ := Pair.playsVia_reach roomy_of_fitsQueue hrun
  have hseg : ∀ s : Side, 1 ≤ (s.config wideConfig wideConfig).segmentSize := by
    intro s
    cases s <;> decide
  exact ⟨p, hp, reach_inSpace hseg hp .client, reach_steady hp .client, hidle⟩

/-- **Sequence numbers do wrap around**: after two bytes, `2 ^ 32 - 2` more panic in a checked build,
    and in the other one `next_seq` is no longer the number of bytes cut. -/
theorem sequence_wraps :
    1 ≤ wideConfig.segmentSize ∧ wideConfig.segmentSize < 2 ^ 31 ∧
    (∃ p, Pair.Reach .checked wideConfig wideConfig p ∧
      ∀ p', p.step .checked .client (.send 10 (List.replicate (2 ^ 32 - 2) 0)) ≠ .ok p') ∧
    ∃ p p', Pair.Reach .wrapping wideConfig wideConfig p ∧
      p.step .wrapping .client (.send 10 (List.replicate (2 ^ 32 - 2) 0)) = .ok p' ∧ ¬ p'.client.Counted := by
  obtain ⟨data, hdata⟩ : ∃ data : List U8, data = List.replicate (2 ^ 32 - 2) 0 := ⟨_, rfl⟩
  have hlen : data.length = 2 ^ 32 - 2 := by rw [hdata, List.length_replicate]
  have hseg : ∀ {e : Endpoint}, Steady wideConfig e → 1 ≤ e.conn.config.segmentSize := by
    intro e hs
    rw [hs.config]
    decide
  rw [← hdata]
  refine ⟨by decide, by decide, ?_, ?_⟩
  · obtain ⟨p, hp, hspace, hsteady, hidle⟩ := reach_idle (b := .checked) (by decide +kernel)
    obtain ⟨cs, hnum⟩ := hspace.numbers
    refine ⟨p, hp.reach, fun p' hr => ?_⟩
    obtain ⟨e, he, _⟩ := Pair.step_inv hr
    exact idle_no_room hidle hlen 10 (hnum.room_of_checked hsteady.cuts (hseg hsteady) he)
  · obtain ⟨p, hp, hspace, hsteady, hidle⟩ := reach_idle (b := .wrapping) (by decide +kernel)
    obtain ⟨⟨c, out⟩, hsend⟩ := send_wraps (hseg hsteady) 10 data
    have he : p.client.call .wrapping (.send 10 data) =
        .ok ({ p.client with sent := p.client.sent ++ data }.put c out) := by
      rw [Endpoint.call, hsend]
      rfl
    refine ⟨p, p.set .client ({ p.client with sent := p.client.sent ++ data }.put c out), hp.reach, ?_,
      fun hcounted => ?_⟩
    · show (do let e ← p.client.call .wrapping (.send 10 data); .ok (p.set .client e)) = _
      rw [he]
      rfl
    · obtain ⟨cs, hnum⟩ := hspace.numbers
      have hnow := c.nextSeq.isLt
      have hall : c.nextSeq.toNat + c.sendQueue.length = (p.client.sent ++ data).length := hcounted
      refine idle_no_room hidle hlen 10 ((hnum.room_iff hsteady.cuts (hseg hsteady) he).mpr ?_)
      show (p.client.sent ++ data).length - c.sendQueue.length < 2 ^ 32
      omega

end Distrans
