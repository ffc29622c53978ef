import Distrans.Transport.FlowRun

/-!
# What one call can do to a connection

`Move b hdr c c'` lists, once, every elementary change a call makes after the clock has been
advanced and the arriving window adopted; `hdr` is the arriving header, if any.  Each function of
the state machine is shown to be a sequence of moves (`Moves`), so an invariant of the
connection needs one case per move and none per function.
-/

set_option autoImplicit false

namespace Distrans

open Machine OrdMap

variable {b : Build} {hdr : Option SegmentHeader} {c c' : Connection} {out : List Datagram}

/-- The estimator after some RTT samples. -/
inductive Sampled (b : Build) (r : RtoEstimator) : RtoEstimator → Prop
  | refl : Sampled b r r
  | sample {r' r'' : RtoEstimator} {m : U64} : Sampled b r r' → r'.onSample b m = .ok r'' →
      Sampled b r r''

theorem Sampled.trans {r r' r'' : RtoEstimator} (h : Sampled b r r') (h' : Sampled b r' r'') :
    Sampled b r r'' := by
  induction h' with
  | refl => exact h
  | sample _ hx ih => exact ih.sample hx

inductive Move (b : Build) (hdr : Option SegmentHeader) (c : Connection) : Connection → Prop
  | count (st : Stats) : Move b hdr c { c with stats := st }
  -- handshake
  | synReceived : hdr.isSome → c.state = .listening →
      Move b hdr c { c with state := .synReceived, handshake := some ⟨c.now, 1⟩ }
  | establish {r : RtoEstimator} : hdr.isSome → c.state = .synReceived ∨ c.state = .synSent →
      Sampled b c.rto r → Move b hdr c { c with rto := r, handshake := none, state := .established }
  -- acknowledgements
  | learn {h : SegmentHeader} {r : RtoEstimator} {w : U32} : hdr = some h → c.isOpen →
      c.sendBase < h.ack → Sampled b c.rto r →
      Move b hdr c { c with
        unacked := c.unacked.eraseAll (c.unacked.below h.ack), rto := r, sendBase := h.ack
        dupAckCount := 0, cwnd := w }
  | dup {n : U32} : hdr.isSome → b.add c.dupAckCount 1#32 = .ok n →
      Move b hdr c { c with dupAckCount := n }
  | fast {u : OrdMap U32 UnackedSegment} {w : U32} {st : Stats} : hdr.isSome →
      c.unacked.mapFirst (fun seg => do
        let n ← b.add seg.retransmitCount 1#32
        .ok { seg with retransmitCount := n, sentAt := c.now }) = .ok u →
      Move b hdr c { c with
        dupAckCount := 0, ssthresh := w, cwnd := w, stats := st, unacked := u }
  | mark {h : SegmentHeader} {r : SackRange} {u : OrdMap U32 UnackedSegment} : hdr = some h →
      r ∈ h.sack → c.unacked.mapRange r.start r.stop (fun seg => { seg with sacked := true }) = .ok u →
      Move b hdr c { c with unacked := u }
  | finAck {h : SegmentHeader} : hdr = some h → h.finAck →
      Move b hdr c { c with finAcked := true, finPending := none }
  -- receiving
  | deliver {seq : U32} {data : List U8} {c' : Connection} : hdr.isSome →
      c.deliverData b seq data = .ok c' → Move b hdr c c'
  | seeFin : hdr.isSome → Move b hdr c { c with peerFinSeen := true }
  -- sending
  | cut {n : Nat} {cap nextSeq : U32} {st : Stats} : c.isOpen → c.admissionCap b = .ok cap →
      0 < n → n ≤ c.sendQueue.length → n ≤ cap.toNat →
      b.add c.nextSeq (BitVec.ofNat 32 n) = .ok nextSeq →
      Move b hdr c { c with
        sendQueue := c.sendQueue.drop n, nextSeq
        unacked := c.unacked.insert c.nextSeq ⟨c.sendQueue.take n, c.now, 0, false⟩, stats := st }
  | startFin : c.state = .established → c.finAcked = false →
      Move b hdr c { c with state := .closing, finPending := some ⟨c.now, 1⟩ }
  | close : c.state = .closing → c.finAcked → c.peerFinSeen →
      Move b hdr c { c with state := .closed }
  -- timers
  | retryHandshake {h : PendingControl} {attempts : U32} {est : RtoEstimator} {st : Stats} :
      c.handshake = some h → c.Due b h.sentAt → b.add h.attempts 1#32 = .ok attempts →
      attempts ≤ c.config.maxRetries → c.rto.onTimeout b = .ok est →
      Move b hdr c { c with rto := est, handshake := some ⟨c.now, attempts⟩, stats := st }
  | failHandshake {h : PendingControl} {attempts : U32} : c.handshake = some h →
      b.add h.attempts 1#32 = .ok attempts → c.config.maxRetries < attempts →
      Move b hdr c { c with state := .failed .tooManyRetries, handshake := none }
  | sweep {u : OrdMap U32 UnackedSegment} {est : RtoEstimator} {w w' : U32} {st : Stats} :
      c.rto.onTimeout b = .ok est →
      c.unacked.mapM (fun _ seg => Connection.resend b c.now seg) = .ok u →
      Move b hdr c { c with
        rto := est, ssthresh := w, cwnd := w', dupAckCount := 0, stats := st, unacked := u }
  | failData : Move b hdr c { c with state := .failed .tooManyRetries, unacked := OrdMap.empty }
  | retryFin {h : PendingControl} {attempts : U32} {est : RtoEstimator} {st : Stats} :
      c.finPending = some h → b.add h.attempts 1#32 = .ok attempts →
      attempts ≤ c.config.maxRetries → c.rto.onTimeout b = .ok est →
      Move b hdr c { c with rto := est, finPending := some ⟨c.now, attempts⟩, stats := st }
  | failFin {h : PendingControl} : c.finPending = some h →
      Move b hdr c { c with state := .failed .tooManyRetries, finPending := none }

/-- Any number of moves. -/
inductive Moves (b : Build) (hdr : Option SegmentHeader) (c : Connection) : Connection → Prop
  | refl : Moves b hdr c c
  | tail {c₁ c₂ : Connection} : Moves b hdr c c₁ → Move b hdr c₁ c₂ → Moves b hdr c c₂

namespace Moves

theorem trans {c₁ c₂ : Connection} (h : Moves b hdr c c₁) (h' : Moves b hdr c₁ c₂) :
    Moves b hdr c c₂ := by
  induction h' with
  | refl => exact h
  | tail _ hm ih => exact ih.tail hm

theorem one (h : Move b hdr c c') : Moves b hdr c c' := refl.tail h

/-- What every move preserves, a sequence of moves preserves. -/
theorem preserves {P : Connection → Prop} (hstep : ∀ {c c'}, P c → Move b hdr c c' → P c')
    (h : Moves b hdr c c') (hc : P c) : P c' := by
  induction h with
  | refl => exact hc
  | tail _ hm ih => exact hstep ih hm

end Moves

theorem Move.config (h : Move b hdr c c') : c'.config = c.config := by
  cases h with
  | deliver _ hd => obtain ⟨_, _, _, _, rfl⟩ := (deliverData_delivers hd).fields; rfl
  | _ => rfl

theorem Moves.config (h : Moves b hdr c c') : c'.config = c.config := by
  induction h with
  | refl => rfl
  | tail _ hm ih => exact hm.config.trans ih

theorem Move.now (h : Move b hdr c c') : c'.now = c.now := by
  cases h with
  | deliver _ hd => obtain ⟨_, _, _, _, rfl⟩ := (deliverData_delivers hd).fields; rfl
  | _ => rfl

theorem Moves.now (h : Moves b hdr c c') : c'.now = c.now := by
  induction h with
  | refl => rfl
  | tail _ hm ih => exact hm.now.trans ih

/-! ## Sending -/

theorem cutSegment_move {n : Nat} {cap : U32} {d : Datagram} (ho : c.isOpen)
    (hcap : c.admissionCap b = .ok cap) (hn : 0 < n) (hq : n ≤ c.sendQueue.length)
    (hle : n ≤ cap.toNat) (h : c.cutSegment b n = .ok (c', d)) : Move b hdr c c' := by
  obtain ⟨nextSeq, bytes, hseq, _, _, rfl⟩ := cutSegment_spec h
  exact .cut ho hcap hn hq hle hseq

theorem cutSegment_state {n : Nat} {d : Datagram} (h : c.cutSegment b n = .ok (c', d)) :
    c'.state = c.state ∧ c'.config = c.config := by
  obtain ⟨nextSeq, bytes, _, _, _, rfl⟩ := cutSegment_spec h
  exact ⟨rfl, rfl⟩

theorem cutSegment_queue {n : Nat} {d : Datagram} (h : c.cutSegment b n = .ok (c', d)) :
    c'.sendQueue = c.sendQueue.drop n := by
  obtain ⟨nextSeq, bytes, _, _, _, rfl⟩ := cutSegment_spec h
  rfl

theorem isOpen_congr (h : c'.state = c.state) : c'.isOpen = c.isOpen := by
  simp only [Connection.isOpen, h]

theorem isFailed_congr (h : c'.state = c.state) : c'.isFailed = c.isFailed := by
  simp only [Connection.isFailed, h]

theorem trySendLoop_moves : ∀ {fuel : Nat} {c c' : Connection} {out : List Datagram},
    c.isOpen → 1 ≤ c.config.segmentSize → c.trySendLoop b fuel = .ok (c', out) → Moves b hdr c c'
  | 0, _, _, _, _, _, h => by cases h
  | fuel + 1, c, c', out, ho, hseg, h => by
    rcases trySendLoop_cases hseg h with ⟨rfl, _, _⟩ |
      ⟨n, cap, c₁, d, out₁, hcap, hn, hq, hle, _, hcut, hrec, _⟩
    · exact .refl
    · obtain ⟨hst, hcfg⟩ := cutSegment_state hcut
      exact (Moves.one (cutSegment_move ho hcap hn hq hle hcut)).trans
        (trySendLoop_moves (by rw [isOpen_congr hst]; exact ho) (by rw [hcfg]; exact hseg) hrec)

theorem trySendMore_moves (hseg : 1 ≤ c.config.segmentSize)
    (h : c.trySendMore b = .ok (c', out)) : Moves b hdr c c' := by
  unfold Connection.trySendMore at h
  split at h
  · rename_i ho
    exact trySendLoop_moves ho hseg h
  · cases h; exact .refl

theorem maybeSendFin_moves {fin : Option Datagram} (h : c.maybeSendFin b = .ok (c', fin)) :
    Moves b hdr c c' := by
  cases maybeSendFin_branch h with
  | skip => exact .refl
  | sent _ _ hack hst => exact .one (.startFin hst hack)

theorem checkFullyClosed_moves (c : Connection) : Moves b hdr c c.checkFullyClosed := by
  unfold Connection.checkFullyClosed
  split
  · rename_i hcond
    exact .one (.close hcond.1 hcond.2.1 hcond.2.2)
  · exact .refl

theorem drainAndMaybeFin_moves (hseg : 1 ≤ c.config.segmentSize)
    (h : c.drainAndMaybeFin b = .ok (c', out)) : Moves b hdr c c' := by
  obtain ⟨⟨c₁, out₁⟩, h₁, h⟩ := bind_eq_ok.mp h
  obtain ⟨⟨c₂, fin⟩, h₂, h⟩ := bind_eq_ok.mp h
  cases h
  exact ((trySendMore_moves hseg h₁).trans (maybeSendFin_moves h₂)).trans
    (checkFullyClosed_moves c₂)

/-! ## Receiving -/

section Incoming

variable {h : SegmentHeader}

theorem ackSegments_sampled {now : Tick} : ∀ {ks : List U32} {u u' : OrdMap U32 UnackedSegment}
    {r r' : RtoEstimator}, Connection.ackSegments b now ks u r = .ok (u', r') → Sampled b r r'
  | [], _, _, _, _, h => by cases h; exact .refl
  | k :: ks, u, u', r, r', h => by
    simp only [Connection.ackSegments] at h
    split at h
    · exact ackSegments_sampled h
    · obtain ⟨r₁, h₁, h⟩ := bind_eq_ok.mp h
      have hs : Sampled b r r₁ := by
        split at h₁
        · exact .sample .refl h₁
        · cases h₁; exact .refl
      exact hs.trans (ackSegments_sampled h)

theorem ackAdvance_move (ho : c.isOpen) (hadv : c.sendBase < h.ack)
    (hr : c.ackAdvance b h = .ok c') : Move b (some h) c c' := by
  obtain ⟨_, r, w, _, hu, _, rfl⟩ := ackAdvance_spec hr
  exact .learn rfl ho hadv (ackSegments_sampled hu)

theorem sackMarks_moves : ∀ {rs : List SackRange} {c : Connection} {u : OrdMap U32 UnackedSegment},
    (∀ r ∈ rs, r ∈ h.sack) →
    rs.foldlM (fun m r => m.mapRange r.start r.stop fun seg => { seg with sacked := true })
      c.unacked = .ok u → Moves b (some h) c { c with unacked := u }
  | [], c, u, _, hu => by cases hu; exact .refl
  | r :: rs, c, u, hrs, hu => by
    rw [List.foldlM_cons] at hu
    obtain ⟨u₁, hu₁, hu⟩ := bind_eq_ok.mp hu
    have hrest := sackMarks_moves (c := { c with unacked := u₁ })
      (fun r' hr' => hrs r' (List.mem_cons_of_mem _ hr')) hu
    exact (Moves.one (.mark rfl (hrs r List.mem_cons_self) hu₁)).trans hrest

theorem ackMarks_moves (hr : c.ackMarks h = .ok c') : Moves b (some h) c c' := by
  cases ackMarks_branch hr with
  | marked _ hu => exact sackMarks_moves (fun r hr => hr) hu
  | finAcked hfa hu =>
    have hmarks := sackMarks_moves (b := b) (fun r hr => hr) hu
    exact (hmarks.tail (.finAck rfl hfa)).trans (checkFullyClosed_moves _)

theorem fastRetransmit_moves (hh : hdr.isSome) {resent : Option Datagram}
    (hr : c.fastRetransmit b = .ok (c', resent)) : Moves b hdr c c' := by
  cases fastRetransmit_branch hr with
  | nothing _ hu | oldest _ hu => exact .one (.fast hh hu)

theorem applyAck_moves (ho : c.isOpen) {resent : Option Datagram}
    (hr : c.applyAck b h = .ok (c', resent)) : Moves b (some h) c c' := by
  cases applyAck_branch hr with
  | advance hadv h₁ h₂ => exact (Moves.one (ackAdvance_move ho hadv h₁)).trans (ackMarks_moves h₂)
  | duplicate _ _ hn _ h₂ => exact (Moves.one (.dup rfl hn)).trans (ackMarks_moves h₂)
  | resend _ _ hn _ hfast => exact (Moves.one (.dup rfl hn)).trans (fastRetransmit_moves rfl hfast)
  | stale _ _ h₂ => exact ackMarks_moves h₂

theorem completeHandshake_move (hh : hdr.isSome) (hst : c.state = .synReceived ∨ c.state = .synSent)
    (hr : c.completeHandshake b = .ok c') : Move b hdr c c' := by
  obtain ⟨r, hs, hr⟩ := bind_eq_ok.mp hr
  cases hr
  refine .establish hh hst ?_
  split at hs
  · split at hs
    · exact .sample .refl hs
    · cases hs; exact .refl
  · cases hs; exact .refl

theorem handshakeArm_moves (hh : hdr.isSome) {isSyn isAck returns : Bool}
    (hr : c.handshakeArm b isSyn isAck = .ok (returns, c', out)) : Moves b hdr c c' := by
  cases handshakeArm_branch hr with
  | greet hst => exact .one (.synReceived hh hst)
  | regreet => exact .refl
  | accept hst _ h₁ => exact .one (completeHandshake_move hh (Or.inl hst) h₁)
  | connect hst _ h₁ => exact .one (completeHandshake_move hh (Or.inr hst) h₁)
  | confirm => exact .refl
  | pass => exact .refl

theorem openBlock_moves (ho : c.isOpen) (hseg : 1 ≤ c.config.segmentSize) {seq : U32}
    {app : List U8} {isAck isFin : Bool}
    (hr : c.openBlock b seq h app isAck isFin = .ok (c', out)) : Moves b (some h) c c' := by
  obtain ⟨c₁, resent, c₂, acks, out₄, h₁, h₂, _, hdrain, _⟩ := openBlock_parts hr
  have hack : Moves b (some h) c c₁ := by
    split at h₁
    · exact applyAck_moves ho h₁
    · cases h₁; exact .refl
  have hdel : Moves b (some h) c c₂ := hack.tail (.deliver rfl h₂)
  have hnoted : ∀ answered, Moves b (some h) c (c₂.noted isFin answered) := by
    intro answered
    cases isFin with
    | true =>
      rw [noted_fin]
      exact (hdel.tail (.seeFin rfl)).tail (.count _)
    | false =>
      rw [noted_plain]
      exact hdel.tail (.count _)
  exact (hnoted _).trans (drainAndMaybeFin_moves (by rw [(hnoted _).config]; exact hseg) hdrain)

/-- A segment arrives: its window is adopted, the rest is moves. -/
theorem onSegment_moves (hseg : 1 ≤ c.config.segmentSize) {seq : U32} {flags : U16}
    {app : List U8} (hr : c.onSegment b seq flags h app = .ok (c', out)) :
    Moves b (some h) { c with peerWindow := h.window } c' := by
  cases onSegment_branch hr with
  | closed => exact .refl
  | handshake _ h₁ => exact handshakeArm_moves rfl h₁
  | block _ h₁ ho h₂ =>
    have harm : Moves b (some h) { c with peerWindow := h.window } _ := handshakeArm_moves rfl h₁
    exact harm.trans (openBlock_moves ho (by rw [harm.config]; exact hseg) h₂)

end Incoming

/-! ## Timers -/

theorem tickHandshake_moves (h : c.tickHandshake b = .ok (c', out)) : Moves b hdr c c' := by
  cases tickHandshake_branch h with
  | idle => exact .refl
  | fail hp _ hn hmax => exact .one (.failHandshake hp hn hmax)
  | retry hp hdue hn hmax hest => exact .one (.retryHandshake hp hdue hn hmax hest)

theorem tickData_moves (h : c.tickData b = .ok (c', out)) : Moves b hdr c c' := by
  cases tickData_branch h with
  | idle => exact .refl
  | fail _ _ hest _ _ hu => exact (Moves.one (.sweep hest hu)).tail .failData
  | sweep _ _ hest _ _ hu => exact .one (.sweep hest hu)

theorem tickFin_moves (h : c.tickFin b = .ok (c', out)) : Moves b hdr c c' := by
  cases tickFin_branch h with
  | idle => exact .refl
  | fail hp => exact .one (.failFin hp)
  | retry hp _ hn hmax hest => exact .one (.retryFin hp hn hmax hest)

theorem tickOpen_moves (hseg : 1 ≤ c.config.segmentSize) (h : c.tickOpen b = .ok (c', out)) :
    Moves b hdr c c' := by
  obtain ⟨c₁, out₁, h₁, hr⟩ := tickOpen_parts h
  have hm₁ : Moves b hdr c c₁ := tickData_moves h₁
  rcases hr with ⟨_, rfl, _⟩ | ⟨_, c₂, out₂, h₂, hr⟩
  · exact hm₁
  · have hm₂ := hm₁.trans (tickFin_moves h₂)
    rcases hr with ⟨_, rfl, _⟩ | ⟨_, out₃, h₃, _⟩
    · exact hm₂
    · exact hm₂.trans (drainAndMaybeFin_moves (by rw [hm₂.config]; exact hseg) h₃)

/-- What a tick does depends on the state alone. -/
theorem onTick_open (b : Build) {now : Tick} (ho : c.isOpen) :
    c.onTick b now = (c.advance now).tickOpen b := by
  unfold Connection.onTick
  dsimp only
  rcases isOpen_cases ho with hst | hst <;> rw [show (c.advance now).state = _ from hst]

theorem onTick_moves (hseg : 1 ≤ c.config.segmentSize) {now : Tick}
    (h : c.onTick b now = .ok (c', out)) : Moves b hdr (c.advance now) c' := by
  cases onTick_branch h with
  | handshake _ h => exact tickHandshake_moves h
  | opened _ h => exact tickOpen_moves hseg h
  | rest => exact .refl

/-! ## Calls -/

/-- What a call changes before the moves: the clock, the application's own data, the arriving
    window. -/
inductive Prepares (c : Connection) : Call → Option SegmentHeader → Connection → Prop
  | send (now : Tick) (data : List U8) (st : Stats) :
      Prepares c (.send now data) none
        { c.advance now with sendQueue := c.sendQueue ++ data, stats := st }
  | close (now : Tick) :
      Prepares c (.close now) none { c.advance now with closeRequested := true }
  | recv : Prepares c .recv none { c with delivered := [] }
  | tick (now : Tick) : Prepares c (.onTick now) none (c.advance now)
  | drop (now : Tick) (d : Datagram) : Prepares c (.onDatagram now d) none (c.advance now)
  | segment {now : Tick} {d : Datagram} {f : Frame} {h : SegmentHeader} {app : List U8} :
      Carries d f h app → Prepares c (.onDatagram now d) (some h)
        { c.advance now with peerWindow := h.window }

theorem Prepares.config {a : Call} (h : Prepares c a hdr c') : c'.config = c.config := by
  cases h <;> rfl

/-- Every call is a preparation followed by moves. -/
theorem call_moves {e e' : Endpoint} {a : Call} (hseg : 1 ≤ e.conn.config.segmentSize)
    (h : e.call b a = .ok e') : ∃ hdr c₀, Prepares e.conn a hdr c₀ ∧ Moves b hdr c₀ e'.conn := by
  cases a with
  | send now data =>
    obtain ⟨⟨c', out⟩, hc, h⟩ := bind_eq_ok.mp h
    cases h
    exact ⟨none, _, .send now data _, drainAndMaybeFin_moves hseg hc⟩
  | close now =>
    obtain ⟨⟨c', out⟩, hc, h⟩ := bind_eq_ok.mp h
    cases h
    exact ⟨none, _, .close now, drainAndMaybeFin_moves hseg hc⟩
  | recv =>
    cases h
    exact ⟨none, _, .recv, .refl⟩
  | onTick now =>
    obtain ⟨⟨c', out⟩, hc, h⟩ := bind_eq_ok.mp h
    cases h
    exact ⟨none, _, .tick now, onTick_moves hseg hc⟩
  | onDatagram now d =>
    obtain ⟨⟨c', out⟩, hc, h⟩ := bind_eq_ok.mp h
    cases h
    rcases onDatagram_cases hc with ⟨rfl, rfl⟩ | ⟨f, hh, app, hcar, hs⟩
    · exact ⟨none, _, .drop now d, .refl⟩
    · exact ⟨some hh, _, .segment hcar, onSegment_moves hseg hs⟩

theorem call_config {e e' : Endpoint} {a : Call} (hseg : 1 ≤ e.conn.config.segmentSize)
    (h : e.call b a = .ok e') : e'.conn.config = e.conn.config := by
  obtain ⟨hdr, c₀, hp, hm⟩ := call_moves hseg h
  exact hm.config.trans hp.config

/-- The configuration of each side. -/
def Side.config (ccfg scfg : Config) : Side → Config
  | .client => ccfg
  | .server => scfg

theorem blank_config {cfg : Config} {t : Tick} {st : State}
    (h : Connection.blank b cfg t st = .ok c) :
    c.config = cfg ∧ ∃ w, b.mul 2#32 cfg.segment32 = .ok w := by
  obtain ⟨w, hw, h⟩ := bind_eq_ok.mp h
  cases h
  exact ⟨rfl, w, hw⟩

/-- Configurations stay, and their initial window was computed. -/
theorem reach_config {ccfg scfg : Config} (hseg : 1 ≤ ccfg.segmentSize)
    (hseg' : 1 ≤ scfg.segmentSize) {p : Pair} (h : Pair.Reach b ccfg scfg p) (s : Side) :
    (p.get s).conn.config = s.config ccfg scfg ∧
      ∃ w, b.mul 2#32 (s.config ccfg scfg).segment32 = .ok w := by
  have hpos : ∀ s : Side, 1 ≤ (s.config ccfg scfg).segmentSize := fun s => by
    cases s with
    | client => exact hseg
    | server => exact hseg'
  induction h generalizing s with
  | start h =>
    obtain ⟨⟨c, syn⟩, hc, h⟩ := bind_eq_ok.mp h
    obtain ⟨c', hs, h⟩ := bind_eq_ok.mp h
    cases h
    obtain ⟨c₀, hc₀, hc⟩ := bind_eq_ok.mp hc
    obtain ⟨d, _, hc⟩ := bind_eq_ok.mp hc
    cases hc
    cases s with
    | client =>
      obtain ⟨hcfg, hw⟩ := blank_config hc₀
      exact ⟨hcfg, hw⟩
    | server => exact blank_config hs
  | @step p p' t a _ _ _ hr ih =>
    obtain ⟨e, he, rfl⟩ := Pair.step_inv hr
    rcases s.eq_or_peer t with rfl | rfl
    · rw [Pair.get_set_self]
      obtain ⟨hcfg, hw⟩ := ih s
      exact ⟨(call_config (by rw [hcfg]; exact hpos s) he).trans hcfg, hw⟩
    · rw [Pair.get_set_peer]
      exact ih t.peer

end Distrans
