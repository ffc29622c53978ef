import Distrans.Transport.Phases

/-!
# Arbitrary datagrams

One connection, driven by its application and by whatever byte strings arrive (`Solo`): nothing
is known of the peer.  `Robust` is what the connection keeps all the same.

* `on_datagram_returns` — **in every reachable state `on_datagram` returns on a byte string
  exactly when the segment it carries, if any, is in order** (`Accepts`).
* `on_datagram_panics` — segments that are not: a payload that runs past the sequence space, a
  selective ack whose end lies before its start, a round trip of `2 ^ 61` ticks.
-/

set_option autoImplicit false

namespace Distrans

open Machine OrdMap

variable {b : Build} {c c' : Connection} {out : List Datagram}

/-! ## Runs against any peer -/

/-- How many application bytes a call delivers. -/
def Call.payload (a : Call) : Nat := (a.segment?.map fun s => s.2.2.length).getD 0

/-- One connection, a client or a server, after any calls, and how many application bytes have
    arrived. -/
inductive Solo (b : Build) (cfg : Config) : Endpoint → Nat → Prop
  | connect {t : Tick} {c : Connection} {d : Datagram} : Connection.connect b cfg t = .ok (c, d) →
      Solo b cfg (Endpoint.fresh c [d]) 0
  | listen {t : Tick} {c : Connection} : Connection.listen b cfg t = .ok c →
      Solo b cfg (Endpoint.fresh c []) 0
  | step {e e' : Endpoint} {a : Call} {n : Nat} : Solo b cfg e n → e.call b a = .ok e' →
      Solo b cfg e' (n + a.payload)

/-- All that has been passed to `send` has been cut or is queued. -/
structure Spent (n : Nat) (c : Connection) : Prop where
  send : SendOk c
  total : c.nextSeq.toNat + c.sendQueue.length = n

theorem Spent.move {n : Nat} {hdr : Option SegmentHeader} (h : Spent n c) (hm : Move b hdr c c') :
    Spent n c' := by
  refine ⟨h.send.move hm, ?_⟩
  have htotal := h.total
  cases hm with
  | deliver _ hd =>
    obtain ⟨_, _, _, _, rfl⟩ := (deliverData_delivers hd).fields
    exact htotal
  | @cut n' cap nextSeq st _ _ hn hq _ hseq =>
    have hnext := h.send.nextSeq_cut hq hseq
    show nextSeq.toNat + (c.sendQueue.drop n').length = n
    rw [hnext, List.length_drop]
    omega
  | _ => exact htotal

/-- What a connection keeps whatever arrives. -/
structure Robust (b : Build) (cfg : Config) (e : Endpoint) (heard : Nat) : Prop where
  config : e.conn.config = cfg
  timers : Timers b e.conn
  send : Spent e.sent.length e.conn
  recv : b = .checked → RecvOk e.conn ∧ e.conn.heldBytes ≤ heard

variable {cfg : Config} {e e' : Endpoint} {heard : Nat}

theorem blank_robust {t : Tick} {st : State} {hs : Option PendingControl} {out : List Datagram}
    (h : Connection.blank b cfg t st = .ok c) (ht : Timers b { c with handshake := hs }) :
    Robust b cfg (Endpoint.fresh { c with handshake := hs } out) 0 := by
  obtain ⟨w, _, h⟩ := bind_eq_ok.mp h
  cases h
  have hroom : 0 + 0 < 2 ^ 32 := by decide
  refine ⟨rfl, ht, ⟨⟨⟨0, rfl⟩, hroom⟩, rfl⟩, fun _ => ⟨⟨?_, ?_, hroom⟩, Nat.le_refl _⟩⟩
  · intro e he; cases he
  · intro e he; cases he

/-- What is held grows by at most the payload of the call. -/
theorem Robust.call_recv (h : Robust b cfg e heard) (hseg : 1 ≤ cfg.segmentSize) {a : Call}
    (hheard : heard + a.payload < 2 ^ 32) (hr : e.call b a = .ok e') (hb : b = .checked) :
    RecvOk e'.conn ∧ e'.conn.heldBytes ≤ heard + a.payload := by
  subst hb
  obtain ⟨hok, hheld⟩ := h.recv rfl
  rcases call_receives (by rw [h.config]; exact hseg) hr with hk | ⟨rfl, heq⟩ |
    ⟨f, hdr, app, c₁, c₂, hseg?, hlen, hk₁, hdel, _, hk₂⟩
  · exact ⟨hok.congr hk.recvBuffer hk.delivered, by rw [hk.heldBytes]; omega⟩
  · have hb := hok.held
    rw [heq]
    simp only [Connection.heldBytes] at hheld
    refine ⟨⟨hok.nonempty, hok.ends, ?_⟩, ?_⟩
    · show (e.conn.recvBuffer.entries.map fun e => e.2.length).sum + 0 < 2 ^ 32
      omega
    · show (e.conn.recvBuffer.entries.map fun e => e.2.length).sum + 0 ≤ _
      omega
  · have hpay : a.payload = app.length := by
      simp only [Call.payload, hseg?, Option.map_some, Option.getD_some]
    rw [hpay] at hheard ⊢
    have hh := hk₁.heldBytes
    obtain ⟨hok₂, hheld₂⟩ := deliverData_recv (hok.congr hk₁.recvBuffer hk₁.delivered) hlen
      (by rw [hh]; omega) hdel
    refine ⟨hok₂.congr hk₂.recvBuffer hk₂.delivered, ?_⟩
    rw [hk₂.heldBytes]
    omega

/-- A call cuts or queues what it is given to send. -/
theorem Spent.call (h : Spent e.sent.length e.conn) (hseg : 1 ≤ e.conn.config.segmentSize) {a : Call}
    (hsent : e'.sent.length < 2 ^ 32) (hr : e.call b a = .ok e') :
    Spent e'.sent.length e'.conn := by
  obtain ⟨hdr, c₀, hp, hm⟩ := call_moves hseg hr
  refine hm.preserves Spent.move ?_
  have htotal := h.total
  cases hp with
  | send now data st =>
    obtain ⟨⟨c', out⟩, _, hr⟩ := bind_eq_ok.mp hr
    cases hr
    have hlen : (e.sent ++ data).length < 2 ^ 32 := hsent
    have hsum : e.conn.nextSeq.toNat + (e.conn.sendQueue ++ data).length = (e.sent ++ data).length := by
      rw [List.length_append, List.length_append]
      omega
    exact ⟨⟨h.send.tiles, by
      show e.conn.nextSeq.toNat + (e.conn.sendQueue ++ data).length < 2 ^ 32
      rw [hsum]; exact hlen⟩, hsum⟩
  | recv =>
    cases hr
    exact ⟨h.send.of_segments rfl rfl rfl, htotal⟩
  | close now | tick now | drop now d | @segment now =>
    obtain ⟨⟨c', out⟩, _, hr⟩ := bind_eq_ok.mp hr
    cases hr
    exact ⟨h.send.of_segments rfl rfl rfl, htotal⟩

/-- **One call, whatever arrives.** -/
theorem Robust.call (h : Robust b cfg e heard) (hseg : 1 ≤ cfg.segmentSize) {a : Call}
    (hsent : e'.sent.length < 2 ^ 32) (hheard : heard + a.payload < 2 ^ 32)
    (hr : e.call b a = .ok e') : Robust b cfg e' (heard + a.payload) := by
  have hseg₀ : 1 ≤ e.conn.config.segmentSize := by rw [h.config]; exact hseg
  exact ⟨(call_config hseg₀ hr).trans h.config, h.timers.call hseg₀ hr, h.send.call hseg₀ hsent hr,
    h.call_recv hseg hheard hr⟩

theorem solo_robust (hseg : 1 ≤ cfg.segmentSize) (h : Solo b cfg e heard)
    (hsent : e.sent.length < 2 ^ 32) (hheard : heard < 2 ^ 32) : Robust b cfg e heard := by
  induction h with
  | connect h =>
    have ht := connect_timers h
    obtain ⟨c₀, hc₀, h⟩ := bind_eq_ok.mp h
    obtain ⟨d, _, h⟩ := bind_eq_ok.mp h
    cases h
    exact blank_robust hc₀ ht
  | @listen t c h =>
    have ht : Timers b { c with handshake := c.handshake } :=
      blank_timers (by intro h; cases h) (by intro h; cases h) h
    exact blank_robust h ht
  | step _ hr ih =>
    have hle := Endpoint.call_sent_le hr
    exact (ih (by omega) (by omega)).call hseg hsent hheard hr

/-- **`on_datagram` returns** on a byte string in a reachable state exactly when the segment it
    carries, if any, is in order. -/
theorem on_datagram_returns (hseg : 1 ≤ cfg.segmentSize) (hseg' : cfg.segmentSize < 2 ^ 31)
    (h : Solo b cfg e heard) (hsent : e.sent.length < 2 ^ 32) (now : Tick) (d : Datagram)
    (hheard : heard + (Call.onDatagram now d).payload < 2 ^ 32) :
    (∃ r, e.conn.onDatagram b now d = .ok r) ↔ Accepts b e.conn now d := by
  have hrob := solo_robust hseg h hsent (by omega)
  constructor
  · rintro ⟨⟨c', out⟩, hr⟩ ⟨f, hdr, app⟩ hs hadm
    have hcar : Carries d f hdr app := carries_of_segment? hs
    rw [hcar.onDatagram now] at hr
    exact onSegment_inOrder hcar.length_lt hadm hr
  · intro ha
    by_cases hcar : ∃ f hdr app, Carries d f hdr app
    · obtain ⟨f, hdr, app, hcar⟩ := hcar
      have hpay : (Call.onDatagram now d).payload = app.length := by
        simp only [Call.payload, hcar.segment?_eq now, Option.map_some, Option.getD_some]
      rw [hpay] at hheard
      have hcfg : (e.conn.advance now).config = cfg := hrob.config
      rw [hcar.onDatagram now]
      refine onSegment_returns (by rw [hcfg]; exact hseg) (by rw [hcfg]; exact hseg')
        (hrob.timers.advance now) (hrob.send.send.of_segments rfl rfl rfl)
        (fun hb => (hrob.recv hb).1.congr rfl rfl) hcar.length_lt (fun c₁ out₁ h₁ _ => ?_)
        (ha (f, hdr, app) (hcar.segment?_eq now))
      have hk₀ : RecvKeeps e.conn { e.conn.advance now with peerWindow := hdr.window } :=
        ⟨rfl, rfl, rfl, rfl⟩
      have hk := hk₀.trans (handshakeArm_recv h₁)
      refine takes_of_held (hk.fits fun hb => (hrob.recv hb).1) hcar.length_lt fun hb => ?_
      have hheld : e.conn.heldBytes ≤ heard := (hrob.recv hb).2
      rw [hk.heldBytes]
      omega
    · exact ⟨_, onDatagram_dropped hcar now⟩

/-! ## Runs -/

/-- Does the script of a client play to its end, in a state that passes the test? -/
def Endpoint.plays (b : Build) (cfg : Config) (calls : List Call) (test : Endpoint → Bool) : Bool :=
  match (do
    let (c, d) ← Connection.connect b cfg 0
    calls.foldlM (fun e a => Endpoint.call b e a) (Endpoint.fresh c [d])) with
  | .ok e => test e
  | .error _ => false

theorem solo_calls : ∀ {calls : List Call} {e e' : Endpoint} {n : Nat}, Solo b cfg e n →
    calls.foldlM (fun e a => Endpoint.call b e a) e = .ok e' →
    Solo b cfg e' (n + (calls.map Call.payload).sum)
  | [], e, e', n, h, hr => by cases hr; exact h
  | a :: calls, e, e', n, h, hr => by
    rw [List.foldlM_cons] at hr
    obtain ⟨e₁, h₁, hr⟩ := bind_eq_ok.mp hr
    have := solo_calls (.step h h₁) hr
    rwa [Nat.add_assoc, ← List.sum_cons, ← List.map_cons] at this

theorem Endpoint.plays_solo {calls : List Call} {test : Endpoint → Bool}
    (h : Endpoint.plays b cfg calls test = true) :
    ∃ e, Solo b cfg e (calls.map Call.payload).sum ∧ test e = true := by
  unfold Endpoint.plays at h
  split at h
  · rename_i e he
    obtain ⟨⟨c, d⟩, hc, he⟩ := bind_eq_ok.mp he
    have := solo_calls (.connect hc) he
    rw [Nat.zero_add] at this
    exact ⟨e, this, h⟩
  · cases h

def soloConfig : Config where
  segmentSize := 1
  recvWindowCapacity := 8
  minRto := 2
  maxRto := 64
  maxRetries := 3
  fastRetransmitDupAcks := 3

/-- A segment a peer may send. -/
def crafted (seq : U32) (flags : U16) (ack : U32) (sack : List SackRange) (data : List U8) :
    Datagram :=
  encodeFrame seq flags (SegmentHeader.encode { ack, window := 8, finAck := false, sack } ++ data)

/-- A client connects and sends two bytes. -/
def openedRun : List Call :=
  [.onDatagram 2 (crafted 0 (FLAG_SYN ||| FLAG_ACK) 0 [] []), .send 3 [1, 2]]

/-- The first byte is acknowledged, the second one selectively, and a byte arrives. -/
theorem on_datagram_returns_sample : ∃ e n, Solo .checked soloConfig e n ∧
    e.conn.unacked.entries.length = 2 ∧
    ∃ r, e.conn.onDatagram .checked 4 (crafted 0 FLAG_ACK 1 [⟨1, 2⟩] [7]) = .ok r := by
  have hrun : Endpoint.plays .checked soloConfig openedRun (fun e => decide
      (e.sent.length < 2 ^ 32 ∧ e.conn.unacked.entries.length = 2 ∧
        Accepts .checked e.conn 4 (crafted 0 FLAG_ACK 1 [⟨1, 2⟩] [7]))) = true := by
    decide +kernel
  obtain ⟨e, he, ht⟩ := Endpoint.plays_solo hrun
  obtain ⟨hsent, hlen, hacc⟩ := of_decide_eq_true ht
  exact ⟨e, _, he, hlen, (on_datagram_returns (by decide) (by decide) he hsent 4 _
    (by decide +kernel)).mpr hacc⟩

/-- Ends past the sequence space. -/
def overlong : Datagram := crafted (BitVec.allOnes 32) FLAG_ACK 0 [] [7, 8]

/-- Selectively acknowledges a range whose end lies before its start. -/
def backwards : Datagram := crafted 0 FLAG_ACK 0 [⟨2, 1⟩] []

/-- **`on_datagram` panics** in an open connection on a payload that runs past the sequence space
    and on a round trip of `2 ^ 61` ticks, and in every build on a backwards selective ack. -/
theorem on_datagram_panics :
    (∃ e n, Solo .checked soloConfig e n ∧ n = 0 ∧ e.conn.unacked.isEmpty = false ∧
      e.conn.onDatagram .checked 4 overlong = .error .overflow ∧
      e.conn.onDatagram .checked (2 ^ 62) (crafted 0 FLAG_ACK 2 [] []) = .error .overflow) ∧
    ∀ b, ∃ e n, Solo b soloConfig e n ∧ n = 0 ∧ e.conn.unacked.isEmpty = false ∧
      e.conn.onDatagram b 4 backwards = .error .rangeOrder := by
  have hrun : Endpoint.plays .checked soloConfig openedRun (fun e => decide
      (e.conn.unacked.isEmpty = false ∧
        fault? (e.conn.onDatagram .checked 4 overlong) = some .overflow ∧
        fault? (e.conn.onDatagram .checked (2 ^ 62) (crafted 0 FLAG_ACK 2 [] [])) =
          some .overflow)) = true := by
    decide +kernel
  have hrun' : ∀ b, Endpoint.plays b soloConfig openedRun (fun e => decide
      (e.conn.unacked.isEmpty = false ∧
        fault? (e.conn.onDatagram b 4 backwards) = some .rangeOrder)) = true := by
    intro b
    cases b <;> decide +kernel
  have hnone : (openedRun.map Call.payload).sum = 0 := by decide +kernel
  refine ⟨?_, fun b => ?_⟩
  · obtain ⟨e, he, ht⟩ := Endpoint.plays_solo hrun
    obtain ⟨hne, hlong, hlate⟩ := of_decide_eq_true ht
    exact ⟨e, _, he, hnone, hne, eq_error_of_fault? hlong, eq_error_of_fault? hlate⟩
  · obtain ⟨e, he, ht⟩ := Endpoint.plays_solo (hrun' b)
    obtain ⟨hne, hback⟩ := of_decide_eq_true ht
    exact ⟨e, _, he, hnone, hne, eq_error_of_fault? hback⟩

end Distrans
