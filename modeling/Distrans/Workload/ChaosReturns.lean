import Distrans.Channel.Returns
import Distrans.Rpc.Returns
import Distrans.Workload.ChaosProgress
import Distrans.Workload.ChaosService

/-!
# The chaos harness returns

In a build that wraps nothing in a chaos run panics, if no profile both corrupts and truncates and
no sum of delays overflows: what reaches a connection has been emitted by its peer, or carries
nothing, and the stream has room for all requests and all answers.

* `Service.Run.timed` — the timers of every connection of the service are in order.
* `Piped` — the channels of the harness are in order.
* `chaos_returns` — **a chaos run returns, and with ticks enough it returns a summary that accounts
  for every call.**
-/

set_option autoImplicit false

namespace Distrans

open Machine

variable {b : Build}

/-! ## Timers -/

/-- A connection with this configuration, and its timers in order. -/
structure Endpoint.Timed (b : Build) (cfg : Config) (X : Endpoint) : Prop where
  config : X.conn.config = cfg
  timers : Timers b X.conn

theorem Endpoint.Timed.ample {cfg : Config} {X Y : Endpoint} {n : Nat} (hX : X.Timed b cfg)
    (hcfg : cfg.Sane) (hl : Linked X Y) (hroom : X.sent.length + n < 2 ^ 32) :
    Endpoint.Ample b Y n X := by
  refine ⟨hl, ?_, hX.timers, hroom⟩
  rw [hX.config]
  exact hcfg

theorem Endpoint.keeps_timed (b : Build) {cfg : Config} (hseg : 1 ≤ cfg.segmentSize) :
    (Endpoint.transport b).tapped.Keeps (fun _ => True) fun t => Timed b cfg t.conn :=
  Transport.Keeps.tapped (Endpoint.keeps fun _ hX hr => by
    have hpos : 1 ≤ _ := hX.config ▸ hseg
    exact ⟨(call_config hpos hr).trans hX.config, hX.timers.call hpos hr⟩)

/-- A pair of fresh connections. -/
theorem start_timed {ccfg scfg : Config} {t t' : Tick} {p : Pair}
    (h : Pair.start b ccfg scfg t t' = .ok p) : p.client.Timed b ccfg ∧ p.server.Timed b scfg := by
  obtain ⟨⟨c, syn⟩, hc, h⟩ := bind_eq_ok.mp h
  obtain ⟨s, hs, h⟩ := bind_eq_ok.mp h
  cases h
  refine ⟨⟨?_, connect_timers hc⟩, ?_, blank_timers (by rintro ⟨⟩) (by rintro ⟨⟩) hs⟩
  · obtain ⟨c₀, hc₀, hc⟩ := bind_eq_ok.mp hc
    obtain ⟨d, _, hc⟩ := bind_eq_ok.mp hc
    obtain ⟨w, _, hc₀⟩ := bind_eq_ok.mp hc₀
    cases hc
    cases hc₀
    rfl
  · obtain ⟨w, _, hs⟩ := bind_eq_ok.mp hs
    cases hs
    rfl

namespace Workload

/-- **The timers of every connection are in order.** -/
theorem Service.Run.timed {ι : Type} [DecidableEq ι] {ccfg scfg : ι → Config}
    {s : Service ι Endpoint Endpoint} (hr : s.Run b ccfg scfg) (hc : ∀ i, 1 ≤ (ccfg i).segmentSize)
    (hs : ∀ i, 1 ≤ (scfg i).segmentSize) (i : ι) :
    (s.links i).client.conn.conn.Timed b (ccfg i) ∧ (s.links i).server.conn.conn.Timed b (scfg i) := by
  induction hr with
  | start hstart => exact start_timed (hstart i)
  | @step s s' j o _ _ _ hstep ih =>
    obtain ⟨l, shared, hop, hlinks⟩ := step_inv hstep
    rw [hlinks]
    rcases eq_or_ne i j with rfl | hij
    · rw [Function.update_self]
      rcases Link.op_does (Endpoint.keeps_timed b (hc i)) (Endpoint.keeps_timed b (hs i))
        (fun _ _ _ => trivial) (fun _ _ _ => trivial) hop with ⟨⟨_, hk⟩, hsame⟩ | ⟨⟨_, hk⟩, hsame⟩
      · exact ⟨hk ih.1, hsame ▸ ih.2⟩
      · exact ⟨hsame ▸ ih.1, hk ih.2⟩
    · rw [Function.update_of_ne hij]
      exact ih

/-! ## Channels -/

variable {c c' : Channel} {out : List Datagram}

theorem framed_length {n : Nat} {d : Datagram} (h : Framed n d) :
    d.length ≤ MIN_FRAME_LEN + (42 + n) := by
  obtain ⟨f, hlen, rfl⟩ := h
  rw [Frame.encode_length]
  omega

/-- What has been emitted last. -/
theorem framed_of_emitted {n : Nat} {X X' : Endpoint} (h : Framing n X')
    (hemitted : X'.emitted = X.emitted ++ out) : ∀ d ∈ out, Framed n d := by
  intro d hd
  refine h.framed d ?_
  rw [hemitted]
  exact List.mem_append_right _ hd

theorem sendAll_ordered (h : c.Ordered) (hr : sendAll b c out = .ok c') : c'.Ordered :=
  foldlM_kept h hr fun c c' d _ hc hone => by
    obtain ⟨⟨c₁, ds⟩, hsend, hone⟩ := bind_eq_ok.mp hone
    cases hone
    exact hc.sent hsend

/-- What a connection has emitted can be sent. -/
theorem sendAll_returns (b : Build) (h : c.Ordered) (hout : ∀ d ∈ out, Framed 128 d) :
    ∃ c', sendAll b c out = .ok c' ∧ c'.Ordered :=
  foldlM_keeps h fun c d hd hc => by
    have hlen : d.length < 2 ^ 64 := lt_of_le_of_lt (framed_length (hout d hd)) (by decide)
    obtain ⟨r, hr, hord⟩ := hc.send b hlen
    exact ⟨r.1, bind_eq_ok.mpr ⟨r, hr, rfl⟩, hord⟩

/-- Under such a profile no channel panics, and none makes a frame of its own. -/
structure Usable (profile : FaultProfile) : Prop where
  valid : profile.validate = true
  sound : profile.Sound
  delays : DelaysFit profile ⟨[]⟩

theorem makeLink_returns {profile : FaultProfile} (hp : Usable profile) (seed : U64) :
    ∃ c2s s2c, makeLink seed profile = .ok (c2s, s2c) ∧ c2s.Ordered ∧ s2c.Ordered := by
  obtain ⟨c2s, hc2s, hord⟩ := Channel.Ordered.fresh seed hp.valid hp.delays
  obtain ⟨s2c, hs2c, hord'⟩ :=
    Channel.Ordered.fresh (seed ^^^ 0xABCDEF0123456789#64) hp.valid hp.delays
  exact ⟨c2s, s2c, bind_eq_ok.mpr ⟨c2s, hc2s, bind_eq_ok.mpr ⟨s2c, hs2c, rfl⟩⟩, hord, hord'⟩

theorem linkSeed_returns (seed : U64) (i : Nat) : ∃ s, linkSeed .wrapping seed i = .ok s :=
  bind_returns (Build.wrapping_fit _ _) fun _ _ => ⟨_, rfl⟩

/-! ## Channels of the harness -/

variable {config : ChaosConfig} {plan : List (U64 × Nat × Op)} {orders : Nat → Nat → Shuffle}
  {h : Harness} {i : Nat} {link link' : ClientLink} {server server' : Server} {shared' : Served}

/-- **The channels of all clients are in order.** -/
structure Piped (config : ChaosConfig) (h : Harness) : Prop where
  links : h.links.length = config.clients
  servers : h.servers.length = config.clients
  ordered : ∀ link ∈ h.links, link.c2s.Ordered ∧ link.s2c.Ordered

namespace Piped

theorem channels (hP : Piped config h) (hat : h.At i link server) :
    link.c2s.Ordered ∧ link.s2c.Ordered :=
  hP.ordered link (List.mem_of_getElem? hat.link)

theorem put (hP : Piped config h) (hc2s : link'.c2s.Ordered) (hs2c : link'.s2c.Ordered) :
    Piped config (h.put i link' server' shared') where
  links := by rw [Harness.put, List.length_set, hP.links]
  servers := by rw [Harness.put, List.length_set, hP.servers]
  ordered l hl := by
    rcases List.mem_or_eq_of_mem_set hl with hl | rfl
    · exact hP.ordered l hl
    · exact ⟨hc2s, hs2c⟩

/-- **They stay in order.** -/
theorem rule (hswitch : ∀ s ∈ config.profileSwitches, Usable s.2) :
    Rule b config plan orders (fun (_ : Unit) _ => Piped config) (fun _ _ _ => True)
      (fun _ _ _ => True) where
  sized hP := ⟨hP.links, hP.servers⟩
  clock hP _ _ _ := ⟨(), { hP with }⟩
  relink {g h i link server seed t profile c2s s2c} hP _ hmem hmake := by
    obtain ⟨c2s', s2c', hmake', hc2s, hs2c⟩ := makeLink_returns (hswitch _ hmem) seed
    obtain ⟨rfl, rfl⟩ := Prod.mk.inj (Except.ok.inj (hmake.symm.trans hmake'))
    exact ⟨(), hP.put hc2s hs2c⟩
  switched hP := { hP with }
  call {g h i link server t op client id out c2s} hP hat _ _ _ hsend := by
    have hP' : Piped config (h.put i { link with client, c2s } server h.shared) :=
      hP.put (sendAll_ordered (hP.channels hat).1 hsend) (hP.channels hat).2
    exact ⟨(), { hP' with }⟩
  arriveServer {g h i link server c2s ds} hP hat hr := by
    obtain ⟨r, hr', hord⟩ := (hP.channels hat).1.advance h.tick
    cases hr.symm.trans hr'
    exact ⟨hP.put hord (hP.channels hat).2, fun _ _ => trivial⟩
  serve hP hat _ _ hsend :=
    ⟨(), hP.put (hP.channels hat).1 (sendAll_ordered (hP.channels hat).2 hsend), fun _ _ => trivial⟩
  arriveClient {g h i link server s2c ds} hP hat hr := by
    obtain ⟨r, hr', hord⟩ := (hP.channels hat).2.advance h.tick
    cases hr.symm.trans hr'
    exact ⟨hP.put (hP.channels hat).1 hord, fun _ _ => trivial⟩
  hear hP hat _ _ hsend :=
    ⟨(), hP.put (sendAll_ordered (hP.channels hat).1 hsend) (hP.channels hat).2, fun _ _ => trivial⟩
  clientTick hP hat _ hsend :=
    ⟨(), hP.put (sendAll_ordered (hP.channels hat).1 hsend) (hP.channels hat).2⟩
  serverTick hP hat _ hsend :=
    ⟨(), hP.put (hP.channels hat).1 (sendAll_ordered (hP.channels hat).2 hsend)⟩
  poll {g h i link server} hP hat := by
    have hP' : Piped config (h.put i { link with
        client := link.client.pollCompleted.1.pollFailed.1 } server h.shared) :=
      hP.put (hP.channels hat).1 (hP.channels hat).2
    exact ⟨(), { hP' with }⟩

end Piped

/-! ## Clients and servers -/

namespace Seat

variable {l : Link Endpoint Endpoint (Shared Nat)} {n : RpcClient (Noted (Tapped Endpoint))}
  {outs : List ClientOut} {now : Tick}

theorem pending_eq (hs : Seat i l n outs link server) : l.client.pending = n.pending := by
  rw [← hs.noted]
  rfl

/-- A client has no more calls pending than it has made. -/
theorem pending_le (hs : Seat i l n outs link server) :
    l.client.pending.entries.length ≤ l.calls.length := by
  have hlen := hs.lifecycle.places.length_eq
  rw [List.length_map, length_issued, List.length_append, RpcClient.pendingIds, List.length_map] at hlen
  rw [hs.pending_eq]
  omega

/-- What a tick may send again. -/
theorem cost_le (hs : Seat i l n outs link server) (now : Tick) {m : Nat}
    (hshort : ∀ p ∈ l.calls, 13 + p.2.length ≤ m) :
    l.client.cost (.tick now) ≤ l.calls.length * m := by
  refine Nat.le_trans (List.sum_le_card_nsmul _ m fun k hk => ?_) ?_
  · obtain ⟨e, he, rfl⟩ := List.mem_map.mp hk
    rw [hs.pending_eq] at he
    exact hshort _ (mem_calls (hs.lifecycle.pending e he).known)
  · rw [List.length_map, smul_eq_mul]
    exact Nat.mul_le_mul_right m hs.pending_le

/-- **A step of the client returns**, and what it gives back can be sent, if its connection has room
for what it may send.  Without the records it is the same step. -/
theorem client_returns (hs : Seat i l n outs link server) {a : ClientOp} (π : Shuffle)
    (hcount : l.calls.length + 1 < 2 ^ 64) (hord : link.c2s.Ordered)
    (hd : ∀ now d, a = .datagram now d → d ∈ l.server.conn.conn.emitted ∨ d.Noise)
    (hroom : Endpoint.Ample .wrapping l.server.conn.conn (l.client.cost a) l.client.conn.conn) :
    ∃ client out c2s, link.client.op .wrapping (Connection.transport .wrapping) π a = .ok (client, out) ∧
      sendAll .wrapping link.c2s out.datagrams = .ok c2s := by
  have hsound : l.client.Sound a := by
    rw [← hs.noted]
    exact hs.sound hcount a
  obtain ⟨r, hr⟩ := RpcClient.op_runs (b := .wrapping) (Endpoint.runs l.server.conn.conn).tapped π
    hsound hd hroom
  have hr' : link.client.op .wrapping (Connection.transport .wrapping) π a = .ok (r.1.map bare, r.2) := by
    rw [← hs.client, RpcClient.op_over (bare_over .wrapping), hr]
    rfl
  obtain ⟨tapped, _, _, hemitted, hframing⟩ := hs.recorded hr'
  obtain ⟨c2s, hsend, _⟩ := sendAll_returns .wrapping hord (framed_of_emitted hframing hemitted)
  exact ⟨_, _, c2s, hr', hsend⟩

/-- A delivery to the server: if it returns with the records, it does without. -/
theorem serve_returns (hs : Seat i l n outs link server) {app : Shared Nat} {d : Datagram}
    (hord : link.s2c.Ordered)
    (hr : ∃ r, l.server.onDatagram (Endpoint.transport b).tapped app now d = .ok r) :
    ∃ server' served out s2c,
      server.onDatagram (Connection.transport b) (logOf app) now d = .ok (server', served, out) ∧
      sendAll b link.s2c out = .ok s2c := by
  obtain ⟨r, hr⟩ := hr
  have hr' : server.onDatagram (Connection.transport b) (logOf app) now d =
      .ok (r.1.map bare (kvHandler logExecution), logOf r.2.1, r.2.2) := by
    rw [← hs.server, RpcServer.onDatagram_over (bare_over b) _ hs.same_handler, hr]
    rfl
  obtain ⟨_, _, _, _, _, hemitted, hframing⟩ := hs.recordedServe hr'
  obtain ⟨s2c, hsend, _⟩ := sendAll_returns b hord (framed_of_emitted hframing hemitted)
  exact ⟨_, _, _, s2c, hr', hsend⟩

/-- A tick of the server, likewise. -/
theorem tick_returns (hs : Seat i l n outs link server) (hord : link.s2c.Ordered)
    (hr : ∃ r, l.server.onTick (Endpoint.transport b).tapped now = .ok r) :
    ∃ server' out s2c, server.onTick (Connection.transport b) now = .ok (server', out) ∧
      sendAll b link.s2c out = .ok s2c := by
  obtain ⟨r, hr⟩ := hr
  have hr' : server.onTick (Connection.transport b) now =
      .ok (r.1.map bare (kvHandler logExecution), r.2) := by
    rw [← hs.server, RpcServer.onTick_over (bare_over b), hr]
    rfl
  obtain ⟨_, _, _, hemitted, hframing⟩ := hs.recordedTick hr'
  obtain ⟨s2c, hsend, _⟩ := sendAll_returns b hord (framed_of_emitted hframing hemitted)
  exact ⟨_, _, s2c, hr', hsend⟩

end Seat

/-! ## Turns of the harness -/

namespace Mirrors

variable {g : Ghost} {k m : Nat}

/-- The room that the connection of a client has. -/
theorem clientRoom (hM : Mirrors b config plan g k h) (i : Nat)
    (hroom : (g.service.links i).client.conn.sent.length + m < 2 ^ 32) :
    Endpoint.Ample b (g.service.links i).server.conn.conn m (g.service.links i).client.conn.conn := by
  have hstacked := hM.consistent.2 i
  have htimed := (hM.run.timed (fun _ => by decide) (fun _ => by decide) i).1
  rw [hstacked.client.sent] at hroom
  exact htimed.ample transportConfig_sane (hstacked.linked (hM.fits i)) hroom

/-- The room that the connection of a server has. -/
theorem serverRoom (hM : Mirrors b config plan g k h) (i : Nat)
    (hroom : (g.service.links i).server.conn.sent.length + m < 2 ^ 32) :
    Endpoint.Ample b (g.service.links i).client.conn.conn m (g.service.links i).server.conn.conn := by
  have hstacked := hM.consistent.2 i
  have htimed := (hM.run.timed (fun _ => by decide) (fun _ => by decide) i).2
  rw [hstacked.server.sent] at hroom
  exact htimed.ample transportConfig_sane (hstacked.linked (hM.fits i)).symm hroom

/-- **A step of a client returns.** -/
theorem client_returns (hM : Mirrors .wrapping config plan g k h) (hat : h.At i link server)
    (hord : link.c2s.Ordered) {a : ClientOp} (π : Shuffle)
    (hd : ∀ now d, a = .datagram now d →
      d ∈ (g.service.links i).server.conn.conn.emitted ∨ Datagram.Noise d)
    (hcost : (g.service.links i).client.cost a ≤ 44 * plan.length)
    (hsize : 2684 * plan.length < 2 ^ 32) :
    ∃ client out c2s, link.client.op .wrapping (Connection.transport .wrapping) π a = .ok (client, out) ∧
      sendAll .wrapping link.c2s out.datagrams = .ok c2s := by
  have hseat := hM.seated hat
  obtain ⟨hle, hcall⟩ := hM.called i
  have hsent := hseat.sent_le fun p hp => (hcall p hp).1
  exact hseat.client_returns π (by omega) hord hd (hM.clientRoom i (by omega))

/-- **A delivery to a server returns.** -/
theorem serve_returns (hM : Mirrors .wrapping config plan g k h) (hat : h.At i link server)
    (hord : link.s2c.Ordered) {d : Datagram}
    (hd : d ∈ (g.service.links i).client.conn.conn.emitted ∨ Datagram.Noise d) :
    ∃ server' served out s2c, server.onDatagram (Connection.transport .wrapping) h.shared h.tick d =
        .ok (server', served, out) ∧ sendAll .wrapping link.s2c out = .ok s2c := by
  have hseat := hM.seated hat
  obtain ⟨hcons, hstacked⟩ := hM.consistent
  obtain ⟨rs, hsent, hlen, hshort, hcall⟩ := hM.asked hat
  obtain ⟨reqs, book, replies, hjoined⟩ := hcons.joined i
  rw [← hM.shared]
  refine hseat.serve_returns hord ?_
  -- the answers so far, and those to come
  have hrecv : (g.service.links i).server.conn.received <+: written rs := by
    rw [← hsent]
    exact ((hstacked i).delivers (hM.fits i)).1
  have hanswered := hjoined.hosting.sent_le hrecv hshort fun r hr => hM.brief.runs hr
  have hsize := hM.size
  refine hjoined.hosting.onDatagram_runs (k := 60 * plan.length) (m := 21)
    (Endpoint.runs (g.service.links i).client.conn.conn).tapped
    (Q := fun method payload => ∃ op, Op.decode method payload = some op ∧ op.Below 8) (I := Brief)
    (fun method payload app hop hbrief => Brief.handler hbrief hop) hM.brief
    (fun r hr => hM.brief.runs hr) hd (hM.serverRoom i (by omega)) fun r hr => ?_
  have hread : ((Endpoint.transport .wrapping).tapped.recv r.1).1.received <+: written rs := by
    rw [← hsent]
    exact (hstacked i).reads (hM.fits i) hd hr
  have hfirst : requests ((Endpoint.transport .wrapping).tapped.recv r.1).1.received <+: rs :=
    decoded_first Request.decode_encode hshort hread
  exact ⟨Nat.le_trans hfirst.length_le hlen, fun q hq => hcall q (hfirst.subset hq)⟩

end Mirrors

/-- **The steps of the harness return.** -/
theorem steps_return (hsize : 2684 * plan.length < 2 ^ 32)
    (hclients : ∀ c ∈ plan, c.2.1 < config.clients)
    (hswitch : ∀ s ∈ config.profileSwitches, Usable s.2) :
    Rule.Returns .wrapping config plan orders
      (fun (g : Ghost × Unit) k h => Mirrors .wrapping config plan g.1 k h ∧ Piped config h)
      (fun g i d => (d ∈ (g.1.service.links i).client.conn.conn.emitted ∨ Datagram.Noise d) ∧ True)
      (fun g i d => (d ∈ (g.1.service.links i).server.conn.conn.emitted ∨ Datagram.Noise d) ∧ True) where
  clients := hclients
  relink {g h i t profile} hI hlt hmem := by
    obtain ⟨hM, hP⟩ := hI
    have hindex : i < h.links.length := by rw [hP.links]; exact hlt
    obtain ⟨seed, hseed⟩ := linkSeed_returns config.seed i
    obtain ⟨offset, hoffset⟩ :
        ∃ r, Build.wrapping.mul (BitVec.ofNat 64 h.switched) (7919 : U64) = .ok r :=
      Build.wrapping_fit _ _
    obtain ⟨c2s, s2c, hmake, _⟩ := makeLink_returns (hswitch _ hmem) (seed + offset)
    exact ⟨_, bind_eq_ok.mpr ⟨_, index_ok hindex, bind_eq_ok.mpr ⟨seed, hseed,
      bind_eq_ok.mpr ⟨offset, hoffset, bind_eq_ok.mpr ⟨_, hmake, rfl⟩⟩⟩⟩⟩
  call {g h i link server t op} hI hat hplan _ := by
    obtain ⟨hM, hP⟩ := hI
    have hfired := (List.getElem?_eq_some_iff.mp hplan).1
    have hsmall := (hM.small _ (List.mem_of_getElem? hplan)).request
    obtain ⟨client, out, c2s, hr, hsend⟩ := hM.client_returns hat (hP.channels hat).1
      (a := .call h.tick op.method op.encodePayload) .ascending (fun _ _ ha => by cases ha)
      (by show 13 + op.encodePayload.length ≤ _; dsimp only at hsmall; omega) hsize
    obtain ⟨⟨client', id, out'⟩, hcall, hr⟩ := bind_eq_ok.mp hr
    cases hr
    exact ⟨_, _, _, c2s, hcall, hsend⟩
  arriveServer {g h i link server} hI hat := by
    obtain ⟨r, hr, _⟩ := (hI.2.channels hat).1.advance h.tick
    exact ⟨r, hr⟩
  serve hI hat hd := hI.1.serve_returns hat (hI.2.channels hat).2 hd.1
  arriveClient {g h i link server} hI hat := by
    obtain ⟨r, hr, _⟩ := (hI.2.channels hat).2.advance h.tick
    exact ⟨r, hr⟩
  hear {g h i link server d} hI hat hd := by
    obtain ⟨client, out, c2s, hr, hsend⟩ := hI.1.client_returns hat (hI.2.channels hat).1
      (a := .datagram h.tick d) .ascending (fun _ _ ha => by cases ha; exact hd.1) (Nat.zero_le _) hsize
    obtain ⟨⟨client', out'⟩, hop, hr⟩ := bind_eq_ok.mp hr
    cases hr
    exact ⟨_, _, c2s, hop, hsend⟩
  clientTick {g h i link server} hI hat := by
    obtain ⟨hM, hP⟩ := hI
    obtain ⟨hle, hcall⟩ := hM.called i
    have hcost := (hM.seated hat).cost_le h.tick fun p hp => (hcall p hp).1
    obtain ⟨client, out, c2s, hr, hsend⟩ := hM.client_returns hat (hP.channels hat).1
      (a := .tick h.tick) (orders h.tick.toNat i) (fun _ _ ha => by cases ha) (by omega) hsize
    obtain ⟨⟨client', out'⟩, hop, hr⟩ := bind_eq_ok.mp hr
    cases hr
    exact ⟨_, _, c2s, hop, hsend⟩
  serverTick {g h i link server} hI hat := by
    obtain ⟨hM, hP⟩ := hI
    refine (hM.seated hat).tick_returns (hP.channels hat).2 ?_
    obtain ⟨r, hr, _⟩ := (Endpoint.runs (g.1.service.links i).client.conn.conn).tapped.onTick h.tick
      (hM.serverRoom i (m := 0) (hM.fits i).2)
    exact ⟨_, bind_eq_ok.mpr ⟨r, hr, rfl⟩⟩

/-! ## The beginning -/

theorem setUp_returns (hprofile : Usable config.initialProfile) (i : Nat) :
    ∃ part, setUp .wrapping config i = .ok part ∧ part.1.c2s.Ordered ∧ part.1.s2c.Ordered ∧
      Framed 128 part.2.2 := by
  obtain ⟨p, hstart⟩ := start_returns (b := .wrapping) transportConfig_sane transportConfig_sane 0 0
  obtain ⟨⟨c, syn⟩, hc, hstart⟩ := bind_eq_ok.mp hstart
  obtain ⟨s, hs, _⟩ := bind_eq_ok.mp hstart
  obtain ⟨seed, hseed⟩ := linkSeed_returns config.seed i
  obtain ⟨c2s, s2c, hmake, hc2s, hs2c⟩ := makeLink_returns hprofile seed
  have hframing : Framing 128 (Endpoint.fresh c [syn]) := (Born.client hc).framing (by decide)
  exact ⟨_, bind_eq_ok.mpr ⟨_, hc, bind_eq_ok.mpr ⟨_, hs, bind_eq_ok.mpr ⟨seed, hseed,
    bind_eq_ok.mpr ⟨_, hmake, rfl⟩⟩⟩⟩, hc2s, hs2c, hframing.framed syn List.mem_cons_self⟩

theorem launch_returns (hprofile : Usable config.initialProfile) :
    ∃ h, launch .wrapping config = .ok h ∧ Piped config h := by
  obtain ⟨parts, hparts, hall⟩ := mapM_returns (f := setUp .wrapping config)
    (l := List.range config.clients) fun i _ => setUp_returns hprofile i
  obtain ⟨links, hlinks, hordered⟩ := mapM_returns (l := parts)
    (f := fun (p : ClientLink × Server × Datagram) => do
      let c2s ← sendAll .wrapping p.1.c2s [p.2.2]
      .ok ({ p.1 with c2s } : ClientLink))
    (Q := fun link => link.c2s.Ordered ∧ link.s2c.Ordered) fun part hpart => by
      obtain ⟨hc2s, hs2c, hsyn⟩ := hall part hpart
      have hone : ∀ d ∈ [part.2.2], Framed 128 d := List.forall_mem_singleton.mpr hsyn
      obtain ⟨c2s, hsend, hord⟩ := sendAll_returns .wrapping hc2s hone
      exact ⟨_, bind_eq_ok.mpr ⟨c2s, hsend, rfl⟩, hord, hs2c⟩
  refine ⟨_, bind_eq_ok.mpr ⟨parts, hparts, bind_eq_ok.mpr ⟨links, hlinks, rfl⟩⟩, ?_, ?_, hordered⟩
  · show links.length = _
    rw [(mapM_places hlinks).1, (mapM_places hparts).1, List.length_range]
  · show (parts.map _).length = _
    rw [List.length_map, (mapM_places hparts).1, List.length_range]

theorem below_returns {n : Nat} (hn : 0 < n) (r : SplitMix64) : ∃ m, below r n = .ok m := by
  rw [below, if_neg (Nat.pos_iff_ne_zero.mp hn)]
  exact ⟨_, rfl⟩

theorem drawOp_returns {keySpace : Nat} (hkeys : 0 < keySpace) (r : SplitMix64) :
    ∃ op, drawOp keySpace r = .ok op := by
  refine bind_returns (below_returns hkeys r) fun _ _ =>
    bind_returns (below_returns (by decide) _) fun kind _ => ?_
  dsimp only
  split
  · exact ⟨_, rfl⟩
  · exact bind_returns (below_returns (by decide) _) fun _ _ => ⟨_, rfl⟩
  · exact ⟨_, rfl⟩

/-- A schedule can be drawn for at least one client and at least one key. -/
theorem schedule_returns {clients keySpace : Nat} (hclients : 0 < clients) (hkeys : 0 < keySpace) :
    ∀ (calls : Nat) (t : U64) (r : SplitMix64), ∃ plan, schedule .wrapping clients keySpace calls t r =
      .ok plan
  | 0, _, _ => ⟨_, rfl⟩
  | calls + 1, t, r => by
    refine bind_returns (below_returns (by decide) r) fun _ _ =>
      bind_returns ⟨_, Build.wrapping_add _ _⟩ fun _ _ =>
      bind_returns ⟨_, Build.wrapping_add _ _⟩ fun _ _ =>
      bind_returns (below_returns hclients _) fun _ _ =>
      bind_returns (drawOp_returns hkeys _) fun _ _ =>
      bind_returns (schedule_returns hclients hkeys calls _ _) fun _ _ => ⟨_, rfl⟩

/-! ## The run -/

theorem mainLoop_returns (hclients : 0 < config.clients) (hkeys : 0 < config.keySpace)
    (hspace : config.keySpace ≤ 2 ^ 64) (hprofile : Usable config.initialProfile)
    (hswitch : ∀ s ∈ config.profileSwitches, Usable s.2) (hcalls : 2684 * config.calls < 2 ^ 32) :
    ∃ r, mainLoop .wrapping config orders = .ok r := by
  obtain ⟨h, hlaunch, hP⟩ := launch_returns hprofile
  obtain ⟨plan, hplan⟩ := schedule_returns hclients hkeys config.calls 1 ⟨config.seed⟩
  have hlen := schedule_length hplan
  have hknown := schedule_small hspace hplan
  have hsmall : ∀ c ∈ plan, c.2.2.Small := fun c hc => (hknown c hc).2
  obtain ⟨g, hM, htick, hfired⟩ := launch_mirrors hprofile.sound (by omega) hsmall hlaunch
  have hnext : ∀ c ∈ (plan.drop h.fired).head?, h.tick < c.1 := by
    rw [htick, hfired]
    exact schedule_starts hplan
  have hrule : Rule .wrapping config plan orders _ _ _ :=
    (Mirrors.rule fun s hs => (hswitch s hs).sound).and (Piped.rule hswitch)
  have hreturns : Rule.Returns .wrapping config plan orders _ _ _ :=
    steps_return (by omega) (fun c hc => (hknown c hc).1) hswitch
  obtain ⟨r, hloop⟩ := hreturns.loop hrule (g := (g, ())) ⟨hM, hP⟩ htick hnext
  exact ⟨_, bind_eq_ok.mpr ⟨h, hlaunch, bind_eq_ok.mpr ⟨plan, hplan, bind_eq_ok.mpr ⟨r, hloop, rfl⟩⟩⟩⟩

theorem conclude_returns (config : ChaosConfig) (h : Harness) :
    ∃ r, h.conclude .wrapping config = .ok r := by
  unfold Harness.conclude
  split
  · exact ⟨_, rfl⟩
  · exact bind_returns (Build.wrapping_sub _ _) fun _ _ => ⟨_, rfl⟩

/-- **In a build that wraps a chaos run returns**, and with ticks enough it returns a summary that
accounts for every call: if there is a client and a key, no profile both corrupts and truncates, no
sum of delays overflows, and fewer than `2 ^ 32` bytes are needed for the requests. -/
theorem chaos_returns (hclients : 0 < config.clients) (hkeys : 0 < config.keySpace)
    (hspace : config.keySpace ≤ 2 ^ 64) (hprofile : Usable config.initialProfile)
    (hswitch : ∀ s ∈ config.profileSwitches, Usable s.2) (hcalls : 2684 * config.calls < 2 ^ 32) :
    ∃ r, runChaos .wrapping config orders = .ok r ∧
      (4 * config.calls + 1501 ≤ config.maxTicks.toNat →
        ∃ s, r = .ok s ∧ s.callsCompleted + s.callsFailed = config.calls) := by
  obtain ⟨⟨plan, r⟩, hmain⟩ : ∃ r, mainLoop .wrapping config orders = .ok r :=
    mainLoop_returns hclients hkeys hspace hprofile hswitch hcalls
  obtain ⟨hlen, h, hT, hends, hnext, hbound⟩ := mainLoop_tally hmain
  cases hends with
  | late hleft hlate =>
    refine ⟨_, bind_eq_ok.mpr ⟨_, hmain, rfl⟩, fun henough => ?_⟩
    have hfew := hT.late hnext hbound hleft hlate
    exact absurd henough (not_le.mpr hfew)
  | drained hdrained =>
    obtain ⟨r, hr⟩ := conclude_returns config h
    obtain ⟨completed, hsum, rfl⟩ := hT.summary hlen (by omega) hdrained hr
    exact ⟨_, bind_eq_ok.mpr ⟨_, hmain, hr⟩, fun _ => ⟨_, rfl, hsum⟩⟩

/-- Three clients and sixty calls, over a network that is nearly cut and then lossy. -/
def roughChaos : ChaosConfig := { ChaosConfig.default with
  seed := 11
  initialProfile := nearPartition
  profileSwitches := [(200, highLatencyReordering), (400, nearPartition)] }

theorem chaos_returns_sample : ∃ s, runChaos .wrapping roughChaos (fun _ _ => .ascending) = .ok (.ok s) ∧
    s.callsCompleted + s.callsFailed = 60 := by
  have hnear : Usable nearPartition := ⟨by decide +kernel, Or.inr rfl, by decide, by decide, by decide⟩
  have hlate : Usable highLatencyReordering :=
    ⟨by decide +kernel, Or.inl rfl, by decide, by decide, by decide⟩
  have hswitch : ∀ s ∈ roughChaos.profileSwitches, Usable s.2 := by
    intro s hs
    rcases List.mem_pair.mp hs with rfl | rfl
    · exact hlate
    · exact hnear
  obtain ⟨r, hr, henough⟩ := @chaos_returns roughChaos (fun _ _ => .ascending) (by decide) (by decide)
    (by decide) hnear hswitch (by decide)
  obtain ⟨s, rfl, hsum⟩ := henough (by decide)
  exact ⟨s, hr, hsum⟩

end Workload

end Distrans
