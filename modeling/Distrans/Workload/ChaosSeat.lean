import Distrans.Rpc.Records
import Distrans.Workload.Linearizable
import Distrans.Workload.Network
import Distrans.Workload.Traffic

/-!
# A client of the harness as a link of the service

The harness keeps no record of what is sent, received, called or answered; the links of the service
do.  A `Seat` says that a client, its server and the channels between them are such a link without
its records.

* `Seat.client`, `Seat.serve`, `Seat.serverTick` — **each step is a step of the link**, and what it
  sends is carried by the channels;
* `Seat.arriveServer`, `Seat.arriveClient` — what arrives has been emitted by the other side, or is
  noise.
-/

set_option autoImplicit false

namespace Distrans.Workload

open Machine

theorem map_eq_ok {α β : Type} {x : Exec α} {f : α → β} {y : β} (h : x.map f = .ok y) :
    ∃ a, x = .ok a ∧ f a = y := by
  cases x with
  | error e => cases h
  | ok a =>
    cases h
    exact ⟨a, rfl, rfl⟩

/-! ## Without the records -/

/-- The connection without its records. -/
def bare (t : Tapped Endpoint) : Connection := t.conn.conn

theorem bare_over (b : Build) :
    (Endpoint.transport b).tapped.Over (Connection.transport b) bare :=
  (Transport.tapped_over _).trans (Endpoint.transport_over b)

/-- Of the history, the log. -/
def logOf (shared : Shared Nat) : Served := (shared.1, executions shared.2)

theorem handler_same (i : Nat) : RpcServer.Same (handler i) (kvHandler logExecution) logOf := by
  intro method payload shared
  cases hdec : Op.decode method payload with
  | none => simp only [handler, kvHandler, hdec, Prod.map, id]
  | some op =>
    simp only [handler, kvHandler, hdec, Prod.map, id, logOf, onExecute, executions_append]
    rfl

/-! ## Steps of the client -/

/-- What the client does, and in which order it visits its table. -/
def ServiceOp.clientOp : ServiceOp → Option (ClientOp × Shuffle)
  | .call now op => some (.call now op.method op.encodePayload, .ascending)
  | .clientDatagram now d => some (.datagram now d, .ascending)
  | .clientTick now π => some (.tick now, π)
  | .pollCompleted => some (.pollCompleted, .ascending)
  | .pollFailed => some (.pollFailed, .ascending)
  | .serverDatagram _ _ | .serverTick _ => none

theorem link_client {σ₁ σ₂ τ : Type} {b : Build} {T₁ : Transport σ₁} {T₂ : Transport σ₂}
    {l : Link σ₁ σ₂ τ} {o : ServiceOp} {a : ClientOp} {π : Shuffle} {client : RpcClient (Tapped σ₁)}
    {out : ClientOut} (app : τ) (ho : o.clientOp = some (a, π))
    (hr : l.client.op b T₁.tapped π a = .ok (client, out)) :
    l.op b T₁ T₂ app o.link = .ok ({ l with
      client
      calls := l.calls ++ callsOf [a]
      returned := l.returned ++ out.answers }, app) := by
  cases o with
  | call now op =>
    cases ho
    obtain ⟨⟨c, id, out'⟩, hc, hr⟩ := bind_eq_ok.mp hr
    cases hr
    rw [ServiceOp.link, Link.op, hc, ok_bind]
    simp only [ClientOut.answers, List.append_nil]
    rfl
  | clientDatagram now d =>
    cases ho
    obtain ⟨⟨c, out'⟩, hc, hr⟩ := bind_eq_ok.mp hr
    cases hr
    rw [ServiceOp.link, Link.op, hc, ok_bind]
    simp only [ClientOut.answers, callsOf, List.filterMap_cons_none, List.filterMap_nil,
      List.append_nil]
  | clientTick now π' =>
    cases ho
    obtain ⟨⟨c, out'⟩, hc, hr⟩ := bind_eq_ok.mp hr
    cases hr
    rw [ServiceOp.link, Link.op, hc, ok_bind]
    simp only [ClientOut.answers, callsOf, List.filterMap_cons_none, List.filterMap_nil,
      List.append_nil]
  | pollCompleted =>
    cases ho
    cases hr
    simp only [ServiceOp.link, Link.op, ClientOut.answers, callsOf, List.filterMap_cons_none,
      List.filterMap_nil, List.append_nil]
  | pollFailed =>
    cases ho
    cases hr
    simp only [ServiceOp.link, Link.op, ClientOut.answers, callsOf, List.filterMap_cons_none,
      List.filterMap_nil, List.append_nil]
  | serverDatagram now d => cases ho
  | serverTick now => cases ho

/-! ## Seats -/

/-- **A client of the harness and its server, as a link of the service**: `n` is the client with one
record more, and `outs` is what it has given back. -/
structure Seat (i : Nat) (l : Link Endpoint Endpoint (Shared Nat))
    (n : RpcClient (Noted (Tapped Endpoint))) (outs : List ClientOut) (link : ClientLink)
    (server : Server) : Prop where
  noted : n.map Noted.conn = l.client
  client : l.client.map bare = link.client
  server : l.server.map bare (kvHandler logExecution) = server
  handler : l.server.handler = handler i
  lifecycle : Lifecycle n l.calls outs
  attempts : n.maxAttempts = 60
  flat : n.conn.sends.flatten = n.conn.conn.sent
  returned : l.returned = outs.flatMap ClientOut.answers
  framing : Framing 128 l.client.conn.conn ∧ Framing 128 l.server.conn.conn
  c2s : Carried l.client.conn.conn link.c2s
  s2c : Carried l.server.conn.conn link.s2c

theorem keeps_framing (b : Build) (n : Nat) :
    (Endpoint.transport b).tapped.Keeps (fun _ => True) fun t => Framing n t.conn :=
  Transport.Keeps.tapped (Endpoint.keeps fun _ hf h => hf.call h)

namespace Seat

variable {b : Build} {i : Nat} {l : Link Endpoint Endpoint (Shared Nat)}
  {n : RpcClient (Noted (Tapped Endpoint))} {outs : List ClientOut} {link : ClientLink}
  {server : Server} {now : Tick}

theorem sound (hs : Seat i l n outs link server) (hcount : l.calls.length + 1 < 2 ^ 64)
    (a : ClientOp) : n.Sound a := by
  cases a with
  | call now method payload =>
    intro hfull
    have hnext := hs.lifecycle.next
    rw [hfull, BitVec.toNat_allOnes] at hnext
    omega
  | tick now =>
    intro e he _ hfull
    have hattempts := (hs.lifecycle.pending e he).attempts
    rw [hfull, hs.attempts] at hattempts
    exact absurd hattempts (by decide)
  | datagram | pollCompleted | pollFailed => trivial

/-- The record of what the client has sent. -/
theorem client_sent (hs : Seat i l n outs link server) : l.client.conn.sent = n.conn.conn.sent := by
  rw [← hs.noted]
  rfl

theorem attempts_max (hs : Seat i l n outs link server) : max 1 n.maxAttempts.toNat = 60 := by
  rw [hs.attempts]
  decide

/-- The requests that the client has sent. -/
theorem requests_le (hs : Seat i l n outs link server) : ∃ rs : List Request,
    l.client.conn.sent = written rs ∧ rs ⊆ issued l.calls ∧ rs.length ≤ 60 * l.calls.length := by
  obtain ⟨rs, hsent, hrs, hlen⟩ := hs.lifecycle.requests_le hs.flat
  rw [hs.attempts_max] at hlen
  exact ⟨rs, hs.client_sent.trans hsent, hrs, hlen⟩

/-- What it has sent for short calls. -/
theorem sent_le (hs : Seat i l n outs link server) {m : Nat}
    (hshort : ∀ p ∈ l.calls, 13 + p.2.length ≤ m) :
    l.client.conn.sent.length ≤ 60 * l.calls.length * m := by
  have hsent := hs.lifecycle.sent_le hs.flat hshort
  rw [hs.attempts_max] at hsent
  rw [hs.client_sent]
  exact hsent

/-- The same step of the client with its records. -/
theorem recorded (hs : Seat i l n outs link server) {a : ClientOp} {π : Shuffle}
    {client : RpcClient Connection} {out : ClientOut}
    (hr : link.client.op b (Connection.transport b) π a = .ok (client, out)) :
    ∃ tapped, l.client.op b (Endpoint.transport b).tapped π a = .ok (tapped, out) ∧
      tapped.map bare = client ∧
      tapped.conn.conn.emitted = l.client.conn.conn.emitted ++ out.datagrams ∧
      Framing 128 tapped.conn.conn := by
  rw [← hs.client, RpcClient.op_over (bare_over b)] at hr
  obtain ⟨⟨tapped, out'⟩, htapped, heq⟩ := map_eq_ok hr
  obtain ⟨hclient, hout⟩ := Prod.mk.inj heq
  dsimp only at hclient hout
  subst hout
  have hframing : Framing 128 l.client.conn.conn → Framing 128 tapped.conn.conn :=
    RpcClient.op_does (keeps_framing b 128) (fun _ _ _ => trivial) htapped
  exact ⟨tapped, htapped, hclient,
    RpcClient.op_does (Transport.Does.tapped (Endpoint.notes b)) (fun _ _ _ => trivial) htapped,
    hframing hs.framing.1⟩

/-- **A step of the client.** -/
theorem clientStep (hs : Seat i l n outs link server) {o : ServiceOp} {a : ClientOp} {π : Shuffle}
    {client : RpcClient Connection} {out : ClientOut} {c2s : Channel} (app : Shared Nat)
    (ho : o.clientOp = some (a, π)) (hcount : l.calls.length + 1 < 2 ^ 64)
    (hr : link.client.op b (Connection.transport b) π a = .ok (client, out))
    (hsend : sendAll b link.c2s out.datagrams = .ok c2s) : ∃ l' n',
      l.op b (Endpoint.transport b) (Endpoint.transport b) app o.link = .ok (l', app) ∧
      l'.server = l.server ∧ l'.calls = l.calls ++ callsOf [a] ∧
      Seat i l' n' (outs ++ [out]) { link with client, c2s } server := by
  -- the same step of the client with one record, and with both
  obtain ⟨tapped, htapped, hclient, hemitted, hframing⟩ := hs.recorded hr
  have hover := htapped
  rw [← hs.noted, RpcClient.op_over (Transport.noted_over _)] at hover
  obtain ⟨⟨n', out'⟩, hn, heq'⟩ := map_eq_ok hover
  obtain ⟨hnoted, hout⟩ := Prod.mk.inj heq'
  dsimp only at hnoted hout
  subst hout
  have hflat : n.conn.sends.flatten = n.conn.conn.sent → n'.conn.sends.flatten = n'.conn.conn.sent :=
    RpcClient.op_does (Transport.keeps_noted _) (fun _ _ _ => trivial) hn
  refine ⟨_, n', link_client app ho htapped, rfl, rfl, hnoted, hclient, hs.server, hs.handler,
    hs.lifecycle.op (hs.sound hcount a) hn, ?_, hflat hs.flat, ?_, ⟨hframing, hs.framing.2⟩, ?_, hs.s2c⟩
  · rw [(RpcClient.op_kept hn).2, hs.attempts]
  · show l.returned ++ out'.answers = _
    rw [List.flatMap_append, hs.returned]
    simp
  · refine (hs.c2s.mono hemitted).sendAll (by decide) hframing.framed (fun d hd => ?_) hsend
    rw [hemitted]
    exact List.mem_append_right _ hd

theorem same_handler (hs : Seat i l n outs link server) :
    RpcServer.Same l.server.handler (kvHandler logExecution) logOf := by
  rw [hs.handler]
  exact handler_same i

/-- The same delivery to the server with its records. -/
theorem recordedServe (hs : Seat i l n outs link server) {d : Datagram} {app : Shared Nat}
    {server' : Server} {served : Served} {out : List Datagram}
    (hr : server.onDatagram (Connection.transport b) (logOf app) now d = .ok (server', served, out)) :
    ∃ s app', l.server.onDatagram (Endpoint.transport b).tapped app now d = .ok (s, app', out) ∧
      s.map bare (kvHandler logExecution) = server' ∧ logOf app' = served ∧
      s.conn.conn.emitted = l.server.conn.conn.emitted ++ out ∧ Framing 128 s.conn.conn := by
  rw [← hs.server, RpcServer.onDatagram_over (bare_over b) _ hs.same_handler] at hr
  obtain ⟨⟨s, app', out'⟩, hr', heq⟩ := map_eq_ok hr
  simp only [Prod.mk.injEq] at heq
  obtain ⟨hserver, hlog, hout⟩ := heq
  subst hout
  have hframing : Framing 128 l.server.conn.conn → Framing 128 s.conn.conn :=
    RpcServer.onDatagram_does (keeps_framing b 128) trivial hr'
  exact ⟨s, app', hr', hserver, hlog,
    RpcServer.onDatagram_does (Transport.Does.tapped (Endpoint.notes b)) trivial hr',
    hframing hs.framing.2⟩

/-- **A delivery to the server.** -/
theorem serve (hs : Seat i l n outs link server) {d : Datagram} {app : Shared Nat} {server' : Server}
    {served : Served} {out : List Datagram} {s2c : Channel}
    (hr : server.onDatagram (Connection.transport b) (logOf app) now d = .ok (server', served, out))
    (hsend : sendAll b link.s2c out = .ok s2c) : ∃ s app',
      l.server.onDatagram (Endpoint.transport b).tapped app now d = .ok (s, app', out) ∧
      logOf app' = served ∧ Seat i { l with server := s } n outs { link with s2c } server' := by
  obtain ⟨s, app', hr', hserver, hlog, hemitted, hframing⟩ := hs.recordedServe hr
  refine ⟨s, app', hr', hlog, hs.noted, hs.client, hserver, ?_, hs.lifecycle, hs.attempts,
    hs.flat, hs.returned, ⟨hs.framing.1, hframing⟩, hs.c2s, ?_⟩
  · obtain ⟨hkept, _⟩ := RpcServer.onDatagram_ran hr'
    exact hkept.trans hs.handler
  · refine (hs.s2c.mono hemitted).sendAll (by decide) hframing.framed (fun d hd => ?_) hsend
    rw [hemitted]
    exact List.mem_append_right _ hd

/-- The same tick of the server with its records. -/
theorem recordedTick (hs : Seat i l n outs link server) {server' : Server} {out : List Datagram}
    (hr : server.onTick (Connection.transport b) now = .ok (server', out)) :
    ∃ s, l.server.onTick (Endpoint.transport b).tapped now = .ok (s, out) ∧
      s.map bare (kvHandler logExecution) = server' ∧
      s.conn.conn.emitted = l.server.conn.conn.emitted ++ out ∧ Framing 128 s.conn.conn := by
  rw [← hs.server, RpcServer.onTick_over (bare_over b)] at hr
  obtain ⟨⟨s, out'⟩, hr', heq⟩ := map_eq_ok hr
  obtain ⟨hserver, hout⟩ := Prod.mk.inj heq
  dsimp only at hserver hout
  subst hout
  have hframing : Framing 128 l.server.conn.conn → Framing 128 s.conn.conn :=
    RpcServer.onTick_does (keeps_framing b 128) hr'
  exact ⟨s, hr', hserver, RpcServer.onTick_does (Transport.Does.tapped (Endpoint.notes b)) hr',
    hframing hs.framing.2⟩

/-- **A tick of the server.** -/
theorem serverTick (hs : Seat i l n outs link server) {server' : Server} {out : List Datagram}
    {s2c : Channel} (app : Shared Nat)
    (hr : server.onTick (Connection.transport b) now = .ok (server', out))
    (hsend : sendAll b link.s2c out = .ok s2c) : ∃ s,
      l.op b (Endpoint.transport b) (Endpoint.transport b) app (.serverTick now) =
        .ok ({ l with server := s }, app) ∧
      s.conn.sent = l.server.conn.sent ∧
      Seat i { l with server := s } n outs { link with s2c } server' := by
  obtain ⟨s, hr', hserver, hemitted, hframing⟩ := hs.recordedTick hr
  obtain ⟨⟨conn, _⟩, htick, heq⟩ := bind_eq_ok.mp hr'
  cases heq
  refine ⟨{ l.server with conn }, ?_, (Transport.tapped_onTick htick).2, hs.noted, hs.client,
    hserver, hs.handler, hs.lifecycle, hs.attempts, hs.flat, hs.returned,
    ⟨hs.framing.1, hframing⟩, hs.c2s, ?_⟩
  · rw [Link.op, hr', ok_bind]
  · refine (hs.s2c.mono hemitted).sendAll (by decide) hframing.framed (fun d hd => ?_) hsend
    rw [hemitted]
    exact List.mem_append_right _ hd

/-! ## Steps of the channels -/

/-- **What arrives at the server.** -/
theorem arriveServer (hs : Seat i l n outs link server) {c2s : Channel} {ds : List Datagram}
    (hr : link.c2s.advance now = .ok (c2s, ds)) : Seat i l n outs { link with c2s } server ∧
      ∀ d ∈ ds, d ∈ l.client.conn.conn.emitted ∨ Datagram.Noise d := by
  obtain ⟨hcarried, hds⟩ := hs.c2s.advance hr
  exact ⟨{ hs with c2s := hcarried }, hds⟩

/-- **What arrives at the client.** -/
theorem arriveClient (hs : Seat i l n outs link server) {s2c : Channel} {ds : List Datagram}
    (hr : link.s2c.advance now = .ok (s2c, ds)) : Seat i l n outs { link with s2c } server ∧
      ∀ d ∈ ds, d ∈ l.server.conn.conn.emitted ∨ Datagram.Noise d := by
  obtain ⟨hcarried, hds⟩ := hs.s2c.advance hr
  exact ⟨{ hs with s2c := hcarried }, hds⟩

/-- New channels. -/
theorem relink (hs : Seat i l n outs link server) {seed : U64} {profile : FaultProfile}
    {c2s s2c : Channel} (hp : profile.Sound) (hr : makeLink seed profile = .ok (c2s, s2c)) :
    Seat i l n outs { link with c2s, s2c } server := by
  obtain ⟨c2s', hc2s, hr⟩ := bind_eq_ok.mp hr
  obtain ⟨s2c', hs2c, hr⟩ := bind_eq_ok.mp hr
  cases hr
  exact { hs with c2s := .fresh hp hc2s, s2c := .fresh hp hs2c }

end Seat

end Distrans.Workload
