import Distrans.Rpc.Link
import Distrans.Transport.Guarantees

/-!
# The RPC layer on its connections

A client and a server whose connections are `Endpoint`s: the connections of this crate, with the
record of what has gone through them.

* `Transport.Does`, `Transport.Keeps` — what every operation of a transport does, and so every call
  of the RPC layer;
* `Stacked.op` — **the streams of a link deliver**, if each side is given what the other has emitted
  and datagrams that carry nothing.
-/

set_option autoImplicit false

namespace Distrans

open Machine

/-! ## What a transport does -/

namespace Transport

variable {σ : Type} {T : Transport σ} {D : Datagram → Prop} {P : σ → Prop}
  {R : σ → List Datagram → σ → Prop}

/-- Whatever is done, if the datagrams that are delivered meet `D`: `R` relates the connection
before to what it emits and to the connection after. -/
structure Does (T : Transport σ) (D : Datagram → Prop) (R : σ → List Datagram → σ → Prop) : Prop where
  refl : ∀ c, R c [] c
  trans : ∀ {c c' c'' out out'}, R c out c' → R c' out' c'' → R c (out ++ out') c''
  onDatagram : ∀ {c c' now d out}, D d → T.onDatagram c now d = .ok (c', out) → R c out c'
  onTick : ∀ {c c' now out}, T.onTick c now = .ok (c', out) → R c out c'
  send : ∀ {c c' now bytes out}, T.send c now bytes = .ok (c', out) → R c out c'
  recv : ∀ c, R c [] (T.recv c).1

/-- Every operation keeps `P`. -/
def Keeps (T : Transport σ) (D : Datagram → Prop) (P : σ → Prop) : Prop :=
  T.Does D fun c _ c' => P c → P c'

/-- The record is nothing to the transport. -/
theorem Does.tapped (h : T.Does D R) : T.tapped.Does D fun c out c' => R c.conn out c'.conn where
  refl c := h.refl c.conn
  trans := h.trans
  onDatagram hd hr := by
    obtain ⟨⟨conn, out⟩, hop, hr⟩ := bind_eq_ok.mp hr
    cases hr
    exact h.onDatagram hd hop
  onTick hr := by
    obtain ⟨⟨conn, out⟩, hop, hr⟩ := bind_eq_ok.mp hr
    cases hr
    exact h.onTick hop
  send hr := by
    obtain ⟨⟨conn, out⟩, hop, hr⟩ := bind_eq_ok.mp hr
    cases hr
    exact h.send hop
  recv c := h.recv c.conn

theorem Keeps.tapped (h : T.Keeps D P) : T.tapped.Keeps D fun c => P c.conn := Does.tapped h

/-- What has been sent is only added to. -/
theorem keeps_sent (T : Transport σ) (n : Nat) :
    T.tapped.Keeps (fun _ => True) fun t => n ≤ t.sent.length where
  refl _ := id
  trans h h' hc := h' (h hc)
  onDatagram {c c' now d out} _ hr ht := by
    show n ≤ c'.sent.length
    rw [(tapped_onDatagram hr).2]
    exact ht
  onTick {c c' now out} hr ht := by
    show n ≤ c'.sent.length
    rw [(tapped_onTick hr).2]
    exact ht
  send {c c' now bytes out} hr ht := by
    show n ≤ c'.sent.length
    rw [(tapped_send hr).2, List.length_append]
    exact Nat.le_trans ht (Nat.le_add_right _ _)
  recv _ := id

end Transport

namespace RpcClient

variable {σ : Type} {T : Transport σ} {D : Datagram → Prop} {R : σ → List Datagram → σ → Prop}
  {b : Build} {c c' : RpcClient σ} {now : Tick} {out : List Datagram}

theorem foldl_onMessage_conn (messages : List (List U8)) (c : RpcClient σ) :
    (messages.foldl onMessage c).conn = c.conn := by
  induction messages generalizing c with
  | nil => rfl
  | cons bytes messages ih =>
    refine (ih _).trans ?_
    unfold onMessage
    split
    · rfl
    · split <;> rfl

theorem call_does (h : T.Does D R) {method : U8} {payload : List U8} {id : U64}
    (hr : c.call b T now method payload = .ok (c', id, out)) : R c.conn out c'.conn := by
  obtain ⟨nextId, _, hr⟩ := bind_eq_ok.mp hr
  obtain ⟨⟨conn, _⟩, hsend, hr⟩ := bind_eq_ok.mp hr
  cases hr
  exact h.send hsend

theorem onDatagram_does (h : T.Does D R) {d : Datagram} (hd : D d)
    (hr : c.onDatagram T now d = .ok (c', out)) : R c.conn out c'.conn := by
  obtain ⟨conn₀, conn, bytes, hop, hrecv, rfl⟩ := onDatagram_inv hr
  rw [foldl_onMessage_conn]
  have hrecv' := h.recv conn₀
  rw [hrecv] at hrecv'
  have := h.trans (h.onDatagram hd hop) hrecv'
  rwa [List.append_nil] at this

theorem retryLoop_does (h : T.Does D R) : ∀ {order : List (U64 × PendingCall)} {c c' : RpcClient σ}
    {toFail toFail' : List U64} {out : List Datagram},
    retryLoop b T now order c toFail = .ok (c', toFail', out) → R c.conn out c'.conn
  | [], c, _, _, _, _, hr => by
    cases hr
    exact h.refl c.conn
  | (id, call) :: order, c, c', toFail, toFail', out, hr => by
    obtain ⟨v, _, hr⟩ := bind_eq_ok.mp hr
    cases v with
    | wait => exact retryLoop_does h hr
    | fail call' =>
      exact retryLoop_does (c := { c with pending := c.pending.insert id call' }) h hr
    | resend call' =>
      obtain ⟨⟨conn, out₁⟩, hsend, hr⟩ := bind_eq_ok.mp hr
      obtain ⟨⟨c₁, toFail₁, more⟩, hloop, hr⟩ := bind_eq_ok.mp hr
      cases hr
      exact h.trans (h.send hsend) (retryLoop_does h hloop)

theorem onTick_does (h : T.Does D R) {order : List (U64 × PendingCall)}
    (hr : c.onTick b T now order = .ok (c', out)) : R c.conn out c'.conn := by
  obtain ⟨⟨conn₀, out₀⟩, hop, hr⟩ := bind_eq_ok.mp hr
  obtain ⟨⟨c₁, toFail, more⟩, hloop, hr⟩ := bind_eq_ok.mp hr
  cases hr
  exact h.trans (h.onTick hop) (retryLoop_does h hloop)

end RpcClient

namespace RpcServer

variable {σ τ : Type} {T : Transport σ} {D : Datagram → Prop} {R : σ → List Datagram → σ → Prop}
  {s s' : RpcServer σ τ} {app app' : τ} {now : Tick} {out : List Datagram}

theorem onMessage_does (h : T.Does D R) {bytes : List U8}
    (hr : s.onMessage T now bytes app = .ok (s', app', out)) : R s.conn out s'.conn := by
  rcases onMessage_cases hr with ⟨hdec, _, _⟩ | ⟨q, p, s₁, conn, _, hans, hsend, rfl⟩
  · unfold onMessage at hr
    rw [hdec] at hr
    cases hr
    exact h.refl s.conn
  · rw [← hans.same.1]
    exact h.send hsend

theorem onMessages_does (h : T.Does D R) : ∀ {messages : List (List U8)} {s s' : RpcServer σ τ}
    {app app' : τ} {out : List Datagram}, onMessages T now messages s app = .ok (s', app', out) →
    R s.conn out s'.conn
  | [], s, _, _, _, _, hr => by
    cases hr
    exact h.refl s.conn
  | bytes :: messages, s, s', app, app', out, hr => by
    obtain ⟨⟨s₁, app₁, out₁⟩, hone, hr⟩ := bind_eq_ok.mp hr
    obtain ⟨⟨s₂, app₂, out₂⟩, hrest, hr⟩ := bind_eq_ok.mp hr
    cases hr
    exact h.trans (onMessage_does h hone) (onMessages_does h hrest)

theorem onDatagram_does (h : T.Does D R) {d : Datagram} (hd : D d)
    (hr : s.onDatagram T app now d = .ok (s', app', out)) : R s.conn out s'.conn := by
  obtain ⟨⟨conn₀, out₀⟩, hop, hr⟩ := bind_eq_ok.mp hr
  obtain ⟨⟨s₁, app₁, more⟩, hall, hr⟩ := bind_eq_ok.mp hr
  cases hr
  have hread := h.trans (h.onDatagram hd hop) (h.recv conn₀)
  rw [List.append_nil] at hread
  exact h.trans hread (onMessages_does h hall)

theorem onTick_does (h : T.Does D R) (hr : s.onTick T now = .ok (s', out)) :
    R s.conn out s'.conn := by
  obtain ⟨⟨conn, out₁⟩, hop, hr⟩ := bind_eq_ok.mp hr
  cases hr
  exact h.onTick hop

end RpcServer

/-! ## Endpoints -/

/-- A connection that keeps the record of what has gone through it. -/
def Endpoint.transport (b : Build) : Transport Endpoint where
  onDatagram e now d := do
    let (c, out) ← e.conn.onDatagram b now d
    .ok (e.put c out, out)
  onTick e now := do
    let (c, out) ← e.conn.onTick b now
    .ok (e.put c out, out)
  send e now bytes := do
    let (c, out) ← e.conn.send b now bytes
    .ok ({ e with sent := e.sent ++ bytes }.put c out, out)
  recv e :=
    let (c, bytes) := e.conn.recv
    ({ e with received := e.received ++ bytes }.put c [], bytes)

/-- No segment can be read out of the datagram. -/
def Datagram.Noise (d : Datagram) : Prop := ∀ f hdr app, ¬ Carries d f hdr app

namespace Endpoint

variable {b : Build} {e e' X Y : Endpoint} {now : Tick} {out : List Datagram}

/-- An operation is a call, and what it returns is noted. -/
theorem transport_onDatagram {d : Datagram} (h : (transport b).onDatagram e now d = .ok (e', out)) :
    e.call b (.onDatagram now d) = .ok e' ∧ e'.emitted = e.emitted ++ out := by
  obtain ⟨⟨c, out'⟩, hop, h⟩ := bind_eq_ok.mp h
  cases h
  exact ⟨bind_eq_ok.mpr ⟨_, hop, rfl⟩, rfl⟩

theorem transport_onTick (h : (transport b).onTick e now = .ok (e', out)) :
    e.call b (.onTick now) = .ok e' ∧ e'.emitted = e.emitted ++ out := by
  obtain ⟨⟨c, out'⟩, hop, h⟩ := bind_eq_ok.mp h
  cases h
  exact ⟨bind_eq_ok.mpr ⟨_, hop, rfl⟩, rfl⟩

theorem transport_send {bytes : List U8} (h : (transport b).send e now bytes = .ok (e', out)) :
    e.call b (.send now bytes) = .ok e' ∧ e'.emitted = e.emitted ++ out := by
  obtain ⟨⟨c, out'⟩, hop, h⟩ := bind_eq_ok.mp h
  cases h
  exact ⟨bind_eq_ok.mpr ⟨_, hop, rfl⟩, rfl⟩

theorem transport_recv (b : Build) (e : Endpoint) :
    e.call b .recv = .ok ((transport b).recv e).1 := rfl

/-- What every call keeps, the transport keeps. -/
theorem keeps {D : Datagram → Prop} {P : Endpoint → Prop}
    (h : ∀ {e e' a}, (∀ now d, a = .onDatagram now d → D d) → P e → e.call b a = .ok e' → P e') :
    (transport b).Keeps D P where
  refl _ := id
  trans h₁ h₂ he := h₂ (h₁ he)
  onDatagram hd hr he :=
    h (fun _ _ heq => by cases heq; exact hd) he (transport_onDatagram hr).1
  onTick hr he := h (fun _ _ heq => by cases heq) he (transport_onTick hr).1
  send hr he := h (fun _ _ heq => by cases heq) he (transport_send hr).1
  recv _ he := h (fun _ _ heq => by cases heq) he (transport_recv b _)

/-- What is returned is noted. -/
theorem notes (b : Build) :
    (transport b).Does (fun _ => True) fun e out e' => e'.emitted = e.emitted ++ out where
  refl e := (List.append_nil e.emitted).symm
  trans h₁ h₂ := by rw [h₂, h₁, List.append_assoc]
  onDatagram _ hr := (transport_onDatagram hr).2
  onTick hr := (transport_onTick hr).2
  send hr := (transport_send hr).2
  recv _ := rfl

/-- A datagram that carries nothing only moves the clock. -/
theorem call_noise {d : Datagram} (hd : d.Noise) (h : e.call b (.onDatagram now d) = .ok e') :
    e' = e.move (e.conn.advance now) := by
  obtain ⟨⟨c, out'⟩, hop, h⟩ := bind_eq_ok.mp h
  cases h
  rcases onDatagram_cases hop with ⟨rfl, rfl⟩ | ⟨f, hdr, app, hc, _⟩
  · rw [put_nil]
  · exact absurd hc (hd f hdr app)

/-- **The two sides stay linked**, if what is delivered is noise or has been emitted. -/
theorem keeps_linked (Y : Endpoint) : (transport b).Keeps (fun d => d ∈ Y.emitted ∨ d.Noise)
    fun X => X.sent.length < 2 ^ 32 → Linked X Y := by
  refine keeps fun {e e' a} hlegal he hr hfits => ?_
  have hl := he (Nat.lt_of_le_of_lt (call_sent_le hr) hfits)
  by_cases hnoise : ∃ now d, a = .onDatagram now d ∧ d.Noise
  · obtain ⟨now, d, rfl, hd⟩ := hnoise
    rw [call_noise hd hr]
    exact hl.advance now
  · refine call_linked hl (fun now d ha => ?_) hfits hr
    exact (hlegal now d ha).resolve_right fun hd => hnoise ⟨now, d, ha, hd⟩

/-- The record of the RPC layer is that of the endpoint. -/
structure Agrees (t : Tapped Endpoint) : Prop where
  received : t.received = t.conn.received
  sent : t.sent = t.conn.sent

theorem keeps_agrees (b : Build) : (transport b).tapped.Keeps (fun _ => True) Agrees where
  refl _ := id
  trans h₁ h₂ ht := h₂ (h₁ ht)
  onDatagram _ hr ht := by
    obtain ⟨⟨e, out⟩, hop, hr⟩ := bind_eq_ok.mp hr
    cases hr
    obtain ⟨⟨c, out'⟩, _, hop⟩ := bind_eq_ok.mp hop
    cases hop
    exact ⟨ht.received, ht.sent⟩
  onTick hr ht := by
    obtain ⟨⟨e, out⟩, hop, hr⟩ := bind_eq_ok.mp hr
    cases hr
    obtain ⟨⟨c, out'⟩, _, hop⟩ := bind_eq_ok.mp hop
    cases hop
    exact ⟨ht.received, ht.sent⟩
  send {t t' now bytes out} hr ht := by
    obtain ⟨⟨e, out⟩, hop, hr⟩ := bind_eq_ok.mp hr
    cases hr
    obtain ⟨⟨c, out'⟩, _, hop⟩ := bind_eq_ok.mp hop
    cases hop
    exact ⟨ht.received, congrArg (· ++ bytes) ht.sent⟩
  recv t ht := ⟨congrArg (· ++ t.conn.conn.delivered) ht.received, ht.sent⟩

end Endpoint

/-! ## Links of endpoints -/

namespace Link

section

variable {σ₁ σ₂ τ : Type} {b : Build} {T₁ : Transport σ₁} {T₂ : Transport σ₂} {D₁ D₂ : Datagram → Prop}
  {R₁ : Tapped σ₁ → List Datagram → Tapped σ₁ → Prop}
  {R₂ : Tapped σ₂ → List Datagram → Tapped σ₂ → Prop} {l l' : Link σ₁ σ₂ τ} {app app' : τ} {o : LinkOp}

/-- **A step of a link is a step of one side.** -/
theorem op_does (h₁ : T₁.tapped.Does D₁ R₁) (h₂ : T₂.tapped.Does D₂ R₂)
    (hd₁ : ∀ now d, o = .clientDatagram now d → D₁ d)
    (hd₂ : ∀ now d, o = .serverDatagram now d → D₂ d)
    (hop : l.op b T₁ T₂ app o = .ok (l', app')) :
    ((∃ out, R₁ l.client.conn out l'.client.conn) ∧ l'.server.conn = l.server.conn) ∨
    ((∃ out, R₂ l.server.conn out l'.server.conn) ∧ l'.client.conn = l.client.conn) := by
  cases o with
  | call now method payload =>
    obtain ⟨⟨client, id, out⟩, hc, hop⟩ := bind_eq_ok.mp hop
    cases hop
    exact Or.inl ⟨⟨out, RpcClient.call_does h₁ hc⟩, rfl⟩
  | clientDatagram now d =>
    obtain ⟨⟨client, out⟩, hc, hop⟩ := bind_eq_ok.mp hop
    cases hop
    exact Or.inl ⟨⟨out, RpcClient.onDatagram_does h₁ (hd₁ now d rfl) hc⟩, rfl⟩
  | clientTick now π =>
    obtain ⟨⟨client, out⟩, hc, hop⟩ := bind_eq_ok.mp hop
    cases hop
    exact Or.inl ⟨⟨out, RpcClient.onTick_does h₁ hc⟩, rfl⟩
  | pollCompleted | pollFailed =>
    cases hop
    exact Or.inl ⟨⟨[], h₁.refl _⟩, rfl⟩
  | serverDatagram now d =>
    obtain ⟨⟨server, app₁, out⟩, hc, hop⟩ := bind_eq_ok.mp hop
    cases hop
    exact Or.inr ⟨⟨out, RpcServer.onDatagram_does h₂ (hd₂ now d rfl) hc⟩, rfl⟩
  | serverTick now =>
    obtain ⟨⟨server, out⟩, hc, hop⟩ := bind_eq_ok.mp hop
    cases hop
    exact Or.inr ⟨⟨out, RpcServer.onTick_does h₂ hc⟩, rfl⟩

/-- What is sent only grows. -/
theorem op_sent_le (hop : l.op b T₁ T₂ app o = .ok (l', app')) :
    l.client.conn.sent.length ≤ l'.client.conn.sent.length ∧
    l.server.conn.sent.length ≤ l'.server.conn.sent.length := by
  rcases op_does (T₁.keeps_sent l.client.conn.sent.length) (T₂.keeps_sent l.server.conn.sent.length)
    (fun _ _ _ => trivial) (fun _ _ _ => trivial) hop with ⟨⟨_, h⟩, hsame⟩ | ⟨⟨_, h⟩, hsame⟩
  · rw [hsame]
    exact ⟨h (le_refl _), le_refl _⟩
  · rw [hsame]
    exact ⟨le_refl _, h (le_refl _)⟩

/-- A call is made, and its request is sent. -/
theorem op_call {now : Tick} {method : U8} {payload : List U8}
    (hop : l.op b T₁ T₂ app (.call now method payload) = .ok (l', app')) :
    l'.client.conn.sent.length = l.client.conn.sent.length + (4 + (9 + payload.length)) := by
  obtain ⟨⟨client, id, out⟩, hc, hop⟩ := bind_eq_ok.mp hop
  cases hop
  obtain ⟨nextId, _, hc⟩ := bind_eq_ok.mp hc
  obtain ⟨⟨conn, _⟩, hsend, hc⟩ := bind_eq_ok.mp hc
  cases hc
  rw [(Transport.tapped_send hsend).2, List.length_append, frame, List.length_append, toLe_length,
    Request.encode_length]

/-- Every call sends something. -/
theorem op_calls_le (h : l.calls.length ≤ l.client.conn.sent.length)
    (hop : l.op b T₁ T₂ app o = .ok (l', app')) : l'.calls.length ≤ l'.client.conn.sent.length := by
  have hgrows := (op_sent_le hop).1
  cases o with
  | call now method payload =>
    have hlen := op_call hop
    obtain ⟨_, _, hop⟩ := bind_eq_ok.mp hop
    cases hop
    rw [List.length_append, List.length_singleton]
    omega
  | pollCompleted | pollFailed =>
    cases hop
    exact h
  | _ =>
    obtain ⟨_, _, hop⟩ := bind_eq_ok.mp hop
    cases hop
    exact Nat.le_trans h hgrows

end

variable {τ : Type} {b : Build} {l l' : Link Endpoint Endpoint τ} {app app' : τ} {o : LinkOp}

/-- Each side is given what the other has emitted, and noise. -/
def Legal (l : Link Endpoint Endpoint τ) : LinkOp → Prop
  | .clientDatagram _ d => d ∈ l.server.conn.conn.emitted ∨ d.Noise
  | .serverDatagram _ d => d ∈ l.client.conn.conn.emitted ∨ d.Noise
  | _ => True

/-- Fewer than `2 ^ 32` bytes have been sent in each direction. -/
def Fits (l : Link Endpoint Endpoint τ) : Prop :=
  l.client.conn.sent.length < 2 ^ 32 ∧ l.server.conn.sent.length < 2 ^ 32

instance decidableFits (l : Link Endpoint Endpoint τ) : Decidable l.Fits :=
  inferInstanceAs (Decidable (_ ∧ _))

end Link

/-- **The connections of a link.** -/
structure Stacked {τ : Type} (l : Link Endpoint Endpoint τ) : Prop where
  client : Endpoint.Agrees l.client.conn
  server : Endpoint.Agrees l.server.conn
  linked : l.Fits → Linked l.client.conn.conn l.server.conn.conn

namespace Stacked

variable {τ : Type} {b : Build} {l l' : Link Endpoint Endpoint τ} {app app' : τ} {o : LinkOp}

/-- **Every step keeps the connections linked.** -/
theorem op (h : Stacked l) (hlegal : l.Legal o)
    (hop : l.op b (Endpoint.transport b) (Endpoint.transport b) app o = .ok (l', app')) :
    Stacked l' := by
  have hagrees : Endpoint.Agrees l'.client.conn ∧ Endpoint.Agrees l'.server.conn := by
    rcases Link.op_does (Endpoint.keeps_agrees b) (Endpoint.keeps_agrees b) (fun _ _ _ => trivial)
      (fun _ _ _ => trivial) hop with ⟨⟨_, hc⟩, hsame⟩ | ⟨⟨_, hc⟩, hsame⟩
    · exact ⟨hc h.client, hsame ▸ h.server⟩
    · exact ⟨hsame ▸ h.client, hc h.server⟩
  refine ⟨hagrees.1, hagrees.2, fun hfits => ?_⟩
  obtain ⟨hle, hle'⟩ := Link.op_sent_le hop
  have hl := h.linked ⟨Nat.lt_of_le_of_lt hle hfits.1, Nat.lt_of_le_of_lt hle' hfits.2⟩
  rcases Link.op_does (Endpoint.keeps_linked (b := b) l.server.conn.conn).tapped
    (Endpoint.keeps_linked (b := b) l.client.conn.conn).tapped
    (fun now d ho => by subst ho; exact hlegal) (fun now d ho => by subst ho; exact hlegal) hop with
    ⟨⟨_, hc⟩, hsame⟩ | ⟨⟨_, hc⟩, hsame⟩
  · rw [hsame]
    refine hc (fun _ => hl) ?_
    rw [← hagrees.1.sent]
    exact hfits.1
  · rw [hsame]
    refine (hc (fun _ => hl.symm) ?_).symm
    rw [← hagrees.2.sent]
    exact hfits.2

theorem received_prefix {X Y : Endpoint} (h : Linked X Y) : Y.received <+: X.sent := by
  obtain ⟨_, _, _, _, hflow, _⟩ := h
  have hpre : Y.inOrder <+: X.sent := by
    rw [hflow.inOrder.1]
    exact List.take_prefix _ _
  exact (List.prefix_append _ _).trans hpre

/-- **The streams deliver.** -/
theorem delivers (h : Stacked l) (hfits : l.Fits) : l.Delivers := by
  have hl := h.linked hfits
  refine ⟨?_, ?_⟩
  · rw [h.server.received, h.client.sent]
    exact received_prefix hl
  · rw [h.client.received, h.server.sent]
    exact received_prefix hl.symm

/-- What the server's connection hands out, once it has taken a datagram, the client has sent. -/
theorem reads (h : Stacked l) (hfits : l.Fits) {now : Tick} {d : Datagram}
    (hlegal : d ∈ l.client.conn.conn.emitted ∨ d.Noise) {conn₀ : Tapped Endpoint}
    {out : List Datagram}
    (hop : (Endpoint.transport b).tapped.onDatagram l.server.conn now d = .ok (conn₀, out)) :
    ((Endpoint.transport b).tapped.recv conn₀).1.received <+: l.client.conn.sent := by
  have hagrees : Endpoint.Agrees ((Endpoint.transport b).tapped.recv conn₀).1 :=
    (Endpoint.keeps_agrees b).recv conn₀ ((Endpoint.keeps_agrees b).onDatagram trivial hop h.server)
  have hkeeps := (Endpoint.keeps_linked (b := b) l.client.conn.conn).tapped
  have hsent : ((Endpoint.transport b).tapped.recv conn₀).1.sent = l.server.conn.sent :=
    (Transport.tapped_recv _ conn₀).2.trans (Transport.tapped_onDatagram hop).2
  have hl : Linked ((Endpoint.transport b).tapped.recv conn₀).1.conn l.client.conn.conn := by
    refine hkeeps.recv conn₀ (hkeeps.onDatagram hlegal hop fun _ => (h.linked hfits).symm) ?_
    rw [← hagrees.sent, hsent]
    exact hfits.2
  rw [hagrees.received, h.client.sent]
  exact received_prefix hl.symm

/-- **What a delivery brings to the server** has been sent by the client, whatever it answers. -/
theorem received (h : Stacked l) (hfits : l.Fits) {now : Tick} {d : Datagram}
    (hlegal : d ∈ l.client.conn.conn.emitted ∨ d.Noise) {server : RpcServer (Tapped Endpoint) τ}
    {out : List Datagram} (hr : l.server.onDatagram (Endpoint.transport b).tapped app now d =
      .ok (server, app', out)) : server.conn.received <+: l.client.conn.sent := by
  obtain ⟨conn₀, conn, bytes, out₀, more, hop, hgot, hall⟩ := RpcServer.onDatagram_inv hr
  rw [(Serving.onMessages_kept hall).received]
  show conn.received <+: _
  -- the connection before the first answer
  obtain rfl : ((Endpoint.transport b).tapped.recv conn₀).1 = conn := congrArg Prod.fst hgot
  exact h.reads hfits hlegal hop

end Stacked

end Distrans
