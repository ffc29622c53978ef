import Distrans.Rpc.Server

/-!
# The server runs each request once

Whatever bytes arrive at a server, in whatever pieces: the handler runs on the first request of
each id and on no other, and every request is answered from that run.

`Handler.logged` is a handler that also writes down its runs, and `RpcServer.run` plays deliveries
and ticks; `server_idempotent` is about every such run, on every transport.
-/

set_option autoImplicit false

namespace Distrans

open Machine

variable {σ τ : Type}

/-- A handler that writes down its runs. -/
def Handler.logged (h : Handler τ) : Handler (τ × List Run) := fun method payload app =>
  let (outcome, app') := h method payload app.1
  (outcome, app', app.2 ++ [⟨method, payload, outcome.1, outcome.2⟩])

theorem logged_journal (h : Handler τ) :
    Journal h.logged (fun _ _ => True) (Prod.snd : τ × List Run → List Run) :=
  fun _ _ _ _ => rfl

/-- The handler as a function of a request. -/
def Handler.serve (h : Handler τ) (q : Request) (app : τ) : (Bool × List U8) × τ :=
  h q.method q.payload app

namespace RpcServer

/-- What a server is called with. -/
inductive Input where
  | datagram (now : Tick) (d : Datagram)
  | tick (now : Tick)

/-- One call; what goes out is the connection's. -/
def input (T : Transport σ) (s : RpcServer σ τ) (app : τ) : Input → Exec (RpcServer σ τ × τ)
  | .datagram now d => do
    let (s, app, _) ← s.onDatagram T app now d
    .ok (s, app)
  | .tick now => do
    let (s, _) ← s.onTick T now
    .ok (s, app)

def run (T : Transport σ) : List Input → RpcServer σ τ → τ → Exec (RpcServer σ τ × τ)
  | [], s, app => .ok (s, app)
  | i :: inputs, s, app => do
    let (s, app) ← s.input T app i
    run T inputs s app

theorem run_returns {T : Transport σ} (hT : T.Total) : ∀ (inputs : List Input) (s : RpcServer σ τ)
    (app : τ), ∃ r, run T inputs s app = .ok r
  | [], _, _ => ⟨_, rfl⟩
  | .datagram _ d :: inputs, s, app =>
    bind_returns (bind_returns (onDatagram_returns hT s app d) fun _ _ => ⟨_, rfl⟩)
      fun r _ => run_returns hT inputs r.1 r.2
  | .tick now :: inputs, s, _ =>
    bind_returns (bind_returns (bind_returns (hT.onTick s.conn now) fun _ _ => ⟨_, rfl⟩)
      fun _ _ => ⟨_, rfl⟩) fun r _ => run_returns hT inputs r.1 r.2

end RpcServer

namespace Hosting

variable {T : Transport σ} {h : Handler τ} {view : τ → List Run} {s s' : RpcServer (Tapped σ) τ}
  {app app' : τ} {book : List Entry} {replies : List Response}

theorem input {i : RpcServer.Input} (hs : Hosting h view s app book replies)
    (hj : Journal h (fun _ _ => True) view) (hr : s.input T.tapped app i = .ok (s', app')) :
    ∃ book' more, book <+: book' ∧ Hosting h view s' app' book' (replies ++ more) ∧
      RpcServer.Ran h (fun _ _ => True) app app' := by
  cases i with
  | datagram now d =>
    obtain ⟨⟨s₁, app₁, _⟩, hd, hr⟩ := bind_eq_ok.mp hr
    cases hr
    exact hs.onDatagram hd hj fun _ _ => trivial
  | tick now =>
    obtain ⟨⟨s₁, _⟩, ht, hr⟩ := bind_eq_ok.mp hr
    cases hr
    refine ⟨book, [], List.prefix_refl _, ?_, .refl⟩
    rw [List.append_nil]
    exact (hs.onTick ht).1

/-- **A run of any inputs.** -/
theorem run (hj : Journal h (fun _ _ => True) view) : ∀ {inputs : List RpcServer.Input}
    {s s' : RpcServer (Tapped σ) τ} {app app' : τ} {book : List Entry} {replies : List Response},
    Hosting h view s app book replies → RpcServer.run T.tapped inputs s app = .ok (s', app') →
    ∃ book' replies', Hosting h view s' app' book' replies' ∧
      RpcServer.Ran h (fun _ _ => True) app app'
  | [], _, _, _, _, book, replies, hs, hr => by
    cases hr
    exact ⟨book, replies, hs, .refl⟩
  | i :: inputs, _, _, _, _, _, _, hs, hr => by
    obtain ⟨⟨s₁, app₁⟩, hi, hr⟩ := bind_eq_ok.mp hr
    obtain ⟨book₁, more, _, hs₁, hran₁⟩ := hs.input hj hi
    obtain ⟨book', replies', hs', hran'⟩ := run hj hs₁ hr
    exact ⟨book', replies', hs', hran₁.trans hran'⟩

end Hosting

/-- The runs that are written down are those the handler makes, one after another. -/
theorem logged_thread {h : Handler τ} {app₀ : τ} {app : τ × List Run}
    (hr : RpcServer.Ran h.logged (fun _ _ => True) (app₀, []) app) :
    thread (fun r : Run => h r.method r.payload) app.2 app₀ =
      (app.2.map fun r => (r.ok, r.answer), app.1) := by
  refine hr.preserves (I := fun app => thread (fun r : Run => h r.method r.payload) app.2 app₀ =
      (app.2.map fun r => (r.ok, r.answer), app.1)) ?_ rfl
  intro method payload app _ hI
  show thread _ (app.2 ++ [_]) app₀ = (List.map _ (app.2 ++ [_]), _)
  rw [thread_concat, hI, List.map_append]
  rfl

/-- **Server idempotency**: of the requests `rs` in whatever has been received, the handler has run
on the first of each id, in that order and from one state to the next; the executions are counted;
and one response to each request has been queued, the same for the same id, as its run gave it. -/
theorem server_idempotent {T : Transport σ} {h : Handler τ} {c : σ} {app₀ app : τ} {log : List Run}
    {inputs : List RpcServer.Input} {s : RpcServer (Tapped σ) (τ × List Run)}
    (hr : RpcServer.run T.tapped inputs (RpcServer.new (Tapped.fresh c) h.logged) (app₀, []) =
      .ok (s, (app, log))) :
    log.map (fun r => (r.method, r.payload)) =
      (firsts Request.id (requests s.conn.received)).map (fun q => (q.method, q.payload)) ∧
    thread (fun r : Run => h r.method r.payload) log app₀ =
      (log.map fun r => (r.ok, r.answer), app) ∧
    s.executions = ((requests s.conn.received).map Request.id).dedup.length ∧
    ∃ replies : List Response,
      replies.map Response.id = (requests s.conn.received).map Request.id ∧
      s.conn.sent = replies.flatMap (fun p => frame p.encode) ∧
      (∀ p ∈ replies, ∀ p' ∈ replies, p.id = p'.id → p.encode = p'.encode) ∧
      ∀ p ∈ replies, ∃ e ∈ (firsts Request.id (requests s.conn.received)).zip log,
        p = ⟨e.1.id, e.2.ok, e.2.answer⟩ := by
  obtain ⟨book, replies, hs, hran⟩ := Hosting.run (logged_journal h) (.new c rfl) hr
  have hasked := hs.serving.asked
  have hruns : log = book.map Entry.run := hs.runs
  have hzip : (firsts Request.id (requests s.conn.received)).zip log =
      book.map fun e => (e.request, e.run) := by
    rw [← hasked, hruns, List.zip_map']
  refine ⟨?_, logged_thread hran, ?_, replies, hs.serving.ids, hs.serving.sent, ?_, ?_⟩
  · rw [hruns, ← hasked, List.map_map, List.map_map]
    rfl
  · rw [hs.serving.executions, ← length_firsts, ← hasked, List.length_map]
  · intro p hp p' hp' hid
    obtain ⟨e, he, rfl⟩ := hs.serving.mem_replies hp
    obtain ⟨e', he', rfl⟩ := hs.serving.mem_replies hp'
    rw [hs.serving.entry_unique he he' hid]
  · intro p hp
    obtain ⟨e, he, rfl⟩ := hs.serving.mem_replies hp
    rw [hzip]
    exact ⟨_, List.mem_map_of_mem he, rfl⟩

/-- A transport that hands over what arrives and takes whatever is sent. -/
def rawTransport : Transport (List U8) where
  onDatagram c _ d := .ok (c ++ d, [])
  onTick c _ := .ok (c, [])
  send c _ _ := .ok (c, [])
  recv c := ([], c)

theorem rawTransport_total : rawTransport.Total :=
  ⟨fun _ _ _ => ⟨_, rfl⟩, fun _ _ => ⟨_, rfl⟩, fun _ _ _ => ⟨_, rfl⟩⟩

/-- A handler that counts its runs and answers with the count. -/
def counter : Handler U8 := fun _ _ n => ((true, [n]), n + 1)

/-- The same request twice, cut in two, and another one. -/
def repeated : List RpcServer.Input :=
  [.datagram 0 (frame (Request.encode ⟨7, 1, []⟩) ++ [9, 0]), .tick 1,
    .datagram 2 ([0, 0] ++ Request.encode ⟨7, 1, []⟩),
    .datagram 3 (frame (Request.encode ⟨2, 5, [6]⟩))]

theorem server_idempotent_sample : ∃ s app log,
    RpcServer.run rawTransport.tapped repeated (RpcServer.new (Tapped.fresh []) counter.logged)
      (40, []) = .ok (s, (app, log)) ∧
    thread (fun r : Run => counter r.method r.payload) log 40 =
      (log.map fun r => (r.ok, r.answer), app) := by
  obtain ⟨⟨s, app, log⟩, hr⟩ := RpcServer.run_returns rawTransport_total.tapped repeated
    (RpcServer.new (Tapped.fresh []) counter.logged) (40, [])
  exact ⟨s, app, log, hr, (server_idempotent hr).2.1⟩

end Distrans
