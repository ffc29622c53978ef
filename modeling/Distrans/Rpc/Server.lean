import Distrans.Lib.Memo
import Distrans.Lib.OrdMap
import Distrans.Rpc.Message
import Distrans.Rpc.Transport

/-!
# The RPC server

`crates/rpc/src/server.rs`: decode the requests of the byte stream, run the handler on each id's
first request, and answer every request from the table of responses.

A `Handler` closes over a state of some type; it is a parameter of every call here, since several
servers may share it.

* `onMessage_cases` — what becomes of one message;
* `Serving` — what the server, its table, the runs of its handler and the bytes it has queued have
  to do with the requests it has received, and that every call preserves it.
-/

set_option autoImplicit false

namespace Distrans

open Machine

/-- A request handler: method and payload in, success and answer out. -/
abbrev Handler (τ : Type) := U8 → List U8 → τ → (Bool × List U8) × τ

structure RpcServer (σ τ : Type) where
  conn : σ
  reader : FrameReader
  handler : Handler τ
  /-- Every request id ever seen, with the response its run produced. -/
  seen : OrdMap U64 Response
  /-- A `u64` in the source: it counts the entries of `seen`. -/
  executions : Nat

namespace RpcServer

variable {σ τ : Type}

def new (conn : σ) (handler : Handler τ) : RpcServer σ τ :=
  { conn, reader := .new, handler, seen := .empty, executions := 0 }

/-- The loop body of `on_datagram`: one framed message. -/
def onMessage (T : Transport σ) (now : Tick) (bytes : List U8) (s : RpcServer σ τ) (app : τ) :
    Exec (RpcServer σ τ × τ × List Datagram) :=
  match Request.decode bytes with
  | none => .ok (s, app, [])
  | some request =>
    let (response, s, app) := (match s.seen.get? request.id with
      | some cached => (cached, s, app)
      | none =>
        let ((ok, payload), app) := s.handler request.method request.payload app
        let response : Response := { id := request.id, ok, payload }
        (response, { s with
          executions := s.executions + 1
          seen := s.seen.insert request.id response }, app))
    do
    let (conn, out) ← T.send s.conn now (frame response.encode)
    .ok ({ s with conn }, app, out)

def onMessages (T : Transport σ) (now : Tick) : List (List U8) → RpcServer σ τ → τ →
    Exec (RpcServer σ τ × τ × List Datagram)
  | [], s, app => .ok (s, app, [])
  | bytes :: rest, s, app => do
    let (s, app, out) ← s.onMessage T now bytes app
    let (s, app, more) ← onMessages T now rest s app
    .ok (s, app, out ++ more)

def onDatagram (T : Transport σ) (s : RpcServer σ τ) (app : τ) (now : Tick) (datagram : Datagram) :
    Exec (RpcServer σ τ × τ × List Datagram) := do
  let (conn, out) ← T.onDatagram s.conn now datagram
  let (conn, bytes) := T.recv conn
  let (messages, reader) := (s.reader.feed bytes).drainFrames
  let (s, app, more) ← onMessages T now messages { s with conn, reader } app
  .ok (s, app, out ++ more)

def onTick (T : Transport σ) (s : RpcServer σ τ) (now : Tick) :
    Exec (RpcServer σ τ × List Datagram) := do
  let (conn, out) ← T.onTick s.conn now
  .ok ({ s with conn }, out)

/-! ## What one message does -/

variable {T : Transport σ} {now : Tick} {bytes : List U8} {s s' : RpcServer σ τ} {app app' : τ}
  {out : List Datagram}

/-- The response to a request, and what the server and its state are then: from the table, or by a
run of the handler. -/
inductive Answers (s : RpcServer σ τ) (app : τ) (q : Request) :
    Response → RpcServer σ τ → τ → Prop
  | cached {p : Response} : s.seen.get? q.id = some p → Answers s app q p s app
  | run {ok : Bool} {payload : List U8} {app' : τ} : s.seen.get? q.id = none →
      s.handler q.method q.payload app = ((ok, payload), app') →
      Answers s app q ⟨q.id, ok, payload⟩ { s with
        executions := s.executions + 1
        seen := s.seen.insert q.id ⟨q.id, ok, payload⟩ } app'

/-- **What becomes of one message.** -/
theorem onMessage_cases (h : s.onMessage T now bytes app = .ok (s', app', out)) :
    (Request.decode bytes = none ∧ s' = s ∧ app' = app) ∨
    ∃ q p s₁ conn, Request.decode bytes = some q ∧ Answers s app q p s₁ app' ∧
      T.send s₁.conn now (frame p.encode) = .ok (conn, out) ∧ s' = { s₁ with conn } := by
  unfold onMessage at h
  split at h
  · rename_i hdec
    cases h
    exact Or.inl ⟨hdec, rfl, rfl⟩
  · rename_i q hdec
    dsimp only at h
    split at h
    · rename_i p hseen
      obtain ⟨⟨conn, _⟩, hsend, h⟩ := bind_eq_ok.mp h
      cases h
      exact Or.inr ⟨q, p, s, conn, hdec, .cached hseen, hsend, rfl⟩
    · rename_i hseen
      obtain ⟨⟨conn, _⟩, hsend, h⟩ := bind_eq_ok.mp h
      cases h
      exact Or.inr ⟨q, _, _, conn, hdec, .run hseen rfl, hsend, rfl⟩

theorem onMessage_returns (hT : T.Total) (bytes : List U8) (s : RpcServer σ τ) (app : τ) :
    ∃ r, s.onMessage T now bytes app = .ok r := by
  unfold onMessage
  split
  · exact ⟨_, rfl⟩
  · exact bind_returns (hT.send _ _ _) fun _ _ => ⟨_, rfl⟩

theorem onMessages_returns (hT : T.Total) : ∀ (messages : List (List U8)) (s : RpcServer σ τ)
    (app : τ), ∃ r, onMessages T now messages s app = .ok r
  | [], _, _ => ⟨_, rfl⟩
  | bytes :: messages, s, app =>
    bind_returns (onMessage_returns hT bytes s app) fun r _ =>
      bind_returns (onMessages_returns hT messages r.1 r.2.1) fun _ _ => ⟨_, rfl⟩

/-- **The server adds no failure** to those of its connection. -/
theorem onDatagram_returns (hT : T.Total) (s : RpcServer σ τ) (app : τ) (d : Datagram) :
    ∃ r, s.onDatagram T app now d = .ok r :=
  bind_returns (hT.onDatagram _ _ _) fun _ _ =>
    bind_returns (onMessages_returns hT _ _ _) fun _ _ => ⟨_, rfl⟩

/-- What a delivery does: the connection takes it, and the messages that are whole now are read. -/
theorem onDatagram_inv {d : Datagram} (h : s.onDatagram T app now d = .ok (s', app', out)) :
    ∃ conn₀ conn bytes out₀ more, T.onDatagram s.conn now d = .ok (conn₀, out₀) ∧
      T.recv conn₀ = (conn, bytes) ∧
      onMessages T now (FrameReader.frames.split (s.reader.buf ++ bytes)).1
        { s with conn, reader := ⟨(FrameReader.frames.split (s.reader.buf ++ bytes)).2⟩ } app =
          .ok (s', app', more) := by
  obtain ⟨⟨conn₀, out₀⟩, hc, h⟩ := bind_eq_ok.mp h
  obtain ⟨⟨s₁, app₁, more⟩, hm, h⟩ := bind_eq_ok.mp h
  cases h
  exact ⟨conn₀, _, _, out₀, more, hc, rfl, hm⟩

/-- What a delivery does, read forwards. -/
theorem onDatagram_eq {d : Datagram} {conn₀ : σ} {buf : List U8} {messages : List (List U8)}
    {out more : List Datagram} (hd : T.onDatagram s.conn now d = .ok (conn₀, out))
    (hs : FrameReader.frames.split (s.reader.buf ++ (T.recv conn₀).2) = (messages, buf))
    (hm : onMessages T now messages { s with conn := (T.recv conn₀).1, reader := ⟨buf⟩ } app =
      .ok (s', app', more)) :
    s.onDatagram T app now d = .ok (s', app', out ++ more) := by
  rw [onDatagram, hd, ok_bind]
  simp only [FrameReader.drainFrames, FrameReader.feed, hs, hm, ok_bind]

/-- `app'` comes of `app` by runs of the handler, each on a method and a payload that meet `P`. -/
inductive Ran (h : Handler τ) (P : U8 → List U8 → Prop) (app : τ) : τ → Prop
  | refl : Ran h P app app
  | run {app' : τ} {method : U8} {payload : List U8} : Ran h P app app' → P method payload →
      Ran h P app (h method payload app').2

theorem Ran.trans {h : Handler τ} {P : U8 → List U8 → Prop} {app₁ : τ} (h₁ : Ran h P app app₁)
    (h₂ : Ran h P app₁ app') : Ran h P app app' := by
  induction h₂ with
  | refl => exact h₁
  | run _ hP ih => exact .run ih hP

theorem Answers.ran {P : U8 → List U8 → Prop} {q : Request} {p : Response}
    (h : Answers s app q p s' app') (hP : P q.method q.payload) : Ran s.handler P app app' := by
  cases h with
  | cached _ => exact .refl
  | run _ hrun =>
    have := Ran.run (.refl : Ran s.handler P app app) hP
    rwa [hrun] at this

/-- What the runs of a handler preserve. -/
theorem Ran.preserves {h : Handler τ} {P : U8 → List U8 → Prop} {I : τ → Prop}
    (hI : ∀ method payload app, P method payload → I app → I (h method payload app).2)
    (hr : Ran h P app app') (happ : I app) : I app' := by
  induction hr with
  | refl => exact happ
  | run _ hP ih => exact hI _ _ _ hP ih

theorem Answers.same {q : Request} {p : Response} (h : Answers s app q p s' app') :
    s'.conn = s.conn ∧ s'.reader = s.reader ∧ s'.handler = s.handler := by
  cases h <;> exact ⟨rfl, rfl, rfl⟩

end RpcServer

/-! ## The book of a server -/

/-- A run of a handler. -/
structure Run where
  method : U8
  payload : List U8
  ok : Bool
  answer : List U8
  deriving DecidableEq, Repr

/-- The request that was first with its id, and what its run gave. -/
structure Entry where
  request : Request
  ok : Bool
  answer : List U8
  deriving DecidableEq, Repr

namespace Entry

def run (e : Entry) : Run := ⟨e.request.method, e.request.payload, e.ok, e.answer⟩

def response (e : Entry) : Response := ⟨e.request.id, e.ok, e.answer⟩

end Entry

/-- `view` reads off a state the runs that have led to it, if they all meet `P`. -/
def Journal {τ : Type} (h : Handler τ) (P : U8 → List U8 → Prop) (view : τ → List Run) : Prop :=
  ∀ method payload app, P method payload → view (h method payload app).2 =
    view app ++ [⟨method, payload, (h method payload app).1.1, (h method payload app).1.2⟩]

/-- The requests of a byte stream. -/
def requests (bytes : List U8) : List Request :=
  (FrameReader.frames.split bytes).1.filterMap Request.decode

/-- The bytes of responses. -/
def wire (ps : List Response) : List U8 := ps.flatMap fun p => frame p.encode

theorem wire_append (ps qs : List Response) : wire (ps ++ qs) = wire ps ++ wire qs :=
  List.flatMap_append

/-- The handler, the reader and what has been received are as before. -/
structure KeepsInput {σ τ : Type} (s s' : RpcServer (Tapped σ) τ) : Prop where
  handler : s'.handler = s.handler
  reader : s'.reader = s.reader
  received : s'.conn.received = s.conn.received

/-- **A server and its book**: an entry for each id among the requests, a response to each request,
    taken from the entry of its id. -/
structure Serving {σ τ : Type} (s : RpcServer (Tapped σ) τ) (rs : List Request)
    (book : List Entry) (replies : List Response) : Prop where
  asked : book.map Entry.request = firsts Request.id rs
  seen : ∀ id p, s.seen.get? id = some p ↔ ∃ e ∈ book, e.request.id = id ∧ e.response = p
  executions : s.executions = book.length
  answered : List.Forall₂ (fun q p => ∃ e ∈ book, e.request.id = q.id ∧ e.response = p) rs replies
  sent : s.conn.sent = wire replies

namespace Serving

open RpcServer

variable {σ τ : Type} {T : Transport σ} {now : Tick} {s s' : RpcServer (Tapped σ) τ} {app app' : τ}
  {out : List Datagram} {rs : List Request} {book : List Entry} {replies : List Response}
  {P : U8 → List U8 → Prop} {view : τ → List Run}

theorem new (c : σ) (h : Handler τ) : Serving (RpcServer.new (Tapped.fresh c) h) [] [] [] where
  asked := rfl
  seen := by
    intro id p
    constructor
    · intro h
      cases h
    · rintro ⟨e, he, _⟩
      cases he
  executions := rfl
  answered := .nil
  sent := rfl

/-- No two entries are for one id. -/
theorem entry_unique (hs : Serving s rs book replies) {e e' : Entry} (he : e ∈ book) (he' : e' ∈ book)
    (h : e.request.id = e'.request.id) : e = e' := by
  have hnodup : (book.map fun e => e.request.id).Nodup := by
    have h : ((firsts Request.id rs).map Request.id).Nodup := firsts_nodup
    rwa [← hs.asked, List.map_map] at h
  exact List.inj_on_of_nodup_map hnodup he he' h

/-- The ids in the book are those of the requests. -/
theorem mem_ids (hs : Serving s rs book replies) {id : U64} :
    id ∈ rs.map Request.id ↔ ∃ e ∈ book, e.request.id = id := by
  rw [← mem_keys_firsts, ← hs.asked, List.map_map, List.mem_map]
  rfl

/-- Each response carries the id of its request. -/
theorem ids (hs : Serving s rs book replies) : replies.map Response.id = rs.map Request.id := by
  have hans := hs.answered
  clear hs
  induction hans with
  | nil => rfl
  | cons h _ ih =>
    obtain ⟨e, _, hid, rfl⟩ := h
    rw [List.map_cons, List.map_cons, ih]
    exact congrArg (· :: _) hid

/-- Each response is that of an entry. -/
theorem mem_replies (hs : Serving s rs book replies) {p : Response} (h : p ∈ replies) :
    ∃ e ∈ book, e.response = p := by
  have hans := hs.answered
  clear hs
  induction hans with
  | nil => cases h
  | cons hp _ ih =>
    rcases List.mem_cons.mp h with rfl | h
    · obtain ⟨e, he, _, rfl⟩ := hp
      exact ⟨e, he, rfl⟩
    · exact ih h

/-- Only the connection's own state has changed. -/
theorem conn (hs : Serving s rs book replies) {c : Tapped σ} (h : c.sent = s.conn.sent)
    (r : FrameReader) : Serving { s with conn := c, reader := r } rs book replies :=
  { hs with sent := h.trans hs.sent }

/-- One more request, and what is answered. -/
theorem answers (hs : Serving s rs book replies) {q : Request} {p : Response}
    (h : Answers s app q p s' app') (hj : Journal s.handler P view) (hP : P q.method q.payload)
    (hv : view app = book.map Entry.run) : ∃ book', book <+: book' ∧
      Serving { s' with conn := { s'.conn with sent := s.conn.sent ++ frame p.encode } }
        (rs ++ [q]) book' (replies ++ [p]) ∧ view app' = book'.map Entry.run := by
  have hsent : ∀ ps, s.conn.sent = wire ps → s.conn.sent ++ frame p.encode = wire (ps ++ [p]) := by
    intro ps h
    rw [h, wire_append]
    simp [wire]
  cases h with
  | cached hseen =>
    obtain ⟨e, he, hid, hp⟩ := (hs.seen q.id p).mp hseen
    have hold : q.id ∈ rs.map Request.id := hs.mem_ids.mpr ⟨e, he, hid⟩
    refine ⟨book, List.prefix_refl _, ⟨?_, hs.seen, hs.executions, ?_, hsent _ hs.sent⟩, hv⟩
    · rw [hs.asked, firsts_concat_old hold]
    · exact List.rel_append hs.answered (.cons ⟨e, he, hid, hp⟩ .nil)
  | @run ok payload app' hseen hrun =>
    have hnew : q.id ∉ rs.map Request.id := by
      intro h
      obtain ⟨e, he, hid⟩ := hs.mem_ids.mp h
      rw [(hs.seen q.id e.response).mpr ⟨e, he, hid, rfl⟩] at hseen
      cases hseen
    refine ⟨book ++ [⟨q, ok, payload⟩], List.prefix_append _ _, ⟨?_, ?_, ?_, ?_, hsent _ hs.sent⟩, ?_⟩
    · rw [List.map_append, hs.asked, firsts_concat_new hnew]
      rfl
    · intro id p'
      rw [OrdMap.get?_eq_some, OrdMap.mem_insert, ← OrdMap.get?_eq_some, hs.seen]
      simp only [List.mem_append, List.mem_singleton, Prod.mk.injEq]
      constructor
      · rintro (⟨rfl, rfl⟩ | ⟨⟨e, he, hid, hp⟩, _⟩)
        · exact ⟨_, Or.inr rfl, rfl, rfl⟩
        · exact ⟨e, Or.inl he, hid, hp⟩
      · rintro ⟨e, he | rfl, hid, hp⟩
        · refine Or.inr ⟨⟨e, he, hid, hp⟩, ?_⟩
          intro heq
          exact hnew (hs.mem_ids.mpr ⟨e, he, hid.trans heq⟩)
        · exact Or.inl ⟨hid.symm, hp.symm⟩
    · simp [hs.executions]
    · refine List.rel_append (hs.answered.imp ?_) (.cons ⟨_, List.mem_append_right _
        (List.mem_singleton.mpr rfl), rfl, rfl⟩ .nil)
      rintro q' p' ⟨e, he, hid, hp⟩
      exact ⟨e, List.mem_append_left _ he, hid, hp⟩
    · have hstep := hj q.method q.payload app hP
      rw [hrun] at hstep
      rw [hstep, hv, List.map_append]
      rfl

theorem onMessage_kept {bytes : List U8}
    (h : s.onMessage T.tapped now bytes app = .ok (s', app', out)) : KeepsInput s s' := by
  rcases onMessage_cases h with ⟨_, rfl, _⟩ | ⟨q, p, s₁, conn, _, hans, hsend, rfl⟩
  · exact ⟨rfl, rfl, rfl⟩
  · obtain ⟨hconn, hreader, hhandler⟩ := hans.same
    exact ⟨hhandler, hreader, by rw [← hconn]; exact (Transport.tapped_send hsend).1⟩

theorem onMessages_kept : ∀ {messages : List (List U8)} {s s' : RpcServer (Tapped σ) τ}
    {app app' : τ} {out : List Datagram},
    RpcServer.onMessages T.tapped now messages s app = .ok (s', app', out) → KeepsInput s s'
  | [], _, _, _, _, _, h => by
    cases h
    exact ⟨rfl, rfl, rfl⟩
  | _ :: _, _, _, _, _, _, h => by
    obtain ⟨⟨s₁, app₁, out₁⟩, h₁, h⟩ := bind_eq_ok.mp h
    obtain ⟨⟨s₂, app₂, out₂⟩, h₂, h⟩ := bind_eq_ok.mp h
    cases h
    have hk₁ := onMessage_kept h₁
    have hk₂ := onMessages_kept h₂
    exact ⟨hk₂.handler.trans hk₁.handler, hk₂.reader.trans hk₁.reader,
      hk₂.received.trans hk₁.received⟩

/-- One message: one more request, unless it is malformed. -/
theorem onMessage {bytes : List U8} (hs : Serving s rs book replies)
    (h : s.onMessage T.tapped now bytes app = .ok (s', app', out)) (hj : Journal s.handler P view)
    (hP : ∀ q, Request.decode bytes = some q → P q.method q.payload)
    (hv : view app = book.map Entry.run) : ∃ book' more, book <+: book' ∧
      Serving s' (rs ++ (Request.decode bytes).toList) book' (replies ++ more) ∧
      view app' = book'.map Entry.run ∧ Ran s.handler P app app' := by
  rcases onMessage_cases h with ⟨hdec, rfl, rfl⟩ | ⟨q, p, s₁, conn, hdec, hans, hsend, rfl⟩
  · refine ⟨book, [], List.prefix_refl _, ?_, hv, .refl⟩
    rw [hdec, Option.toList_none, List.append_nil, List.append_nil]
    exact hs
  · obtain ⟨book', hpre, hserving, hv'⟩ := hs.answers hans hj (hP q hdec) hv
    refine ⟨book', [p], hpre, ?_, hv', hans.ran (hP q hdec)⟩
    rw [hdec]
    exact { hserving with
      sent := by rw [(Transport.tapped_send hsend).2, hans.same.1]; exact hserving.sent }

theorem onMessages : ∀ {messages : List (List U8)} {s s' : RpcServer (Tapped σ) τ} {app app' : τ}
    {out : List Datagram} {rs : List Request} {book : List Entry} {replies : List Response},
    Serving s rs book replies →
    RpcServer.onMessages T.tapped now messages s app = .ok (s', app', out) →
    Journal s.handler P view → (∀ q ∈ messages.filterMap Request.decode, P q.method q.payload) →
    view app = book.map Entry.run → ∃ book' more, book <+: book' ∧
      Serving s' (rs ++ messages.filterMap Request.decode) book' (replies ++ more) ∧
      view app' = book'.map Entry.run ∧ Ran s.handler P app app'
  | [], _, _, _, _, _, rs, book, replies, hs, h, _, _, hv => by
    cases h
    refine ⟨book, [], List.prefix_refl _, ?_, hv, .refl⟩
    rw [List.filterMap_nil, List.append_nil, List.append_nil]
    exact hs
  | bytes :: messages, s, _, _, _, _, rs, book, replies, hs, h, hj, hP, hv => by
    obtain ⟨⟨s₁, app₁, out₁⟩, h₁, h⟩ := bind_eq_ok.mp h
    obtain ⟨⟨s₂, app₂, out₂⟩, h₂, h⟩ := bind_eq_ok.mp h
    cases h
    have hcons : (bytes :: messages).filterMap Request.decode =
        (Request.decode bytes).toList ++ messages.filterMap Request.decode := by
      rw [List.filterMap_cons]
      cases Request.decode bytes <;> rfl
    rw [hcons] at hP ⊢
    have hP₁ : ∀ q, Request.decode bytes = some q → P q.method q.payload := by
      intro q hq
      exact hP q (List.mem_append_left _ (by rw [hq]; exact List.mem_singleton.mpr rfl))
    have hP₂ : ∀ q ∈ messages.filterMap Request.decode, P q.method q.payload :=
      fun q hq => hP q (List.mem_append_right _ hq)
    have hh₁ := (onMessage_kept h₁).handler
    obtain ⟨book₁, more₁, hpre₁, hs₁, hv₁, hr₁⟩ := hs.onMessage h₁ hj hP₁ hv
    rw [← hh₁] at hj
    obtain ⟨book₂, more₂, hpre₂, hs₂, hv₂, hr₂⟩ := onMessages hs₁ h₂ hj hP₂ hv₁
    rw [hh₁] at hr₂
    refine ⟨book₂, more₁ ++ more₂, hpre₁.trans hpre₂, ?_, hv₂, hr₁.trans hr₂⟩
    rw [← List.append_assoc, ← List.append_assoc]
    exact hs₂

end Serving

/-! ## Between calls -/

/-- What holds of a server between calls: it serves the requests of the bytes it has received, and
its reader keeps those that are no whole message yet. -/
structure Hosting {σ τ : Type} (h : Handler τ) (view : τ → List Run) (s : RpcServer (Tapped σ) τ)
    (app : τ) (book : List Entry) (replies : List Response) : Prop where
  handler : s.handler = h
  serving : Serving s (requests s.conn.received) book replies
  buffered : s.reader.buf = (FrameReader.frames.split s.conn.received).2
  runs : view app = book.map Entry.run

namespace Hosting

open RpcServer

variable {σ τ : Type} {T : Transport σ} {now : Tick} {h : Handler τ} {view : τ → List Run}
  {P : U8 → List U8 → Prop} {s s' : RpcServer (Tapped σ) τ} {app app' : τ} {out : List Datagram}
  {book : List Entry} {replies : List Response}

theorem new (c : σ) (hview : view app = []) :
    Hosting h view (RpcServer.new (Tapped.fresh c) h) app [] [] where
  handler := rfl
  serving := by
    have hnil : requests [] = [] := by rw [requests, Splitter.split_nil]; rfl
    show Serving _ (requests []) [] []
    rw [hnil]
    exact .new c h
  buffered := by
    show [] = (FrameReader.frames.split []).2
    rw [Splitter.split_nil]
  runs := hview

theorem onTick (hs : Hosting h view s app book replies)
    (hr : s.onTick T.tapped now = .ok (s', out)) :
    Hosting h view s' app book replies ∧ s'.conn.received = s.conn.received := by
  obtain ⟨⟨conn, _⟩, hc, hr⟩ := bind_eq_ok.mp hr
  cases hr
  obtain ⟨hrecv, hsent⟩ := Transport.tapped_onTick hc
  refine ⟨⟨hs.handler, ?_, ?_, hs.runs⟩, hrecv⟩
  · show Serving { s with conn } (requests conn.received) book replies
    rw [hrecv]
    exact hs.serving.conn hsent s.reader
  · show s.reader.buf = (FrameReader.frames.split conn.received).2
    rw [hrecv]
    exact hs.buffered

/-- Reading on, where the reader has stopped. -/
theorem read (hs : Hosting h view s app book replies) {bytes buf : List U8} {messages : List (List U8)}
    (hsplit : FrameReader.frames.split (s.reader.buf ++ bytes) = (messages, buf)) :
    FrameReader.frames.split (s.conn.received ++ bytes) =
      ((FrameReader.frames.split s.conn.received).1 ++ messages, buf) ∧
    requests (s.conn.received ++ bytes) =
      requests s.conn.received ++ messages.filterMap Request.decode := by
  have hall : FrameReader.frames.split (s.conn.received ++ bytes) =
      ((FrameReader.frames.split s.conn.received).1 ++ messages, buf) := by
    rw [Splitter.split_append, ← hs.buffered, hsplit]
  refine ⟨hall, ?_⟩
  rw [requests, hall, List.filterMap_append, requests]

/-- **A call of `on_datagram` serves the requests that have come in.** -/
theorem onDatagram {d : Datagram} (hs : Hosting h view s app book replies)
    (hr : s.onDatagram T.tapped app now d = .ok (s', app', out)) (hj : Journal h P view)
    (hP : ∀ q ∈ requests s'.conn.received, P q.method q.payload) :
    ∃ book' more, book <+: book' ∧ Hosting h view s' app' book' (replies ++ more) ∧
      Ran h P app app' := by
  obtain ⟨conn₀, conn, bytes, _, out₂, hc, hgot, hm⟩ := onDatagram_inv hr
  obtain ⟨hrecv₀, hsent₀⟩ := Transport.tapped_onDatagram hc
  obtain ⟨hrecv, hsent⟩ := Transport.tapped_recv T conn₀
  rw [hgot] at hrecv hsent
  rw [hrecv₀] at hrecv
  rw [hsent₀] at hsent
  -- what is whole now, and what is left
  obtain ⟨messages, buf, hsplit⟩ : ∃ messages buf,
      FrameReader.frames.split (s.reader.buf ++ bytes) = (messages, buf) := ⟨_, _, rfl⟩
  obtain ⟨hall, hnow⟩ := hs.read hsplit
  rw [← hrecv] at hall hnow
  rw [hsplit] at hm
  have hstart := hs.serving.conn hsent ⟨buf⟩
  have hkept := Serving.onMessages_kept hm
  have hrecv' : s'.conn.received = conn.received := hkept.received
  have hP₁ : ∀ q ∈ messages.filterMap Request.decode, P q.method q.payload := by
    intro q hq
    apply hP
    rw [hrecv', hnow]
    exact List.mem_append_right _ hq
  have hj₁ : Journal s.handler P view := by rw [hs.handler]; exact hj
  obtain ⟨book', more, hpre, hs', hv', hran⟩ := hstart.onMessages hm hj₁ hP₁ hs.runs
  refine ⟨book', more, hpre, ⟨hkept.handler.trans hs.handler, ?_, ?_, hv'⟩, ?_⟩
  · rw [hrecv', hnow]
    exact hs'
  · rw [hkept.reader, hrecv', hall]
  · rw [← hs.handler]
    exact hran

end Hosting

end Distrans
