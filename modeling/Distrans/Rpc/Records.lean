import Distrans.Rpc.Lifecycle
import Distrans.Rpc.Stack

/-!
# Records are not seen

The records kept beside a connection (`tapped`, `noted`, `Endpoint.transport`) change nothing of
what it does.  `Transport.Over` says so of two transports, and the RPC layer does the same over
either.

* `RpcClient.op_over`, `RpcServer.onDatagram_over`, `RpcServer.onTick_over` — **a client and a
  server over a transport that keeps a record, and without it**.
-/

set_option autoImplicit false

namespace Distrans

open Machine

theorem map_bind {α β γ δ : Type} {x : Exec α} {f : α → β} {g : β → Exec γ} {g' : α → Exec δ}
    {k : δ → γ} (h : ∀ a, g (f a) = (g' a).map k) : (x.map f >>= g) = (x >>= g').map k := by
  cases x with
  | error e => rfl
  | ok a => exact h a

/-- `T'` does what `T` does; `f` forgets what it keeps besides. -/
structure Transport.Over {σ' σ : Type} (T' : Transport σ') (T : Transport σ) (f : σ' → σ) : Prop where
  onDatagram : ∀ c now d, T.onDatagram (f c) now d = (T'.onDatagram c now d).map (Prod.map f id)
  onTick : ∀ c now, T.onTick (f c) now = (T'.onTick c now).map (Prod.map f id)
  send : ∀ c now bytes, T.send (f c) now bytes = (T'.send c now bytes).map (Prod.map f id)
  recv : ∀ c, T.recv (f c) = Prod.map f id (T'.recv c)

namespace Transport

variable {σ σ' σ'' : Type}

theorem tapped_over (T : Transport σ) : T.tapped.Over T Tapped.conn where
  onDatagram c now d := by
    simp only [tapped]
    cases T.onDatagram c.conn now d <;> rfl
  onTick c now := by
    simp only [tapped]
    cases T.onTick c.conn now <;> rfl
  send c now bytes := by
    simp only [tapped]
    cases T.send c.conn now bytes <;> rfl
  recv _ := rfl

theorem noted_over (T : Transport σ) : T.noted.Over T Noted.conn where
  onDatagram c now d := by
    simp only [noted]
    cases T.onDatagram c.conn now d <;> rfl
  onTick c now := by
    simp only [noted]
    cases T.onTick c.conn now <;> rfl
  send c now bytes := by
    simp only [noted]
    cases T.send c.conn now bytes <;> rfl
  recv _ := rfl

theorem Over.trans {T'' : Transport σ''} {T' : Transport σ'} {T : Transport σ} {g : σ'' → σ'}
    {f : σ' → σ} (h : T''.Over T' g) (h' : T'.Over T f) : T''.Over T fun c => f (g c) where
  onDatagram c now d := by
    rw [h'.onDatagram, h.onDatagram]
    cases T''.onDatagram c now d <;> rfl
  onTick c now := by
    rw [h'.onTick, h.onTick]
    cases T''.onTick c now <;> rfl
  send c now bytes := by
    rw [h'.send, h.send]
    cases T''.send c now bytes <;> rfl
  recv c := by
    rw [h'.recv, h.recv]
    rfl

end Transport

theorem Endpoint.transport_over (b : Build) :
    (Endpoint.transport b).Over (Connection.transport b) Endpoint.conn where
  onDatagram e now d := by
    simp only [Endpoint.transport, Connection.transport]
    cases e.conn.onDatagram b now d <;> rfl
  onTick e now := by
    simp only [Endpoint.transport, Connection.transport]
    cases e.conn.onTick b now <;> rfl
  send e now bytes := by
    simp only [Endpoint.transport, Connection.transport]
    cases e.conn.send b now bytes <;> rfl
  recv _ := rfl

/-! ## Clients -/

namespace RpcClient

variable {σ' σ : Type} {T' : Transport σ'} {T : Transport σ} {f : σ' → σ} {b : Build} {now : Tick}

/-- The client without the record. -/
def map (f : σ' → σ) (c : RpcClient σ') : RpcClient σ where
  conn := f c.conn
  reader := c.reader
  nextId := c.nextId
  pending := c.pending
  completed := c.completed
  retryDeadline := c.retryDeadline
  maxAttempts := c.maxAttempts
  failed := c.failed

theorem call_over (h : T'.Over T f) (c : RpcClient σ') (method : U8) (payload : List U8) :
    (c.map f).call b T now method payload =
      (c.call b T' now method payload).map fun r => (r.1.map f, r.2) := by
  unfold call
  dsimp only [map]
  cases b.add c.nextId 1 with
  | error e => rfl
  | ok nextId =>
    rw [ok_bind, ok_bind, h.send]
    exact map_bind fun _ => rfl

theorem onMessage_map (c : RpcClient σ') (bytes : List U8) :
    (c.map f).onMessage bytes = (c.onMessage bytes).map f := by
  unfold onMessage
  dsimp only [map]
  split
  · rfl
  · split <;> rfl

theorem foldl_onMessage_map (messages : List (List U8)) (c : RpcClient σ') :
    messages.foldl onMessage (c.map f) = (messages.foldl onMessage c).map f := by
  induction messages generalizing c with
  | nil => rfl
  | cons bytes messages ih => rw [List.foldl_cons, List.foldl_cons, onMessage_map, ih]

theorem onDatagram_over (h : T'.Over T f) (c : RpcClient σ') (d : Datagram) :
    (c.map f).onDatagram T now d = (c.onDatagram T' now d).map fun r => (r.1.map f, r.2) := by
  unfold onDatagram
  rw [show (c.map f).conn = f c.conn from rfl, h.onDatagram]
  refine map_bind fun r => ?_
  simp only [Prod.map, h.recv, id]
  exact congrArg (fun c => Except.ok (c, r.2)) (foldl_onMessage_map _ { c with
    conn := (T'.recv r.1).1
    reader := ((c.reader.feed (T'.recv r.1).2).drainFrames).2 })

theorem retryLoop_over (h : T'.Over T f) : ∀ (order : List (U64 × PendingCall)) (c : RpcClient σ')
    (toFail : List U64), retryLoop b T now order (c.map f) toFail =
      (retryLoop b T' now order c toFail).map fun r => (r.1.map f, r.2)
  | [], _, _ => rfl
  | (id, call) :: order, c, toFail => by
    have hverdict : (c.map f).verdict b now call = c.verdict b now call := rfl
    rw [retryLoop, retryLoop, hverdict]
    cases c.verdict b now call with
    | error e => rfl
    | ok v =>
      rw [ok_bind, ok_bind]
      cases v with
      | wait => exact retryLoop_over h order c toFail
      | fail call' =>
        exact retryLoop_over h order { c with pending := c.pending.insert id call' } _
      | resend call' =>
        dsimp only [map]
        rw [h.send]
        refine map_bind fun r => ?_
        have hrest := retryLoop_over h order { c with
          conn := r.1, pending := c.pending.insert id call' } toFail
        dsimp only [Prod.map]
        dsimp only [map] at hrest
        rw [hrest]
        exact map_bind fun _ => rfl

theorem onTick_over (h : T'.Over T f) (c : RpcClient σ') (order : List (U64 × PendingCall)) :
    (c.map f).onTick b T now order = (c.onTick b T' now order).map fun r => (r.1.map f, r.2) := by
  unfold onTick
  dsimp only [map]
  rw [h.onTick]
  refine map_bind fun r => ?_
  have hloop : retryLoop b T now order ({ c with conn := r.1 }.map f) [] = _ :=
    retryLoop_over h order { c with conn := r.1 } []
  dsimp only [map] at hloop
  dsimp only [Prod.map]
  rw [hloop]
  exact map_bind fun _ => rfl

/-- **A step of a client** is the same over either transport. -/
theorem op_over (h : T'.Over T f) (c : RpcClient σ') (π : Shuffle) (o : ClientOp) :
    (c.map f).op b T π o = (c.op b T' π o).map fun r => (r.1.map f, r.2) := by
  cases o with
  | call now method payload =>
    simp only [op]
    rw [call_over h]
    exact map_bind fun _ => rfl
  | datagram now d =>
    simp only [op]
    rw [onDatagram_over h]
    exact map_bind fun _ => rfl
  | tick now =>
    simp only [op]
    rw [show (c.map f).pending = c.pending from rfl, onTick_over h]
    exact map_bind fun _ => rfl
  | pollCompleted => rfl
  | pollFailed => rfl

end RpcClient

/-! ## Servers -/

namespace RpcServer

variable {σ' σ τ' τ : Type} {T' : Transport σ'} {T : Transport σ} {f : σ' → σ} {g : τ' → τ}
  {h : Handler τ} {now : Tick}

/-- The server without the record, and with a handler of its own. -/
def map (f : σ' → σ) (h : Handler τ) (s : RpcServer σ' τ') : RpcServer σ τ where
  conn := f s.conn
  reader := s.reader
  handler := h
  seen := s.seen
  executions := s.executions

/-- The handlers do the same; `g` forgets what one of them keeps besides. -/
def Same (h' : Handler τ') (h : Handler τ) (g : τ' → τ) : Prop :=
  ∀ method payload app, h method payload (g app) = Prod.map id g (h' method payload app)

theorem onMessage_over (hT : T'.Over T f) (s : RpcServer σ' τ') (hh : Same s.handler h g)
    (bytes : List U8) (app : τ') : (s.map f h).onMessage T now bytes (g app) =
      (s.onMessage T' now bytes app).map fun r => (r.1.map f h, g r.2.1, r.2.2) := by
  unfold onMessage
  split
  · rfl
  · rename_i q hq
    dsimp only [map]
    cases s.seen.get? q.id with
    | some p =>
      dsimp only
      rw [hT.send]
      exact map_bind fun _ => rfl
    | none =>
      dsimp only
      rw [hh, hT.send]
      exact map_bind fun _ => rfl

theorem onMessage_handler {s s' : RpcServer σ' τ'} {app app' : τ'} {bytes : List U8}
    {out : List Datagram} (hr : s.onMessage T' now bytes app = .ok (s', app', out)) :
    s'.handler = s.handler := by
  rcases onMessage_cases hr with ⟨_, rfl, _⟩ | ⟨q, p, s₁, conn, _, hans, _, rfl⟩
  · rfl
  · exact hans.same.2.2

theorem onMessages_over (hT : T'.Over T f) : ∀ (messages : List (List U8)) (s : RpcServer σ' τ')
    (app : τ'), Same s.handler h g → onMessages T now messages (s.map f h) (g app) =
      (onMessages T' now messages s app).map fun r => (r.1.map f h, g r.2.1, r.2.2)
  | [], _, _, _ => rfl
  | bytes :: messages, s, app, hh => by
    rw [onMessages, onMessages, onMessage_over hT s hh]
    cases hone : s.onMessage T' now bytes app with
    | error e => rfl
    | ok r =>
      obtain ⟨s₁, app₁, out⟩ := r
      have hh₁ : Same s₁.handler h g := by
        rw [onMessage_handler hone]
        exact hh
      show (onMessages T now messages (s₁.map f h) (g app₁) >>= _) = _
      rw [onMessages_over hT messages s₁ app₁ hh₁]
      exact map_bind fun _ => rfl

/-- **A delivery to a server** is the same over either transport. -/
theorem onDatagram_over (hT : T'.Over T f) (s : RpcServer σ' τ') (hh : Same s.handler h g)
    (app : τ') (d : Datagram) : (s.map f h).onDatagram T (g app) now d =
      (s.onDatagram T' app now d).map fun r => (r.1.map f h, g r.2.1, r.2.2) := by
  unfold onDatagram
  dsimp only [map]
  rw [hT.onDatagram]
  refine map_bind fun r => ?_
  simp only [Prod.map, hT.recv, id]
  have hall : onMessages T now _ (map f h { s with
      conn := (T'.recv r.1).1
      reader := ((s.reader.feed (T'.recv r.1).2).drainFrames).2 }) (g app) = _ :=
    onMessages_over hT ((s.reader.feed (T'.recv r.1).2).drainFrames).1 _ app hh
  dsimp only [map] at hall
  rw [hall]
  exact map_bind fun _ => rfl

theorem onTick_over (hT : T'.Over T f) (s : RpcServer σ' τ') :
    (s.map f h).onTick T now = (s.onTick T' now).map fun r => (r.1.map f h, r.2) := by
  unfold onTick
  dsimp only [map]
  rw [hT.onTick]
  exact map_bind fun _ => rfl

/-! ## Runs of the handler -/

variable {s s' : RpcServer σ τ} {app app' : τ} {out : List Datagram}

theorem onMessages_ran : ∀ {messages : List (List U8)} {s s' : RpcServer σ τ} {app app' : τ}
    {out : List Datagram}, onMessages T now messages s app = .ok (s', app', out) →
    s'.handler = s.handler ∧ Ran s.handler (fun _ _ => True) app app'
  | [], _, _, _, _, _, h => by
    cases h
    exact ⟨rfl, .refl⟩
  | bytes :: messages, s, s', app, app', out, h => by
    obtain ⟨⟨s₁, app₁, out₁⟩, hone, h⟩ := bind_eq_ok.mp h
    obtain ⟨⟨s₂, app₂, out₂⟩, hrest, h⟩ := bind_eq_ok.mp h
    cases h
    obtain ⟨hhandler, hran⟩ := onMessages_ran hrest
    have hsame := onMessage_handler hone
    rw [hsame] at hran
    refine ⟨hhandler.trans hsame, Ran.trans ?_ hran⟩
    rcases onMessage_cases hone with ⟨_, _, rfl⟩ | ⟨q, p, s₃, conn, _, hans, _, _⟩
    · exact .refl
    · exact hans.ran trivial

/-- **A delivery runs the handler**, any number of times. -/
theorem onDatagram_ran {d : Datagram} (h : s.onDatagram T app now d = .ok (s', app', out)) :
    s'.handler = s.handler ∧ Ran s.handler (fun _ _ => True) app app' := by
  obtain ⟨conn₀, conn, bytes, out₀, more, _, _, hall⟩ := onDatagram_inv h
  have hran := onMessages_ran hall
  exact hran

end RpcServer

end Distrans
