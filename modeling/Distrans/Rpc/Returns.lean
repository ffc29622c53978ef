import Distrans.Rpc.Budget
import Distrans.Rpc.Stack
import Distrans.Transport.Honest

/-!
# Calls of the RPC layer that return

The RPC layer adds no failure to those of its connection, as long as the connection has room for
what it is given to send.

* `Transport.Runs` — a transport whose operations return, from the states with room for `n` bytes
  more;
* `RpcClient.op_runs`, `Hosting.onDatagram_runs` — **so do the calls of the RPC layer**, if there
  is room for the requests and for the answers;
* `Endpoint.runs` — **the connections of this crate are such a transport**, in a build that wraps,
  when they are given what the peer has emitted and datagrams that carry nothing.
-/

set_option autoImplicit false

namespace Distrans

open Machine

/-- The operations return, from the states with room for `n` more bytes, when what is delivered
meets `D`. -/
structure Transport.Runs {σ : Type} (T : Transport σ) (D : Datagram → Prop) (P : Nat → σ → Prop) :
    Prop where
  mono : ∀ {n m c}, n ≤ m → P m c → P n c
  onDatagram : ∀ {n c d} (now : Tick), P n c → D d → ∃ r, T.onDatagram c now d = .ok r ∧ P n r.1
  onTick : ∀ {n c} (now : Tick), P n c → ∃ r, T.onTick c now = .ok r ∧ P n r.1
  send : ∀ {n c bytes} (now : Tick), P (bytes.length + n) c →
    ∃ r, T.send c now bytes = .ok r ∧ P n r.1
  recv : ∀ {n c}, P n c → P n (T.recv c).1

/-! ## Clients -/

namespace RpcClient

variable {σ : Type} {T : Transport σ} {D : Datagram → Prop} {P : Nat → σ → Prop} {b : Build}
  {now : Tick} {c : RpcClient σ} {n : Nat}

/-- The bytes of a request. -/
def weight (q : Request) : Nat := 13 + q.payload.length

theorem length_frame (q : Request) : (frame q.encode).length = weight q := by
  rw [frame, List.length_append, toLe_length, Request.encode_length, weight]
  omega

theorem sendAll_runs (h : T.Runs D P) (now : Tick) : ∀ {rs : List Request} {conn : σ},
    P ((rs.map weight).sum + n) conn → ∃ r, sendAll T now rs conn = .ok r ∧ P n r.1
  | [], conn, hP => ⟨_, rfl, by simpa using hP⟩
  | q :: rs, conn, hP => by
    rw [List.map_cons, List.sum_cons, Nat.add_assoc, ← length_frame] at hP
    obtain ⟨r, hr, hP⟩ := h.send now hP
    obtain ⟨r', hr', hP⟩ := sendAll_runs h now hP
    exact ⟨_, bind_eq_ok.mpr ⟨r, hr, bind_eq_ok.mpr ⟨r', hr', rfl⟩⟩, hP⟩

/-- What a step may send. -/
def cost (c : RpcClient σ) : ClientOp → Nat
  | .call _ _ payload => 13 + payload.length
  | .tick _ => (c.pending.entries.map fun e => weight e.2.request).sum
  | _ => 0

/-- What is sent again is pending. -/
theorem resent_weight (c : RpcClient σ) (now : Tick) (order : List (U64 × PendingCall)) :
    ((c.resent now order).map weight).sum ≤ (order.map fun e => weight e.2.request).sum := by
  rw [resent, List.map_map]
  refine List.Sublist.sum_le_sum ?_ fun _ _ => Nat.zero_le _
  exact List.Sublist.map _ List.filter_sublist

theorem onTick_runs (h : T.Runs D P) {order : List (U64 × PendingCall)}
    (hv : ∀ e ∈ order, ∃ v, c.verdict b now e.2 = .ok v)
    (hP : P ((order.map fun e => weight e.2.request).sum) c.conn) :
    ∃ r, c.onTick b T now order = .ok r := by
  obtain ⟨s, hs, hP⟩ := h.onTick now hP
  refine bind_returns ⟨s, hs⟩ fun s' hs' => bind_returns ?_ fun _ _ => ⟨_, rfl⟩
  cases hs.symm.trans hs'
  have hle := RpcClient.resent_weight { c with conn := s.1 } now order
  obtain ⟨r, hr, _⟩ := sendAll_runs (n := 0) h now (h.mono hle hP)
  rw [retryLoop_eq (c := { c with conn := s.1 }) hv, hr]
  exact ⟨_, rfl⟩

/-- **A step of a client returns** if no counter is full and there is room for what it may send. -/
theorem op_runs (h : T.Runs D P) {o : ClientOp} (π : Shuffle) (hs : c.Sound o)
    (hd : ∀ now d, o = .datagram now d → D d) (hP : P (c.cost o) c.conn) :
    ∃ r, c.op b T π o = .ok r := by
  cases o with
  | call now method payload =>
    refine bind_returns ?_ fun _ _ => ⟨_, rfl⟩
    refine bind_returns (Build.add_one_returns fun _ => hs) fun _ _ => ?_
    have hroom : P ((frame (Request.encode ⟨c.nextId, method, payload⟩)).length + 0) c.conn := by
      rw [length_frame]
      exact hP
    obtain ⟨r, hr, _⟩ := h.send now hroom
    exact bind_returns ⟨r, hr⟩ fun _ _ => ⟨_, rfl⟩
  | datagram now d =>
    refine bind_returns ?_ fun _ _ => ⟨_, rfl⟩
    obtain ⟨r, hr, _⟩ := h.onDatagram now hP (hd now d rfl)
    exact bind_returns ⟨r, hr⟩ fun _ _ => ⟨_, rfl⟩
  | tick now =>
    have hperm := π.perm c.pending.entries
    refine bind_returns (onTick_runs h (fun e he => ?_) ?_) fun _ _ => ⟨_, rfl⟩
    · exact verdict_returns hs (hperm.mem_iff.mp he)
    · rw [(hperm.map _).sum_eq]
      exact hP
  | pollCompleted => exact ⟨_, rfl⟩
  | pollFailed => exact ⟨_, rfl⟩

end RpcClient

/-! ## Servers -/

namespace RpcServer

variable {σ τ : Type} {T : Transport σ} {D : Datagram → Prop} {P : Nat → σ → Prop} {now : Tick}
  {s s' : RpcServer σ τ} {app app' : τ} {n m : Nat} {Q : U8 → List U8 → Prop} {I : τ → Prop}

/-- Of a request that meets `Q` the handler makes a response of at most `m` bytes, framed, while `I`
holds of its state. -/
def Terse (h : Handler τ) (Q : U8 → List U8 → Prop) (m : Nat) (I : τ → Prop) : Prop :=
  ∀ method payload app, Q method payload → I app →
    13 + (h method payload app).1.2.length ≤ m ∧ I (h method payload app).2

/-- So far there has been no longer response. -/
structure Concise (m : Nat) (I : τ → Prop) (s : RpcServer σ τ) (app : τ) : Prop where
  table : ∀ id p, s.seen.get? id = some p → 13 + p.payload.length ≤ m
  state : I app

theorem answers_exist (s : RpcServer σ τ) (app : τ) (q : Request) :
    ∃ p s' app', Answers s app q p s' app' := by
  cases hseen : s.seen.get? q.id with
  | some p => exact ⟨p, s, app, .cached hseen⟩
  | none => exact ⟨_, _, _, .run hseen rfl⟩

/-- The answer is short, and so are the answers to come. -/
theorem Answers.concise {q : Request} {p : Response} (h : Answers s app q p s' app')
    (hs : Concise m I s app) (ht : Terse s.handler Q m I) (hq : Q q.method q.payload) :
    13 + p.payload.length ≤ m ∧ Concise m I s' app' := by
  cases h with
  | cached hseen => exact ⟨hs.table _ _ hseen, hs⟩
  | run hseen hrun =>
    obtain ⟨hlen, hI⟩ := ht q.method q.payload app hq hs.state
    rw [hrun] at hlen hI
    refine ⟨hlen, fun id p hp => ?_, hI⟩
    rw [OrdMap.get?_eq_some, OrdMap.mem_insert, ← OrdMap.get?_eq_some] at hp
    rcases hp with heq | ⟨hp, _⟩
    · obtain ⟨_, rfl⟩ := Prod.mk.inj heq
      exact hlen
    · exact hs.table id p hp

theorem onMessage_eq {bytes : List U8} {q : Request} {p : Response}
    (hdec : Request.decode bytes = some q) (h : Answers s app q p s' app') : s.onMessage T now bytes app =
      (T.send s'.conn now (frame p.encode)).bind fun r => .ok ({ s' with conn := r.1 }, app', r.2) := by
  unfold onMessage
  rw [hdec]
  cases h with
  | cached hseen => simp only [hseen]; rfl
  | run hseen hrun => simp only [hseen, hrun]; rfl

/-- One message: at most one response. -/
theorem onMessage_runs {bytes : List U8} (h : T.Runs D P) (now : Tick) (ht : Terse s.handler Q m I)
    (hq : ∀ q, Request.decode bytes = some q → Q q.method q.payload) (hs : Concise m I s app)
    (hP : P ((Request.decode bytes).toList.length * m + n) s.conn) :
    ∃ r, s.onMessage T now bytes app = .ok r ∧ Concise m I r.1 r.2.1 ∧ P n r.1.conn ∧
      r.1.handler = s.handler := by
  cases hdec : Request.decode bytes with
  | none =>
    refine ⟨(s, app, []), ?_, hs, ?_, rfl⟩
    · unfold onMessage
      rw [hdec]
    · exact h.mono (Nat.le_add_left _ _) hP
  | some q =>
    obtain ⟨p, s₁, app₁, hans⟩ := answers_exist s app q
    obtain ⟨hconn, _, hhandler⟩ := hans.same
    obtain ⟨hlen, hs₁⟩ := hans.concise hs ht (hq q hdec)
    have hroom : P ((frame p.encode).length + n) s₁.conn := by
      rw [hconn]
      refine h.mono ?_ hP
      rw [hdec, frame, List.length_append, toLe_length, Response.encode_length, Option.toList_some,
        List.length_singleton]
      omega
    obtain ⟨r, hr, hP'⟩ := h.send now hroom
    exact ⟨_, (onMessage_eq hdec hans).trans (bind_eq_ok.mpr ⟨r, hr, rfl⟩),
      ⟨hs₁.table, hs₁.state⟩, hP', hhandler⟩

theorem onMessages_runs (h : T.Runs D P) (now : Tick) :
    ∀ {messages : List (List U8)} {s : RpcServer σ τ} {app : τ},
    Terse s.handler Q m I → (∀ q ∈ messages.filterMap Request.decode, Q q.method q.payload) →
    Concise m I s app → P ((messages.filterMap Request.decode).length * m + n) s.conn →
    ∃ r, onMessages T now messages s app = .ok r
  | [], s, app, _, _, _, _ => ⟨_, rfl⟩
  | bytes :: messages, s, app, ht, hq, hs, hP => by
    have hcons : (bytes :: messages).filterMap Request.decode =
        (Request.decode bytes).toList ++ messages.filterMap Request.decode := by
      rw [List.filterMap_cons]
      cases Request.decode bytes <;> rfl
    rw [hcons] at hq hP
    rw [List.length_append, Nat.add_mul, Nat.add_assoc] at hP
    obtain ⟨r, hr, hs', hP', hhandler⟩ := onMessage_runs h now ht
      (fun q hdec => hq q (List.mem_append_left _ (Option.mem_toList.mpr hdec))) hs hP
    rw [← hhandler] at ht
    obtain ⟨r', hr'⟩ :=
      onMessages_runs h now ht (fun q hmem => hq q (List.mem_append_right _ hmem)) hs' hP'
    exact ⟨_, bind_eq_ok.mpr ⟨r, hr, bind_eq_ok.mpr ⟨r', hr', rfl⟩⟩⟩

end RpcServer

/-- **A delivery to a server returns** if what it has then received are at most `k` requests, all of
which the handler answers shortly, and there is room for `k` answers. -/
theorem Hosting.onDatagram_runs {σ τ : Type} {T : Transport σ} {D : Datagram → Prop}
    {P : Nat → Tapped σ → Prop} {h : Handler τ} {view : τ → List Run}
    {s : RpcServer (Tapped σ) τ} {app : τ} {book : List Entry} {replies : List Response}
    {Q : U8 → List U8 → Prop} {I : τ → Prop} {now : Tick} {d : Datagram} {k m : Nat}
    (hs : Hosting h view s app book replies) (hT : T.tapped.Runs D P)
    (ht : RpcServer.Terse h Q m I) (hI : I app) (hruns : ∀ r ∈ view app, 13 + r.answer.length ≤ m)
    (hd : D d) (hP : P (k * m) s.conn)
    (hread : ∀ r, T.tapped.onDatagram s.conn now d = .ok r →
      (requests (T.tapped.recv r.1).1.received).length ≤ k ∧
      ∀ q ∈ requests (T.tapped.recv r.1).1.received, Q q.method q.payload) :
    ∃ r, s.onDatagram T.tapped app now d = .ok r := by
  obtain ⟨r, hr, hP₁⟩ := hT.onDatagram now hP hd
  obtain ⟨hcount, hQ⟩ := hread r hr
  obtain ⟨hrecv, _⟩ := Transport.tapped_recv T r.1
  have hdelivered : T.tapped.onDatagram s.conn now d = .ok (r.1, r.2) := hr
  have hrecv₁ : r.1.received = s.conn.received := (Transport.tapped_onDatagram hdelivered).1
  -- the messages that are whole now
  obtain ⟨messages, buf, hsplit⟩ : ∃ messages buf,
      FrameReader.frames.split (s.reader.buf ++ (T.tapped.recv r.1).2) = (messages, buf) := ⟨_, _, rfl⟩
  obtain ⟨_, hnow⟩ := hs.read hsplit
  rw [← hrecv₁, ← hrecv, hrecv₁] at hnow
  have hfew : (messages.filterMap Request.decode).length ≤ k := by
    rw [hnow, List.length_append] at hcount
    omega
  have hconcise : RpcServer.Concise m I
      { s with conn := (T.tapped.recv r.1).1, reader := ⟨buf⟩ } app := by
    refine ⟨fun id p hp => ?_, hI⟩
    obtain ⟨e, he, _, rfl⟩ := (hs.serving.seen id p).mp hp
    refine hruns e.run ?_
    rw [hs.runs]
    exact List.mem_map_of_mem he
  obtain ⟨r', hr'⟩ : ∃ r', RpcServer.onMessages T.tapped now messages
      { s with conn := (T.tapped.recv r.1).1, reader := ⟨buf⟩ } app = .ok r' :=
    RpcServer.onMessages_runs (n := 0) hT now
    (by rw [hs.handler]; exact ht)
    (fun q hq => hQ q (by rw [hnow]; exact List.mem_append_right _ hq)) hconcise
    (hT.mono (Nat.mul_le_mul_right m hfew) (hT.recv hP₁))
  exact ⟨_, RpcServer.onDatagram_eq hr hsplit hr'⟩

/-! ## Connections -/

theorem Transport.Runs.tapped {σ : Type} {T : Transport σ} {D : Datagram → Prop} {P : Nat → σ → Prop}
    (h : T.Runs D P) : T.tapped.Runs D fun n t => P n t.conn where
  mono := h.mono
  onDatagram now hP hd := by
    obtain ⟨r, hr, hP⟩ := h.onDatagram now hP hd
    exact ⟨_, bind_eq_ok.mpr ⟨r, hr, rfl⟩, hP⟩
  onTick now hP := by
    obtain ⟨r, hr, hP⟩ := h.onTick now hP
    exact ⟨_, bind_eq_ok.mpr ⟨r, hr, rfl⟩, hP⟩
  send now hP := by
    obtain ⟨r, hr, hP⟩ := h.send now hP
    exact ⟨_, bind_eq_ok.mpr ⟨r, hr, rfl⟩, hP⟩
  recv := h.recv

namespace Endpoint

variable {b : Build} {X X' Y : Endpoint} {a : Call} {n m : Nat}

/-- Linked to `Y`, with a sensible configuration and room for `n` more bytes. -/
structure Ample (b : Build) (Y : Endpoint) (n : Nat) (X : Endpoint) : Prop where
  linked : Linked X Y
  config : X.conn.config.Sane
  timers : Timers b X.conn
  room : X.sent.length + n < 2 ^ 32

theorem Ample.mono (h : Ample b Y m X) (hle : n ≤ m) : Ample b Y n X :=
  { h with room := by have := h.room; omega }

/-- **In a build that wraps every call returns.** -/
theorem Ample.call (h : Ample .wrapping Y (a.sends + n) X)
    (hlegal : ∀ now d, a = .onDatagram now d → d ∈ Y.emitted ∨ d.Noise) :
    ∃ X', X.call .wrapping a = .ok X' ∧ Ample .wrapping Y n X' := by
  have hroom := h.room
  by_cases hnoise : ∃ now d, a = .onDatagram now d ∧ d.Noise
  · obtain ⟨now, d, rfl, hd⟩ := hnoise
    have hdrop : ¬ ∃ f hdr app, Carries d f hdr app := fun ⟨f, hdr, app, hc⟩ => hd f hdr app hc
    refine ⟨_, bind_eq_ok.mpr ⟨_, onDatagram_dropped hdrop now, rfl⟩, ?_⟩
    rw [put_nil]
    refine ⟨h.linked.advance now, h.config, h.timers.advance now, ?_⟩
    show X.sent.length + n < 2 ^ 32
    omega
  · have hheard : ∀ now d, a = .onDatagram now d → d ∈ Y.emitted := fun now d ha =>
      (hlegal now d ha).resolve_right fun hd => hnoise ⟨now, d, ha, hd⟩
    obtain ⟨X', hr⟩ := h.linked.call_wraps h.config h.timers hheard (by omega)
    have hsent := call_sends hr
    refine ⟨X', hr, call_linked h.linked hheard (by omega) hr, ?_,
      h.timers.call h.config.segment_pos hr, by omega⟩
    rw [call_config h.config.segment_pos hr]
    exact h.config

/-- **A connection of this crate runs**, in a build that wraps. -/
theorem runs (Y : Endpoint) :
    (transport .wrapping).Runs (fun d => d ∈ Y.emitted ∨ d.Noise) (Ample .wrapping Y) where
  mono hle h := h.mono hle
  onDatagram {n c d} now hP hd := by
    obtain ⟨X', hr, hP'⟩ := Ample.call (a := .onDatagram now d) (by simpa [Call.sends] using hP)
      fun _ _ ha => by cases ha; exact hd
    obtain ⟨r, hop, hr⟩ := bind_eq_ok.mp hr
    cases hr
    exact ⟨_, bind_eq_ok.mpr ⟨r, hop, rfl⟩, hP'⟩
  onTick {n c} now hP := by
    obtain ⟨X', hr, hP'⟩ := Ample.call (a := .onTick now) (by simpa [Call.sends] using hP)
      fun _ _ ha => by cases ha
    obtain ⟨r, hop, hr⟩ := bind_eq_ok.mp hr
    cases hr
    exact ⟨_, bind_eq_ok.mpr ⟨r, hop, rfl⟩, hP'⟩
  send {n c bytes} now hP := by
    obtain ⟨X', hr, hP'⟩ := Ample.call (a := .send now bytes) hP fun _ _ ha => by cases ha
    obtain ⟨r, hop, hr⟩ := bind_eq_ok.mp hr
    cases hr
    exact ⟨_, bind_eq_ok.mpr ⟨r, hop, rfl⟩, hP'⟩
  recv {n c} hP := by
    obtain ⟨X', hr, hP'⟩ := Ample.call (a := .recv) (by simpa [Call.sends] using hP)
      fun _ _ ha => by cases ha
    cases hr
    exact hP'

end Endpoint

end Distrans
