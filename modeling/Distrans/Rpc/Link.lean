import Distrans.Rpc.Calls
import Distrans.Rpc.Idempotency
import Distrans.Rpc.Replay

/-!
# A client and a server, joined

A `Link` is a client and a server whose connections are joined by two byte streams, with the list
of the calls made and of the answers handed back.  All that is known of the streams is `Delivers`:
what has been received at one end is a prefix of what has been sent at the other.  The connections
may be any transports, the datagrams they are given anything.

* `Joined` — the invariant: the book of the server opens with the calls in order, and the answers
  of the client come from the book;
* `calls_run_in_order` — **calls run in order and at most once, and each answer is that of its
  run.**
-/

set_option autoImplicit false

namespace Distrans

open Machine

structure Link (σ₁ σ₂ τ : Type) where
  client : RpcClient (Tapped σ₁)
  server : RpcServer (Tapped σ₂) τ
  /-- Method and payload of every call made, in order. -/
  calls : List (U8 × List U8)
  /-- Everything `poll_completed` has returned. -/
  returned : List (U64 × Response)

/-- What can happen on a link. -/
inductive LinkOp where
  | call (now : Tick) (method : U8) (payload : List U8)
  | clientDatagram (now : Tick) (d : Datagram)
  | clientTick (now : Tick) (π : Shuffle)
  | pollCompleted
  | pollFailed
  | serverDatagram (now : Tick) (d : Datagram)
  | serverTick (now : Tick)

namespace Link

variable {σ₁ σ₂ τ : Type}

def new (c₁ : σ₁) (c₂ : σ₂) (h : Handler τ) (retryDeadline : U64) (maxAttempts : U32) :
    Link σ₁ σ₂ τ where
  client := .new (.fresh c₁) retryDeadline maxAttempts
  server := .new (.fresh c₂) h
  calls := []
  returned := []

def op (b : Build) (T₁ : Transport σ₁) (T₂ : Transport σ₂) (l : Link σ₁ σ₂ τ) (app : τ) :
    LinkOp → Exec (Link σ₁ σ₂ τ × τ)
  | .call now method payload => do
    let (client, _, _) ← l.client.call b T₁.tapped now method payload
    .ok ({ l with client, calls := l.calls ++ [(method, payload)] }, app)
  | .clientDatagram now d => do
    let (client, _) ← l.client.onDatagram T₁.tapped now d
    .ok ({ l with client }, app)
  | .clientTick now π => do
    let (client, _) ← l.client.onTick b T₁.tapped now (π.order l.client.pending.entries)
    .ok ({ l with client }, app)
  | .pollCompleted =>
    .ok ({ l with
      client := l.client.pollCompleted.1
      returned := l.returned ++ l.client.pollCompleted.2 }, app)
  | .pollFailed => .ok ({ l with client := l.client.pollFailed.1 }, app)
  | .serverDatagram now d => do
    let (server, app, _) ← l.server.onDatagram T₂.tapped app now d
    .ok ({ l with server }, app)
  | .serverTick now => do
    let (server, _) ← l.server.onTick T₂.tapped now
    .ok ({ l with server }, app)

/-- What has been received is a prefix of what has been sent, both ways. -/
def Delivers (l : Link σ₁ σ₂ τ) : Prop :=
  l.server.conn.received <+: l.client.conn.sent ∧ l.client.conn.received <+: l.server.conn.sent

end Link

/-- **A link and its book.** -/
structure Joined {σ₁ σ₂ τ : Type} (h : Handler τ) (view : τ → List Run) (l : Link σ₁ σ₂ τ) (app : τ)
    (reqs : List Request) (book : List Entry) (replies : List Response) : Prop where
  calling : Calling l.client l.calls reqs l.returned
  hosting : Hosting h view l.server app book replies
  delivers : l.Delivers

namespace Joined

variable {σ₁ σ₂ τ : Type} {b : Build} {T₁ : Transport σ₁} {T₂ : Transport σ₂} {h : Handler τ}
  {view : τ → List Run} {P : U8 → List U8 → Prop} {l l' : Link σ₁ σ₂ τ} {app app' : τ}
  {reqs : List Request} {book : List Entry} {replies : List Response}

/-- Only the runs are read off the state of the handler. -/
theorem view_eq (hl : Joined h view l app reqs book replies) (hview : view app' = view app) :
    Joined h view l app' reqs book replies where
  calling := hl.calling
  hosting := { hl.hosting with runs := hview.trans hl.hosting.runs }
  delivers := hl.delivers

/-- The requests that have come in are the first of those that were written. -/
theorem requests_first (hc : Calling l.client l.calls reqs l.returned)
    (hshort : ∀ p ∈ l.calls, 9 + p.2.length < 2 ^ 32) (hdel : l.Delivers) :
    requests l.server.conn.received <+: reqs := by
  have hreqs : ∀ q ∈ reqs, q.encode.length < 2 ^ 32 := by
    intro q hq
    rw [Request.encode_length]
    exact hshort _ (mem_calls (hc.known hq))
  apply decoded_first Request.decode_encode hreqs
  have := hdel.1
  rwa [hc.sent] at this

/-- The book opens with the calls. -/
theorem book_first (hl : Joined h view l app reqs book replies)
    (hshort : ∀ p ∈ l.calls, 9 + p.2.length < 2 ^ 32) :
    book.map Entry.request <+: issued l.calls := by
  rw [hl.hosting.serving.asked, ← hl.calling.first]
  exact firsts_mono (requests_first hl.calling hshort hl.delivers)

/-- **The runs are the first calls.** -/
theorem runs_first (hl : Joined h view l app reqs book replies)
    (hshort : ∀ p ∈ l.calls, 9 + p.2.length < 2 ^ 32) :
    (view app).map (fun r => (r.method, r.payload)) <+: l.calls := by
  have := (hl.book_first hshort).map fun q => (q.method, q.payload)
  rw [issued_call, List.map_map] at this
  rw [hl.hosting.runs, List.map_map]
  exact this

/-- The responses that have come in are the first of those that were queued. -/
theorem responses_first (hl : Joined h view l app reqs book replies)
    (hshort : ∀ r ∈ view app, 9 + r.answer.length < 2 ^ 32) :
    responses l.client.conn.received <+: replies := by
  have hreplies : ∀ p ∈ replies, p.encode.length < 2 ^ 32 := by
    intro p hp
    obtain ⟨e, he, rfl⟩ := hl.hosting.serving.mem_replies hp
    rw [Response.encode_length]
    exact hshort e.run (by rw [hl.hosting.runs]; exact List.mem_map_of_mem he)
  apply decoded_first Response.decode_encode hreplies
  have := hl.delivers.2
  rwa [hl.hosting.serving.sent] at this

/-- **What comes back for an id is what the run for it gave.** -/
theorem answer_run (hl : Joined h view l app reqs book replies)
    (hshort : ∀ p ∈ l.calls, 9 + p.2.length < 2 ^ 32)
    (hruns : ∀ r ∈ view app, 9 + r.answer.length < 2 ^ 32) {a : U64 × Response}
    (ha : a ∈ l.returned ++ l.client.completed) : a.2.id = a.1 ∧
    ∃ r, (view app)[a.1.toNat]? = some r ∧ a.2.ok = r.ok ∧ a.2.payload = r.answer := by
  obtain ⟨hid, _, _, hgot⟩ := hl.calling.answered.answers a ha
  refine ⟨hid, ?_⟩
  obtain ⟨e, he, hresp⟩ := hl.hosting.serving.mem_replies ((hl.responses_first hruns).subset hgot)
  obtain ⟨i, hi⟩ := List.mem_iff_getElem?.mp he
  have hreq : (issued l.calls)[i]? = some e.request := by
    obtain ⟨more, hmore⟩ := hl.book_first hshort
    have hmem : (book.map Entry.request)[i]? = some e.request := by
      rw [List.getElem?_map, hi]
      rfl
    rw [← hmore, List.getElem?_append_left (List.getElem?_eq_some_iff.mp hmem).1, hmem]
  have hlt : i < l.calls.length := by
    have := (List.getElem?_eq_some_iff.mp hreq).1
    rwa [length_issued] at this
  -- the id counts the calls, so it is the place in the book
  have hindex : a.1.toNat = i := by
    rw [← hid, ← hresp, Entry.response, id_of_issued hreq, BitVec.toNat_ofNat,
      Nat.mod_eq_of_lt (lt_trans hlt hl.calling.count_lt)]
  refine ⟨e.run, ?_, ?_, ?_⟩
  · rw [hindex, hl.hosting.runs, List.getElem?_map, hi]
    rfl
  · rw [← hresp]
    rfl
  · rw [← hresp]
    rfl

/-- **A step of a link.** -/
theorem op {o : LinkOp} (hl : Joined h view l app reqs book replies)
    (hop : l.op b T₁ T₂ app o = .ok (l', app')) (hdel : l'.Delivers) (hj : Journal h P view)
    (hcount : b = .checked ∨ l'.calls.length < 2 ^ 64)
    (hcalls : ∀ p ∈ l'.calls, 9 + p.2.length < 2 ^ 32 ∧ P p.1 p.2) :
    ∃ reqs' book' replies', Joined h view l' app' reqs' book' replies' ∧
      RpcServer.Ran h P app app' := by
  obtain ⟨hcalling, hhosting, hdelivers⟩ := hl
  cases o with
  | call now method payload =>
    obtain ⟨⟨client, id, out⟩, hc, hop⟩ := bind_eq_ok.mp hop
    cases hop
    have hcount' : b = .checked ∨ l.calls.length + 1 < 2 ^ 64 := by
      have := hcount
      rwa [List.length_append, List.length_singleton] at this
    exact ⟨_, book, replies, ⟨hcalling.call hc hcount', hhosting, hdel⟩, .refl⟩
  | clientDatagram now d =>
    obtain ⟨⟨client, out⟩, hc, hop⟩ := bind_eq_ok.mp hop
    cases hop
    exact ⟨reqs, book, replies, ⟨hcalling.onDatagram hc, hhosting, hdel⟩, .refl⟩
  | clientTick now π =>
    obtain ⟨⟨client, out⟩, hc, hop⟩ := bind_eq_ok.mp hop
    cases hop
    obtain ⟨more, hcalling', _⟩ := hcalling.onTick (π.perm _) hc
    exact ⟨_, book, replies, ⟨hcalling', hhosting, hdel⟩, .refl⟩
  | pollCompleted =>
    cases hop
    exact ⟨reqs, book, replies, ⟨hcalling.pollCompleted, hhosting, hdel⟩, .refl⟩
  | pollFailed =>
    cases hop
    exact ⟨reqs, book, replies, ⟨hcalling.pollFailed, hhosting, hdel⟩, .refl⟩
  | serverDatagram now d =>
    obtain ⟨⟨server, app₁, out⟩, hc, hop⟩ := bind_eq_ok.mp hop
    cases hop
    have hP : ∀ q ∈ requests server.conn.received, P q.method q.payload := by
      intro q hq
      have hpre := requests_first (l := { l with server }) hcalling (fun p hp => (hcalls p hp).1) hdel
      exact (hcalls _ (mem_calls (hcalling.known (hpre.subset hq)))).2
    obtain ⟨book', more, _, hhosting', hran⟩ := hhosting.onDatagram hc hj hP
    exact ⟨reqs, book', _, ⟨hcalling, hhosting', hdel⟩, hran⟩
  | serverTick now =>
    obtain ⟨⟨server, out⟩, hc, hop⟩ := bind_eq_ok.mp hop
    cases hop
    exact ⟨reqs, book, replies, ⟨hcalling, (hhosting.onTick hc).1, hdel⟩, .refl⟩

end Joined

/-- The states of the runs of a link whose streams deliver. -/
inductive Link.Reach {σ₁ σ₂ τ : Type} (b : Build) (T₁ : Transport σ₁) (T₂ : Transport σ₂)
    (l₀ : Link σ₁ σ₂ τ) (app₀ : τ) : Link σ₁ σ₂ τ → τ → Prop
  | start : Reach b T₁ T₂ l₀ app₀ l₀ app₀
  | step {l l' : Link σ₁ σ₂ τ} {app app' : τ} {o : LinkOp} : Reach b T₁ T₂ l₀ app₀ l app →
      l.op b T₁ T₂ app o = .ok (l', app') → l'.Delivers → Reach b T₁ T₂ l₀ app₀ l' app'

section

variable {σ₁ σ₂ τ : Type} {b : Build} {T₁ : Transport σ₁} {T₂ : Transport σ₂} {h : Handler τ}
  {view : τ → List Run} {l l' : Link σ₁ σ₂ τ} {app app' app₀ : τ} {c₁ : σ₁} {c₂ : σ₂}
  {retryDeadline : U64} {maxAttempts : U32}

/-- Calls are only added. -/
theorem Link.op_calls {o : LinkOp} (hop : l.op b T₁ T₂ app o = .ok (l', app')) :
    l.calls <+: l'.calls := by
  cases o with
  | call now method payload =>
    obtain ⟨_, _, hop⟩ := bind_eq_ok.mp hop
    cases hop
    exact List.prefix_append _ _
  | pollCompleted | pollFailed =>
    cases hop
    exact List.prefix_refl _
  | _ =>
    obtain ⟨_, _, hop⟩ := bind_eq_ok.mp hop
    cases hop
    exact List.prefix_refl _

/-- A delivery to the client. -/
theorem Link.op_clientDatagram (b : Build) (T₂ : Transport σ₂) (app : τ) {now : Tick}
    {d : Datagram} {client : RpcClient (Tapped σ₁)} {out : List Datagram}
    (h : l.client.onDatagram T₁.tapped now d = .ok (client, out)) :
    l.op b T₁ T₂ app (.clientDatagram now d) = .ok ({ l with client }, app) := by
  rw [Link.op, h]
  rfl

instance decidableDelivers (l : Link σ₁ σ₂ τ) : Decidable l.Delivers :=
  inferInstanceAs (Decidable (_ ∧ _))

/-- Play a script; it fails where the streams would not deliver. -/
def Link.play (b : Build) (T₁ : Transport σ₁) (T₂ : Transport σ₂) : List LinkOp →
    Link σ₁ σ₂ τ → τ → Exec (Link σ₁ σ₂ τ × τ)
  | [], l, app => .ok (l, app)
  | o :: ops, l, app => do
    let (l, app) ← l.op b T₁ T₂ app o
    if l.Delivers then play b T₁ T₂ ops l app else .error .unreachable

/-- A script that plays to its end is a run. -/
theorem Link.play_reach {l₀ : Link σ₁ σ₂ τ} : ∀ {ops : List LinkOp} {l l' : Link σ₁ σ₂ τ}
    {app app' : τ}, Reach b T₁ T₂ l₀ app₀ l app → play b T₁ T₂ ops l app = .ok (l', app') →
    Reach b T₁ T₂ l₀ app₀ l' app'
  | [], _, _, _, _, hr, h => by
    cases h
    exact hr
  | o :: ops, _, _, _, _, hr, h => by
    obtain ⟨⟨l₁, app₁⟩, hop, h⟩ := bind_eq_ok.mp h
    dsimp only at h
    split at h
    · rename_i hdel
      exact play_reach (.step hr hop hdel) h
    · cases h

/-- The streams of a run deliver. -/
theorem Link.Reach.delivers
    (hr : Link.Reach b T₁ T₂ (.new c₁ c₂ h retryDeadline maxAttempts) app₀ l app) : l.Delivers := by
  cases hr with
  | start => exact ⟨List.nil_prefix, List.nil_prefix⟩
  | step _ _ hdel => exact hdel

/-- **The invariant holds in every run.** -/
theorem Link.Reach.joined (hr : Link.Reach b T₁ T₂ (.new c₁ c₂ h retryDeadline maxAttempts) app₀ l app)
    (hview : view app₀ = []) (hj : Journal h (fun _ _ => True) view)
    (hcount : b = .checked ∨ l.calls.length < 2 ^ 64)
    (hcalls : ∀ p ∈ l.calls, 9 + p.2.length < 2 ^ 32) :
    ∃ reqs book replies, Joined h view l app reqs book replies := by
  induction hr with
  | start =>
    exact ⟨[], [], [], .new c₁ _ _, .new c₂ hview, List.nil_prefix, List.nil_prefix⟩
  | @step l l' app app' o _ hop hdel ih =>
    have hpre := Link.op_calls hop
    obtain ⟨reqs, book, replies, hl⟩ := ih
      (hcount.imp_right fun h => lt_of_le_of_lt hpre.length_le h) fun p hp => hcalls p (hpre.subset hp)
    obtain ⟨reqs', book', replies', hl', _⟩ :=
      hl.op hop hdel hj hcount fun p hp => ⟨hcalls p hp, trivial⟩
    exact ⟨reqs', book', replies', hl'⟩

/-- **Calls run in order and at most once.**  The runs of the handler are the first calls, in the
order they were made; and what comes back for an id is what the one run for it gave. -/
theorem calls_run_in_order {l : Link σ₁ σ₂ (τ × List Run)} {app₀ app : τ} {log : List Run}
    (hr : Link.Reach b T₁ T₂ (.new c₁ c₂ h.logged retryDeadline maxAttempts) (app₀, []) l (app, log))
    (hcount : b = .checked ∨ l.calls.length < 2 ^ 64)
    (hcalls : ∀ p ∈ l.calls, 9 + p.2.length < 2 ^ 32)
    (hruns : ∀ r ∈ log, 9 + r.answer.length < 2 ^ 32) :
    log.map (fun r => (r.method, r.payload)) <+: l.calls ∧ l.server.executions = log.length ∧
    (l.returned.map Prod.fst).Nodup ∧
    ∀ a ∈ l.returned, a.2.id = a.1 ∧
      ∃ r, log[a.1.toNat]? = some r ∧ a.2.ok = r.ok ∧ a.2.payload = r.answer := by
  obtain ⟨reqs, book, replies, hl⟩ := hr.joined rfl (logged_journal h) hcount hcalls
  have hlog : log = book.map Entry.run := hl.hosting.runs
  refine ⟨hl.runs_first hcalls, ?_, ?_, ?_⟩
  · rw [hl.hosting.serving.executions, hlog, List.length_map]
  · have := hl.calling.answered.once
    rw [List.map_append] at this
    exact this.of_append_left
  · intro a ha
    exact hl.answer_run hcalls hruns (List.mem_append_left _ ha)

end

/-- A call is made, resent before it is answered, and answered twice. -/
def retriedCall : List LinkOp :=
  [.call 0 1 [5], .serverDatagram 1 (frame (Request.encode ⟨0, 1, [5]⟩)), .clientTick 30 .ascending,
    .serverDatagram 31 (frame (Request.encode ⟨0, 1, [5]⟩)),
    .clientDatagram 32 (wire [⟨0, true, [40]⟩, ⟨0, true, [40]⟩]), .pollCompleted]

theorem calls_run_in_order_sample : ∃ (l : Link (List U8) (List U8) (U8 × List Run)) (log : List Run),
    l.returned = [(0, ⟨0, true, [40]⟩)] ∧ log.map (fun r => (r.method, r.payload)) <+: l.calls ∧
    l.server.executions = log.length ∧ log = [⟨1, [5], true, [40]⟩] := by
  have hplay : (Link.play .checked rawTransport rawTransport retriedCall
      (.new [] [] counter.logged 25 60) (40, [])).map
        (fun r => (r.1.calls, r.1.returned, r.2.2)) =
      .ok ([(1, [5])], [(0, ⟨0, true, [40]⟩)], [⟨1, [5], true, [40]⟩]) := by decide +kernel
  cases h : Link.play .checked rawTransport rawTransport retriedCall
      (.new [] [] counter.logged 25 60) (40, []) with
  | error e =>
    rw [h] at hplay
    cases hplay
  | ok r =>
    obtain ⟨l, app, log⟩ := r
    rw [h] at hplay
    injection hplay with hplay
    simp only [Prod.mk.injEq] at hplay
    obtain ⟨hcalls, hreturned, hlog⟩ := hplay
    have hshort : ∀ p ∈ l.calls, 9 + p.2.length < 2 ^ 32 := by
      rw [hcalls]
      decide
    have hruns : ∀ r ∈ log, 9 + r.answer.length < 2 ^ 32 := by
      rw [hlog]
      decide
    obtain ⟨horder, hexec, _⟩ :=
      calls_run_in_order (Link.play_reach .start h) (Or.inl rfl) hshort hruns
    exact ⟨l, log, hreturned, horder, hexec, hlog⟩

/-! ## Ids come again -/

section

/-- A counter served over a raw transport. -/
abbrev CounterLink := Link (List U8) (List U8) (U8 × List Run)

variable {l l₀ : CounterLink} {app app₀ : U8 × List Run}

/-- A link after a call. -/
def Link.called (l : CounterLink) : CounterLink :=
  { l with
    client := { l.client with
      conn := { l.client.conn with
        sent := l.client.conn.sent ++ frame (Request.encode ⟨l.client.nextId, 1, [5]⟩) }
      nextId := l.client.nextId + 1
      pending := l.client.pending.insert l.client.nextId ⟨⟨l.client.nextId, 1, [5]⟩, 0, 1⟩ }
    calls := l.calls ++ [(1, [5])] }

theorem Link.call_wraps :
    l.op .wrapping rawTransport rawTransport app (.call 0 1 [5]) = .ok (l.called, app) := by
  simp only [Link.op, RpcClient.call, Build.wrapping_add, ok_bind]
  rfl

theorem Link.called_delivers (h : l.Delivers) : l.called.Delivers :=
  ⟨h.1.trans (List.prefix_append _ _), h.2⟩

/-- Call after call, and nothing else. -/
theorem Link.Reach.called (hr : Link.Reach .wrapping rawTransport rawTransport l₀ app₀ l app)
    (hdel : l.Delivers) (n : Nat) :
    Link.Reach .wrapping rawTransport rawTransport l₀ app₀ (Link.called^[n] l) app ∧
      (Link.called^[n] l).Delivers := by
  induction n with
  | zero => exact ⟨hr, hdel⟩
  | succ n ih =>
    rw [Function.iterate_succ_apply']
    exact ⟨.step ih.1 Link.call_wraps (Link.called_delivers ih.2), Link.called_delivers ih.2⟩

/-- What call after call leaves as it was. -/
theorem Link.iterate_called (l : CounterLink) (n : Nat) :
    (Link.called^[n] l).server = l.server ∧ (Link.called^[n] l).returned = l.returned ∧
    (Link.called^[n] l).client.conn.conn = l.client.conn.conn ∧
    (Link.called^[n] l).client.conn.received = l.client.conn.received ∧
    (Link.called^[n] l).client.reader = l.client.reader ∧
    (Link.called^[n] l).client.nextId = l.client.nextId + BitVec.ofNat 64 n ∧
    ∀ p ∈ (Link.called^[n] l).calls, p ∈ l.calls ∨ p = (1, [5]) := by
  induction n with
  | zero => exact ⟨rfl, rfl, rfl, rfl, rfl, (BitVec.add_zero _).symm, fun _ => Or.inl⟩
  | succ n ih =>
    obtain ⟨h₁, h₂, h₃, h₄, h₅, h₆, h₇⟩ := ih
    rw [Function.iterate_succ_apply']
    refine ⟨h₁, h₂, h₃, h₄, h₅, ?_, ?_⟩
    · show (Link.called^[n] l).client.nextId + 1 = _
      rw [h₆, BitVec.add_assoc, BitVec.ofNat_add]
      rfl
    · intro p hp
      rcases List.mem_append.mp hp with hp | hp
      · exact h₇ p hp
      · exact Or.inr (List.mem_singleton.mp hp)

end

/-- A call is resent before it is answered; one of the two answers is handed back. -/
def answeredTwice : List LinkOp :=
  [.call 0 1 [5], .clientTick 30 .ascending,
    .serverDatagram 31 (frame (Request.encode ⟨0, 1, [5]⟩) ++ frame (Request.encode ⟨0, 1, [5]⟩)),
    .clientDatagram 32 (frame (Response.encode ⟨0, true, [40]⟩)), .pollCompleted]

theorem answeredTwice_plays : (Link.play .wrapping rawTransport rawTransport answeredTwice
    (.new [] [] counter.logged 25 60) (40, [])).map
      (fun r => (r.1.calls, r.1.returned, r.1.client.nextId, r.2.2)) =
    .ok ([(1, [5])], [(0, ⟨0, true, [40]⟩)], 1, [⟨1, [5], true, [40]⟩]) := by decide +kernel

theorem answeredTwice_streams : (Link.play .wrapping rawTransport rawTransport answeredTwice
    (.new [] [] counter.logged 25 60) (40, [])).map
      (fun r => (r.1.client.conn.conn, r.1.client.conn.received, r.1.client.reader.buf,
        r.1.server.conn.sent)) =
    .ok ([], frame (Response.encode ⟨0, true, [40]⟩), [],
      frame (Response.encode ⟨0, true, [40]⟩) ++ frame (Response.encode ⟨0, true, [40]⟩)) := by
  decide +kernel

theorem answer_split : FrameReader.frames.split (frame (Response.encode ⟨0, true, [40]⟩)) =
    ([Response.encode ⟨0, true, [40]⟩], []) := by decide +kernel

/-- **Ids come again** after `2 ^ 64` calls. -/
theorem ids_come_again : ∃ (l : CounterLink) (app : U8 × List Run),
    Link.Reach .wrapping rawTransport rawTransport (.new [] [] counter.logged 25 60) (40, []) l app ∧
    (∀ p ∈ l.calls, 9 + p.2.length < 2 ^ 32) ∧ (∀ r ∈ app.2, 9 + r.answer.length < 2 ^ 32) ∧
    ¬ (l.returned.map Prod.fst).Nodup := by
  have hplay := answeredTwice_plays
  have hstreams := answeredTwice_streams
  cases h : Link.play .wrapping rawTransport rawTransport answeredTwice
      (.new [] [] counter.logged 25 60) (40, []) with
  | error e =>
    rw [h] at hplay
    cases hplay
  | ok r =>
    obtain ⟨l, app⟩ := r
    rw [h] at hplay hstreams
    injection hplay with hplay
    injection hstreams with hstreams
    simp only [Prod.mk.injEq] at hplay hstreams
    obtain ⟨hcalls, hreturned, hnext, hlog⟩ := hplay
    obtain ⟨hconn, hrecv, hbuf, hsent⟩ := hstreams
    have hr := Link.play_reach .start h
    obtain ⟨hr', hdel'⟩ := hr.called hr.delivers (2 ^ 64 - 1)
    obtain ⟨hserver', hreturned', hconn', hrecv', hreader', hnext', hcalls'⟩ :=
      l.iterate_called (2 ^ 64 - 1)
    obtain ⟨l', hl'⟩ : ∃ l', l' = Link.called^[2 ^ 64 - 1] l := ⟨_, rfl⟩
    rw [← hl'] at hr' hdel' hserver' hreturned' hconn' hrecv' hreader' hnext' hcalls'
    have hzero : l'.client.nextId = 0 := by
      rw [hnext', hnext]
      rfl
    have hd : rawTransport.tapped.onDatagram l'.called.client.conn 40
        (frame (Response.encode ⟨0, true, [40]⟩)) =
        .ok (⟨frame (Response.encode ⟨0, true, [40]⟩), l'.client.conn.received,
          l'.called.client.conn.sent⟩, []) := by
      have hempty : l'.client.conn.conn = [] := hconn'.trans hconn
      show Except.ok (Tapped.mk (l'.client.conn.conn ++ _) _ _, []) = _
      rw [hempty]
      rfl
    have hpending : l'.called.client.pending.get? l'.client.nextId =
        some ⟨⟨l'.client.nextId, 1, [5]⟩, 0, 1⟩ :=
      OrdMap.get?_eq_some.mpr (OrdMap.mem_insert.mpr (Or.inl rfl))
    rw [hzero] at hpending
    have hsplit : FrameReader.frames.split (l'.called.client.reader.buf ++
        frame (Response.encode ⟨0, true, [40]⟩)) = ([Response.encode ⟨0, true, [40]⟩], []) := by
      show FrameReader.frames.split (l'.client.reader.buf ++ _) = _
      rw [hreader', hbuf]
      exact answer_split
    have hstep := RpcClient.onDatagram_one hd hsplit hpending
    -- the second answer to the first call completes the last one
    have hop := Link.op_clientDatagram .wrapping rawTransport app hstep
    have hcalls'' : ∀ p ∈ l'.called.calls, p = (1, [5]) := by
      intro p hp
      rcases List.mem_append.mp hp with hp | hp
      · rcases hcalls' p hp with hp | hp
        · rw [hcalls] at hp
          exact List.mem_singleton.mp hp
        · exact hp
      · exact List.mem_singleton.mp hp
    have hdel₁ := Link.called_delivers hdel'
    have hdel₂ : l'.client.conn.received ++ frame (Response.encode ⟨0, true, [40]⟩) <+:
        l'.server.conn.sent := by
      rw [hrecv', hrecv, hserver', hsent]
    refine ⟨_, app, .step (.step (.step hr' Link.call_wraps hdel₁) hop ⟨hdel₁.1, hdel₂⟩)
      (o := .pollCompleted) rfl ⟨hdel₁.1, hdel₂⟩, ?_, ?_, ?_⟩
    · intro p hp
      rw [hcalls'' p hp]
      decide
    · rw [hlog]
      decide
    · show ¬ ((l'.returned ++ (l'.client.completed ++ [((0 : U64), Response.mk 0 true [40])])).map
        Prod.fst).Nodup
      rw [hreturned', hreturned]
      intro hnodup
      rw [List.map_append, List.map_append, List.nodup_append] at hnodup
      refine hnodup.2.2 0 ?_ 0 ?_ rfl
      · exact List.mem_singleton.mpr rfl
      · exact List.mem_append_right _ (List.mem_singleton.mpr rfl)

end Distrans
