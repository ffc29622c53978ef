import Distrans.Transport.Pace
import Distrans.Transport.Speech
import Distrans.Transport.Teardown

/-!
# Runs over links that lose nothing

`Pair.FifoRun` is a run in which every datagram is delivered once and in order.  As long as no
timer fires and no data segment repeats an acknowledgement, both sides of such a run speak as
`Says` has it; only a FIN and a `fin_ack` can then repeat an acknowledgement while something is
outstanding, and each comes once.

* `fifo_never_resends` — **with a threshold of three or more nothing is retransmitted in such a
  run.**
* `crossed_data_resends` — data in both directions are enough for a fast retransmit.
-/

set_option autoImplicit false

namespace Distrans

open Machine OrdMap Fifo Relation

variable {b : Build} {c c' : Connection} {out : List Datagram} {s : Side} {N k : Nat}

/-! ## Sides that nothing has disturbed -/

/-- A retransmission timer fires at the call. -/
def Connection.TimerFires (b : Build) (c : Connection) (a : Call) : Prop :=
  ∃ now, a = .onTick now ∧ (c.RtoFires b now ∨
    (∃ x ∈ c.finPending, c.isOpen ∧ (c.advance now).Due b x.sentAt) ∨
    ∃ x ∈ c.handshake, (c.state = .synSent ∨ c.state = .synReceived) ∧ (c.advance now).Due b x.sentAt)

/-- Nothing has failed or arrived out of order, and nothing is sent before the handshake is
    complete. -/
structure Calm (s : Side) (c : Connection) : Prop where
  control : c.control.Ok
  alive : c.isFailed = false
  buffer : c.recvBuffer.entries = []
  greets : c.state.handshaking → s.greets c.state ∧ c.unacked.entries = [] ∧ c.expectedSeq = 0#32

/-- A side with another state, as long as that is not a handshake's. -/
theorem Calm.of_opened (hok : c.control.Ok) (ho : c.state.opened) (hbuf : c.recvBuffer.entries = []) :
    Calm s c := by
  refine ⟨hok, ?_, hbuf, fun hk => ?_⟩
  · unfold Connection.isFailed
    split
    · rename_i hs
      rw [hs] at ho
      cases ho
    · rfl
  · rw [State.opened_not_handshaking ho] at hk
    cases hk

theorem Calm.opened (h : Calm s c) (hk : c.state.handshaking = false) : c.state.opened :=
  opened_of_settled hk h.alive

/-! ## Timers that are not due -/

theorem tickHandshake_quiet (hno : ∀ x ∈ c.handshake, ¬ c.Due b x.sentAt)
    (hr : c.tickHandshake b = .ok (c', out)) : c' = c ∧ out = [] := by
  cases tickHandshake_branch hr with
  | idle => exact ⟨rfl, rfl⟩
  | fail hx hdue | retry hx hdue => exact absurd hdue (hno _ hx)

theorem tickData_quiet (hno : ∀ e ∈ c.unacked.entries.head?, ¬ c.Due b e.2.sentAt)
    (hr : c.tickData b = .ok (c', out)) : c' = c ∧ out = [] := by
  cases tickData_branch hr with
  | idle => exact ⟨rfl, rfl⟩
  | @fail k seg _ _ _ _ _ hes hdue | @sweep k seg _ _ _ _ _ hes hdue =>
    exact absurd hdue (hno (k, seg) (by rw [hes]; rfl))

theorem tickFin_quiet (hno : ∀ x ∈ c.finPending, ¬ c.Due b x.sentAt)
    (hr : c.tickFin b = .ok (c', out)) : c' = c ∧ out = [] := by
  cases tickFin_branch hr with
  | idle => exact ⟨rfl, rfl⟩
  | fail hx hdue | retry hx hdue => exact absurd hdue (hno _ hx)

/-- Nothing is done without a timer but what would be sent anyway. -/
theorem onTick_calm {now : Tick} (hno : ¬ c.TimerFires b (.onTick now))
    (hr : c.onTick b now = .ok (c', out)) :
    (c' = c.advance now ∧ out = []) ∨ (c.advance now).drainAndMaybeFin b = .ok (c', out) := by
  have hhand : c.state = .synSent ∨ c.state = .synReceived →
      (c.advance now).tickHandshake b = .ok (c', out) → c' = c.advance now ∧ out = [] := by
    intro hst
    exact tickHandshake_quiet fun x hx hdue => hno ⟨now, rfl, Or.inr (Or.inr ⟨x, hx, hst, hdue⟩)⟩
  have hopen : c.isOpen → (c.advance now).tickOpen b = .ok (c', out) →
      (c' = c.advance now ∧ out = []) ∨ (c.advance now).drainAndMaybeFin b = .ok (c', out) := by
    intro ho hr
    obtain ⟨c₁, out₁, h₁, hr⟩ := tickOpen_parts hr
    obtain ⟨rfl, rfl⟩ := tickData_quiet (c := c.advance now) (fun e he ⟨rto, hrto, hle⟩ => by
      obtain ⟨rest, hes⟩ := List.head?_eq_some_iff.mp he
      exact hno ⟨now, rfl, Or.inl ⟨ho, e.1, e.2, rest, hes, rto, hrto, hle⟩⟩) h₁
    rcases hr with ⟨_, rfl, rfl⟩ | ⟨_, c₂, out₂, h₂, hr⟩
    · exact Or.inl ⟨rfl, rfl⟩
    obtain ⟨rfl, rfl⟩ := tickFin_quiet (c := c.advance now)
      (fun x hx hdue => hno ⟨now, rfl, Or.inr (Or.inl ⟨x, hx, ho, hdue⟩)⟩) h₂
    rcases hr with ⟨_, rfl, rfl⟩ | ⟨_, out₃, h₃, rfl⟩
    · exact Or.inl ⟨rfl, rfl⟩
    · exact Or.inr h₃
  cases onTick_branch hr with
  | handshake hst hr => exact Or.inl (hhand hst hr)
  | opened ho hr => exact hopen ho hr
  | rest => exact Or.inl ⟨rfl, rfl⟩

/-! ## A call without a datagram -/

/-- What a side says in a call, and what it makes of what it has heard. -/
structure Speaks (s : Side) (k : Nat) (c c' : Connection) (out : List Datagram) : Prop where
  calm : Calm s c'
  along : ∃ k', k' ≤ c'.expectedSeq.toNat ∧ Along (Says s.peer) (c.told k) out (c'.told k')

theorem drainAndMaybeFin_speaks (hcalm : Calm s c) (hfl : Fluent b N c) (hk : k ≤ c.expectedSeq.toNat)
    (hr : c.drainAndMaybeFin b = .ok (c', out)) : Speaks s k c c' out ∧ c'.heard = c.heard := by
  have halong := drainAndMaybeFin_along (s := s.peer) hfl hk hr
  by_cases ho : c.isOpen = true
  · have hopened := opened_of_isOpen ho
    have hturns := drainAndMaybeFin_turns (a := .other) hr
    have ho' : c'.state.opened := hturns.opened nofun hopened
    obtain ⟨st, fp, q, n, u, stats, hc'⟩ := drainAndMaybeFin_fields hr
    refine ⟨⟨.of_opened (hturns.preserves Control.Ok.turn hcalm.control) ho' ?_, halong⟩, ?_⟩
    · rw [hc']
      exact hcalm.buffer
    · simp only [Connection.heard, heard_of_opened ho', heard_of_opened hopened]
      rw [hc']
  · rw [drainAndMaybeFin_idle (by simpa using ho)] at hr
    cases hr
    exact ⟨⟨hcalm, halong⟩, rfl⟩

theorem call_speaks {e e' : Endpoint} {a : Call} (hloc : ∀ now d, a ≠ .onDatagram now d)
    (hno : ¬ e.conn.TimerFires b a) (hcalm : Calm s e.conn) (hfl : Fluent b e.sent.length e.conn)
    (hroom : b = .checked ∨ e'.sent.length < 2 ^ 32) (hk : k ≤ e.conn.expectedSeq.toNat)
    (hr : e.call b a = .ok e') : ∃ out, e'.emitted = e.emitted ++ out ∧
      Speaks s k e.conn e'.conn out ∧ e'.conn.heard = e.conn.heard := by
  -- the connection when the queue is drained differs in the request, the clock and the queue
  have hdrain : ∀ {c₀ c' : Connection} {out : List Datagram} {N : Nat},
      c₀.drainAndMaybeFin b = .ok (c', out) → c₀.control.Ok → c₀.state = e.conn.state →
      c₀.recvBuffer = e.conn.recvBuffer → c₀.unacked = e.conn.unacked →
      c₀.expectedSeq = e.conn.expectedSeq → c₀.heard = e.conn.heard → c₀.told k = e.conn.told k →
      Fluent b N c₀ → Speaks s k e.conn c' out ∧ c'.heard = e.conn.heard := by
    intro c₀ c' out N hr hok hst hbuf hu hex hheard htold hfl
    have hcalm₀ : Calm s c₀ := by
      refine ⟨hok, ?_, by rw [hbuf]; exact hcalm.buffer, ?_⟩
      · simpa only [Connection.isFailed, hst] using hcalm.alive
      · rw [hst, hu, hex]
        exact hcalm.greets
    have hk₀ : k ≤ c₀.expectedSeq.toNat := by rw [hex]; exact hk
    obtain ⟨⟨hcalm', halong⟩, hheard'⟩ := drainAndMaybeFin_speaks hcalm₀ hfl hk₀ hr
    rw [htold] at halong
    exact ⟨⟨hcalm', halong⟩, hheard'.trans hheard⟩
  cases a with
  | send now data =>
    obtain ⟨⟨c', out⟩, hc, hr⟩ := bind_eq_ok.mp hr
    cases hr
    unfold Connection.send at hc
    refine ⟨out, rfl, hdrain (N := (e.sent ++ data).length) hc hcalm.control rfl rfl rfl rfl rfl rfl ?_⟩
    refine ⟨hfl.cuts, hfl.small, hroom, ?_⟩
    have htotal := hfl.total
    show e.conn.nextSeq.toNat + (e.conn.sendQueue ++ data).length = (e.sent ++ data).length
    rw [List.length_append, List.length_append]
    omega
  | close now =>
    obtain ⟨⟨c', out⟩, hc, hr⟩ := bind_eq_ok.mp hr
    cases hr
    unfold Connection.close at hc
    refine ⟨out, rfl, hdrain hc ?_ rfl rfl rfl rfl rfl rfl ⟨hfl.cuts, hfl.small, hfl.room, hfl.total⟩⟩
    exact hcalm.control.turn (.request (a := .close) rfl)
  | recv =>
    cases hr
    exact ⟨[], by simp [Endpoint.put], ⟨⟨hcalm.control, hcalm.alive, hcalm.buffer, hcalm.greets⟩, k, hk, .nil⟩,
      rfl⟩
  | onTick now =>
    obtain ⟨⟨c', out⟩, hc, hr⟩ := bind_eq_ok.mp hr
    cases hr
    rcases onTick_calm hno hc with ⟨rfl, rfl⟩ | hd
    · exact ⟨[], by simp [Endpoint.put],
        ⟨⟨hcalm.control, hcalm.alive, hcalm.buffer, hcalm.greets⟩, k, hk, .nil⟩, rfl⟩
    · exact ⟨out, rfl, hdrain hd hcalm.control rfl rfl rfl rfl rfl rfl
        ⟨hfl.cuts, hfl.small, hfl.room, hfl.total⟩⟩
  | onDatagram now d => exact absurd rfl (hloc now d)

/-! ## A datagram -/

/-- A handshake frame acknowledges what has been heard, which is nothing. -/
theorem bare_carries {flags : U16} {d : Datagram} (hex : c.expectedSeq = 0#32) (hk : k ≤ c.expectedSeq.toNat)
    (hr : (c.headerBytes b >>= fun bytes => Except.ok (encodeFrame 0 flags bytes)) = .ok d) :
    ∃ f h, Carries d f h [] ∧ f.flags = flags ∧ h.finAck = false ∧ h.ack.toNat = k := by
  obtain ⟨bytes, hb, hr⟩ := bind_eq_ok.mp hr
  cases hr
  obtain ⟨hdr, hhdr, rfl⟩ := headerBytes_spec hb
  obtain ⟨f, h, hcar, _, hflags, hack, hfa⟩ := carries_bare hhdr 0 flags
  rw [hex] at hk hack
  have hk0 : k = 0 := Nat.le_zero.mp hk
  exact ⟨f, h, hcar, hflags, hfa, by rw [hack, hk0]; rfl⟩

variable {h : SegmentHeader} {f : Frame} {app : List U8} {now : Tick} {d : Datagram}

/-- A segment that the shared block takes. -/
theorem openBlock_calm (hok : c.control.Ok) (ho : c.isOpen) (hbuf : c.recvBuffer.entries = [])
    (hfl : Fluent b N c) (hk : k ≤ c.expectedSeq.toNat) (hres : ¬ c.Resends h) (hle : c.sendBase ≤ h.ack)
    (hdata : app ≠ [] → f.sequence.toNat = c.expectedSeq.toNat ∧ c.expectedSeq.toNat + app.length < 2 ^ 32)
    (hfin : finSet f.flags → c.peerFinSeen = false ∧ app = [])
    (hr : c.openBlock b f.sequence h app true (finSet f.flags) = .ok (c', out)) :
    Speaks s k c c' out ∧ c'.heard = {
      stage := .done, seq := c.expectedSeq.toNat + app.length, ack := h.ack.toNat
      fin := c.peerFinSeen || finSet f.flags, finAck := c.finAcked || h.finAck } := by
  obtain ⟨hheard, hbuf', ho', halong⟩ := openBlock_speaks (s := s.peer) hfl ho hbuf hk hres hle hdata hfin hr
  have hok' := (openBlock_turns (opened_of_isOpen ho) hr).preserves Control.Ok.turn hok
  exact ⟨⟨.of_opened hok' ho' hbuf', halong⟩, hheard⟩

/-- The segment that completes a handshake acknowledges nothing yet. -/
theorem establish_calm {c₁ : Connection} (hcalm : Calm s c) (hst : c.state = .synReceived ∨ c.state = .synSent)
    (hfl : Fluent b N c) (hk : k ≤ c.expectedSeq.toNat) {r : RtoEstimator} {w : U32} {now : Tick}
    (hc₁ : c₁ = { c.advance now with peerWindow := w, rto := r, handshake := none, state := .established })
    (hflags : finSet f.flags = false) (hfa : h.finAck = false) (hack : h.ack.toNat = c.sendBase.toNat)
    (hr : c₁.openBlock b f.sequence h [] true (finSet f.flags) = .ok (c', out)) :
    Speaks s k c₁ c' out ∧ c'.heard = { c.heard with stage := .done } := by
  have hhand : c.state.handshaking := by rcases hst with hst | hst <;> rw [hst] <;> rfl
  have hnone := (hcalm.greets hhand).2.1
  have hback : h.ack = c.sendBase := BitVec.eq_of_toNat_eq hack
  have hok : c₁.control.Ok := by
    have hturn : Turn (.segment false false) c.control c₁.control := by
      rw [hc₁]
      exact .establish rfl hst
    exact hcalm.control.turn hturn
  have hres : ¬ c₁.Resends h := by
    rintro ⟨_, hne, _⟩
    have hsome : c.unacked.isEmpty = false := by
      rw [hc₁] at hne
      exact hne
    rw [isEmpty_iff.mpr hnone] at hsome
    cases hsome
  have hfl₁ : Fluent b N c₁ := by
    rw [hc₁]
    exact ⟨hfl.cuts, hfl.small, hfl.room, hfl.total⟩
  have hsp := openBlock_calm (s := s) (k := k) hok (by rw [hc₁]; rfl) (by rw [hc₁]; exact hcalm.buffer) hfl₁
    (by rw [hc₁]; exact hk) hres (by rw [hc₁, hback]; exact le_refl _) (fun hne => absurd rfl hne)
    (by rw [hflags]; nofun) hr
  refine ⟨hsp.1, hsp.2.trans ?_⟩
  rw [hc₁, hflags, hfa, hback, Bool.or_false, Bool.or_false]
  rfl

/-- A calm side that has heard nothing waits for the first frame of a handshake. -/
theorem Calm.silent (hcalm : Calm s c) (h : c.heard.stage = .silent) :
    s = .client ∧ c.state = .synSent ∨ s = .server ∧ c.state = .listening := by
  have hstage : c.state.heard = .silent := h
  have hk : c.state.handshaking := by
    cases hst : c.state <;> rw [hst] at hstage <;> first | rfl | cases hstage
  have hg := (hcalm.greets hk).1
  cases hst : c.state with
  | listening =>
    rw [hst] at hg
    cases s
    · cases hg
    · exact Or.inr ⟨rfl, rfl⟩
  | synSent =>
    rw [hst] at hg
    cases s
    · exact Or.inl ⟨rfl, rfl⟩
    · cases hg
  | _ => rw [hst] at hstage; cases hstage

theorem state_of_greeted (h : c.heard.stage = .greeted) : c.state = .synReceived := by
  have hstage : c.state.heard = .greeted := h
  cases hst : c.state <;> rw [hst] at hstage <;> first | rfl | cases hstage

/-- One that has heard all of it is open, unless it is closed. -/
theorem Calm.open_of_done (hcalm : Calm s c) (h : c.heard.stage = .done) (hst : c.state ≠ .closed) :
    c.isOpen := by
  have hstage : c.state.heard = .done := h
  have halive := hcalm.alive
  unfold Connection.isFailed at halive
  unfold Connection.isOpen
  cases hcs : c.state with
  | established | closing => rfl
  | closed => exact absurd hcs hst
  | failed r => rw [hcs] at halive; cases halive
  | _ => rw [hcs] at hstage; cases hstage

/-- Completing the handshake finishes what is told of it. -/
theorem told_established {c₁ : Connection} (hk : c.state.handshaking) {r : RtoEstimator} {w : U32}
    (hc₁ : c₁ = { c.advance now with peerWindow := w, rto := r, handshake := none, state := .established }) :
    c₁.told k = { c.told k with stage := .done } := by
  have hfin : c.state.finished = false := by
    cases hst : c.state <;> rw [hst] at hk <;> first | rfl | cases hk
  rw [hc₁, Connection.told, Connection.told, hfin]
  rfl

/-- The listening side answers a SYN. -/
theorem Calm.hears_syn (hcalm : Calm .server c) (hl : c.state = .listening) (hcar : Carries d f h [])
    (hflags : f.flags = FLAG_SYN) (hk : k ≤ c.expectedSeq.toNat)
    (hr : c.onDatagram b now d = .ok (c', out)) :
    Speaks .server k c c' out ∧ c'.heard = { c.heard with stage := .greeted } := by
  obtain ⟨_, hnone, hex⟩ := hcalm.greets (by rw [hl]; rfl)
  rw [hcar.onDatagram, Connection.onSegment, hflags] at hr
  simp only [Connection.handshakeArm, Connection.advance, hl] at hr
  obtain ⟨⟨returns, c₁, out₁⟩, h₁, hr⟩ := bind_eq_ok.mp hr
  obtain ⟨d', hd', h₁⟩ := bind_eq_ok.mp h₁
  cases h₁
  cases hr
  obtain ⟨f', h', hcar', hflags', hfa', hack'⟩ := bare_carries hex hk hd'
  have hok : Control.Ok { c.control with state := .synReceived } :=
    hcalm.control.turn (.synReceived (a := .segment false false) rfl hl)
  refine ⟨⟨⟨hok, rfl, hcalm.buffer, fun _ => ⟨rfl, hnone, hex⟩⟩, k, hk, .single ?_⟩, rfl⟩
  have hsay := Says.synack (s := .client) (v := c.told k) rfl (by rw [Connection.told, hl]; rfl) hcar'
    hflags' hfa' hack'
  have heq : { c.told k with stage := .done } = (Connection.told { c with
      state := .synReceived, now := max c.now now, peerWindow := h.window
      handshake := some ⟨max c.now now, 1⟩ } k) := by
    simp [Connection.told, hl, State.finished, State.told]
  rw [heq] at hsay
  exact hsay

/-- The connecting side acknowledges the SYN-ACK and may send at once. -/
theorem Calm.hears_synack (hcalm : Calm .client c) (hl : c.state = .synSent) (hfl : Fluent b N c)
    (hcar : Carries d f h []) (hflags : f.flags = FLAG_SYN ||| FLAG_ACK) (hfa : h.finAck = false)
    (hack : h.ack.toNat = c.sendBase.toNat) (hk : k ≤ c.expectedSeq.toNat)
    (hr : c.onDatagram b now d = .ok (c', out)) :
    Speaks .client k c c' out ∧ c'.heard = { c.heard with stage := .done } := by
  obtain ⟨_, _, hex⟩ := hcalm.greets (by rw [hl]; rfl)
  obtain ⟨c₁, out₁, out₂, harm, hblock, rfl⟩ := onDatagram_admitted hcar
    (by rw [Connection.admits, hl, hflags]; rfl) hr
  rw [hflags] at harm
  simp only [Connection.handshakeArm, Connection.advance, hl] at harm
  obtain ⟨c₂, hc₂, harm⟩ := bind_eq_ok.mp harm
  obtain ⟨d', hd', harm⟩ := bind_eq_ok.mp harm
  cases harm
  obtain ⟨r, hc₁⟩ := completeHandshake_spec hc₂
  rw [show (f.flags &&& FLAG_ACK != 0#16) = true by rw [hflags]; rfl] at hblock
  obtain ⟨⟨hcalm', k', hk', halong⟩, hheard⟩ :=
    establish_calm (k := k) hcalm (Or.inr hl) hfl hk hc₁ (by rw [hflags]; rfl) hfa hack hblock
  -- the acknowledgement of the handshake goes out before anything else
  have hex₁ : c₁.expectedSeq = 0#32 := by rw [hc₁]; exact hex
  have hk₁ : k ≤ c₁.expectedSeq.toNat := by rw [hc₁]; exact hk
  obtain ⟨f', h', hcar', hflags', hfa', hack'⟩ := bare_carries hex₁ hk₁ hd'
  have hsay := Says.ack (s := .server) (v := c.told k) rfl (by rw [Connection.told, hl]; rfl) hcar'
    hflags' hfa' hack'
  rw [← told_established (by rw [hl]; rfl) hc₁] at hsay
  exact ⟨⟨hcalm', k', hk', .cons hsay halong⟩, hheard⟩

/-- The listening side is done with the last frame of the handshake. -/
theorem Calm.hears_ack (hcalm : Calm s c) (hl : c.state = .synReceived) (hfl : Fluent b N c)
    (hcar : Carries d f h []) (hflags : f.flags = FLAG_ACK) (hfa : h.finAck = false)
    (hack : h.ack.toNat = c.sendBase.toNat) (hk : k ≤ c.expectedSeq.toNat)
    (hr : c.onDatagram b now d = .ok (c', out)) :
    Speaks s k c c' out ∧ c'.heard = { c.heard with stage := .done } := by
  obtain ⟨c₁, out₁, out₂, harm, hblock, rfl⟩ := onDatagram_admitted hcar
    (by rw [Connection.admits, hl, hflags]; rfl) hr
  rw [hflags] at harm
  simp only [Connection.handshakeArm, Connection.advance, hl] at harm
  obtain ⟨c₂, hc₂, harm⟩ := bind_eq_ok.mp harm
  cases harm
  obtain ⟨r, hc₁⟩ := completeHandshake_spec hc₂
  rw [show (f.flags &&& FLAG_ACK != 0#16) = true by rw [hflags]; rfl] at hblock
  obtain ⟨⟨hcalm', k', hk', halong⟩, hheard⟩ :=
    establish_calm (k := k) hcalm (Or.inl hl) hfl hk hc₁ (by rw [hflags]; rfl) hfa hack hblock
  have htold : c₁.told k = c.told k := by
    rw [told_established (by rw [hl]; rfl) hc₁, Connection.told, hl]
    rfl
  rw [htold] at halong
  exact ⟨⟨hcalm', k', hk', halong⟩, hheard⟩

/-- An open side takes the segment that comes next. -/
theorem Calm.hears_segment (hcalm : Calm s c) (ho : c.isOpen) (hfl : Fluent b N c)
    (hcar : Carries d f h app) (hsyn : f.flags &&& FLAG_SYN = 0#16) (hack : f.flags &&& FLAG_ACK ≠ 0#16)
    (hres : ∀ h ∈ c.ackOf (.onDatagram now d), ¬ c.Resends h) (hbase : c.sendBase ≤ h.ack)
    (hdata : app ≠ [] → f.sequence.toNat = c.expectedSeq.toNat ∧ c.expectedSeq.toNat + app.length < 2 ^ 32)
    (hfin : finSet f.flags → c.peerFinSeen = false ∧ app = []) (hk : k ≤ c.expectedSeq.toNat)
    (hr : c.onDatagram b now d = .ok (c', out)) :
    Speaks s k c c' out ∧ c'.heard = {
      stage := .done, seq := c.expectedSeq.toNat + app.length, ack := h.ack.toNat
      fin := c.peerFinSeen || finSet f.flags, finAck := c.finAcked || h.finAck } := by
  have hadm := admits_of_isOpen ho (f.flags &&& FLAG_SYN != 0#16) (f.flags &&& FLAG_ACK != 0#16)
  obtain ⟨c₁, out₁, out₂, harm, hblock, rfl⟩ := onDatagram_admitted hcar hadm hr
  have hsynset : (f.flags &&& FLAG_SYN != 0#16) = false := by simpa using hsyn
  have hackset : (f.flags &&& FLAG_ACK != 0#16) = true := by simpa using hack
  rw [hsynset] at harm
  obtain ⟨rfl, rfl⟩ := handshakeArm_quiet (c := { c.advance now with peerWindow := h.window }) ho harm
  rw [hackset] at hblock
  have hfl₁ : Fluent b N { c.advance now with peerWindow := h.window } :=
    ⟨hfl.cuts, hfl.small, hfl.room, hfl.total⟩
  have hresends : ¬ c.Resends h := by
    refine hres h ?_
    rw [ackOf_admitted hcar (by simpa using hack) hadm]
    rfl
  have hsp := openBlock_calm (s := s) (k := k) (c := { c.advance now with peerWindow := h.window })
    hcalm.control ho hcalm.buffer hfl₁ hk hresends hbase hdata hfin hblock
  exact ⟨⟨hsp.1.calm, hsp.1.along⟩, hsp.2⟩

/-- A side that is not closed makes of a datagram what its peer has said with it. -/
theorem onDatagram_speaks (hcalm : Calm s c) (hfl : Fluent b N c) (hst : c.state ≠ .closed)
    {v : Standing} (hsay : Says s c.heard d v) (hlt : v.seq < 2 ^ 32)
    (hres : ∀ h ∈ c.ackOf (.onDatagram now d), ¬ c.Resends h) (hk : k ≤ c.expectedSeq.toNat)
    (hr : c.onDatagram b now d = .ok (c', out)) : Speaks s k c c' out ∧ c'.heard = v := by
  cases hsay with
  | syn hs hstage hcar hflags =>
    rcases hcalm.silent hstage with ⟨hs', _⟩ | ⟨_, hl⟩
    · rw [hs] at hs'
      cases hs'
    · subst hs
      exact hcalm.hears_syn hl hcar hflags hk hr
  | synack hs hstage hcar hflags hfa hack =>
    rcases hcalm.silent hstage with ⟨_, hl⟩ | ⟨hs', _⟩
    · subst hs
      exact hcalm.hears_synack hl hfl hcar hflags hfa hack hk hr
    · rw [hs] at hs'
      cases hs'
  | ack _ hstage hcar hflags hfa hack =>
    exact hcalm.hears_ack (state_of_greeted hstage) hfl hcar hflags hfa hack hk hr
  | segment hstage hcar hsyn hack hle hseq hfin _ _ =>
    exact hcalm.hears_segment (hcalm.open_of_done hstage hst) hfl hcar hsyn hack hres hle
      (fun hne => ⟨hseq hne, hlt⟩) hfin hk hr

/-! ## Duplicates -/

/-- The call brings data with an acknowledgement that repeats `send_base` while something is
    outstanding. -/
def Connection.Echoes (c : Connection) (a : Call) : Prop :=
  c.Repeats a ∧ ∃ seg ∈ a.segment?, seg.2.2 ≠ []

/-- A calm side with a threshold of at least three has counted no more duplicates than it has seen
    marks, and has never retransmitted. -/
structure Untroubled (s : Side) (c : Connection) : Prop where
  calm : Calm s c
  threshold : 3#32 ≤ c.config.fastRetransmitDupAcks
  dups : c.dupAckCount.toNat ≤ c.heard.marks
  never : c.stats.fastRetransmits = 0

/-- A duplicate without data brings a mark that has not been seen. -/
theorem Untroubled.repeats (hc : Untroubled s c) {now : Tick} {d : Datagram} {v : Standing}
    (hsay : Says s c.heard d v) (hrep : c.Repeats (.onDatagram now d))
    (hno : ¬ c.Echoes (.onDatagram now d)) : c.heard.marks < v.marks := by
  obtain ⟨h, hh, hack, hne⟩ := hrep
  have hh' := hh
  simp only [Connection.ackOf, Option.mem_def, Option.bind_eq_some_iff] at hh'
  obtain ⟨⟨f, h', app⟩, hseg, hh'⟩ := hh'
  split at hh'
  · cases hh'
    have hnil : app = [] := by
      by_contra happ
      exact hno ⟨⟨_, hh, hack, hne⟩, _, hseg, happ⟩
    subst hnil
    have hdone : c.heard.stage = .done := by
      have hk : c.state.handshaking = false := by
        by_contra hk
        have hnone := (hc.calm.greets (by simpa using hk)).2.1
        rw [isEmpty_iff.mpr hnone] at hne
        cases hne
      exact heard_of_opened (hc.calm.opened hk)
    exact hsay.marks_lt hdone (carries_of_segment? hseg) (congrArg BitVec.toNat hack)
  · cases hh'

/-- Fewer than two duplicates before it, so it is not the one that triggers. -/
theorem Untroubled.below (hc : Untroubled s c) {v : Standing} (hlt : c.heard.marks < v.marks) {n : U32}
    (hn : b.add c.dupAckCount 1#32 = .ok n) :
    n ≠ c.config.fastRetransmitDupAcks ∧ n.toNat = c.dupAckCount.toNat + 1 := by
  have hdups := hc.dups
  have hle := v.marks_le
  have hsum : n.toNat = c.dupAckCount.toNat + 1 := by
    rw [Build.add_eq hn, BitVec.toNat_add, BitVec.toNat_ofNat]
    omega
  refine ⟨fun heq => ?_, hsum⟩
  have hthree : 3 ≤ c.config.fastRetransmitDupAcks.toNat := hc.threshold
  rw [← heq] at hthree
  omega

theorem Untroubled.not_resends (hc : Untroubled s c) {now : Tick} {d : Datagram} {v : Standing}
    (hsay : Says s c.heard d v) (hno : ¬ c.Echoes (.onDatagram now d)) :
    ∀ h ∈ c.ackOf (.onDatagram now d), ¬ c.Resends h := by
  rintro h hh ⟨hack, hne, hk⟩
  have hlt := hc.repeats hsay ⟨h, hh, hack, hne⟩ hno
  have hdups := hc.dups
  have hle := v.marks_le
  have hthree : 3 ≤ c.config.fastRetransmitDupAcks.toNat := hc.threshold
  rw [← hk, BitVec.toNat_add, BitVec.toNat_ofNat] at hthree
  omega

/-- Whatever a side makes of a beat, as long as its duplicates bring marks. -/
theorem Untroubled.beat {a : Call} (hc : Untroubled s c) (hcalm : Calm s c') (hbeat : Beat b c a c')
    (hfire : ¬ c.Fires b a) (hmono : c.heard.marks ≤ c'.heard.marks)
    (hrep : c.Repeats a → c.heard.marks < c'.heard.marks) : Untroubled s c' := by
  have hcfg := hbeat.config
  refine ⟨hcalm, by rw [hcfg]; exact hc.threshold, ?_, ?_⟩
  · cases hbeat with
    | advance _ _ _ hp =>
      rw [show c'.dupAckCount = 0#32 from congrArg Pace.dupAckCount hp]
      exact Nat.zero_le _
    | @duplicate n hr hn _ hp =>
      have hlt := hrep hr
      have hsum := (hc.below hlt hn).2
      rw [show c'.dupAckCount = n from congrArg Pace.dupAckCount hp, hsum]
      have hdups := hc.dups
      omega
    | fast hr hn => exact absurd rfl (hc.below (hrep hr) hn).1
    | fire hf => exact absurd hf hfire
    | idle _ _ _ hp =>
      rw [show c'.dupAckCount = c.dupAckCount from congrArg Pace.dupAckCount hp]
      exact Nat.le_trans hc.dups hmono
  · cases hbeat with
    | advance _ _ _ hp | duplicate _ _ _ hp | idle _ _ _ hp =>
      rw [show c'.stats.fastRetransmits = c.stats.fastRetransmits from congrArg Pace.fastRetransmits hp]
      exact hc.never
    | fast hr hn => exact absurd rfl (hc.below (hrep hr) hn).1
    | fire hf => exact absurd hf hfire

/-! ## Links -/

/-- What the side `s` has heard and what its peer `X` has told, when `n` datagrams of `X` have been
    delivered.  A closed side does not listen; it has been told the FIN. -/
structure Hearing (s : Side) (X Y : Endpoint) (n : Nat) : Prop where
  taken : n ≤ X.emitted.length
  along : ∃ v k, k ≤ X.conn.expectedSeq.toNat ∧ (Y.conn.state ≠ .closed → v = Y.conn.heard) ∧
    (Y.conn.state = .closed → v.fin = true) ∧ Along (Says s) v (pending X.emitted n) (X.conn.told k)

variable {e e' X Y : Endpoint} {a : Call} {n m : Nat}

/-- The peer speaks. -/
theorem Hearing.put (h : Hearing s.peer X Y n) (hspeaks : ∀ k ≤ X.conn.expectedSeq.toNat,
      ∃ out, e'.emitted = X.emitted ++ out ∧ Speaks s k X.conn e'.conn out) : Hearing s.peer e' Y n := by
  obtain ⟨v, k, hk, hopen, hclosed, halong⟩ := h.along
  obtain ⟨out, hem, _, k', hk', hout⟩ := hspeaks k hk
  refine ⟨?_, v, k', hk', hopen, hclosed, ?_⟩
  · rw [hem, List.length_append]
    exact Nat.le_trans h.taken (Nat.le_add_right _ _)
  · rw [hem]
    exact Fifo.put h.taken halong hout

/-- A side that is closed has seen the FIN. -/
theorem Hearing.of_heard {k : Nat} (hn : n ≤ X.emitted.length) (hk : k ≤ X.conn.expectedSeq.toNat)
    (hok : e'.conn.control.Ok)
    (halong : Along (Says s) e'.conn.heard (pending X.emitted n) (X.conn.told k)) : Hearing s X e' n :=
  ⟨hn, _, k, hk, fun _ => rfl, fun hcl => (hok.closed hcl).2, halong⟩

/-- A call without a datagram leaves a side untroubled, and what it has heard as it was. -/
theorem call_untroubled (hloc : ∀ now d, a ≠ .onDatagram now d) (hno : ¬ e.conn.TimerFires b a)
    (hc : Untroubled s e.conn) (hfl : Fluent b e.sent.length e.conn)
    (hroom : b = .checked ∨ e'.sent.length < 2 ^ 32) (hr : e.call b a = .ok e') :
    Untroubled s e'.conn ∧ e'.conn.heard = e.conn.heard ∧
      ∀ k ≤ e.conn.expectedSeq.toNat, ∃ out, e'.emitted = e.emitted ++ out ∧ Speaks s k e.conn e'.conn out := by
  obtain ⟨_, _, hspeaks, hheard⟩ := call_speaks hloc hno hc.calm hfl hroom (Nat.zero_le _) hr
  refine ⟨hc.beat hspeaks.calm (call_beat hr) ?_ (by rw [hheard]) ?_, hheard, fun k hk => ?_⟩
  · rintro ⟨now, rfl, hfires⟩
    exact hno ⟨now, rfl, Or.inl hfires⟩
  · rintro ⟨h, hh, _⟩
    have hnone : a.segment? = none := by
      cases a with
      | onDatagram now d => exact absurd rfl (hloc now d)
      | _ => rfl
    simp only [Connection.ackOf, hnone, Option.bind_none] at hh
    cases hh
  · obtain ⟨out, hem, hspeaks, _⟩ := call_speaks hloc hno hc.calm hfl hroom hk hr
    exact ⟨out, hem, hspeaks⟩

/-- What comes after the FIN has none. -/
theorem Says.no_fin {v v' : Standing} {d : Datagram} (hs : Says s v d v') (hv : v.fin = true) :
    ∃ f h app, Carries d f h app ∧ finSet f.flags = false := by
  cases hs with
  | syn _ _ hcar hflags => exact ⟨_, _, _, hcar, by rw [hflags]; rfl⟩
  | synack _ _ hcar hflags => exact ⟨_, _, _, hcar, by rw [hflags]; rfl⟩
  | ack _ _ hcar hflags => exact ⟨_, _, _, hcar, by rw [hflags]; rfl⟩
  | segment _ hcar _ _ _ _ hfin =>
    refine ⟨_, _, _, hcar, Bool.eq_false_iff.mpr fun hset => ?_⟩
    rw [(hfin hset).1] at hv
    cases hv

/-- A datagram at a side that is closed. -/
theorem onDatagram_deaf (hc : Untroubled s c) (hcl : c.state = .closed) {now : Tick} {d : Datagram}
    {v v' : Standing} (hsay : Says s v d v') (hv : v.fin = true) (hr : c.onDatagram b now d = .ok (c', out)) :
    Untroubled s c' ∧ c'.state = .closed ∧ ∀ k ≤ c.expectedSeq.toNat, Speaks s k c c' out := by
  obtain ⟨f, h, app, hcar, hfin⟩ := hsay.no_fin hv
  rw [hcar.onDatagram] at hr
  obtain ⟨rfl, hout⟩ := onSegment_final (c := c.advance now) (show c.state.final by rw [hcl]; rfl) hr
  obtain ⟨hcontrol, halive, hbuf, hgreets⟩ := hc.calm
  have hcalm : Calm s { c.advance now with peerWindow := h.window } := ⟨hcontrol, halive, hbuf, hgreets⟩
  refine ⟨⟨hcalm, hc.threshold, hc.dups, hc.never⟩, hcl, fun k hk => ⟨hcalm, k, hk, ?_⟩⟩
  rcases hout with ⟨_, rfl⟩ | ⟨⟨_, hset⟩, _⟩
  · exact .nil
  · rw [hfin] at hset
    cases hset

/-- A datagram at a side that is not. -/
theorem onDatagram_untroubled (hc : Untroubled s c) (hcl : c.state ≠ .closed) (hfl : Fluent b N c)
    {now : Tick} {d : Datagram} {v : Standing} (hsay : Says s c.heard d v) (hlt : v.seq < 2 ^ 32)
    (hno : ¬ c.Echoes (.onDatagram now d)) (hr : c.onDatagram b now d = .ok (c', out)) :
    Untroubled s c' ∧ c'.heard = v ∧ ∀ k ≤ c.expectedSeq.toNat, Speaks s k c c' out := by
  have hall := fun k hk => onDatagram_speaks (k := k) hc.calm hfl hcl hsay hlt (hc.not_resends hsay hno) hk hr
  obtain ⟨hspeaks, hheard⟩ := hall 0 (Nat.zero_le _)
  refine ⟨hc.beat hspeaks.calm (onDatagram_beat hr) ?_ ?_ ?_, hheard, fun k hk => (hall k hk).1⟩
  · rintro ⟨now', heq, _⟩
    cases heq
  · rw [hheard]
    exact hsay.marks_le
  · intro hrep
    rw [hheard]
    exact hc.repeats hsay hrep hno

/-! ## Runs -/

section Runs

variable {ccfg scfg : Config} {p p' : Pair}

/-- Runs in which every datagram is delivered once and in order; `n s` counts those that have been
    delivered to the side `s`. -/
inductive Pair.FifoRun (b : Build) (ccfg scfg : Config) (G : Pair → Side → Call → Prop) :
    Pair → (Side → Nat) → Prop
  | start {t t' : Tick} {p : Pair} : Pair.start b ccfg scfg t t' = .ok p →
      FifoRun b ccfg scfg G p fun _ => 0
  | own {p p' : Pair} {n : Side → Nat} {s : Side} {a : Call} : FifoRun b ccfg scfg G p n →
      (∀ now d, a ≠ .onDatagram now d) → G p s a → p.step b s a = .ok p' → FifoRun b ccfg scfg G p' n
  | deliver {p p' : Pair} {n : Side → Nat} {s : Side} {now : Tick} {d : Datagram} :
      FifoRun b ccfg scfg G p n → (p.get s.peer).emitted[n s]? = some d → G p s (.onDatagram now d) →
      p.step b s (.onDatagram now d) = .ok p' → FifoRun b ccfg scfg G p' (Function.update n s (n s + 1))

theorem Pair.FifoRun.reach {G : Pair → Side → Call → Prop} {n : Side → Nat}
    (h : Pair.FifoRun b ccfg scfg G p n) : Pair.ReachVia b ccfg scfg G p := by
  induction h with
  | start h => exact .start h
  | @own p p' n s a _ hloc hg hr ih =>
    refine .step ih ?_ hg hr
    cases a with
    | onDatagram now d => exact absurd rfl (hloc now d)
    | _ => trivial
  | @deliver p p' n s now d _ hd hg hr ih =>
    have hlegal : p.Legal s (.onDatagram now d) := List.mem_of_getElem? hd
    exact .step ih hlegal hg hr

/-- No timer fires, and no data come with an acknowledgement that repeats `send_base`. -/
def Pair.Undisturbed (b : Build) (p : Pair) (s : Side) (a : Call) : Prop :=
  ¬ (p.get s).conn.TimerFires b a ∧ ¬ (p.get s).conn.Echoes a

structure Lossless (p : Pair) (n : Side → Nat) : Prop where
  side : ∀ s, Untroubled s (p.get s).conn
  hearing : ∀ s, Hearing s (p.get s.peer) (p.get s) (n s)

/-- One side has moved. -/
theorem Lossless.set {n n' : Side → Nat} (h : Lossless p n) (hside : Untroubled s e.conn)
    (hhear : Hearing s (p.get s.peer) e (n' s)) (hn : n' s.peer = n s.peer)
    (hspeak : Hearing s.peer e (p.get s.peer) (n s.peer)) : Lossless (p.set s e) n' := by
  refine ⟨fun t => ?_, fun t => ?_⟩
  · rcases t.eq_or_peer s with rfl | rfl
    · rw [Pair.get_set_self]
      exact hside
    · rw [Pair.get_set_peer]
      exact h.side _
  · rcases t.eq_or_peer s with rfl | rfl
    · rw [Pair.get_set_self, Pair.get_set_peer]
      exact hhear
    · rw [Pair.peer_peer, Pair.get_set_self, Pair.get_set_peer, hn]
      exact hspeak

/-- A connection nothing has happened to. -/
theorem blank_untroubled {cfg : Config} {t : Tick} {st : State} (hst : s.greets st)
    (hk : 3#32 ≤ cfg.fastRetransmitDupAcks) (hr : Connection.blank b cfg t st = .ok c) :
    Untroubled s c ∧ c.heard = ⟨st.heard, 0, 0, false, false⟩ ∧ c.told 0 = ⟨st.told, 0, 0, st.finished, false⟩ ∧
      c.state = st ∧ c.expectedSeq = 0#32 := by
  have hok : c.control.Ok := blank_ok (Side.greets_handshaking hst) hr
  obtain ⟨w, _, hr⟩ := bind_eq_ok.mp hr
  cases hr
  refine ⟨⟨⟨hok, ?_, rfl, fun _ => ⟨hst, rfl, rfl⟩⟩, hk, Nat.zero_le _, rfl⟩, rfl, rfl, rfl, rfl⟩
  cases st with
  | failed r => cases s <;> cases hst
  | _ => rfl

theorem start_lossless {t t' : Tick} (hk : ∀ s : Side, 3#32 ≤ (s.config ccfg scfg).fastRetransmitDupAcks)
    (hr : Pair.start b ccfg scfg t t' = .ok p) : Lossless p fun _ => 0 := by
  obtain ⟨⟨c, syn⟩, hcon, hr⟩ := bind_eq_ok.mp hr
  obtain ⟨c', hlis, hr⟩ := bind_eq_ok.mp hr
  cases hr
  obtain ⟨c₀, hblank, hcon⟩ := bind_eq_ok.mp hcon
  obtain ⟨d, hd, hcon⟩ := bind_eq_ok.mp hcon
  cases hcon
  obtain ⟨⟨hcalm, hthree, hdups, hnever⟩, hheard, htold, hst, hex⟩ :=
    blank_untroubled (s := .client) rfl (hk .client) hblank
  obtain ⟨hserver, hheard', htold', hst', _⟩ := blank_untroubled (s := .server) rfl (hk .server) hlis
  -- the SYN is on its way
  obtain ⟨f, h, hcar, hflags, _⟩ := bare_carries (k := 0) hex (Nat.zero_le _) hd
  have hsay := Says.syn (s := .server) (v := c'.heard) rfl (by rw [hheard']; rfl) hcar hflags
  refine ⟨?_, ?_⟩
  · rintro (_ | _)
    · exact ⟨⟨hcalm.control, hcalm.alive, hcalm.buffer, hcalm.greets⟩, hthree, hdups, hnever⟩
    · exact hserver
  · rintro (_ | _)
    · refine ⟨Nat.zero_le _, c'.told 0, 0, Nat.zero_le _, fun _ => ?_, fun hcl => ?_, .nil⟩
      · exact htold'.trans hheard.symm
      · exact absurd (hst.symm.trans hcl) nofun
    · refine ⟨Nat.zero_le _, c'.heard, 0, Nat.zero_le _, fun _ => rfl, fun hcl => ?_, .single ?_⟩
      · exact absurd (hst'.symm.trans hcl) nofun
      · show Says .server c'.heard _ (c₀.told 0)
        rw [htold]
        rw [hheard'] at hsay ⊢
        exact hsay

/-- One step. -/
theorem step_lossless {n : Side → Nat} (h : Lossless p n) (hfl : Fluent b (p.get s).sent.length (p.get s).conn)
    (hroom : b = .checked ∨ e.sent.length < 2 ^ 32) (hund : p.Undisturbed b s a)
    (hr : (p.get s).call b a = .ok e) (hloc : ∀ now d, a ≠ .onDatagram now d) : Lossless (p.set s e) n := by
  obtain ⟨hside, hheard, hspeaks⟩ := call_untroubled hloc hund.1 (h.side s) hfl hroom hr
  have hlink := h.hearing s.peer
  rw [Pair.peer_peer] at hlink
  refine h.set hside ?_ rfl (hlink.put hspeaks)
  obtain ⟨v, k, hk, hopen, hclosed, halong⟩ := (h.hearing s).along
  by_cases hcl : (p.get s).conn.state = .closed
  · refine ⟨(h.hearing s).taken, v, k, hk, fun hne => absurd (call_stays_closed hcl hr) hne, ?_, halong⟩
    exact fun _ => hclosed hcl
  · rw [hopen hcl, ← hheard] at halong
    exact .of_heard (h.hearing s).taken hk hside.calm.control halong

theorem deliver_lossless {n : Side → Nat} (h : Lossless p n)
    (hfl : Fluent b (p.get s).sent.length (p.get s).conn) {now : Tick} {d : Datagram}
    (hd : (p.get s.peer).emitted[n s]? = some d) (hund : p.Undisturbed b s (.onDatagram now d))
    (hr : (p.get s).call b (.onDatagram now d) = .ok e) :
    Lossless (p.set s e) (Function.update n s (n s + 1)) := by
  obtain ⟨v, k, hk, hopen, hclosed, halong⟩ := (h.hearing s).along
  obtain ⟨v', hsay, halong⟩ := Fifo.take hd halong
  have htaken : n s + 1 ≤ (p.get s.peer).emitted.length := (List.getElem?_eq_some_iff.mp hd).1
  have hlt : v'.seq < 2 ^ 32 :=
    Nat.lt_of_le_of_lt (halong.le (f := Standing.seq) Says.seq_le) (BitVec.isLt _)
  have hlink := h.hearing s.peer
  rw [Pair.peer_peer] at hlink
  have hpeer : Function.update n s (n s + 1) s.peer = n s.peer :=
    Function.update_of_ne (by cases s <;> nofun) _ _
  obtain ⟨⟨c', out⟩, hc, hr⟩ := bind_eq_ok.mp hr
  cases hr
  by_cases hcl : (p.get s).conn.state = .closed
  · obtain ⟨hside, hcl', hspeaks⟩ := onDatagram_deaf (h.side s) hcl hsay (hclosed hcl) hc
    refine h.set hside ?_ hpeer (hlink.put fun k hk => ⟨out, rfl, hspeaks k hk⟩)
    rw [Function.update_self]
    exact ⟨htaken, v', k, hk, fun hne => absurd hcl' hne, fun _ => hsay.fin_mono (hclosed hcl), halong⟩
  · rw [hopen hcl] at hsay
    obtain ⟨hside, rfl, hspeaks⟩ := onDatagram_untroubled (h.side s) hcl hfl hsay hlt hund.2 hc
    refine h.set hside ?_ hpeer (hlink.put fun k hk => ⟨out, rfl, hspeaks k hk⟩)
    rw [Function.update_self]
    exact .of_heard htaken hk hside.calm.control halong

/-- What `Fluent` asks for, from a reachable state. -/
theorem reach_fluent {G : Pair → Side → Call → Prop} (hp : Pair.ReachVia b ccfg scfg G p)
    (hsmall : (s.config ccfg scfg).segmentSize < 2 ^ 31) (hN : b = .checked ∨ (p.get s).sent.length < 2 ^ 32) :
    Fluent b (p.get s).sent.length (p.get s).conn := by
  have hs := reach_sound hp s
  exact ⟨hs.steady.cuts, by rw [hs.steady.config]; exact hsmall, hN, (hs.placed hN).total⟩

/-- The other side keeps what it has, the one that moves sends no less. -/
theorem sent_back (hr : (p.get s).call b a = .ok e)
    (hN : ∀ t, b = .checked ∨ ((p.set s e).get t).sent.length < 2 ^ 32) (t : Side) :
    b = .checked ∨ (p.get t).sent.length < 2 ^ 32 := by
  have hN' := hN t
  rcases t.eq_or_peer s with rfl | rfl
  · rw [Pair.get_set_self] at hN'
    exact hN'.imp id (Nat.lt_of_le_of_lt (Endpoint.call_sent_le hr))
  · rw [Pair.get_set_peer] at hN'
    exact hN'

theorem run_lossless {n : Side → Nat} (hsmall : ∀ s : Side, (s.config ccfg scfg).segmentSize < 2 ^ 31)
    (hk : ∀ s : Side, 3#32 ≤ (s.config ccfg scfg).fastRetransmitDupAcks)
    (hrun : Pair.FifoRun b ccfg scfg (Pair.Undisturbed b) p n)
    (hN : ∀ s, b = .checked ∨ (p.get s).sent.length < 2 ^ 32) : Lossless p n := by
  induction hrun with
  | start hr => exact start_lossless hk hr
  | @own p p' n s a hrun hloc hund hr ih =>
    obtain ⟨e, he, rfl⟩ := Pair.step_inv hr
    have hback := sent_back he hN
    have hN' := hN s
    rw [Pair.get_set_self] at hN'
    exact step_lossless (ih hback) (reach_fluent hrun.reach (hsmall s) (hback s)) hN' hund he hloc
  | @deliver p p' n s now d hrun hd hund hr ih =>
    obtain ⟨e, he, rfl⟩ := Pair.step_inv hr
    have hback := sent_back he hN
    exact deliver_lossless (ih hback) (reach_fluent hrun.reach (hsmall s) (hback s)) hd hund he

/-- **Nothing is retransmitted over links that lose nothing**, as long as no timer fires and no data
    come with an acknowledgement that repeats `send_base` while something is outstanding. -/
theorem fifo_never_resends {n : Side → Nat} (hsmall : ∀ s : Side, (s.config ccfg scfg).segmentSize < 2 ^ 31)
    (hk : ∀ s : Side, 3#32 ≤ (s.config ccfg scfg).fastRetransmitDupAcks)
    (hrun : Pair.FifoRun b ccfg scfg (Pair.Undisturbed b) p n)
    (hN : ∀ s, b = .checked ∨ (p.get s).sent.length < 2 ^ 32) (s : Side) :
    (p.get s).conn.stats.fastRetransmits = 0 :=
  ((run_lossless hsmall hk hrun hN).side s).never

end Runs

/-! ## Data in both directions -/

/-- A delivery in a script is that of the next datagram. -/
def Act.inTurn (n : Nat) : Act → Bool
  | .deliver _ i => i == n
  | _ => true

def Act.taken (n : Nat) : Act → Nat
  | .deliver _ _ => n + 1
  | _ => n

/-- Play a script over links that lose nothing, every call of which passes the test `g`. -/
def Pair.playFifo (b : Build) (g : Pair → Side → Call → Bool) :
    List (Side × Act) → Pair → (Side → Nat) → Exec (Pair × (Side → Nat))
  | [], p, n => .ok (p, n)
  | (s, a) :: acts, p, n =>
    match p.callOf s a with
    | none => .error .outOfBounds
    | some c =>
      if a.inTurn (n s) && g p s c then do
        let p' ← p.step b s c
        playFifo b g acts p' (Function.update n s (a.taken (n s)))
      else .error .unreachable

theorem playFifo_run {ccfg scfg : Config} {G : Pair → Side → Call → Prop} {g : Pair → Side → Call → Bool}
    (hg : ∀ p s c, g p s c = true → G p s c) : ∀ {acts : List (Side × Act)} {p p' : Pair}
    {n n' : Side → Nat}, Pair.FifoRun b ccfg scfg G p n → Pair.playFifo b g acts p n = .ok (p', n') →
      Pair.FifoRun b ccfg scfg G p' n'
  | [], _, _, _, _, h, hp => by cases hp; exact h
  | (s, a) :: acts, p, p', n, n', h, hp => by
    simp only [Pair.playFifo] at hp
    split at hp
    · cases hp
    · rename_i c hc
      split at hp
      · rename_i ht
        obtain ⟨hturn, hguard⟩ := Bool.and_eq_true_iff.mp ht
        obtain ⟨p₁, hs, hp⟩ := bind_eq_ok.mp hp
        refine playFifo_run hg ?_ hp
        cases a with
        | deliver now i =>
          have hi : i = n s := by simpa [Act.inTurn] using hturn
          obtain ⟨d, hd, rfl⟩ := Option.map_eq_some_iff.mp hc
          rw [hi] at hd
          exact .deliver h hd (hg _ _ _ hguard) hs
        | _ =>
          cases hc
          rw [show Act.taken (n s) _ = n s from rfl, Function.update_eq_self]
          exact .own h (by intro _ _ hcall; cases hcall) (hg _ _ _ hguard) hs
      · cases hp

/-- Does the script play to its end, with every datagram delivered, in a state that passes the test? -/
def Pair.playsFifo (b : Build) (ccfg scfg : Config) (g : Pair → Side → Call → Bool) (acts : List (Side × Act))
    (test : Pair → Bool) : Bool :=
  match (do let p ← Pair.start b ccfg scfg 0 0; Pair.playFifo b g acts p fun _ => 0) with
  | .ok (p, n) => [Side.client, Side.server].all (fun s => n s == (p.get s.peer).emitted.length) && test p
  | .error _ => false

theorem playsFifo_run {ccfg scfg : Config} {G : Pair → Side → Call → Prop} {g : Pair → Side → Call → Bool}
    (hg : ∀ p s c, g p s c = true → G p s c) {acts : List (Side × Act)} {test : Pair → Bool}
    (h : Pair.playsFifo b ccfg scfg g acts test = true) : ∃ p n, Pair.FifoRun b ccfg scfg G p n ∧
      (∀ s, n s = (p.get s.peer).emitted.length) ∧ test p = true := by
  unfold Pair.playsFifo at h
  split at h
  · rename_i p n hp
    obtain ⟨p₀, h₀, hp⟩ := bind_eq_ok.mp hp
    obtain ⟨hall, ht⟩ := Bool.and_eq_true_iff.mp h
    refine ⟨p, n, playFifo_run hg (.start h₀) hp, fun s => ?_, ht⟩
    have hs := List.all_eq_true.mp hall s (by cases s <;> decide)
    simpa using hs
  · cases h

instance decidableRepeats (c : Connection) (a : Call) : Decidable (c.Repeats a) :=
  inferInstanceAs (Decidable (∃ h ∈ c.ackOf a, _))

instance decidableEchoes (c : Connection) (a : Call) : Decidable (c.Echoes a) :=
  inferInstanceAs (Decidable (_ ∧ ∃ seg ∈ a.segment?, seg.2.2 ≠ []))

/-- Neither a tick nor an echo. -/
def Connection.still (c : Connection) : Call → Bool
  | .onTick _ => false
  | a => decide (¬ c.Echoes a)

theorem not_timerFires {a : Call} (ha : ∀ now, a ≠ .onTick now) : ¬ c.TimerFires b a :=
  fun ⟨now, heq, _⟩ => ha now heq

theorem undisturbed_of_still {p : Pair} {a : Call} (h : (p.get s).conn.still a = true) :
    p.Undisturbed b s a := by
  cases a with
  | onTick now => cases h
  | _ => exact ⟨not_timerFires (by intro _ hcall; cases hcall), of_decide_eq_true h⟩

/-- A byte from the client crosses the FIN of the server, which repeats an acknowledgement; then the
    client closes. -/
def crossedFin : List (Side × Act) :=
  [(.server, .deliver 1 0), (.client, .deliver 2 0), (.server, .deliver 3 1), (.client, .send 4 [1]),
   (.server, .close 4), (.client, .deliver 5 1), (.server, .deliver 6 2), (.server, .deliver 6 3),
   (.client, .deliver 7 2), (.client, .close 8), (.server, .deliver 9 4), (.client, .deliver 10 3)]

theorem lossConfig_fits (s : Side) : (s.config lossConfig lossConfig).segmentSize < 2 ^ 31 ∧
    3#32 ≤ (s.config lossConfig lossConfig).fastRetransmitDupAcks := by
  cases s <;> decide

theorem fifo_never_resends_sample : ∃ p n,
    Pair.FifoRun .checked lossConfig lossConfig (Pair.Undisturbed .checked) p n ∧
    (∀ s, n s = (p.get s.peer).emitted.length) ∧ p.client.conn.state = .closed ∧ p.server.received = [1] ∧
    ∀ s, (p.get s).conn.stats.fastRetransmits = 0 := by
  have hrun : Pair.playsFifo .checked lossConfig lossConfig (fun p s a => (p.get s).conn.still a)
      (crossedFin ++ [(.server, .recv)])
      (fun p => decide (p.client.conn.state = .closed ∧ p.server.received = [1])) = true := by
    decide +kernel
  obtain ⟨p, n, hp, hall, ht⟩ := playsFifo_run (G := Pair.Undisturbed .checked)
    (fun _ _ _ hstill => undisturbed_of_still hstill) hrun
  obtain ⟨hcl, hrecv⟩ := of_decide_eq_true ht
  exact ⟨p, n, hp, hall, hcl, hrecv, fifo_never_resends (fun s => (lossConfig_fits s).1)
    (fun s => (lossConfig_fits s).2) hp fun _ => Or.inl rfl⟩

/-- A byte from the client crosses three from the server. -/
def crossedData : List (Side × Act) :=
  [(.server, .deliver 1 0), (.client, .deliver 2 0), (.server, .deliver 3 1), (.client, .send 4 [1]),
   (.server, .send 4 [2]), (.server, .send 4 [3]), (.server, .send 4 [4]), (.client, .deliver 5 1),
   (.client, .deliver 5 2), (.client, .deliver 5 3), (.server, .deliver 6 2), (.server, .deliver 6 3),
   (.server, .deliver 6 4), (.server, .deliver 6 5), (.server, .deliver 6 6), (.client, .deliver 7 4),
   (.client, .deliver 7 5)]

/-- **Data in both directions**: no timer ticks, every datagram is delivered once and in order, and the
    client retransmits. -/
theorem crossed_data_resends : ∃ p n, Pair.FifoRun .checked lossConfig lossConfig
      (fun p s a => ¬ (p.get s).conn.TimerFires .checked a) p n ∧
    (∀ s, n s = (p.get s.peer).emitted.length) ∧ 3#32 ≤ lossConfig.fastRetransmitDupAcks ∧
    ¬ ∀ s, (p.get s).conn.stats.fastRetransmits = 0 := by
  have hrun : Pair.playsFifo .checked lossConfig lossConfig
      (fun _ _ a => match a with | .onTick _ => false | _ => true) crossedData
      (fun p => decide (p.client.conn.stats.fastRetransmits = 1)) = true := by
    decide +kernel
  have htickless : ∀ (p : Pair) (s : Side) (a : Call),
      (match a with | .onTick _ => false | _ => true) = true → ¬ (p.get s).conn.TimerFires .checked a := by
    rintro p s a ha ⟨now, rfl, _⟩
    cases ha
  obtain ⟨p, n, hp, hall, ht⟩ := playsFifo_run htickless hrun
  refine ⟨p, n, hp, hall, by decide, fun hno => ?_⟩
  have hone : p.client.conn.stats.fastRetransmits = 1 := of_decide_eq_true ht
  have hzero : p.client.conn.stats.fastRetransmits = 0 := hno .client
  omega

end Distrans
