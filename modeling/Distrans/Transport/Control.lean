import Distrans.Transport.Accepts
import Distrans.Transport.Guarantees
import Mathlib.Logic.Relation

/-!
# The control state of a connection

The state, the application's request to close and the three end-of-stream flags (`Control`) form
an automaton of their own: `Turn` lists its transitions, and every function of the state machine
is a sequence of turns, whatever the configuration and whatever arrives.

* `State.Step` — the edges of the state diagram; a turn stays where it is or takes one.
* `Control.Ok` — what the flags say of each other in every state.
* `state_only_advances` — **the state moves along the edges only; a closed connection answers a
  FIN and nothing else, a failed one nothing, and neither extends the in-order stream.**
-/

set_option autoImplicit false

namespace Distrans

open Machine Relation

variable {b : Build} {c c' : Connection} {out : List Datagram}

/-! ## The automaton -/

structure Control where
  state : State
  closeRequested : Bool
  finPending : Bool
  finAcked : Bool
  peerFinSeen : Bool
  deriving DecidableEq, Repr

def Connection.control (c : Connection) : Control :=
  ⟨c.state, c.closeRequested, c.finPending.isSome, c.finAcked, c.peerFinSeen⟩

/-- States in which the handshake is not complete. -/
def State.handshaking : State → Bool
  | .listening | .synSent | .synReceived => true
  | _ => false

/-- States in which the handshake is complete and nothing has failed. -/
def State.opened : State → Bool
  | .established | .closing | .closed => true
  | _ => false

/-- States that a timer can fail. -/
def State.timed : State → Bool
  | .synSent | .synReceived | .established | .closing => true
  | _ => false

/-- What a connection is reacting to; of a segment, whether its header has `fin_ack` and whether
    its flags have FIN. -/
inductive Cause where
  | segment (finAck fin : Bool)
  | tick
  | close
  | other
  deriving DecidableEq, Repr

/-- One transition. -/
inductive Turn (a : Cause) (k : Control) : Control → Prop
  | request : a = .close → Turn a k { k with closeRequested := true }
  | synReceived {fa fin : Bool} : a = .segment fa fin → k.state = .listening →
      Turn a k { k with state := .synReceived }
  | establish {fa fin : Bool} : a = .segment fa fin → k.state = .synReceived ∨ k.state = .synSent →
      Turn a k { k with state := .established }
  | startFin : k.state = .established → k.closeRequested → k.finAcked = false →
      Turn a k { k with state := .closing, finPending := true }
  | finAck {fin : Bool} : a = .segment true fin → k.state.opened →
      Turn a k { k with finAcked := true, finPending := false }
  | seeFin {fa : Bool} : a = .segment fa true → k.state.opened →
      Turn a k { k with peerFinSeen := true }
  | close : k.state = .closing → k.finAcked → k.peerFinSeen → Turn a k { k with state := .closed }
  | fail : a = .tick → k.state.timed → Turn a k { k with state := .failed .tooManyRetries }
  | failFin : a = .tick → k.state.timed →
      Turn a k { k with state := .failed .tooManyRetries, finPending := false }

abbrev Turns (a : Cause) : Control → Control → Prop := ReflTransGen (Turn a)

variable {a : Cause} {k k' : Control}

/-- The edges of the state diagram. -/
inductive State.Step : State → State → Prop
  | synReceived : State.Step .listening .synReceived
  | accepted : State.Step .synReceived .established
  | connected : State.Step .synSent .established
  | closing : State.Step .established .closing
  | closed : State.Step .closing .closed
  | failed {s : State} (r : FailureReason) : s.timed → State.Step s (.failed r)

theorem Turn.step (h : Turn a k k') : k'.state = k.state ∨ State.Step k.state k'.state := by
  cases h with
  | synReceived _ hs => right; rw [hs]; exact .synReceived
  | establish _ hs =>
    right
    rcases hs with hs | hs <;> rw [hs]
    · exact .accepted
    · exact .connected
  | startFin hs => right; rw [hs]; exact .closing
  | close hs => right; rw [hs]; exact .closed
  | fail _ hs => right; exact .failed _ hs
  | failFin _ hs => right; exact .failed _ hs
  | _ => left; rfl

theorem Turns.steps (h : Turns a k k') : ReflTransGen State.Step k.state k'.state := by
  induction h with
  | refl => exact .refl
  | tail _ ht ih =>
    rcases ht.step with heq | hstep
    · rw [heq]; exact ih
    · exact ih.tail hstep

/-- What every transition preserves, a sequence of transitions preserves. -/
theorem Turns.preserves {P : Control → Prop} (hstep : ∀ {k k'}, P k → Turn a k k' → P k')
    (h : Turns a k k') (hk : P k) : P k' := by
  induction h with
  | refl => exact hk
  | tail _ ht ih => exact hstep ih ht

/-- What the flags say of each other. -/
structure Control.Ok (k : Control) : Prop where
  handshaking : k.state.handshaking → k.finPending = false ∧ k.finAcked = false ∧ k.peerFinSeen = false
  established : k.state = .established → k.finPending = false
  pending : k.finPending → k.closeRequested ∧ k.finAcked = false
  closed : k.state = .closed → k.finAcked ∧ k.peerFinSeen

theorem State.opened_not_handshaking {s : State} (h : s.opened) : s.handshaking = false := by
  cases s <;> simp_all [State.opened, State.handshaking]

theorem Control.Ok.turn (h : k.Ok) (ht : Turn a k k') : k'.Ok := by
  cases ht with
  | request =>
    constructor
    · exact h.handshaking
    · exact h.established
    · intro hp; exact ⟨rfl, (h.pending hp).2⟩
    · exact h.closed
  | synReceived _ hs =>
    have hflags := h.handshaking (by simp [hs, State.handshaking])
    constructor
    · intro _; exact hflags
    · intro hst; cases hst
    · exact h.pending
    · intro hst; cases hst
  | establish _ hs =>
    have hflags := h.handshaking (by rcases hs with hs | hs <;> simp [hs, State.handshaking])
    constructor
    · intro hst; cases hst
    · intro _; exact hflags.1
    · exact h.pending
    · intro hst; cases hst
  | startFin hs hreq hack =>
    constructor
    · intro hst; cases hst
    · intro hst; cases hst
    · intro _; exact ⟨hreq, hack⟩
    · intro hst; cases hst
  | finAck _ ho =>
    constructor
    · intro hst
      simp [State.opened_not_handshaking ho] at hst
    · intro _; rfl
    · intro hp; cases hp
    · intro hst; exact ⟨rfl, (h.closed hst).2⟩
  | seeFin _ ho =>
    constructor
    · intro hst
      simp [State.opened_not_handshaking ho] at hst
    · exact h.established
    · exact h.pending
    · intro hst; exact ⟨(h.closed hst).1, rfl⟩
  | close _ hack hseen =>
    constructor
    · intro hst; cases hst
    · intro hst; cases hst
    · exact h.pending
    · intro _; exact ⟨hack, hseen⟩
  | fail =>
    constructor
    · intro hst; cases hst
    · intro hst; cases hst
    · exact h.pending
    · intro hst; cases hst
  | failFin =>
    constructor
    · intro hst; cases hst
    · intro hst; cases hst
    · intro hp; cases hp
    · intro hst; cases hst

theorem control_state (h : c'.control = c.control) : c'.state = c.state := congrArg Control.state h

/-! ## Sending -/

theorem trySendMore_control (h : c.trySendMore b = .ok (c', out)) : c'.control = c.control := by
  refine trySendMore_keeps (P := fun c' => c'.control = c.control) ?_ h rfl
  intro c₁ c₂ n d hc _ _ hcut
  obtain ⟨nextSeq, bytes, _, _, _, rfl⟩ := cutSegment_spec hcut
  exact hc

theorem maybeSendFin_turns {fin' : Option Datagram} (h : c.maybeSendFin b = .ok (c', fin')) :
    Turns a c.control c'.control := by
  cases maybeSendFin_branch h with
  | skip => exact .refl
  | sent hreq _ hack hst => exact .single (.startFin hst hreq hack)

theorem checkFullyClosed_turns (c : Connection) :
    Turns a c.control c.checkFullyClosed.control := by
  unfold Connection.checkFullyClosed
  split
  · rename_i hcond
    exact .single (.close hcond.1 hcond.2.1 hcond.2.2)
  · exact .refl

theorem checkFullyClosed_opened (ho : c.state.opened) : c.checkFullyClosed.state.opened := by
  unfold Connection.checkFullyClosed
  split
  · rfl
  · exact ho

theorem drainAndMaybeFin_turns (h : c.drainAndMaybeFin b = .ok (c', out)) :
    Turns a c.control c'.control := by
  obtain ⟨⟨c₁, out₁⟩, h₁, h⟩ := bind_eq_ok.mp h
  obtain ⟨⟨c₂, fin'⟩, h₂, h⟩ := bind_eq_ok.mp h
  cases h
  have hfin : Turns a c₁.control c₂.control := maybeSendFin_turns h₂
  rw [trySendMore_control h₁] at hfin
  exact hfin.trans (checkFullyClosed_turns c₂)

/-! ## Receiving -/

section Incoming

variable {hdr : SegmentHeader} {fa fin : Bool}

theorem completeHandshake_turn (hst : c.state = .synReceived ∨ c.state = .synSent)
    (h : c.completeHandshake b = .ok c') : Turn (.segment fa fin) c.control c'.control := by
  obtain ⟨r, rfl⟩ := completeHandshake_spec h
  exact .establish rfl hst

theorem handshakeArm_turns {isSyn isAck returns : Bool}
    (h : c.handshakeArm b isSyn isAck = .ok (returns, c', out)) :
    Turns (.segment fa fin) c.control c'.control := by
  cases handshakeArm_branch h with
  | greet hst => exact .single (.synReceived rfl hst)
  | accept hst _ h₁ => exact .single (completeHandshake_turn (Or.inl hst) h₁)
  | connect hst _ h₁ => exact .single (completeHandshake_turn (Or.inr hst) h₁)
  | regreet | confirm | pass => exact .refl

theorem ackAdvance_control (h : c.ackAdvance b hdr = .ok c') : c'.control = c.control := by
  obtain ⟨_, r, w, _, _, _, rfl⟩ := ackAdvance_spec h
  rfl

theorem fastRetransmit_control {resent : Option Datagram}
    (h : c.fastRetransmit b = .ok (c', resent)) : c'.control = c.control := by
  cases fastRetransmit_branch h <;> rfl

theorem ackMarks_turns (ho : c.state.opened) (h : c.ackMarks hdr = .ok c') :
    Turns (.segment hdr.finAck fin) c.control c'.control ∧ c'.state.opened := by
  cases ackMarks_branch h with
  | marked => exact ⟨.refl, ho⟩
  | @finAcked u hfa =>
    have hack : Turn (.segment hdr.finAck fin) c.control
        { c with unacked := u, finAcked := true, finPending := none }.control :=
      .finAck (by rw [hfa]) ho
    exact ⟨(ReflTransGen.single hack).trans (checkFullyClosed_turns _), checkFullyClosed_opened ho⟩

theorem applyAck_turns (ho : c.state.opened) {resent : Option Datagram}
    (h : c.applyAck b hdr = .ok (c', resent)) :
    Turns (.segment hdr.finAck fin) c.control c'.control ∧ c'.state.opened := by
  have hmarks : ∀ c₁ : Connection, c₁.control = c.control → c₁.ackMarks hdr = .ok c' →
      Turns (.segment hdr.finAck fin) c.control c'.control ∧ c'.state.opened := by
    intro c₁ hc hm
    rw [← hc]
    exact ackMarks_turns (by rw [control_state hc]; exact ho) hm
  cases applyAck_branch h with
  | advance _ h₁ h₂ => exact hmarks _ (ackAdvance_control h₁) h₂
  | @duplicate n _ _ _ _ _ h₂ => exact hmarks { c with dupAckCount := n } rfl h₂
  | resend _ _ _ _ hfast =>
    have hc : c'.control = c.control := fastRetransmit_control hfast
    exact ⟨by rw [hc], by rw [control_state hc]; exact ho⟩
  | stale _ _ h₂ => exact hmarks c rfl h₂

theorem deliverData_control {seq : U32} {data : List U8} (h : c.deliverData b seq data = .ok c') :
    c'.control = c.control := by
  obtain ⟨_, _, _, _, rfl⟩ := (deliverData_delivers h).fields
  rfl

theorem openBlock_turns (ho : c.state.opened) {seq : U32} {app : List U8} {isAck isFin : Bool}
    (h : c.openBlock b seq hdr app isAck isFin = .ok (c', out)) :
    Turns (.segment hdr.finAck isFin) c.control c'.control := by
  obtain ⟨c₁, resent, c₂, _, out₄, h₁, h₂, _, h₄, _⟩ := openBlock_parts h
  have hack : Turns (.segment hdr.finAck isFin) c.control c₁.control ∧ c₁.state.opened := by
    split at h₁
    · exact applyAck_turns ho h₁
    · cases h₁; exact ⟨.refl, ho⟩
  have hdel : c₂.control = c₁.control := deliverData_control h₂
  obtain ⟨hack, ho₁⟩ := hack
  rw [← hdel] at hack
  have hseen : Turns (.segment hdr.finAck isFin) c.control
      (c₂.noted isFin !(app.isEmpty && !isFin)).control := by
    cases isFin with
    | true =>
      rw [noted_fin]
      exact hack.tail (.seeFin rfl (by show c₂.state.opened; rw [control_state hdel]; exact ho₁))
    | false =>
      rw [noted_plain]
      exact hack
  exact hseen.trans (drainAndMaybeFin_turns h₄)

/-- FIN among the flags. -/
def finSet (flags : U16) : Bool := flags &&& FLAG_FIN != 0#16

theorem opened_of_isOpen (h : c.isOpen) : c.state.opened := by
  rcases isOpen_cases h with hst | hst <;> rw [hst] <;> rfl

theorem onSegment_turns {seq : U32} {flags : U16} {app : List U8}
    (h : c.onSegment b seq flags hdr app = .ok (c', out)) :
    Turns (.segment hdr.finAck (finSet flags)) c.control c'.control := by
  have harm : ∀ {returns : Bool} {c₁ : Connection} {out₁ : List Datagram},
      Connection.handshakeArm b { c with peerWindow := hdr.window } (flags &&& FLAG_SYN != 0#16)
        (flags &&& FLAG_ACK != 0#16) = .ok (returns, c₁, out₁) →
      Turns (.segment hdr.finAck (finSet flags)) c.control c₁.control := by
    intro returns c₁ out₁ h₁
    simpa only [Connection.control] using handshakeArm_turns h₁
  cases onSegment_branch h with
  | closed => exact .refl
  | handshake _ h₁ => exact harm h₁
  | block _ h₁ ho h₂ => exact (harm h₁).trans (openBlock_turns (opened_of_isOpen ho) h₂)

end Incoming

/-! ## Timers -/

theorem tickHandshake_turns (ht : c.state.timed) (h : c.tickHandshake b = .ok (c', out)) :
    Turns .tick c.control c'.control := by
  cases tickHandshake_branch h with
  | fail => exact .single (.fail rfl ht)
  | idle | retry => exact .refl

/-- The data timer leaves the control state alone, unless it fails the connection. -/
theorem tickData_control (h : c.tickData b = .ok (c', out)) :
    c'.control = c.control ∨ c'.control = { c.control with state := .failed .tooManyRetries } := by
  cases tickData_branch h with
  | fail => exact Or.inr rfl
  | idle | sweep => exact Or.inl rfl

theorem tickFin_control (h : c.tickFin b = .ok (c', out)) :
    c'.control = c.control ∨
      c'.control = { c.control with state := .failed .tooManyRetries, finPending := false } := by
  cases tickFin_branch h with
  | idle => exact Or.inl rfl
  | fail => exact Or.inr rfl
  | retry hp => exact Or.inl (by simp [Connection.control, hp])

theorem tickOpen_turns (ht : c.state.timed) (h : c.tickOpen b = .ok (c', out)) :
    Turns .tick c.control c'.control := by
  have hfailed : ∀ {c₁ : Connection} {k : Control},
      c₁.control = { k with state := .failed .tooManyRetries } → c₁.isFailed := by
    intro c₁ k hc
    rw [Connection.isFailed, show c₁.state = _ from congrArg Control.state hc]
  obtain ⟨c₁, out₁, h₁, h⟩ := tickOpen_parts h
  rcases tickData_control h₁ with hc₁ | hc₁
  · rcases h with ⟨_, rfl, _⟩ | ⟨_, c₂, out₂, h₂, h⟩
    · rw [hc₁]
    · rcases tickFin_control h₂ with hc₂ | hc₂
      · rcases h with ⟨_, rfl, _⟩ | ⟨_, out₃, h₃, _⟩
        · rw [hc₂, hc₁]
        · rw [← hc₁, ← hc₂]
          exact drainAndMaybeFin_turns h₃
      · rcases h with ⟨_, rfl, _⟩ | ⟨hf, _⟩
        · rw [hc₂, hc₁]
          exact .single (.failFin rfl ht)
        · have hf' : c₂.isFailed := hfailed (k := { c₁.control with finPending := false }) hc₂
          rw [hf] at hf'
          cases hf'
  · rcases h with ⟨_, rfl, _⟩ | ⟨hf, _⟩
    · rw [hc₁]
      exact .single (.fail rfl ht)
    · rw [hfailed hc₁] at hf
      cases hf

theorem onTick_turns {now : Tick} (h : c.onTick b now = .ok (c', out)) :
    Turns .tick c.control c'.control := by
  have htimed : ∀ {st : State}, c.state = st → st.timed → (c.advance now).state.timed := by
    rintro _ rfl ht
    exact ht
  cases onTick_branch h with
  | handshake hst h =>
    refine tickHandshake_turns (c := c.advance now) ?_ h
    rcases hst with hst | hst <;> exact htimed hst rfl
  | opened ho h =>
    refine tickOpen_turns (c := c.advance now) ?_ h
    rcases isOpen_cases ho with hst | hst <;> exact htimed hst rfl
  | rest => exact .refl

/-! ## Calls -/

def Call.cause (a : Call) : Cause :=
  match a with
  | .onTick _ => .tick
  | .close _ => .close
  | .onDatagram .. =>
    match a.segment? with
    | some (f, h, _) => .segment h.finAck (finSet f.flags)
    | none => .other
  | _ => .other

theorem Carries.cause {d : Datagram} {f : Frame} {h : SegmentHeader} {app : List U8}
    (hc : Carries d f h app) (now : Tick) :
    (Call.onDatagram now d).cause = .segment h.finAck (finSet f.flags) := by
  simp only [Call.cause, hc.segment?_eq now]

/-- Whether the segment that arrives with a call has FIN. -/
def Call.hasFin (a : Call) : Bool := a.segment?.any fun s => finSet s.1.flags

theorem call_turns {e e' : Endpoint} {a : Call} (h : e.call b a = .ok e') :
    Turns a.cause e.conn.control e'.conn.control := by
  cases a with
  | send now data =>
    obtain ⟨⟨c', out⟩, hc, h⟩ := bind_eq_ok.mp h
    cases h
    exact drainAndMaybeFin_turns (c := { e.conn.advance now with
      sendQueue := e.conn.sendQueue ++ data
      stats := { e.conn.stats with bytesSentApp := e.conn.stats.bytesSentApp + data.length } }) hc
  | close now =>
    obtain ⟨⟨c', out⟩, hc, h⟩ := bind_eq_ok.mp h
    cases h
    exact (ReflTransGen.single (Turn.request rfl)).trans (drainAndMaybeFin_turns hc)
  | recv =>
    cases h
    exact .refl
  | onTick now =>
    obtain ⟨⟨c', out⟩, hc, h⟩ := bind_eq_ok.mp h
    cases h
    exact onTick_turns hc
  | onDatagram now d =>
    obtain ⟨⟨c', out⟩, hc, h⟩ := bind_eq_ok.mp h
    cases h
    rcases onDatagram_cases hc with ⟨rfl, rfl⟩ | ⟨f, hdr, app, hcar, hs⟩
    · exact .refl
    · rw [hcar.cause]
      exact onSegment_turns (c := e.conn.advance now) hs

theorem call_ok {e e' : Endpoint} {a : Call} (hk : e.conn.control.Ok) (h : e.call b a = .ok e') :
    e'.conn.control.Ok :=
  (call_turns h).preserves Control.Ok.turn hk

theorem blank_ok {cfg : Config} {t : Tick} {st : State} (hst : st.handshaking)
    (h : Connection.blank b cfg t st = .ok c) : c.control.Ok := by
  obtain ⟨w, _, h⟩ := bind_eq_ok.mp h
  cases h
  constructor
  · intro _; exact ⟨rfl, rfl, rfl⟩
  · intro _; rfl
  · intro hp; cases hp
  · intro hcl
    have : st = .closed := hcl
    simp [this, State.handshaking] at hst

/-! ## Terminal states -/

/-- Outside the open states nothing is sent. -/
theorem drainAndMaybeFin_idle (ho : c.isOpen = false) : c.drainAndMaybeFin b = .ok (c, []) := by
  have hest : c.state ≠ .established := by
    intro hst; simp [Connection.isOpen, hst] at ho
  have hclosing : c.state ≠ .closing := by
    intro hst; simp [Connection.isOpen, hst] at ho
  simp [Connection.drainAndMaybeFin, Connection.trySendMore, ho, Connection.maybeSendFin, hest,
    Connection.checkFullyClosed, hclosing]

/-- States that nothing leaves. -/
def State.final : State → Bool
  | .closed | .failed _ => true
  | _ => false

theorem handshakeArm_final (hst : c.state.final) (isSyn isAck : Bool) :
    c.handshakeArm b isSyn isAck = .ok (false, c, []) := by
  unfold Connection.handshakeArm
  split <;> simp_all [State.final]

theorem final_of_failed (hf : c.isFailed) : c.state.final := by
  unfold Connection.isFailed at hf
  split at hf
  · rename_i hst; rw [hst]; rfl
  · cases hf

theorem onTick_final (hst : c.state.final) (now : Tick) :
    c.onTick b now = .ok (c.advance now, []) := by
  have hst' : (c.advance now).state.final := hst
  unfold Connection.onTick
  dsimp only
  split <;> simp_all [State.final]

theorem isOpen_of_final (hst : c.state.final) : c.isOpen = false := by
  unfold Connection.isOpen
  split <;> simp_all [State.final]

/-- What a closed connection returns from a call: a pure acknowledgement with `fin_ack` for a
    segment with FIN, and nothing else. -/
inductive ClosedReply (a : Call) : List Datagram → Prop
  | silent : a.hasFin = false → ClosedReply a []
  | finAck {seq : U32} {h : SegmentHeader} : a.hasFin → h.finAck →
      ClosedReply a [encodeFrame seq FLAG_ACK h.encode]

theorem buildPureAck_form {fa : Bool} {d : Datagram} (h : c.buildPureAck b fa = .ok d) :
    ∃ (seq : U32) (hdr : SegmentHeader), hdr.finAck = fa ∧ d = encodeFrame seq FLAG_ACK hdr.encode := by
  obtain ⟨hdr, hh, h⟩ := bind_eq_ok.mp h
  cases h
  obtain ⟨w, _, hh⟩ := bind_eq_ok.mp hh
  obtain ⟨sack, _, hh⟩ := bind_eq_ok.mp hh
  cases hh
  exact ⟨_, _, rfl, rfl⟩

/-- In a final state a segment is answered only if the connection is closed and it has FIN. -/
theorem onSegment_final (hst : c.state.final) {seq : U32} {flags : U16} {hdr : SegmentHeader}
    {app : List U8} (h : c.onSegment b seq flags hdr app = .ok (c', out)) :
    c' = { c with peerWindow := hdr.window } ∧
      ((¬ (c.state = .closed ∧ finSet flags) ∧ out = []) ∨ (c.state = .closed ∧ finSet flags) ∧
        ∃ ack, ({ c with peerWindow := hdr.window } : Connection).buildPureAck b true = .ok ack ∧
          out = [ack]) := by
  have harm : Connection.handshakeArm b { c with peerWindow := hdr.window } (flags &&& FLAG_SYN != 0#16)
      (flags &&& FLAG_ACK != 0#16) = .ok (false, { c with peerWindow := hdr.window }, []) :=
    handshakeArm_final (by exact hst) _ _
  cases onSegment_branch h with
  | closed hcl hfin hack => exact ⟨rfl, Or.inr ⟨⟨hcl, hfin⟩, _, hack, rfl⟩⟩
  | handshake hcond h₁ =>
    rw [harm] at h₁
    cases h₁
    exact ⟨rfl, Or.inl ⟨hcond, rfl⟩⟩
  | block _ h₁ ho =>
    rw [harm] at h₁
    cases h₁
    rw [isOpen_of_final (by exact hst)] at ho
    cases ho

/-- What a final state keeps over the call `a`, which returns `out`. -/
structure Final (a : Call) (c c' : Connection) (out : List Datagram) : Prop where
  state : c'.state = c.state
  reply : c.state = .closed → ClosedReply a out
  silent : c.isFailed → out = []

/-- A call that changes no state and returns nothing. -/
theorem Final.idle {a : Call} (hfin : a.hasFin = false) (hst : c'.state = c.state) : Final a c c' [] :=
  ⟨hst, fun _ => .silent hfin, fun _ => rfl⟩

theorem onDatagram_final (hst : c.state.final) {now : Tick} {d : Datagram}
    (h : c.onDatagram b now d = .ok (c', out)) :
    c'.delivered = c.delivered ∧ Final (.onDatagram now d) c c' out := by
  by_cases hcar : ∃ f hdr app, Carries d f hdr app
  · obtain ⟨f, hdr, app, hcar⟩ := hcar
    have hfin : (Call.onDatagram now d).hasFin = finSet f.flags := by
      simp only [Call.hasFin, hcar.segment?_eq now, Option.any_some]
    rw [hcar.onDatagram] at h
    obtain ⟨hc', hout⟩ := onSegment_final (c := c.advance now) hst h
    refine ⟨by rw [hc']; rfl, by rw [hc']; rfl, ?_, ?_⟩
    · intro hcl
      rcases hout with ⟨hno, rfl⟩ | ⟨⟨_, hset⟩, ack, hack, rfl⟩
      · refine .silent ?_
        rw [hfin]
        have hcl' : (c.advance now).state = .closed := hcl
        simpa [hcl'] using hno
      · obtain ⟨seq, hh, hack', rfl⟩ := buildPureAck_form hack
        exact .finAck (by rw [hfin]; exact hset) hack'
    · intro hf
      rcases hout with ⟨_, rfl⟩ | ⟨⟨hcl, _⟩, _⟩
      · rfl
      · have hcl' : c.state = .closed := hcl
        simp [Connection.isFailed, hcl'] at hf
  · rw [onDatagram_dropped hcar] at h
    cases h
    exact ⟨rfl, .idle (by simp [Call.hasFin, segment?_dropped hcar now]) rfl⟩

theorem call_final {e e' : Endpoint} {a : Call} (hst : e.conn.state.final)
    (h : e.call b a = .ok e') : e'.inOrder = e.inOrder ∧
      ∃ out, e'.emitted = e.emitted ++ out ∧ Final a e.conn e'.conn out := by
  have ho : e.conn.isOpen = false := isOpen_of_final hst
  cases a with
  | send now data =>
    obtain ⟨⟨c', out⟩, hc, h⟩ := bind_eq_ok.mp h
    rw [Connection.send, drainAndMaybeFin_idle (by exact ho)] at hc
    cases hc
    cases h
    exact ⟨rfl, [], rfl, .idle rfl rfl⟩
  | close now =>
    obtain ⟨⟨c', out⟩, hc, h⟩ := bind_eq_ok.mp h
    rw [Connection.close, drainAndMaybeFin_idle (by exact ho)] at hc
    cases hc
    cases h
    exact ⟨rfl, [], rfl, .idle rfl rfl⟩
  | recv =>
    cases h
    exact ⟨by simp [Endpoint.inOrder, Endpoint.put], [], rfl, .idle rfl rfl⟩
  | onTick now =>
    obtain ⟨⟨c', out⟩, hc, h⟩ := bind_eq_ok.mp h
    rw [onTick_final hst] at hc
    cases hc
    cases h
    exact ⟨rfl, [], rfl, .idle rfl rfl⟩
  | onDatagram now d =>
    obtain ⟨⟨c', out⟩, hc, h⟩ := bind_eq_ok.mp h
    cases h
    obtain ⟨hdel, hfin⟩ := onDatagram_final hst hc
    exact ⟨congrArg (e.received ++ ·) hdel, out, rfl, hfin⟩

/-- A closed side stays closed. -/
theorem call_stays_closed {e e' : Endpoint} {a : Call} (hst : e.conn.state = .closed)
    (h : e.call b a = .ok e') : e'.conn.state = .closed := by
  obtain ⟨_, out, _, hfin⟩ := call_final (by rw [hst]; rfl) h
  exact hfin.state.trans hst

/-! ## Runs -/

/-- A sequence of calls. -/
def Endpoint.calls (b : Build) (e : Endpoint) (as : List Call) : Exec Endpoint :=
  as.foldlM (fun e a => Endpoint.call b e a) e

theorem calls_cons {e e' : Endpoint} {a : Call} {as : List Call}
    (h : e.calls b (a :: as) = .ok e') : ∃ e₁, e.call b a = .ok e₁ ∧ e₁.calls b as = .ok e' := by
  rw [Endpoint.calls, List.foldlM_cons] at h
  exact bind_eq_ok.mp h

theorem calls_steps : ∀ {as : List Call} {e e' : Endpoint}, e.calls b as = .ok e' →
    ReflTransGen State.Step e.conn.state e'.conn.state
  | [], e, e', h => by cases h; exact .refl
  | a :: as, e, e', h => by
    obtain ⟨e₁, h₁, h⟩ := calls_cons h
    exact (call_turns h₁).steps.trans (calls_steps h)

theorem calls_closed : ∀ {as : List Call} {e e' : Endpoint}, e.conn.state = .closed →
    e.calls b as = .ok e' → e'.conn.state = .closed ∧ e'.inOrder = e.inOrder ∧
      ∃ outs, List.Forall₂ ClosedReply as outs ∧ e'.emitted = e.emitted ++ outs.flatten
  | [], e, e', hst, h => by
    cases h
    exact ⟨hst, rfl, [], .nil, by simp⟩
  | a :: as, e, e', hst, h => by
    obtain ⟨e₁, h₁, h⟩ := calls_cons h
    obtain ⟨horder, out, hout, hfin⟩ := call_final (by rw [hst]; rfl) h₁
    obtain ⟨hst', horder', outs, houts, hem⟩ := calls_closed (hfin.state.trans hst) h
    refine ⟨hst', horder'.trans horder, out :: outs, .cons (hfin.reply hst) houts, ?_⟩
    rw [hem, hout, List.flatten_cons, List.append_assoc]

theorem calls_failed : ∀ {as : List Call} {e e' : Endpoint}, e.conn.isFailed →
    e.calls b as = .ok e' →
    e'.conn.state = e.conn.state ∧ e'.inOrder = e.inOrder ∧ e'.emitted = e.emitted
  | [], e, e', hf, h => by
    cases h
    exact ⟨rfl, rfl, rfl⟩
  | a :: as, e, e', hf, h => by
    obtain ⟨e₁, h₁, h⟩ := calls_cons h
    obtain ⟨horder, out, hout, hfin⟩ := call_final (final_of_failed hf) h₁
    obtain ⟨hst', horder', hem⟩ := calls_failed (by rw [isFailed_congr hfin.state]; exact hf) h
    refine ⟨hst'.trans hfin.state, horder'.trans horder, ?_⟩
    rw [hem, hout, hfin.silent hf, List.append_nil]

/-- **The state only moves forward and its ends are final.**  Whatever is called and whatever
    arrives, as long as the calls return: the state moves along the edges of `State.Step`; from
    the closed state it does not move, a segment with FIN is answered by one pure acknowledgement
    with `fin_ack` and no other call is answered; from a failed state it does not move and no
    call is answered; and in neither does the in-order stream grow. -/
theorem state_only_advances {as : List Call} {e e' : Endpoint} (h : e.calls b as = .ok e') :
    ReflTransGen State.Step e.conn.state e'.conn.state ∧
    (e.conn.state = .closed → e'.conn.state = .closed ∧ e'.inOrder = e.inOrder ∧
      ∃ outs, List.Forall₂ ClosedReply as outs ∧ e'.emitted = e.emitted ++ outs.flatten) ∧
    (e.conn.isFailed →
      e'.conn.state = e.conn.state ∧ e'.inOrder = e.inOrder ∧ e'.emitted = e.emitted) :=
  ⟨calls_steps h, fun hst => calls_closed hst h, fun hf => calls_failed hf h⟩

/-- Both sides have closed; the client's FIN arrives once more, the application tries to send. -/
theorem state_only_advances_sample : ∃ p d e', Pair.Reach .checked sampleConfig sampleConfig p ∧
    d ∈ p.client.emitted ∧ p.server.conn.state = .closed ∧
    p.server.calls .checked [.onDatagram 20 d, .send 21 [9], .onTick 90] = .ok e' ∧
    e'.conn.state = .closed ∧ e'.inOrder = p.server.inOrder ∧ ∃ outs,
      List.Forall₂ ClosedReply [.onDatagram 20 d, .send 21 [9], .onTick 90] outs ∧
      e'.emitted = p.server.emitted ++ outs.flatten := by
  have hrun : Pair.plays .checked sampleConfig sampleConfig (sampleRun ++ sampleEnd)
      (fun p => decide (p.server.conn.state = .closed) && p.client.emitted.any fun d =>
        (Call.onDatagram 20 d).hasFin && (fault? (p.server.calls .checked
          [.onDatagram 20 d, .send 21 [9], .onTick 90])).isNone) = true := by decide +kernel
  obtain ⟨p, hp, ht⟩ := Pair.plays_reach hrun
  obtain ⟨hst, hany⟩ := Bool.and_eq_true_iff.mp ht
  obtain ⟨d, hd, hcalls⟩ := List.any_eq_true.mp hany
  obtain ⟨_, hcalls⟩ := Bool.and_eq_true_iff.mp hcalls
  obtain ⟨e', he'⟩ := ok_of_fault? hcalls
  have hst := of_decide_eq_true hst
  obtain ⟨hst', horder, hemitted⟩ := (state_only_advances he').2.1 hst
  exact ⟨p, d, e', hp, hd, hst, he', hst', horder, hemitted⟩

end Distrans
