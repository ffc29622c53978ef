import Distrans.Transport.Control
import Distrans.Transport.Honest

/-!
# Handshake agreement

Until its handshake is complete a side emits its own greeting and nothing else: SYN from the
client, SYN-ACK from the server.  So whatever completes the other side's handshake shows how far
this side has come (`Greeted`, an invariant of every run).

* `handshake_agreement` — **the server has been Established only if the client has, the client
  only if the server has heard it, and neither sends data or FIN before; a server that still
  waits in SynReceived is taken out of it by the client's answer to its SYN-ACK.**
* `synack_answer_hangs` — the last part needs a configuration with which the calls return.
-/

set_option autoImplicit false

namespace Distrans

open Machine Relation

variable {b : Build} {c c' : Connection} {out : List Datagram}

/-! ## Greetings -/

/-- SYN among the flags. -/
def synSet (flags : U16) : Bool := flags &&& FLAG_SYN != 0#16

/-- ACK among the flags. -/
def ackSet (flags : U16) : Bool := flags &&& FLAG_ACK != 0#16

/-- A frame with the given flags, at sequence number zero, without data and without `fin_ack`. -/
def Bare (flags : U16) (d : Datagram) : Prop :=
  ∃ h : SegmentHeader, h.finAck = false ∧ d = encodeFrame 0 flags h.encode

theorem Bare.carries {flags : U16} {d : Datagram} (h : Bare flags d) {f : Frame} {hdr : SegmentHeader}
    {app : List U8} (hc : Carries d f hdr app) : f.flags = flags ∧ hdr.finAck = false ∧ app = [] := by
  obtain ⟨hh, hfa, rfl⟩ := h
  obtain ⟨_, hf, rfl, happ⟩ := carries_encodeFrame_nil hc
  exact ⟨hf, hfa, happ⟩

/-- A frame without data is short enough to be decoded. -/
theorem encodeFrame_carries (h : SegmentHeader) (seq : U32) (flags : U16) :
    ∃ f h', Carries (encodeFrame seq flags h.encode) f h' [] ∧ f.flags = flags ∧ h'.finAck = h.finAck := by
  have hlen : h.encode.length < 2 ^ 32 :=
    Nat.lt_of_le_of_lt (SegmentHeader.encode_length_le h) (by decide)
  have hdec := SegmentHeader.decode_encode_append h []
  rw [List.append_nil] at hdec
  exact ⟨_, _, ⟨Frame.decode_encode hlen, hdec⟩, rfl, rfl⟩

theorem Bare.decodes {flags : U16} {d : Datagram} (h : Bare flags d) :
    ∃ f hdr app, Carries d f hdr app := by
  obtain ⟨hh, _, rfl⟩ := h
  obtain ⟨f, hdr, hc, _⟩ := encodeFrame_carries hh 0 flags
  exact ⟨f, hdr, [], hc⟩

/-- What the frame builders of the handshake have in common. -/
theorem bare_of_headerBytes {flags : U16} {d : Datagram}
    (h : (c.headerBytes b >>= fun h => Except.ok (encodeFrame 0 flags h)) = .ok d) : Bare flags d := by
  obtain ⟨bytes, hb, h⟩ := bind_eq_ok.mp h
  cases h
  obtain ⟨hdr, hh, hb⟩ := bind_eq_ok.mp hb
  cases hb
  obtain ⟨w, _, hh⟩ := bind_eq_ok.mp hh
  obtain ⟨sack, _, hh⟩ := bind_eq_ok.mp hh
  cases hh
  exact ⟨_, rfl, rfl⟩

/-- The flags of a side's greeting. -/
def Side.greeting : Side → U16
  | .client => FLAG_SYN
  | .server => FLAG_SYN ||| FLAG_ACK

/-- The states of a side whose handshake is not complete. -/
def Side.greets : Side → State → Bool
  | .client, .synSent => true
  | .server, .listening => true
  | .server, .synReceived => true
  | _, _ => false

/-- The flags that complete a side's handshake. -/
def Side.completes : Side → U16 → Bool
  | .client, flags => synSet flags && ackSet flags
  | .server, flags => ackSet flags && !synSet flags

theorem Side.greets_handshaking {s : Side} {st : State} (h : s.greets st) : st.handshaking := by
  cases s <;> cases st <;> simp_all [Side.greets, State.handshaking]

/-! ## One call of a side that greets -/

/-- The side goes on greeting: it emits nothing or its greeting, and a server that listens has
    emitted nothing. -/
structure Greeting (s : Side) (c c' : Connection) (out : List Datagram) : Prop where
  frames : ∀ d ∈ out, Bare s.greeting d
  state : s.greets c'.state ∨ c'.isFailed
  listening : c'.state = .listening → c.state = .listening ∧ out = []
  awake : c'.state = .synReceived → c.state = .synReceived ∨ out ≠ []

theorem Greeting.idle {s : Side} (hst : s.greets c.state) (h : c'.state = c.state) :
    Greeting s c c' [] where
  frames := fun d hd => by cases hd
  state := Or.inl (by rw [h]; exact hst)
  listening := fun hl => ⟨by rw [← h]; exact hl, rfl⟩
  awake := fun ha => Or.inl (by rw [← h]; exact ha)

/-- Only the state of the connection before matters. -/
theorem Greeting.of_state {s : Side} {c₀ : Connection} (h : Greeting s c₀ c' out)
    (hst : c₀.state = c.state) : Greeting s c c' out := by
  constructor
  · exact h.frames
  · exact h.state
  · intro hl; rw [← hst]; exact h.listening hl
  · intro ha; rw [← hst]; exact h.awake ha

/-- One greeting. -/
theorem Greeting.single {s : Side} {d : Datagram} (hd : Bare s.greeting d) (hst : s.greets c'.state)
    (hl : c'.state ≠ .listening) : Greeting s c c' [d] where
  frames := fun d' hd' => by rw [List.mem_singleton] at hd'; subst hd'; exact hd
  state := Or.inl hst
  listening := fun h => absurd h hl
  awake := fun _ => Or.inr (List.cons_ne_nil _ _)

theorem tickHandshake_greeting {s : Side} (hst : s.greets c.state) (hl : c.state ≠ .listening)
    (h : c.tickHandshake b = .ok (c', out)) : Greeting s c c' out := by
  cases tickHandshake_branch h with
  | idle => exact .idle hst rfl
  | fail =>
    constructor
    · intro d hd; cases hd
    · right; rfl
    · intro hst; cases hst
    · intro hst; cases hst
  | retry _ _ _ _ _ hd =>
    refine .single ?_ hst hl
    rcases hd with ⟨hsyn, hd⟩ | ⟨hsyn, hd⟩
    · cases s with
      | client => exact bare_of_headerBytes hd
      | server => simp [hsyn, Side.greets] at hst
    · cases s with
      | client => simp [hsyn, Side.greets] at hst
      | server => exact bare_of_headerBytes hd

theorem Side.greets_isOpen {s : Side} (h : s.greets c.state) : c.isOpen = false := by
  unfold Connection.isOpen
  cases s <;> split <;> simp_all [Side.greets]

/-- The flags complete the handshake of a side that awaits them. -/
def Side.completed (s : Side) (c : Connection) (flags : U16) : Prop :=
  s.completes flags ∧ c.state ≠ .listening

/-- What completes a handshake is admitted. -/
theorem Side.completed_admits {s : Side} {flags : U16} (hst : s.greets c.state)
    (h : s.completed c flags) : c.admits (synSet flags) (ackSet flags) = true := by
  obtain ⟨hflags, hl⟩ := h
  unfold Connection.admits
  cases s <;> cases hs : c.state <;> simp_all [Side.greets, Side.completes]

theorem handshakeArm_greeting {s : Side} {flags : U16} {returns : Bool} (hst : s.greets c.state)
    (h : c.handshakeArm b (synSet flags) (ackSet flags) = .ok (returns, c', out)) :
    (¬ s.completed c flags ∧ c'.isOpen = false ∧ Greeting s c c' out) ∨
      (s.completed c flags ∧ returns = false ∧ c'.isOpen) := by
  have hopen := Side.greets_isOpen hst
  have hno : c.admits (synSet flags) (ackSet flags) = false → ¬ s.completed c flags := by
    intro hadm hc
    rw [Side.completed_admits hst hc] at hadm
    cases hadm
  cases handshakeArm_branch h with
  | greet hs _ hd =>
    left
    refine ⟨hno (handshakeArm_admits_eq h), rfl, ?_⟩
    cases s with
    | client => simp [hs, Side.greets] at hst
    | server => exact .single (bare_of_headerBytes hd) rfl (by simp)
  | regreet hs hflags hd =>
    left
    refine ⟨hno (handshakeArm_admits_eq h), hopen, ?_⟩
    cases s with
    | client => simp [hs, Side.greets] at hst
    | server => exact .single (bare_of_headerBytes hd) hst (by simp [hs])
  | accept hs hflags h₁ =>
    right
    cases s with
    | client => simp [hs, Side.greets] at hst
    | server => exact ⟨⟨hflags, by simp [hs]⟩, rfl, completeHandshake_isOpen h₁⟩
  | connect hs hflags h₁ =>
    right
    cases s with
    | client => exact ⟨⟨hflags, by simp [hs]⟩, rfl, completeHandshake_isOpen h₁⟩
    | server => simp [hs, Side.greets] at hst
  | confirm ho => rw [hopen] at ho; cases ho
  | pass _ hadm => exact Or.inl ⟨hno (hadm hopen), hopen, .idle hst rfl⟩

theorem Turn.opened {a : Cause} {k k' : Control} (h : Turn a k k') (ho : k.state.opened) :
    k'.state.opened ∨ a = .tick := by
  cases h with
  | request | finAck | seeFin => left; exact ho
  | synReceived _ hst => rw [hst] at ho; cases ho
  | establish | startFin | close => left; rfl
  | fail ha | failFin ha => right; exact ha

theorem Turns.opened {a : Cause} {k k' : Control} (h : Turns a k k') (ha : a ≠ .tick)
    (ho : k.state.opened) : k'.state.opened :=
  h.preserves (P := fun k => k.state.opened) (fun ho ht => (ht.opened ho).resolve_right ha) ho

theorem onSegment_greeting {s : Side} {seq : U32} {flags : U16} {hdr : SegmentHeader}
    {app : List U8} (hst : s.greets c.state) (h : c.onSegment b seq flags hdr app = .ok (c', out)) :
    (¬ s.completed c flags ∧ Greeting s c c' out) ∨ (s.completed c flags ∧ c'.state.opened) := by
  have hclosed : c.state ≠ .closed := by
    intro hcl
    cases s <;> simp [hcl, Side.greets] at hst
  cases onSegment_branch h with
  | closed hcl => exact absurd hcl hclosed
  | handshake _ h₁ hadm =>
    rcases handshakeArm_greeting (c := { c with peerWindow := hdr.window }) hst h₁ with
      ⟨hno, _, hg⟩ | ⟨hdone, _⟩
    · exact Or.inl ⟨hno, hg.of_state rfl⟩
    · have hyes : c.admits (synSet flags) (ackSet flags) = true := Side.completed_admits hst hdone
      exact absurd (hyes.symm.trans hadm) (by simp)
  | block _ h₁ ho h₂ =>
    rcases handshakeArm_greeting (c := { c with peerWindow := hdr.window }) hst h₁ with
      ⟨_, hopen, _⟩ | ⟨hdone, _, _⟩
    · rw [hopen] at ho
      cases ho
    · exact Or.inr ⟨hdone,
        (openBlock_turns (opened_of_isOpen ho) h₂).opened (by simp) (opened_of_isOpen ho)⟩

theorem onTick_greeting {s : Side} {now : Tick} (hst : s.greets c.state)
    (h : c.onTick b now = .ok (c', out)) : Greeting s c c' out := by
  cases onTick_branch h with
  | handshake hs h =>
    refine (tickHandshake_greeting (c := c.advance now) hst ?_ h).of_state rfl
    show c.state ≠ .listening
    rcases hs with hs | hs <;> simp [hs]
  | opened ho =>
    rw [Side.greets_isOpen hst] at ho
    cases ho
  | rest => exact .idle hst rfl

/-- What a call does to a side that greets, or failed while it did. -/
theorem call_greeting {s : Side} {e e' : Endpoint} {a : Call}
    (hst : s.greets e.conn.state ∨ e.conn.isFailed) (h : e.call b a = .ok e') :
    (∃ out, e'.emitted = e.emitted ++ out ∧ Greeting s e.conn e'.conn out) ∨
      (e'.conn.state.opened ∧ ∃ now d f hdr app, a = .onDatagram now d ∧ Carries d f hdr app ∧
        s.completed e.conn f.flags) := by
  rcases hst with hst | hf
  case inr =>
    obtain ⟨_, out, hem, hfin⟩ := call_final (final_of_failed hf) h
    obtain rfl := hfin.silent hf
    have hf' : e'.conn.isFailed := by rw [isFailed_congr hfin.state]; exact hf
    left
    refine ⟨[], hem, ?_⟩
    constructor
    · intro d hd; cases hd
    · right; exact hf'
    · intro hl; exact ⟨by rw [← hfin.state]; exact hl, rfl⟩
    · intro ha; left; rw [← hfin.state]; exact ha
  have hopen := Side.greets_isOpen hst
  cases a with
  | send now data =>
    obtain ⟨⟨c', out⟩, hc, h⟩ := bind_eq_ok.mp h
    rw [Connection.send, drainAndMaybeFin_idle (by exact hopen)] at hc
    cases hc
    cases h
    left; exact ⟨[], rfl, .idle hst rfl⟩
  | close now =>
    obtain ⟨⟨c', out⟩, hc, h⟩ := bind_eq_ok.mp h
    rw [Connection.close, drainAndMaybeFin_idle (by exact hopen)] at hc
    cases hc
    cases h
    left; exact ⟨[], rfl, .idle hst rfl⟩
  | recv =>
    cases h
    left; exact ⟨[], rfl, .idle hst rfl⟩
  | onTick now =>
    obtain ⟨⟨c', out⟩, hc, h⟩ := bind_eq_ok.mp h
    cases h
    left; exact ⟨out, rfl, onTick_greeting hst hc⟩
  | onDatagram now d =>
    obtain ⟨⟨c', out⟩, hc, h⟩ := bind_eq_ok.mp h
    cases h
    by_cases hcar : ∃ f hdr app, Carries d f hdr app
    · obtain ⟨f, hdr, app, hcar⟩ := hcar
      rw [hcar.onDatagram] at hc
      rcases onSegment_greeting (c := e.conn.advance now) hst hc with ⟨_, hg⟩ | ⟨hdone, ho⟩
      · left; exact ⟨out, rfl, hg.of_state rfl⟩
      · right; exact ⟨ho, now, d, f, hdr, app, rfl, hcar, hdone⟩
    · rw [onDatagram_dropped hcar] at hc
      cases hc
      left; exact ⟨[], rfl, .idle hst rfl⟩

/-! ## Both sides -/

/-- The side has been established by now; the states after that one are `opened` too. -/
def Been (past : List Pair) (p : Pair) (s : Side) : Prop :=
  ∃ q ∈ p :: past, (q.get s).conn.state.opened

/-- What one side keeps; `been` says whether it has been established. -/
structure Greets (been : Prop) (s : Side) (e : Endpoint) : Prop where
  control : e.conn.control.Ok
  settled : been → e.conn.state.handshaking = false
  greets : ¬ been → s.greets e.conn.state ∨ e.conn.isFailed
  frames : ¬ been → ∀ d ∈ e.emitted, Bare s.greeting d
  listening : e.conn.state = .listening → e.emitted = []
  awake : e.conn.state = .synReceived → e.emitted ≠ []

theorem Turn.settled {a : Cause} {k k' : Control} (h : Turn a k k')
    (hk : k.state.handshaking = false) : k'.state.handshaking = false := by
  cases h with
  | request | finAck | seeFin => exact hk
  | synReceived _ hst => rw [hst] at hk; cases hk
  | establish | startFin | close | fail | failFin => rfl

theorem opened_of_settled (hk : c.state.handshaking = false) (hf : c.isFailed = false) :
    c.state.opened := by
  unfold Connection.isFailed at hf
  cases hst : c.state <;> simp_all [State.handshaking, State.opened]

theorem ne_of_settled (hk : c.state.handshaking = false) {st : State} (hst : st.handshaking) :
    c.state ≠ st := by
  intro heq
  rw [heq, hst] at hk
  cases hk

/-- A side that has been established has nothing more to keep than its control state. -/
theorem Greets.of_been {been : Prop} {s : Side} {e : Endpoint} (hb : been)
    (hctl : e.conn.control.Ok) (hk : e.conn.state.handshaking = false) : Greets been s e := by
  constructor
  · exact hctl
  · intro _; exact hk
  · intro hno; exact absurd hb hno
  · intro hno; exact absurd hb hno
  · intro hl; exact absurd hl (ne_of_settled hk rfl)
  · intro ha; exact absurd ha (ne_of_settled hk rfl)

theorem Greeting.not_opened {s : Side} (h : Greeting s c c' out) : ¬ c'.state.opened := by
  intro ho
  rcases h.state with hst | hf
  · have hk := Side.greets_handshaking hst
    rw [State.opened_not_handshaking ho] at hk
    cases hk
  · unfold Connection.isFailed at hf
    split at hf
    · rename_i hst; rw [hst] at ho; cases ho
    · cases hf

theorem Greets.greeting {been : Prop} {s : Side} {e e' : Endpoint} (hg : Greets been s e)
    (hbeen : ¬ been) (hctl : e'.conn.control.Ok) (hem : e'.emitted = e.emitted ++ out)
    (hgr : Greeting s e.conn e'.conn out) : Greets (been ∨ e'.conn.state.opened) s e' := by
  have hno : ¬ (been ∨ e'.conn.state.opened) := by
    rintro (hb | ho)
    · exact hbeen hb
    · exact hgr.not_opened ho
  constructor
  · exact hctl
  · intro h; exact absurd h hno
  · intro _; exact hgr.state
  · intro _ d hd
    rw [hem, List.mem_append] at hd
    rcases hd with hd | hd
    · exact hg.frames hbeen d hd
    · exact hgr.frames d hd
  · intro hl
    obtain ⟨hl', rfl⟩ := hgr.listening hl
    rw [hem, hg.listening hl', List.append_nil]
  · intro ha
    rw [hem]
    rcases hgr.awake ha with ha' | hout
    · simp [hg.awake ha']
    · simp [hout]

/-- One call on a side. -/
theorem greets_call {been : Prop} {s : Side} {e e' : Endpoint} {a : Call} (hg : Greets been s e)
    (h : e.call b a = .ok e') :
    Greets (been ∨ e'.conn.state.opened) s e' ∧
      (e'.conn.state = .listening → e.conn.state = .listening) ∧
      (e'.conn.state.opened → been ∨ ∃ now d f hdr app, a = .onDatagram now d ∧
        Carries d f hdr app ∧ s.completed e.conn f.flags) := by
  have hctl : e'.conn.control.Ok := call_ok hg.control h
  by_cases hbeen : been
  · have hk : e'.conn.state.handshaking = false :=
      (call_turns h).preserves (P := fun k => k.state.handshaking = false)
        (fun hk ht => ht.settled hk) (hg.settled hbeen)
    exact ⟨.of_been (Or.inl hbeen) hctl hk, fun hl => absurd hl (ne_of_settled hk rfl),
      fun _ => Or.inl hbeen⟩
  · rcases call_greeting (hg.greets hbeen) h with ⟨out, hem, hgr⟩ | ⟨ho, hdone⟩
    · exact ⟨hg.greeting hbeen hctl hem hgr, fun hl => (hgr.listening hl).1,
        fun ho => absurd ho hgr.not_opened⟩
    · have hk := State.opened_not_handshaking ho
      exact ⟨.of_been (Or.inr ho) hctl hk, fun hl => absurd hl (ne_of_settled hk rfl),
        fun _ => Or.inr hdone⟩

theorem Turns.finAcked {a : Cause} {k k' : Control} (h : Turns a k k') (hk : k'.finAcked) :
    k.finAcked ∨ ∃ fin, a = .segment true fin := by
  refine h.preserves (P := fun k' => k'.finAcked → k.finAcked ∨ ∃ fin, a = .segment true fin)
    (fun hp ht hk' => ?_) Or.inl hk
  cases ht with
  | finAck ha => right; exact ⟨_, ha⟩
  | _ => exact hp hk'

theorem Turns.peerFinSeen {a : Cause} {k k' : Control} (h : Turns a k k') (hk : k'.peerFinSeen) :
    k.peerFinSeen ∨ ∃ fa, a = .segment fa true := by
  refine h.preserves (P := fun k' => k'.peerFinSeen → k.peerFinSeen ∨ ∃ fa, a = .segment fa true)
    (fun hp ht hk' => ?_) Or.inl hk
  cases ht with
  | seeFin ha => right; exact ⟨_, ha⟩
  | _ => exact hp hk'

theorem cause_segment {a : Call} {fa fin : Bool} (h : a.cause = .segment fa fin) :
    ∃ now d f hdr app, a = .onDatagram now d ∧ Carries d f hdr app ∧ hdr.finAck = fa ∧
      finSet f.flags = fin := by
  cases a with
  | onDatagram now d =>
    simp only [Call.cause] at h
    cases hs : (Call.onDatagram now d).segment? with
    | none => rw [hs] at h; cases h
    | some seg =>
      rw [hs] at h
      cases h
      exact ⟨now, d, seg.1, seg.2.1, seg.2.2, rfl, carries_of_segment? hs, rfl, rfl⟩
  | _ => cases h

section Runs

variable {past : List Pair} {p p' : Pair} {s : Side} {a : Call}

theorem been_start : Been [] p s ↔ (p.get s).conn.state.opened := by
  simp [Been]

theorem been_step : Been (p :: past) p' s ↔ Been past p s ∨ (p'.get s).conn.state.opened := by
  simp only [Been, List.exists_mem_cons_iff]
  exact or_comm

/-- **How far each side has come shows how far the other one has.** -/
structure Greeted (past : List Pair) (p : Pair) : Prop where
  side : ∀ s, Greets (Been past p s) s (p.get s)
  accepted : Been past p .server → Been past p .client
  heard : Been past p .client → p.server.conn.state ≠ .listening
  flags : ∀ s, (p.get s).conn.finAcked ∨ (p.get s).conn.peerFinSeen → Been past p s.peer

/-- A side that has not been established emits neither FIN nor `fin_ack`. -/
theorem Greeted.marks (hg : Greeted past p) {s : Side} {d : Datagram} {f : Frame} {hdr : SegmentHeader}
    {app : List U8} (hd : d ∈ (p.get s).emitted) (hc : Carries d f hdr app)
    (hm : hdr.finAck ∨ finSet f.flags) : Been past p s := by
  by_contra hno
  obtain ⟨hfl, hfa, _⟩ := ((hg.side s).frames hno d hd).carries hc
  rcases hm with hm | hm
  · rw [hfa] at hm; cases hm
  · rw [hfl] at hm; cases s <;> revert hm <;> decide

theorem Greeted.hears_client (hg : Greeted past p) {d : Datagram} {f : Frame} {hdr : SegmentHeader}
    {app : List U8} (hd : d ∈ p.client.emitted) (hc : Carries d f hdr app)
    (hdone : Side.server.completes f.flags) : Been past p .client := by
  by_contra hno
  obtain ⟨hfl, _, _⟩ := ((hg.side .client).frames hno d hd).carries hc
  rw [hfl] at hdone
  revert hdone
  decide

theorem Greeted.hears_server (hg : Greeted past p) {d : Datagram} (hd : d ∈ p.server.emitted) :
    p.server.conn.state ≠ .listening := by
  intro hl
  have hem : p.server.emitted = [] := (hg.side .server).listening hl
  rw [hem] at hd
  cases hd

theorem been_of_opened (h : (p.get s).conn.state.opened) : Been past p s :=
  ⟨p, List.mem_cons_self, h⟩

/-- A step of one side leaves the other one where it was. -/
theorem been_peer {e : Endpoint} : Been (p :: past) (p.set s e) s.peer ↔ Been past p s.peer := by
  rw [been_step, Pair.get_set_peer]
  exact or_iff_left_of_imp been_of_opened

theorem greets_fresh {been : Prop} (hb : ¬ been) (hok : c.control.Ok) (hst : s.greets c.state)
    (hout : ∀ d ∈ out, Bare s.greeting d) (hl : c.state = .listening → out = [])
    (ha : c.state ≠ .synReceived) : Greets been s (Endpoint.fresh c out) := by
  constructor
  · exact hok
  · intro h; exact absurd h hb
  · intro _; left; exact hst
  · intro _; exact hout
  · exact hl
  · intro h; exact absurd h ha

theorem connect_greets {b : Build} {cfg : Config} {t : Tick} {syn : Datagram}
    (h : Connection.connect b cfg t = .ok (c, syn)) :
    c.state = .synSent ∧ c.control.Ok ∧ Bare FLAG_SYN syn := by
  obtain ⟨c₀, hc₀, h⟩ := bind_eq_ok.mp h
  obtain ⟨d, hd, h⟩ := bind_eq_ok.mp h
  have hok : c₀.control.Ok := blank_ok rfl hc₀
  obtain ⟨w, _, hc₀⟩ := bind_eq_ok.mp hc₀
  cases hc₀
  cases h
  exact ⟨rfl, hok, bare_of_headerBytes hd⟩

theorem listen_greets {b : Build} {cfg : Config} {t : Tick} (h : Connection.listen b cfg t = .ok c) :
    c.state = .listening ∧ c.control.Ok := by
  have hok : c.control.Ok := blank_ok rfl h
  obtain ⟨w, _, h⟩ := bind_eq_ok.mp h
  cases h
  exact ⟨rfl, hok⟩

theorem start_greeted {b : Build} {ccfg scfg : Config} {t t' : Tick}
    (h : Pair.start b ccfg scfg t t' = .ok p) : Greeted [] p := by
  obtain ⟨⟨c, syn⟩, hcon, h⟩ := bind_eq_ok.mp h
  obtain ⟨c', hlis, h⟩ := bind_eq_ok.mp h
  obtain ⟨hst, hok, hsyn⟩ := connect_greets hcon
  obtain ⟨hst', hok'⟩ := listen_greets hlis
  cases h
  have hnot : ∀ s, ¬ Been [] ⟨.fresh c [syn], .fresh c' []⟩ s := by
    intro s hb
    have ho := been_start.mp hb
    cases s with
    | client => simp [Pair.get, Endpoint.fresh, hst, State.opened] at ho
    | server => simp [Pair.get, Endpoint.fresh, hst', State.opened] at ho
  constructor
  · intro s
    cases s with
    | client =>
      refine greets_fresh (hnot _) hok (by simp [hst, Side.greets]) ?_ (by simp [hst]) (by simp [hst])
      intro d hd
      rw [List.mem_singleton] at hd
      rw [hd]; exact hsyn
    | server =>
      exact greets_fresh (hnot _) hok' (by simp [hst', Side.greets]) (by simp) (by simp) (by simp [hst'])
  · intro h; exact absurd h (hnot _)
  · intro h; exact absurd h (hnot _)
  · intro s hflags
    cases s with
    | client =>
      have hf := hok.handshaking (by simp [Connection.control, hst, State.handshaking])
      exact absurd hflags (by simpa [Pair.get, Endpoint.fresh, Connection.control] using hf.2)
    | server =>
      have hf := hok'.handshaking (by simp [Connection.control, hst', State.handshaking])
      exact absurd hflags (by simpa [Pair.get, Endpoint.fresh, Connection.control] using hf.2)

theorem step_greeted {b : Build} (hg : Greeted past p) (hlegal : p.Legal s a)
    (h : p.step b s a = .ok p') : Greeted (p :: past) p' := by
  obtain ⟨e, he, rfl⟩ := Pair.step_inv h
  obtain ⟨hside, hlis, hopen⟩ := greets_call (hg.side s) he
  have hself : Been (p :: past) (p.set s e) s ↔ Been past p s ∨ e.conn.state.opened := by
    rw [been_step, Pair.get_set_self]
  constructor
  · intro t
    rcases t.eq_or_peer s with rfl | rfl
    · rw [hself, Pair.get_set_self]; exact hside
    · rw [been_peer, Pair.get_set_peer]; exact hg.side s.peer
  · intro hserver
    cases s with
    | client => exact hself.mpr (Or.inl (hg.accepted (been_peer.mp hserver)))
    | server =>
      refine been_peer.mpr ?_
      rcases hself.mp hserver with hb | ho
      · exact hg.accepted hb
      · rcases hopen ho with hb | ⟨now, d, f, hdr, app, rfl, hc, hdone⟩
        · exact hg.accepted hb
        · exact hg.hears_client hlegal hc hdone.1
  · intro hclient
    cases s with
    | client =>
      rcases hself.mp hclient with hb | ho
      · exact hg.heard hb
      · rcases hopen ho with hb | ⟨now, d, f, hdr, app, rfl, hc, hdone⟩
        · exact hg.heard hb
        · exact hg.hears_server hlegal
    | server =>
      intro hl
      exact hg.heard (been_peer.mp hclient) (hlis hl)
  · intro t hflags
    rcases t.eq_or_peer s with rfl | rfl
    · refine been_peer.mpr ?_
      rw [Pair.get_set_self] at hflags
      have hold : ((p.get t).conn.finAcked ∨ (p.get t).conn.peerFinSeen) ∨
          ∃ fa fin, a.cause = .segment fa fin ∧ (fa ∨ fin) := by
        rcases hflags with hk | hk
        · rcases (call_turns he).finAcked hk with h | ⟨fin, h⟩
          · exact Or.inl (Or.inl h)
          · exact Or.inr ⟨_, _, h, Or.inl rfl⟩
        · rcases (call_turns he).peerFinSeen hk with h | ⟨fa, h⟩
          · exact Or.inl (Or.inr h)
          · exact Or.inr ⟨_, _, h, Or.inr rfl⟩
      rcases hold with hold | ⟨fa, fin, hcause, hm⟩
      · exact hg.flags t hold
      · obtain ⟨now, d, f, hdr, app, rfl, hc, rfl, rfl⟩ := cause_segment hcause
        exact hg.marks hlegal hc hm
    · rw [Pair.get_set_peer] at hflags
      have hb := hg.flags s.peer hflags
      rw [Pair.peer_peer] at hb ⊢
      exact hself.mpr (Or.inl hb)

theorem run_greeted {b : Build} {ccfg scfg : Config} {T : Tick → Prop}
    {G : Pair → Side → Call → Prop} (h : Pair.Run b ccfg scfg T G past p) : Greeted past p := by
  induction h with
  | start _ _ h => exact start_greeted h
  | step _ hlegal _ _ h ih => exact step_greeted ih hlegal h

end Runs

/-! ## The completing acknowledgement -/

theorem handshakeArm_synack {isSyn isAck returns : Bool} (hflags : isSyn && isAck)
    (hst : c.state = .established ∨ c.state = .closing)
    (h : c.handshakeArm b isSyn isAck = .ok (returns, c', out)) :
    returns = false ∧ c' = c ∧ ∃ ack, Bare FLAG_ACK ack ∧ out = [ack] := by
  have hopen : c.isOpen := by rcases hst with hst | hst <;> simp [Connection.isOpen, hst]
  cases handshakeArm_branch h with
  | greet hs | accept hs | connect hs | regreet hs => simp [Connection.isOpen, hs] at hopen
  | confirm _ _ hack => exact ⟨rfl, rfl, _, bare_of_headerBytes hack, rfl⟩
  | pass hno => rw [hno hopen] at hflags; cases hflags

/-- A connection whose handshake is complete answers SYN-ACK with a bare ACK before all else. -/
theorem onDatagram_synack {now : Tick} {d : Datagram} (hst : c.state = .established ∨ c.state = .closing)
    (hd : Bare (FLAG_SYN ||| FLAG_ACK) d) (h : c.onDatagram b now d = .ok (c', out)) :
    ∃ ack rest, Bare FLAG_ACK ack ∧ out = ack :: rest := by
  obtain ⟨f, hdr, app, hcar⟩ := hd.decodes
  obtain ⟨hfl, _, _⟩ := hd.carries hcar
  rw [hcar.onDatagram, hfl] at h
  have hst' : (c.advance now).state = .established ∨ (c.advance now).state = .closing := hst
  generalize c.advance now = c₀ at h hst'
  have hopen : ({ c₀ with peerWindow := hdr.window } : Connection).isOpen := by
    rcases hst' with hst | hst <;> simp [Connection.isOpen, hst]
  cases onSegment_branch h with
  | closed hcl => rcases hst' with hst | hst <;> rw [hst] at hcl <;> cases hcl
  | handshake _ _ hadm =>
    have hyes := admits_of_isOpen (c := { c₀ with peerWindow := hdr.window }) hopen
    exact absurd ((hyes _ _).symm.trans hadm) (by simp)
  | block _ h₁ =>
    obtain ⟨_, _, ack, hack, rfl⟩ :=
      handshakeArm_synack (c := { c₀ with peerWindow := hdr.window }) (by decide) hst' h₁
    exact ⟨ack, _, hack, rfl⟩

/-- Without `fin_ack` and FIN a segment brings a waiting side no further than to the states that
    carry data. -/
theorem Turn.opens {k k' : Control} (h : Turn (.segment false false) k k')
    (hk : k.finAcked = false ∧ (k.state = .synReceived ∨ k.state = .established ∨
      (k.state = .closing ∧ k.closeRequested))) :
    k'.finAcked = false ∧ (k'.state = .synReceived ∨ k'.state = .established ∨
      (k'.state = .closing ∧ k'.closeRequested)) := by
  obtain ⟨hack, hst⟩ := hk
  cases h with
  | request ha | finAck ha | seeFin ha | fail ha | failFin ha => cases ha
  | synReceived _ hl => simp [hl] at hst
  | establish => exact ⟨hack, Or.inr (Or.inl rfl)⟩
  | startFin _ hreq => exact ⟨hack, Or.inr (Or.inr ⟨rfl, hreq⟩)⟩
  | close _ h => rw [hack] at h; cases h

/-- A bare ACK takes a server out of `SynReceived`. -/
theorem onDatagram_completes {now : Tick} {d : Datagram} (hst : c.state = .synReceived)
    (hok : c.control.Ok) (hd : Bare FLAG_ACK d) (h : c.onDatagram b now d = .ok (c', out)) :
    c'.state = .established ∨ (c'.state = .closing ∧ c'.closeRequested) := by
  obtain ⟨f, hdr, app, hcar⟩ := hd.decodes
  obtain ⟨hfl, hfa, _⟩ := hd.carries hcar
  rw [hcar.onDatagram, hfl] at h
  have hopen : c'.state.opened := by
    rcases onSegment_greeting (s := .server) (c := c.advance now)
      (by show Side.greets _ c.state; rw [hst]; rfl) h with ⟨hno, _⟩ | ⟨_, ho⟩
    · exact absurd ⟨by decide, by show c.state ≠ _; rw [hst]; simp⟩ hno
    · exact ho
  have hturns := onSegment_turns h
  rw [hfa, show finSet FLAG_ACK = false by decide] at hturns
  have hk : c.control.finAcked = false :=
    (hok.handshaking (by simp [Connection.control, hst, State.handshaking])).2.1
  obtain ⟨_, hst'⟩ := hturns.preserves (fun hk ht => Turn.opens ht hk) ⟨hk, Or.inl hst⟩
  rcases hst' with hst' | hst'
  · rw [show c'.state = .synReceived from hst'] at hopen; cases hopen
  · exact hst'

theorem Turns.closeRequested {a : Cause} {k k' : Control} (h : Turns a k k')
    (hk : k'.closeRequested) : k.closeRequested ∨ a = .close := by
  refine h.preserves (P := fun k' => k'.closeRequested → k.closeRequested ∨ a = .close)
    (fun hp ht hk' => ?_) Or.inl hk
  cases ht with
  | request ha => right; exact ha
  | _ => exact hp hk'

/-- If the two deliveries return, the client's answer to `d` takes the server out of
    `SynReceived`. -/
def Pair.Released (b : Build) (p : Pair) (d : Datagram) (now now' : Tick) : Prop :=
  ∀ p₁, p.step b .client (.onDatagram now d) = .ok p₁ →
    ∃ ack rest, p₁.client.emitted = p.client.emitted ++ ack :: rest ∧
      ∀ p₂, p₁.step b .server (.onDatagram now' ack) = .ok p₂ →
        p₂.server.conn.state = .established ∨
          (p₂.server.conn.state = .closing ∧ p.server.conn.closeRequested)

section Released

variable {past : List Pair} {p : Pair} {ccfg scfg : Config} {T : Tick → Prop}

/-- The client of a waiting server can still answer it. -/
theorem Greeted.client_open (hg : Greeted past p) (hs : p.server.conn.state = .synReceived)
    (hb : Been past p .client) (hf : p.client.conn.isFailed = false) :
    p.client.conn.state = .established ∨ p.client.conn.state = .closing := by
  have ho : p.client.conn.state.opened := opened_of_settled ((hg.side .client).settled hb) hf
  cases hst : p.client.conn.state with
  | established => left; rfl
  | closing => right; rfl
  | closed =>
    have hseen := ((hg.side .client).control.closed hst).2
    have hk := (hg.side .server).settled (hg.flags .client (Or.inr hseen))
    exact absurd hs (ne_of_settled hk rfl)
  | _ => rw [hst] at ho; cases ho

theorem Greeted.waits (hg : Greeted past p) (hs : p.server.conn.state = .synReceived) :
    ∀ d ∈ p.server.emitted, Bare Side.server.greeting d :=
  (hg.side .server).frames fun hb => ne_of_settled ((hg.side .server).settled hb) rfl hs

theorem Greeted.released (hg : Greeted past p) (hs : p.server.conn.state = .synReceived)
    (hc : p.client.conn.state = .established ∨ p.client.conn.state = .closing) {d : Datagram}
    (hd : d ∈ p.server.emitted) (now now' : Tick) : p.Released b d now now' := by
  intro p₁ h₁
  obtain ⟨e, he, rfl⟩ := Pair.step_inv h₁
  obtain ⟨⟨c₁, out₁⟩, hcall, he⟩ := bind_eq_ok.mp he
  cases he
  obtain ⟨ack, rest, hack, rfl⟩ := onDatagram_synack hc (hg.waits hs d hd) hcall
  refine ⟨ack, rest, rfl, fun p₂ h₂ => ?_⟩
  obtain ⟨e, he, rfl⟩ := Pair.step_inv h₂
  have hturns := call_turns he
  obtain ⟨⟨c₂, out₂⟩, hcall, he⟩ := bind_eq_ok.mp he
  cases he
  rcases onDatagram_completes hs (hg.side .server).control hack hcall with hst | ⟨hst, hreq⟩
  · left; exact hst
  · right
    refine ⟨hst, (hturns.closeRequested hreq).resolve_right ?_⟩
    obtain ⟨f, hdr, app, hcar⟩ := hack.decodes
    simp [hcar.cause]

/-- In a short run with sensible configurations the two deliveries do return. -/
theorem released_returns (hc : ccfg.Sane) (hs : scfg.Sane)
    (h : Pair.Run b ccfg scfg Early (fun _ _ _ => True) past p) {d : Datagram}
    (hd : d ∈ p.server.emitted) {now now' : Tick} (hnow : Early now) (hnow' : Early now')
    (hlen : past.length + 2 < 2 ^ 32 - 1) (hfits : p.Fits) :
    ∃ p₁, p.step b .client (.onDatagram now d) = .ok p₁ ∧
      ∀ ack ∈ p₁.client.emitted, ∃ p₂, p₁.step b .server (.onDatagram now' ack) = .ok p₂ := by
  have htick : ∀ {now : Tick} {d : Datagram}, Early now →
      ∀ t ∈ (Call.onDatagram now d).tick?, Early t := by
    intro now d hnow t ht
    cases ht
    exact hnow
  have hlegal : p.Legal .client (.onDatagram now d) := hd
  obtain ⟨e, he⟩ := run_returns hc hs h hlegal (htick hnow) (by omega) hfits.1 hfits.2
  have hstep : p.step b .client (.onDatagram now d) = .ok (p.set .client e) :=
    bind_eq_ok.mpr ⟨e, he, rfl⟩
  refine ⟨_, hstep, fun ack hack => ?_⟩
  have hsent : e.sent.length < 2 ^ 32 := by
    rw [Endpoint.call_sends he]; exact hfits.1
  have hlegal' : (p.set .client e).Legal .server (.onDatagram now' ack) := hack
  obtain ⟨e', he'⟩ := run_returns hc hs (h.step hlegal (htick hnow) trivial hstep) hlegal' (htick hnow')
    (by simp only [List.length_cons]; omega) hfits.2 hsent
  exact ⟨_, bind_eq_ok.mpr ⟨e', he', rfl⟩⟩

/-- **Handshake agreement.**  In every state of every run: the server has been established only
    if the client has; the client only if the server has left `Listening`; a side that has not
    been established has emitted nothing but its greeting, SYN or SYN-ACK; and a server in
    `SynReceived` whose client has been established and has not failed has emitted a SYN-ACK, the
    client still is in a state that carries data, and its answer to any of them takes the server
    out of `SynReceived`, if the deliveries return, which they do in a short run with sensible
    configurations. -/
theorem handshake_agreement (h : Pair.Run b ccfg scfg T (fun _ _ _ => True) past p) :
    (Been past p .server → Been past p .client) ∧
    (Been past p .client → p.server.conn.state ≠ .listening) ∧
    (∀ s, ¬ Been past p s → ∀ d ∈ (p.get s).emitted, Bare s.greeting d) ∧
    (p.server.conn.state = .synReceived → Been past p .client → p.client.conn.isFailed = false →
      (p.client.conn.state = .established ∨ p.client.conn.state = .closing) ∧
      p.server.emitted ≠ [] ∧
      ∀ d ∈ p.server.emitted, Bare Side.server.greeting d ∧ ∀ now now', p.Released b d now now' ∧
        (ccfg.Sane → scfg.Sane → (∀ t, T t → Early t) → past.length + 2 < 2 ^ 32 - 1 → p.Fits →
          Early now → Early now' → ∃ p₁, p.step b .client (.onDatagram now d) = .ok p₁ ∧
            ∀ ack ∈ p₁.client.emitted, ∃ p₂, p₁.step b .server (.onDatagram now' ack) = .ok p₂)) := by
  have hg := run_greeted h
  refine ⟨hg.accepted, hg.heard, fun s => (hg.side s).frames, fun hs hb hf => ?_⟩
  have hc := hg.client_open hs hb hf
  refine ⟨hc, (hg.side .server).awake hs, fun d hd => ⟨hg.waits hs d hd, fun now now' => ?_⟩⟩
  refine ⟨hg.released hs hc hd now now', fun hcfg hcfg' hT hlen hfits hnow hnow' => ?_⟩
  exact released_returns hcfg hcfg' (h.mono hT) hd hnow hnow' hlen hfits

end Released

/-- The completing acknowledgement of the client is lost. -/
def strandedRun : List (Side × Act) := [(.server, .deliver 1 0), (.client, .deliver 2 0)]

theorem handshake_agreement_sample : ∃ past p d p₁ ack rest p₂,
    Pair.Run .checked sampleConfig sampleConfig Early (fun _ _ _ => True) past p ∧
    p.server.conn.state = .synReceived ∧ d ∈ p.server.emitted ∧
    p.step .checked .client (.onDatagram 80 d) = .ok p₁ ∧
    p₁.client.emitted = p.client.emitted ++ ack :: rest ∧
    p₁.step .checked .server (.onDatagram 81 ack) = .ok p₂ ∧
    (p₂.server.conn.state = .established ∨
      (p₂.server.conn.state = .closing ∧ p.server.conn.closeRequested)) := by
  have hrun : Pair.playsVia .checked sampleConfig sampleConfig
      (fun _ _ a => a.tick?.all fun now => decide (Early now)) strandedRun
      (fun p => decide (p.server.conn.state = .synReceived ∧ p.client.conn.state = .established ∧
        p.Fits)) = true := by decide +kernel
  obtain ⟨past, p, hlen, hp, ht⟩ := Pair.playsVia_run (show Early 0 by decide)
    (fun _ _ a h => ⟨early_of_all h, trivial⟩) hrun
  obtain ⟨hs, hc, hfits⟩ := of_decide_eq_true ht
  have hshort : past.length = 2 := hlen
  have hb : Been past p .client := been_of_opened (by simp [Pair.get, hc, State.opened])
  obtain ⟨_, hne, hrel⟩ := (handshake_agreement hp).2.2.2 hs hb (by simp [Connection.isFailed, hc])
  obtain ⟨d, hd⟩ := List.exists_mem_of_ne_nil _ hne
  obtain ⟨_, hd'⟩ := hrel d hd
  obtain ⟨hrel, hret⟩ := hd' 80 81
  obtain ⟨p₁, h₁, hret⟩ := hret sampleConfig_sane sampleConfig_sane (fun _ h => h) (by omega) hfits
    (show 80 < 2 ^ 60 by omega) (show 81 < 2 ^ 60 by omega)
  obtain ⟨ack, rest, hout, hrel⟩ := hrel p₁ h₁
  obtain ⟨p₂, h₂⟩ := hret ack (by simp [hout])
  exact ⟨past, p, d, p₁, ack, rest, p₂, hp, hs, hd, h₁, hout, h₂, hrel p₂ h₂⟩

/-- A server that cuts its stream into empty segments. -/
def stuckConfig : Config := { sampleConfig with segmentSize := 0 }

/-- With bytes queued since before the handshake such a server does not return from the answer. -/
theorem synack_answer_hangs : ∃ past p d p₁ ack,
    Pair.Run .checked sampleConfig stuckConfig (fun _ => True) (fun _ _ _ => True) past p ∧
    p.server.conn.state = .synReceived ∧ Been past p .client ∧ p.client.conn.isFailed = false ∧
    d ∈ p.server.emitted ∧ p.step .checked .client (.onDatagram 80 d) = .ok p₁ ∧
    p₁.client.emitted = p.client.emitted ++ [ack] ∧
    p₁.step .checked .server (.onDatagram 81 ack) = .error .hang := by
  have hrun : Pair.playsVia .checked sampleConfig stuckConfig (fun _ _ _ => true)
      ((.server, .send 1 [7]) :: strandedRun)
      (fun p => decide (p.server.conn.state = .synReceived ∧ p.client.conn.state = .established) &&
        p.server.emitted.any fun d => returnsIn (p.step .checked .client (.onDatagram 80 d))
          fun p₁ => p₁.client.emitted.any fun ack =>
            decide (p₁.client.emitted = p.client.emitted ++ [ack] ∧
              fault? (p₁.step .checked .server (.onDatagram 81 ack)) = some .hang)) = true := by
    decide +kernel
  obtain ⟨past, p, _, hp, ht⟩ := Pair.playsVia_run (T := fun _ => True) trivial
    (fun _ _ _ _ => ⟨fun _ _ => trivial, trivial⟩) hrun
  obtain ⟨hst, hany⟩ := Bool.and_eq_true_iff.mp ht
  obtain ⟨hs, hc⟩ := of_decide_eq_true hst
  obtain ⟨d, hd, hstep⟩ := List.any_eq_true.mp hany
  obtain ⟨p₁, h₁, hstep⟩ := of_returnsIn hstep
  obtain ⟨ack, _, hack⟩ := List.any_eq_true.mp hstep
  obtain ⟨hout, hfault⟩ := of_decide_eq_true hack
  have hb : Been past p .client := been_of_opened (by simp [Pair.get, hc, State.opened])
  exact ⟨past, p, d, p₁, ack, hp, hs, hb, by simp [Connection.isFailed, hc], hd, h₁, hout,
    eq_error_of_fault? hfault⟩

end Distrans
