import Distrans.Transport.Handshake
import Distrans.Transport.Phases

/-!
# Teardown

What a side says of FINs, and what it waits for.

* `call_marked` — `fin_ack` is sent only by a side that has seen the peer's FIN.
* `call_waits` — a side whose FIN is pending has nothing else left to send (`Waits`), as long as its
  application keeps quiet after `close`.
-/

set_option autoImplicit false

namespace Distrans

open Machine Relation OrdMap

variable {b : Build} {c c' : Connection} {out : List Datagram}

/-! ## What is sent -/

/-- A segment without `fin_ack`. -/
def Plain (d : Datagram) : Prop := ∀ f h app, Carries d f h app → h.finAck = false

/-- A segment with neither `fin_ack` nor FIN. -/
def Unmarked (d : Datagram) : Prop :=
  ∀ f h app, Carries d f h app → h.finAck = false ∧ finSet f.flags = false

/-- A pure acknowledgement with `fin_ack`. -/
def FinAck (d : Datagram) : Prop :=
  ∃ (seq : U32) (h : SegmentHeader), h.finAck ∧ d = encodeFrame seq FLAG_ACK h.encode

theorem headerBytes_plain {bytes : List U8} (h : c.headerBytes b = .ok bytes) (seq : U32) (flags : U16)
    (data : List U8) : Plain (encodeFrame seq flags (bytes ++ data)) := by
  obtain ⟨hdr, hh, rfl⟩ := headerBytes_spec h
  obtain ⟨w, _, hh⟩ := bind_eq_ok.mp hh
  obtain ⟨sack, _, hh⟩ := bind_eq_ok.mp hh
  cases hh
  intro f h app hc
  obtain ⟨_, _, rfl, _⟩ := carries_encodeFrame hc
  rfl

theorem headerBytes_unmarked {bytes : List U8} (h : c.headerBytes b = .ok bytes) (seq : U32)
    (data : List U8) : Unmarked (Connection.buildDataFrame seq data bytes) := by
  intro f hdr app hc
  have hplain := headerBytes_plain h seq FLAG_ACK data f hdr app hc
  obtain ⟨hh, _, rfl⟩ := headerBytes_spec h
  obtain ⟨_, hfl, _, _⟩ := carries_encodeFrame hc
  exact ⟨hplain, by rw [hfl]; rfl⟩

theorem Unmarked.plain {d : Datagram} (h : Unmarked d) : Plain d := fun f hdr app hc => (h f hdr app hc).1

theorem Bare.plain {flags : U16} {d : Datagram} (h : Bare flags d) : Plain d :=
  fun _ _ _ hc => (h.carries hc).2.1

theorem plain_singleton {d : Datagram} (h : Plain d) : ∀ d' ∈ [d], Plain d' := by
  intro d' hd
  rw [List.mem_singleton] at hd
  rw [hd]; exact h

theorem plain_append {ds ds' : List Datagram} (h : ∀ d ∈ ds, Plain d) (h' : ∀ d ∈ ds', Plain d) :
    ∀ d ∈ ds ++ ds', Plain d := by
  intro d hd
  rcases List.mem_append.mp hd with hd | hd
  · exact h d hd
  · exact h' d hd

theorem trySendLoop_plain : ∀ {fuel : Nat} {c c' : Connection} {out : List Datagram},
    c.trySendLoop b fuel = .ok (c', out) → ∀ d ∈ out, Plain d
  | 0, _, _, _, h => by cases h
  | fuel + 1, c, c', out, h => by
    simp only [Connection.trySendLoop] at h
    split at h
    · cases h; simp
    · obtain ⟨cap, _, h⟩ := bind_eq_ok.mp h
      split at h
      · cases h; simp
      · obtain ⟨⟨c₁, d⟩, hcut, h⟩ := bind_eq_ok.mp h
        obtain ⟨⟨c₂, out₂⟩, hrec, h⟩ := bind_eq_ok.mp h
        obtain ⟨nextSeq, _, hcut⟩ := bind_eq_ok.mp hcut
        obtain ⟨bytes, hb, hcut⟩ := bind_eq_ok.mp hcut
        cases hcut
        cases h
        exact plain_append (plain_singleton (headerBytes_unmarked hb _ _).plain) (trySendLoop_plain hrec)

theorem buildFin_plain {d : Datagram} (h : c.buildFin b = .ok d) : Plain d := by
  obtain ⟨bytes, hb, h⟩ := bind_eq_ok.mp h
  cases h
  have hp := headerBytes_plain hb c.sendBase (FLAG_FIN ||| FLAG_ACK) []
  rw [List.append_nil] at hp
  exact hp

theorem drainAndMaybeFin_plain (h : c.drainAndMaybeFin b = .ok (c', out)) : ∀ d ∈ out, Plain d := by
  obtain ⟨⟨c₁, out₁⟩, h₁, h⟩ := bind_eq_ok.mp h
  obtain ⟨⟨c₂, fin⟩, h₂, h⟩ := bind_eq_ok.mp h
  cases h
  refine plain_append ?_ ?_
  · unfold Connection.trySendMore at h₁
    split at h₁
    · exact trySendLoop_plain h₁
    · cases h₁; simp
  · cases maybeSendFin_branch h₂ with
    | skip => simp
    | sent _ _ _ _ _ _ hd => exact plain_singleton (buildFin_plain hd)

theorem handshakeArm_plain {isSyn isAck returns : Bool}
    (h : c.handshakeArm b isSyn isAck = .ok (returns, c', out)) : ∀ d ∈ out, Plain d := by
  have hframe : ∀ {c₀ : Connection} {flags : U16} {d : Datagram},
      (c₀.headerBytes b >>= fun h => Except.ok (encodeFrame 0 flags h)) = .ok d →
      ∀ d' ∈ [d], Plain d' := fun hd => plain_singleton (bare_of_headerBytes hd).plain
  cases handshakeArm_branch h with
  | greet _ _ hd | regreet _ _ hd | confirm _ _ hd => exact hframe hd
  | connect _ _ _ hd => exact hframe hd
  | accept | pass => simp

section Incoming

variable {hdr : SegmentHeader} {app : List U8}

theorem fastRetransmit_unmarked {d : Datagram} (h : c.fastRetransmit b = .ok (c', some d)) :
    Unmarked d := by
  cases fastRetransmit_branch h with
  | oldest _ _ _ hb => exact headerBytes_unmarked hb _ _

theorem applyAck_unmarked {resent : Option Datagram} (h : c.applyAck b hdr = .ok (c', resent)) :
    ∀ d ∈ resent.toList, Unmarked d := by
  cases applyAck_branch h with
  | advance | duplicate | stale => simp
  | resend _ _ _ _ hfast =>
    intro d hd
    rw [Option.toList_some, List.mem_singleton] at hd
    rw [hd]
    exact fastRetransmit_unmarked hfast

/-- What the shared block answers: at most a retransmission, then the acknowledgement of data or
    FIN, then what the application has queued. -/
structure Answer (isFin : Bool) (out : List Datagram) (c' : Connection) (pre acks post : List Datagram) :
    Prop where
  out : out = pre ++ acks ++ post
  pre : ∀ d ∈ pre, Unmarked d
  acks : (isFin = false ∧ ∀ d ∈ acks, Plain d) ∨ (isFin ∧ c'.peerFinSeen ∧ ∃ ack, FinAck ack ∧ acks = [ack])
  post : ∀ d ∈ post, Plain d

theorem buildPureAck_plain {d : Datagram} (h : c.buildPureAck b false = .ok d) : Plain d := by
  obtain ⟨seq, hdr, hfa, rfl⟩ := buildPureAck_form h
  intro f h app hc
  obtain ⟨_, _, rfl, _⟩ := carries_encodeFrame_nil hc
  exact hfa

theorem buildPureAck_finAck {d : Datagram} (h : c.buildPureAck b true = .ok d) : FinAck d := by
  obtain ⟨seq, hdr, hfa, rfl⟩ := buildPureAck_form h
  exact ⟨seq, hdr, hfa, rfl⟩

/-- The end-of-stream mark of the peer stays. -/
theorem Turns.keepsSeen {a : Cause} {k k' : Control} (h : Turns a k k') (hk : k.peerFinSeen) :
    k'.peerFinSeen := by
  refine h.preserves (P := fun k => k.peerFinSeen) (fun hk ht => ?_) hk
  cases ht with
  | seeFin => rfl
  | _ => exact hk

theorem openBlock_answer {seq : U32} {isAck isFin : Bool}
    (h : c.openBlock b seq hdr app isAck isFin = .ok (c', out)) :
    ∃ pre acks post, Answer isFin out c' pre acks post := by
  obtain ⟨c₁, resent, c₂, acks, out₄, h₁, _, hans, h₄, rfl⟩ := openBlock_parts h
  have hpre : ∀ d ∈ resent.toList, Unmarked d := by
    split at h₁
    · exact applyAck_unmarked h₁
    · cases h₁; simp
  refine ⟨resent.toList, acks, out₄, rfl, hpre, ?_, drainAndMaybeFin_plain h₄⟩
  cases isFin with
  | false =>
    refine Or.inl ⟨rfl, ?_⟩
    split at hans
    · rw [hans]; simp
    · obtain ⟨ack, hack, rfl⟩ := hans
      exact plain_singleton (buildPureAck_plain hack)
  | true =>
    rw [if_neg (by simp)] at hans
    obtain ⟨ack, hack, rfl⟩ := hans
    have hturns : Turns .other _ c'.control := drainAndMaybeFin_turns h₄
    refine Or.inr ⟨rfl, hturns.keepsSeen ?_, ack, buildPureAck_finAck hack, rfl⟩
    rw [noted_fin]
    rfl

/-- `fin_ack` is sent only by a connection that has seen the peer's FIN. -/
def Marked (c' : Connection) (out : List Datagram) : Prop := ∀ d ∈ out, Plain d ∨ c'.peerFinSeen

theorem marked_of_plain (h : ∀ d ∈ out, Plain d) : Marked c' out := fun d hd => Or.inl (h d hd)

theorem Marked.append {out' : List Datagram} (h : Marked c' out) (h' : Marked c' out') :
    Marked c' (out ++ out') := by
  intro d hd
  rcases List.mem_append.mp hd with hd | hd
  · exact h d hd
  · exact h' d hd

theorem Answer.marked {isFin : Bool} {pre acks post : List Datagram}
    (h : Answer isFin out c' pre acks post) : Marked c' out := by
  rw [h.out]
  refine (Marked.append (marked_of_plain fun d hd => (h.pre d hd).plain) ?_).append
    (marked_of_plain h.post)
  rcases h.acks with ⟨_, hp⟩ | ⟨_, hseen, _⟩
  · exact marked_of_plain hp
  · intro d _; right; exact hseen

theorem onSegment_marked (hok : c.control.Ok) {seq : U32} {flags : U16}
    (h : c.onSegment b seq flags hdr app = .ok (c', out)) : Marked c' out := by
  cases onSegment_branch h with
  | closed hcl =>
    intro d _
    right
    exact (hok.closed hcl).2
  | handshake _ h₁ => exact marked_of_plain (handshakeArm_plain h₁)
  | block _ h₁ _ h₂ =>
    obtain ⟨_, _, _, hans⟩ := openBlock_answer h₂
    exact (marked_of_plain (handshakeArm_plain h₁)).append hans.marked

end Incoming

theorem tickHandshake_plain (h : c.tickHandshake b = .ok (c', out)) : ∀ d ∈ out, Plain d := by
  cases tickHandshake_branch h with
  | idle | fail => simp
  | retry _ _ _ _ _ hd =>
    refine plain_singleton ?_
    rcases hd with ⟨_, hd⟩ | ⟨_, hd⟩ <;> exact (bare_of_headerBytes hd).plain

theorem tickData_plain (h : c.tickData b = .ok (c', out)) : ∀ d ∈ out, Plain d := by
  have hframes : ∀ {bytes : List U8} (es : List (U32 × UnackedSegment)), c.headerBytes b = .ok bytes →
      ∀ d ∈ es.map (fun e => Connection.buildDataFrame e.1 e.2.data bytes), Plain d := by
    intro bytes es hb d hd
    obtain ⟨e, _, rfl⟩ := List.mem_map.mp hd
    exact (headerBytes_unmarked hb _ _).plain
  cases tickData_branch h with
  | idle => simp
  | fail _ _ _ _ hb => exact hframes _ hb
  | sweep _ _ _ _ hb => exact hframes _ hb

theorem tickFin_plain (h : c.tickFin b = .ok (c', out)) : ∀ d ∈ out, Plain d := by
  cases tickFin_branch h with
  | idle | fail => simp
  | retry _ _ _ _ _ hd => exact plain_singleton (buildFin_plain hd)

theorem onTick_plain {now : Tick} (h : c.onTick b now = .ok (c', out)) : ∀ d ∈ out, Plain d := by
  have hopen : ∀ {c₀ : Connection}, c₀.tickOpen b = .ok (c', out) → ∀ d ∈ out, Plain d := by
    intro c₀ h
    obtain ⟨c₁, out₁, h₁, hr⟩ := tickOpen_parts h
    rcases hr with ⟨_, _, rfl⟩ | ⟨_, c₂, out₂, h₂, hr⟩
    · exact tickData_plain h₁
    · rcases hr with ⟨_, _, rfl⟩ | ⟨_, out₃, h₃, rfl⟩
      · exact plain_append (tickData_plain h₁) (tickFin_plain h₂)
      · exact plain_append (plain_append (tickData_plain h₁) (tickFin_plain h₂))
          (drainAndMaybeFin_plain h₃)
  cases onTick_branch h with
  | handshake _ h => exact tickHandshake_plain h
  | opened _ h => exact hopen h
  | rest => simp

theorem call_marked {e e' : Endpoint} {a : Call} (hok : e.conn.control.Ok) (h : e.call b a = .ok e') :
    ∃ out, e'.emitted = e.emitted ++ out ∧ Marked e'.conn out := by
  cases a with
  | send now data =>
    obtain ⟨⟨c', out⟩, hc, h⟩ := bind_eq_ok.mp h
    cases h
    exact ⟨out, rfl, marked_of_plain (drainAndMaybeFin_plain hc)⟩
  | close now =>
    obtain ⟨⟨c', out⟩, hc, h⟩ := bind_eq_ok.mp h
    cases h
    exact ⟨out, rfl, marked_of_plain (drainAndMaybeFin_plain hc)⟩
  | recv =>
    cases h
    exact ⟨[], rfl, by simp [Marked]⟩
  | onTick now =>
    obtain ⟨⟨c', out⟩, hc, h⟩ := bind_eq_ok.mp h
    cases h
    exact ⟨out, rfl, marked_of_plain (onTick_plain hc)⟩
  | onDatagram now d =>
    obtain ⟨⟨c', out⟩, hc, h⟩ := bind_eq_ok.mp h
    cases h
    rcases onDatagram_cases hc with ⟨rfl, rfl⟩ | ⟨f, hdr, app, hcar, hs⟩
    · exact ⟨[], rfl, by simp [Marked]⟩
    · exact ⟨out, rfl, onSegment_marked (c := e.conn.advance now) hok hs⟩

/-! ## A pending FIN -/

/-- Nothing queued and nothing outstanding. -/
def Emptied (c : Connection) : Prop := c.sendQueue = [] ∧ c.unacked.entries = []

/-- While the FIN is pending nothing else is. -/
def Waits (c : Connection) : Prop := c.finPending.isSome → c.state = .closing ∧ Emptied c

theorem Emptied.move {hdr : Option SegmentHeader} (h : Emptied c) (hm : Move b hdr c c') : Emptied c' := by
  obtain ⟨hq, hu⟩ := h
  cases hm with
  | learn =>
    refine ⟨hq, ?_⟩
    show (c.unacked.eraseAll _).entries = []
    rw [entries_eraseAll, hu]
    rfl
  | fast _ h => exact ⟨hq, (mapFirst_rel h).eq_nil hu⟩
  | mark _ _ h => exact ⟨hq, (mapRange_rel h).eq_nil hu⟩
  | sweep _ h => exact ⟨hq, (mapM_rel h).eq_nil hu⟩
  | deliver _ h =>
    obtain ⟨_, _, _, _, rfl⟩ := (deliverData_delivers h).fields
    exact ⟨hq, hu⟩
  | cut _ _ hn hle =>
    rw [hq, List.length_nil] at hle
    omega
  | failData => exact ⟨hq, rfl⟩
  | _ => exact ⟨hq, hu⟩

theorem Waits.keep {hdr : Option SegmentHeader} (h : Waits c) (hm : Moves b hdr c c')
    (hk : c'.control = c.control ∨ c'.finPending = none) : Waits c' := by
  intro hp
  rcases hk with hk | hk
  · have hpend : c'.finPending.isSome = c.finPending.isSome := congrArg Control.finPending hk
    obtain ⟨hst, hempty⟩ := h (by rw [← hpend]; exact hp)
    exact ⟨(control_state hk).trans hst, hm.preserves Emptied.move hempty⟩
  · rw [hk] at hp; cases hp

theorem Waits.of_none (h : c.finPending = none) : Waits c := by
  intro hp
  rw [h] at hp
  cases hp

theorem trySendMore_emptied (hempty : Emptied c) : c.trySendMore b = .ok (c, []) := by
  unfold Connection.trySendMore
  split
  · simp [Connection.trySendLoop, hempty.1]
  · rfl

/-- With nothing to send a pending FIN stays the only thing that is. -/
theorem drainAndMaybeFin_pending (hok : c.control.Ok) (h : Waits c) (hp : c.finPending.isSome) :
    c.drainAndMaybeFin b = .ok (c, []) := by
  obtain ⟨_, hempty⟩ := h hp
  have hack : c.finAcked = false := (hok.pending hp).2
  have hne : c.finPending ≠ none := by
    intro hnone
    rw [hnone] at hp
    cases hp
  simp [Connection.drainAndMaybeFin, trySendMore_emptied hempty, Connection.maybeSendFin, hne,
    Connection.checkFullyClosed, hack]

theorem drainAndMaybeFin_waits (hok : c.control.Ok) (h : Waits c)
    (hr : c.drainAndMaybeFin b = .ok (c', out)) : Waits c' := by
  by_cases hp : c.finPending.isSome
  · rw [drainAndMaybeFin_pending hok h hp] at hr
    cases hr
    exact h
  · obtain ⟨⟨c₁, out₁⟩, h₁, hr⟩ := bind_eq_ok.mp hr
    obtain ⟨⟨c₂, fin⟩, h₂, hr⟩ := bind_eq_ok.mp hr
    cases hr
    have hpend : c₁.finPending.isSome = c.finPending.isSome :=
      congrArg Control.finPending (trySendMore_control h₁)
    cases maybeSendFin_branch h₂ with
    | sent _ _ hack _ hq hu =>
      intro _
      have hopen : ({ c₁ with state := .closing, finPending := some ⟨c₁.now, 1⟩ } :
          Connection).checkFullyClosed = { c₁ with state := .closing, finPending := some ⟨c₁.now, 1⟩ } := by
        simp [Connection.checkFullyClosed, hack]
      rw [hopen]
      exact ⟨rfl, List.isEmpty_iff.mp hq, isEmpty_iff.mp hu⟩
    | skip =>
      refine Waits.of_none ?_
      have hsame : c₁.checkFullyClosed.finPending = c₁.finPending := by
        unfold Connection.checkFullyClosed
        split <;> rfl
      rw [hsame, ← Option.not_isSome_iff_eq_none, hpend]
      exact hp

theorem ackMarks_pending {hdr : SegmentHeader} (h : c.ackMarks hdr = .ok c') :
    c'.control = c.control ∨ c'.finPending = none := by
  cases ackMarks_branch h with
  | marked => left; rfl
  | finAcked =>
    right
    unfold Connection.checkFullyClosed
    split <;> rfl

theorem applyAck_pending {hdr : SegmentHeader} {resent : Option Datagram}
    (h : c.applyAck b hdr = .ok (c', resent)) : c'.control = c.control ∨ c'.finPending = none := by
  have hmarks : ∀ c₁ : Connection, c₁.control = c.control → c₁.ackMarks hdr = .ok c' →
      c'.control = c.control ∨ c'.finPending = none := by
    intro c₁ hc hm
    rw [← hc]
    exact ackMarks_pending hm
  cases applyAck_branch h with
  | advance _ h₁ h₂ => exact hmarks _ (ackAdvance_control h₁) h₂
  | @duplicate n _ _ _ _ _ h₂ => exact hmarks { c with dupAckCount := n } rfl h₂
  | resend _ _ _ _ hfast =>
    have hc : c'.control = c.control := fastRetransmit_control hfast
    exact Or.inl hc
  | stale _ _ h₂ => exact hmarks c rfl h₂

theorem openBlock_waits (hok : c.control.Ok) (h : Waits c) (ho : c.isOpen) {seq : U32}
    {hdr : SegmentHeader} {app : List U8} {isAck isFin : Bool}
    (hr : c.openBlock b seq hdr app isAck isFin = .ok (c', out)) : Waits c' := by
  obtain ⟨c₁, resent, c₂, acks, out₄, h₁, h₂, _, h₄, _⟩ := openBlock_parts hr
  have hack : Waits c₁ ∧ c₁.control.Ok ∧ c₁.state.opened := by
    split at h₁
    · have hturns : Turns (.segment hdr.finAck isFin) c.control c₁.control ∧ c₁.state.opened :=
        applyAck_turns (opened_of_isOpen ho) h₁
      obtain ⟨hturns, ho₁⟩ := hturns
      exact ⟨h.keep (applyAck_moves ho h₁) (applyAck_pending h₁), hturns.preserves Control.Ok.turn hok,
        ho₁⟩
    · cases h₁; exact ⟨h, hok, opened_of_isOpen ho⟩
  have hc := deliverData_control h₂
  have hmove : Move b (some hdr) c₁ c₂ := .deliver rfl h₂
  have hw₂ : Waits c₂ := hack.1.keep (.one hmove) (Or.inl hc)
  have hok₂ : c₂.control.Ok := by rw [hc]; exact hack.2.1
  have ho₂ : c₂.control.state.opened := by rw [hc]; exact hack.2.2
  refine drainAndMaybeFin_waits ?_ (by exact hw₂) h₄
  cases isFin with
  | true =>
    rw [noted_fin]
    exact hok₂.turn (.seeFin (a := .segment false true) rfl ho₂)
  | false =>
    rw [noted_plain]
    exact hok₂

theorem handshakeArm_waits {isSyn isAck returns : Bool} (h : Waits c)
    (hr : c.handshakeArm b isSyn isAck = .ok (returns, c', out)) : Waits c' := by
  by_cases hp : c.finPending.isSome
  · rw [handshakeArm_open (by simp [Connection.isOpen, (h hp).1]) hr]
    exact h
  · obtain ⟨st, hs, r, rfl⟩ := handshakeArm_fields hr
    exact .of_none (Option.not_isSome_iff_eq_none.mp hp)

theorem onSegment_waits (hok : c.control.Ok) (h : Waits c) {seq : U32} {flags : U16} {hdr : SegmentHeader}
    {app : List U8} (hr : c.onSegment b seq flags hdr app = .ok (c', out)) : Waits c' := by
  have hwin : Waits { c with peerWindow := hdr.window } := h
  cases onSegment_branch hr with
  | closed => exact h
  | handshake _ h₁ => exact handshakeArm_waits hwin h₁
  | @block c₁ _ _ _ _ h₁ ho h₂ =>
    have hturns : Turns (.segment hdr.finAck (finSet flags)) c.control c₁.control := by
      simpa only [Connection.control] using handshakeArm_turns h₁
    exact openBlock_waits (hturns.preserves Control.Ok.turn hok) (handshakeArm_waits hwin h₁) ho h₂

theorem tickHandshake_waits (h : Waits c) (hp : c.finPending = none)
    (hr : c.tickHandshake b = .ok (c', out)) : Waits c' := by
  cases tickHandshake_branch hr with
  | idle => exact h
  | fail | retry => exact .of_none hp

theorem tickData_waits (h : Waits c) (hr : c.tickData b = .ok (c', out)) : Waits c' := by
  by_cases hp : c.finPending.isSome
  · have hnil := (h hp).2.2
    cases tickData_branch hr with
    | idle => exact h
    | fail hes | sweep hes => rw [hnil] at hes; cases hes
  · exact .of_none ((tickData_finPending hr).trans (Option.not_isSome_iff_eq_none.mp hp))

theorem tickFin_waits (h : Waits c) (hr : c.tickFin b = .ok (c', out)) : Waits c' := by
  have hm : Moves b none c c' := tickFin_moves hr
  refine h.keep hm ?_
  rcases tickFin_control hr with hc | hc
  · left; exact hc
  · right
    have hnone : c'.finPending.isSome = false := congrArg Control.finPending hc
    simpa using hnone

theorem isFailed_of_state {r : FailureReason} (h : c.state = .failed r) : c.isFailed := by
  simp [Connection.isFailed, h]

theorem tickData_live (h : c.tickData b = .ok (c', out)) (hf : c'.isFailed = false) :
    c'.control = c.control := by
  rcases tickData_control h with hc | hc
  · exact hc
  · rw [isFailed_of_state (congrArg Control.state hc)] at hf
    cases hf

theorem tickFin_live (h : c.tickFin b = .ok (c', out)) (hf : c'.isFailed = false) :
    c'.control = c.control := by
  rcases tickFin_control h with hc | hc
  · exact hc
  · rw [isFailed_of_state (congrArg Control.state hc)] at hf
    cases hf

theorem tickOpen_waits (hok : c.control.Ok) (h : Waits c) (hr : c.tickOpen b = .ok (c', out)) :
    Waits c' := by
  obtain ⟨c₁, out₁, h₁, hr⟩ := tickOpen_parts hr
  have hw₁ := tickData_waits h h₁
  rcases hr with ⟨_, rfl, _⟩ | ⟨hf₁, c₂, out₂, h₂, hr⟩
  · exact hw₁
  · have hw₂ := tickFin_waits hw₁ h₂
    rcases hr with ⟨_, rfl, _⟩ | ⟨hf₂, out₃, h₃, _⟩
    · exact hw₂
    · refine drainAndMaybeFin_waits ?_ hw₂ h₃
      rw [tickFin_live h₂ hf₂, tickData_live h₁ hf₁]
      exact hok

theorem onTick_waits (hok : c.control.Ok) (h : Waits c) {now : Tick}
    (hr : c.onTick b now = .ok (c', out)) : Waits c' := by
  have hnone : c.state.handshaking → c.finPending = none := by
    intro hst
    have hpend : c.finPending.isSome = false := (hok.handshaking hst).1
    simpa using hpend
  cases onTick_branch hr with
  | handshake hst hr =>
    refine tickHandshake_waits (c := c.advance now) h (hnone ?_) hr
    rcases hst with hst | hst <;> rw [hst] <;> rfl
  | opened _ hr => exact tickOpen_waits (c := c.advance now) hok h hr
  | rest => exact h

theorem onDatagram_waits (hok : c.control.Ok) (h : Waits c) {now : Tick} {d : Datagram}
    (hr : c.onDatagram b now d = .ok (c', out)) : Waits c' := by
  rcases onDatagram_cases hr with ⟨rfl, _⟩ | ⟨f, hdr, app, _, hs⟩
  · exact h
  · exact onSegment_waits (c := c.advance now) hok h hs

/-- A call keeps the FIN the only thing that is pending, unless the application sends more. -/
theorem call_waits {e e' : Endpoint} {a : Call} (hok : e.conn.control.Ok) (h : Waits e.conn)
    (hsend : ∀ now data, a = .send now data → e.conn.closeRequested = false)
    (hr : e.call b a = .ok e') : Waits e'.conn := by
  cases a with
  | send now data =>
    obtain ⟨⟨c', out⟩, hc, hr⟩ := bind_eq_ok.mp hr
    cases hr
    have hnone : e.conn.finPending = none := by
      by_contra hp
      have hreq : e.conn.closeRequested = true :=
        (hok.pending (Option.isSome_iff_ne_none.mpr hp)).1
      rw [hsend now data rfl] at hreq
      cases hreq
    refine drainAndMaybeFin_waits ?_ (.of_none ?_) hc
    · exact hok
    · exact hnone
  | close now =>
    obtain ⟨⟨c', out⟩, hc, hr⟩ := bind_eq_ok.mp hr
    cases hr
    refine drainAndMaybeFin_waits ?_ ?_ hc
    · exact hok.turn (.request rfl)
    · exact h
  | recv =>
    cases hr
    exact h
  | onTick now =>
    obtain ⟨⟨c', out⟩, hc, hr⟩ := bind_eq_ok.mp hr
    cases hr
    exact onTick_waits hok h hc
  | onDatagram now d =>
    obtain ⟨⟨c', out⟩, hc, hr⟩ := bind_eq_ok.mp hr
    cases hr
    exact onDatagram_waits hok h hc

end Distrans
