import Distrans.Transport.Closing
import Distrans.Transport.Honest

/-!
# Teardown strands no side

`fin_ack` leaves a side only when it has seen the peer's FIN (`Ending.marked`), so a side whose FIN
is acknowledged faces one that has seen it, and a side that is closed one that has acknowledged
its FIN.  A side that waits with a FIN makes of the peer's answer what it takes: what precedes the
acknowledgement finds it waiting, what follows does not take the acknowledgement back.

* `teardown_strands_no_side` — **a pending FIN, sent again, is acknowledged whatever the state of
  the peer, unless that has failed; a peer that was closed leaves this side closed.**
* `rebuilt_fin_hangs` — the acknowledgement needs a configuration with which the calls return.
-/

set_option autoImplicit false

namespace Distrans

open Machine OrdMap Relation

variable {b : Build} {c c' : Connection} {out : List Datagram} {h : SegmentHeader} {f : Frame}
  {app : List U8}

/-! ## The answer to a FIN -/

/-- A FIN that is sent again. -/
theorem buildFin_carries {d : Datagram} (hr : c.buildFin b = .ok d) :
    ∃ f h, Carries d f h [] ∧ f.flags = FLAG_FIN ||| FLAG_ACK := by
  obtain ⟨bytes, hb, hr⟩ := bind_eq_ok.mp hr
  cases hr
  obtain ⟨hdr, _, rfl⟩ := headerBytes_spec hb
  obtain ⟨f, h, hc, hflags, _⟩ := encodeFrame_carries hdr c.sendBase (FLAG_FIN ||| FLAG_ACK)
  exact ⟨f, h, hc, hflags⟩

/-- The handshake answers a FIN with nothing. -/
theorem handshakeArm_fin (hst : c.state = .synReceived ∨ c.isOpen) {returns : Bool}
    (hr : c.handshakeArm b false true = .ok (returns, c', out)) : out = [] := by
  rcases hst with hst | ho
  · cases handshakeArm_branch hr with
    | accept | pass => rfl
    | greet _ hsyn | regreet _ hsyn | connect _ hsyn | confirm _ hsyn => cases hsyn
  · exact (handshakeArm_quiet ho hr).2

/-- Among the answers to a FIN there is one with `fin_ack`; neither `fin_ack` nor FIN is before it. -/
theorem onDatagram_answersFin (hst : c.state = .synReceived ∨ c.state.opened) {now : Tick} {d : Datagram}
    (hcar : Carries d f h []) (hflags : f.flags = FLAG_FIN ||| FLAG_ACK)
    (hr : c.onDatagram b now d = .ok (c', out)) :
    ∃ pre ack post, out = pre ++ ack :: post ∧ (∀ d ∈ pre, Unmarked d) ∧ FinAck ack := by
  by_cases hcl : c.state = .closed
  · rw [hcar.onDatagram] at hr
    obtain ⟨_, hor⟩ := onSegment_final (c := c.advance now) (show c.state.final by rw [hcl]; rfl) hr
    rcases hor with ⟨hno, _⟩ | ⟨_, ack, hack, rfl⟩
    · exact absurd ⟨hcl, by rw [hflags]; rfl⟩ hno
    · exact ⟨[], ack, [], rfl, by simp, buildPureAck_finAck hack⟩
  · have hwait : c.state = .synReceived ∨ c.isOpen := by
      refine hst.imp id fun ho => ?_
      unfold Connection.isOpen
      cases hcs : c.state with
      | established | closing => rfl
      | closed => exact absurd hcs hcl
      | _ => rw [hcs] at ho; cases ho
    have hadm : c.admits (f.flags &&& FLAG_SYN != 0#16) (f.flags &&& FLAG_ACK != 0#16) = true := by
      rcases hwait with hs | ho
      · rw [Connection.admits, hs, hflags]; rfl
      · exact admits_of_isOpen ho _ _
    obtain ⟨c₁, out₁, out₂, harm, hblock, rfl⟩ := onDatagram_admitted hcar hadm hr
    rw [hflags] at harm hblock
    have hnone := handshakeArm_fin (c := { c.advance now with peerWindow := h.window }) hwait harm
    obtain ⟨pre, acks, post, hans⟩ := openBlock_answer hblock
    rcases hans.acks with ⟨hno, _⟩ | ⟨_, _, ack, hack, hacks⟩
    · cases hno
    · exact ⟨pre, ack, post, by rw [hnone, hans.out, hacks]; simp, hans.pre, hack⟩

/-! ## The side that waits -/

/-- A FIN is pending, and nothing else is. -/
structure Lingers (c : Connection) : Prop where
  control : c.control.Ok
  waits : Waits c
  pending : c.finPending.isSome

/-- Without `fin_ack` the FIN stays pending. -/
theorem Turns.pending {k k' : Control} (ht : Turns (.segment false false) k k')
    (hk : k.Ok ∧ k.finPending ∧ k.state = .closing) : k'.Ok ∧ k'.finPending ∧ k'.state = .closing := by
  refine ht.preserves (P := fun k => k.Ok ∧ k.finPending ∧ k.state = .closing) (fun hk ht => ?_) hk
  obtain ⟨hok, hp, hst⟩ := hk
  have hfa : _ = false := (hok.pending hp).2
  refine ⟨hok.turn ht, ?_⟩
  cases ht with
  | request ha => cases ha
  | synReceived _ hs => cases hst.symm.trans hs
  | establish _ hs => rcases hs with hs | hs <;> cases hst.symm.trans hs
  | startFin hs => cases hst.symm.trans hs
  | finAck ha => cases ha
  | seeFin ha => cases ha
  | close _ hfa' => rw [hfa] at hfa'; cases hfa'
  | fail ha | failFin ha => cases ha

/-- A datagram with neither `fin_ack` nor FIN finds the side waiting and leaves it so. -/
theorem Lingers.unmarked (hl : Lingers c) {now : Tick} {d : Datagram} (hd : Unmarked d)
    (hr : c.onDatagram b now d = .ok (c', out)) : Lingers c' ∧ (c.peerFinSeen → c'.peerFinSeen) := by
  have hw := onDatagram_waits hl.control hl.waits hr
  rcases onDatagram_cases hr with ⟨rfl, _⟩ | ⟨f, h, app, hcar, hs⟩
  · exact ⟨⟨hl.control, hw, hl.pending⟩, id⟩
  · obtain ⟨hfa, hfin⟩ := hd f h app hcar
    have hturns : Turns (.segment false false) c.control c'.control := by
      have hturns := onSegment_turns hs
      rw [hfa, hfin] at hturns
      exact hturns
    obtain ⟨hok, hp, _⟩ := hturns.pending ⟨hl.control, hl.pending, (hl.waits hl.pending).1⟩
    exact ⟨⟨hok, hw, hp⟩, hturns.keepsSeen⟩

/-- The acknowledgement of this side's FIN stays. -/
theorem Turns.keepsAcked {a : Cause} {k k' : Control} (ht : Turns a k k') (hk : k.finAcked) : k'.finAcked := by
  refine ht.preserves (P := fun k => k.finAcked) (fun hk ht => ?_) hk
  cases ht with
  | finAck => rfl
  | _ => exact hk

/-- Nothing is outstanding, so `fin_ack` is not lost to a fast retransmit. -/
theorem Lingers.finAcks (hl : Lingers c) {now : Tick} {d : Datagram} (hd : FinAck d)
    (hr : c.onDatagram b now d = .ok (c', out)) :
    c'.finAcked ∧ (c.peerFinSeen → c'.state = .closed) := by
  obtain ⟨hst, _, hu⟩ := hl.waits hl.pending
  obtain ⟨seq, hdr, hfa, rfl⟩ := hd
  obtain ⟨f, h, hcar, hflags, hfa'⟩ := encodeFrame_carries hdr seq FLAG_ACK
  have ho : c.isOpen := by
    unfold Connection.isOpen
    rw [hst]
  obtain ⟨c₁, resent, c₂, answered, out₄, hap, hdel, hdrain⟩ := onDatagram_open ho hcar hr
  rw [hflags, if_pos (by decide)] at hap
  have ha := applyAck_acked hap
  have hmarks : Connection.marks { c.advance now with peerWindow := h.window } h = true := by
    simp only [Connection.marks, Bool.not_eq_true', decide_eq_false_iff_not]
    rintro ⟨_, hne, _⟩
    have hsome : c.unacked.isEmpty = false := hne
    rw [isEmpty_iff.mpr hu] at hsome
    cases hsome
  have hacked : c₁.finAcked = true := by rw [ha.finAcked, hmarks, hfa', hfa]; simp
  obtain ⟨buf, ex, st, del, rfl⟩ := (deliverData_delivers hdel).fields
  have hturns := drainAndMaybeFin_turns (a := .other) hdrain
  refine ⟨hturns.keepsAcked hacked, fun hseen => ?_⟩
  have hseen' : c₁.peerFinSeen = true := ha.seen.trans hseen
  rw [(drainAndMaybeFin_closes hdrain).1]
  rcases ha.state with hs | ⟨_, hs, _⟩
  · exact Or.inr ⟨hs.trans hst, hacked, by simp [Connection.noted, hseen']⟩
  · exact Or.inl hs

/-! ## All the answers -/

/-- Datagrams delivered one after the other. -/
def deliveries (arrivals : List (Tick × Datagram)) : List Call := arrivals.map fun x => .onDatagram x.1 x.2

theorem deliveries_cons {x : Tick × Datagram} {xs : List (Tick × Datagram)} {e e' : Endpoint}
    (hr : e.calls b (deliveries (x :: xs)) = .ok e') : ∃ c out,
      e.conn.onDatagram b x.1 x.2 = .ok (c, out) ∧ (e.put c out).calls b (deliveries xs) = .ok e' := by
  obtain ⟨e₁, he, hr⟩ := calls_cons hr
  obtain ⟨⟨c, out⟩, hc, he⟩ := bind_eq_ok.mp he
  cases he
  exact ⟨c, out, hc, hr⟩

/-- What has been acknowledged stays so, and so does a closed side. -/
theorem calls_keep : ∀ {as : List Call} {e e' : Endpoint}, e.calls b as = .ok e' →
    (e.conn.finAcked → e'.conn.finAcked) ∧ (e.conn.state = .closed → e'.conn.state = .closed)
  | [], _, _, hr => by cases hr; exact ⟨id, id⟩
  | a :: as, e, e', hr => by
    obtain ⟨e₁, he, hr⟩ := calls_cons hr
    obtain ⟨hacked, hclosed⟩ := calls_keep hr
    exact ⟨fun hfa => hacked ((call_turns he).keepsAcked hfa),
      fun hcl => hclosed (call_stays_closed hcl he)⟩

theorem calls_ok : ∀ {as : List Call} {e e' : Endpoint}, e.conn.control.Ok → e.calls b as = .ok e' →
    e'.conn.control.Ok
  | [], _, _, hok, hr => by cases hr; exact hok
  | a :: as, e, e', hok, hr => by
    obtain ⟨e₁, he, hr⟩ := calls_cons hr
    exact calls_ok (call_ok hok he) hr

/-- What a side that waits makes of the answers to its FIN. -/
theorem Lingers.answered {ack : Datagram} (hack : FinAck ack) : ∀ {pre post : List Datagram}
    {arrivals : List (Tick × Datagram)} {e e' : Endpoint}, Lingers e.conn → (∀ d ∈ pre, Unmarked d) →
      arrivals.map Prod.snd = pre ++ ack :: post → e.calls b (deliveries arrivals) = .ok e' →
      e'.conn.finAcked ∧ (e.conn.peerFinSeen → e'.conn.state = .closed)
  | _, _, [], _, _, _, _, hmap, _ => by simp at hmap
  | [], post, x :: xs, e, e', hl, _, hmap, hr => by
    obtain ⟨c, out, hc, hr⟩ := deliveries_cons hr
    obtain ⟨hx, _⟩ := List.cons.inj hmap
    rw [hx] at hc
    obtain ⟨hfa, hcl⟩ := hl.finAcks hack hc
    obtain ⟨hacked, hclosed⟩ := calls_keep hr
    exact ⟨hacked hfa, fun hseen => hclosed (hcl hseen)⟩
  | d :: pre, post, x :: xs, e, e', hl, hpre, hmap, hr => by
    obtain ⟨c, out, hc, hr⟩ := deliveries_cons hr
    obtain ⟨hx, hmap⟩ := List.cons.inj hmap
    rw [hx] at hc
    obtain ⟨hl', hseen⟩ := hl.unmarked (hpre d List.mem_cons_self) hc
    have hrest := Lingers.answered hack hl' (fun d' hd' => hpre d' (List.mem_cons_of_mem _ hd')) hmap hr
    exact ⟨hrest.1, fun hs => hrest.2 (hseen hs)⟩

/-! ## Runs -/

/-- No side sends after its own `close`. -/
def Pair.Quits (p : Pair) (s : Side) (a : Call) : Prop :=
  ∀ now data, a = .send now data → (p.get s).conn.closeRequested = false

/-- What both sides keep in a run in which they do not send after `close`. -/
structure Ending (p : Pair) : Prop where
  control : ∀ s, (p.get s).conn.control.Ok
  waits : ∀ s, Waits (p.get s).conn
  marked : ∀ s, ∀ d ∈ (p.get s).emitted, Plain d ∨ (p.get s).conn.peerFinSeen
  acked : ∀ s, (p.get s).conn.finAcked → (p.get s.peer).conn.peerFinSeen

section Runs

variable {ccfg scfg : Config} {T : Tick → Prop} {past : List Pair} {p p' : Pair} {s : Side} {a : Call}

theorem Born.ending {cfg : Config} {e : Endpoint} (he : Born b cfg e) :
    e.conn.control.Ok ∧ Waits e.conn ∧ (∀ d ∈ e.emitted, Plain d) ∧ e.conn.finAcked = false := by
  have hnone : ∀ {c : Connection}, c.control.Ok → c.state.handshaking →
      c.finPending = none ∧ c.finAcked = false := by
    intro c hok hk
    obtain ⟨hp, hfa, _⟩ := hok.handshaking hk
    have hp' : c.finPending.isSome = false := hp
    exact ⟨by simpa using hp', hfa⟩
  cases he with
  | client hc =>
    obtain ⟨hst, hok, hsyn⟩ := connect_greets hc
    obtain ⟨hp, hfa⟩ := hnone hok (by rw [hst]; rfl)
    exact ⟨hok, .of_none hp, plain_singleton hsyn.plain, hfa⟩
  | server hc =>
    obtain ⟨hst, hok⟩ := listen_greets hc
    obtain ⟨hp, hfa⟩ := hnone hok (by rw [hst]; rfl)
    exact ⟨hok, .of_none hp, (fun _ hd => by cases hd), hfa⟩

theorem step_ending (he : Ending p) (hlegal : p.Legal s a) (hq : p.Quits s a) (hr : p.step b s a = .ok p') :
    Ending p' := by
  obtain ⟨e, hcall, rfl⟩ := Pair.step_inv hr
  have hturns := call_turns hcall
  obtain ⟨out, hem, hout⟩ := call_marked (he.control s) hcall
  constructor
  · intro t
    rcases t.eq_or_peer s with rfl | rfl
    · rw [Pair.get_set_self]; exact call_ok (he.control t) hcall
    · rw [Pair.get_set_peer]; exact he.control _
  · intro t
    rcases t.eq_or_peer s with rfl | rfl
    · rw [Pair.get_set_self]; exact call_waits (he.control t) (he.waits t) hq hcall
    · rw [Pair.get_set_peer]; exact he.waits _
  · intro t
    rcases t.eq_or_peer s with rfl | rfl
    · rw [Pair.get_set_self, hem]
      intro d hd
      rcases List.mem_append.mp hd with hd | hd
      · exact (he.marked t d hd).imp id hturns.keepsSeen
      · exact hout d hd
    · rw [Pair.get_set_peer]; exact he.marked _
  · intro t hfa
    rcases t.eq_or_peer s with rfl | rfl
    · rw [Pair.get_set_self] at hfa
      rw [Pair.get_set_peer]
      rcases hturns.finAcked hfa with hold | ⟨fin, hcause⟩
      · exact he.acked t hold
      · -- a frame of the peer has `fin_ack`
        obtain ⟨now, d, f, hdr, app, rfl, hcar, hset, _⟩ := cause_segment hcause
        rcases he.marked t.peer d hlegal with hplain | hseen
        · rw [hplain f hdr app hcar] at hset; cases hset
        · exact hseen
    · rw [Pair.get_set_peer] at hfa
      have hseen := he.acked _ hfa
      rw [Pair.peer_peer] at hseen ⊢
      rw [Pair.get_set_self]
      exact hturns.keepsSeen hseen

theorem run_ending (hrun : Pair.Run b ccfg scfg T Pair.Quits past p) : Ending p := by
  induction hrun with
  | start _ _ h =>
    have hborn := fun s => (start_born h s).ending
    exact ⟨fun s => (hborn s).1, fun s => (hborn s).2.1, fun s d hd => Or.inl ((hborn s).2.2.1 d hd),
      fun s hfa => by rw [(hborn s).2.2.2] at hfa; cases hfa⟩
  | step _ hlegal _ hq hr ih => exact step_ending ih hlegal hq hr

/-- The peer of a side that has a FIN pending knows of it, unless it has failed. -/
theorem Greeted.awaits (hg : Greeted past p) (ho : (p.get s).conn.state.opened)
    (hlive : (p.get s.peer).conn.isFailed = false) :
    (p.get s.peer).conn.state = .synReceived ∨ (p.get s.peer).conn.state.opened := by
  have hbeen : Been past p s := been_of_opened ho
  cases s with
  | client =>
    by_cases hb : Been past p .server
    · exact Or.inr (opened_of_settled ((hg.side .server).settled hb) hlive)
    · have hheard := hg.heard hbeen
      rcases (hg.side .server).greets hb with hst | hf
      · left
        show p.server.conn.state = .synReceived
        have hst' : Side.server.greets p.server.conn.state := hst
        cases hcs : p.server.conn.state with
        | synReceived => rfl
        | listening => exact absurd hcs hheard
        | _ => rw [hcs] at hst'; cases hst'
      · have hf' : (p.get Side.client.peer).conn.isFailed = true := hf
        rw [hlive] at hf'
        cases hf'
  | server => exact Or.inr (opened_of_settled ((hg.side .client).settled (hg.accepted hbeen)) hlive)

/-! ## The calls return -/

/-- What has not been emitted need not be delivered. -/
theorem Linked.unsaid {X Y : Endpoint} {out : List Datagram} (hl : Linked (X.emit out) Y) : Linked X Y := by
  obtain ⟨cs, sr, cs', sr', h₁, h₂⟩ := hl
  have hmem : ∀ d ∈ X.emitted, d ∈ (X.emit out).emitted := fun d hd => List.mem_append_left _ hd
  refine ⟨cs, sr, cs', sr', ?_, ?_⟩
  · exact ⟨h₁.inv, { h₁.send with }, { h₁.recv with }, { h₁.fin with },
      fun d hd => h₁.data d (hmem d hd), h₁.acks, h₁.windows⟩
  · exact ⟨h₂.inv, { h₂.send with }, { h₂.recv with }, { h₂.fin with },
      h₂.data, fun d hd => h₂.acks d (hmem d hd), fun d hd => h₂.windows d (hmem d hd)⟩

theorem deliveries_return : ∀ {arrivals : List (Tick × Datagram)} {n : Nat} {X Y : Endpoint},
    Linked X Y → InBounds b n X → X.sent.length < 2 ^ 32 → n + arrivals.length + 1 < 2 ^ 32 →
    (∀ x ∈ arrivals, Early x.1 ∧ x.2 ∈ Y.emitted) → ∃ e, X.calls b (deliveries arrivals) = .ok e
  | [], _, X, _, _, _, _, _, _ => ⟨X, rfl⟩
  | x :: xs, n, X, Y, hl, hb, hfits, hn, hall => by
    obtain ⟨hearly, hmem⟩ := hall x List.mem_cons_self
    rw [List.length_cons] at hn
    obtain ⟨⟨c, out⟩, hc⟩ := hl.onDatagram_returns hb (by omega) hmem hearly
    have hcall : X.call b (.onDatagram x.1 x.2) = .ok (X.put c out) := bind_eq_ok.mpr ⟨_, hc, rfl⟩
    have hb' := hb.call hl.sendOk (by intro now hnow; cases hnow; exact hearly) hcall
    obtain ⟨e, he⟩ := deliveries_return (onDatagram_linked hl hmem hc) hb' hfits (by omega)
      fun y hy => hall y (List.mem_cons_of_mem _ hy)
    exact ⟨e, by rw [deliveries, List.map_cons, Endpoint.calls, List.foldlM_cons, hcall]; exact he⟩

/-- A FIN `fin` of the side `s`, delivered to the peer, and all that this returns, delivered to `s` in
    order: the FIN is acknowledged then, and a peer that was closed has left `s` closed. -/
def Pair.FinAcknowledged (b : Build) (p : Pair) (s : Side) (fin : Datagram) : Prop :=
  ∀ now c out, (p.get s.peer).conn.onDatagram b now fin = .ok (c, out) →
    ∀ arrivals e, arrivals.map Prod.snd = out → (p.get s).calls b (deliveries arrivals) = .ok e →
      e.conn.finAcked ∧ e.conn.finPending = none ∧
        ((p.get s.peer).conn.state = .closed → e.conn.state = .closed)

/-- These calls return, at early ticks and as long as there are fewer than `2 ^ 32` with the `n` before. -/
def Pair.FinReturns (b : Build) (p : Pair) (s : Side) (n : Nat) : Prop :=
  ∃ fin, (p.get s).conn.buildFin b = .ok fin ∧ ∀ now, Early now →
    ∃ c out, (p.get s.peer).conn.onDatagram b now fin = .ok (c, out) ∧
      ∀ arrivals, arrivals.map Prod.snd = out → (∀ x ∈ arrivals, Early x.1) → n + out.length + 1 < 2 ^ 32 →
        ∃ e, (p.get s).calls b (deliveries arrivals) = .ok e

theorem Ending.acknowledged (he : Ending p) (hp : (p.get s).conn.finPending.isSome)
    (hpeer : (p.get s.peer).conn.state = .synReceived ∨ (p.get s.peer).conn.state.opened) {fin : Datagram}
    (hfin : (p.get s).conn.buildFin b = .ok fin) : p.FinAcknowledged b s fin := by
  intro now c out hc arrivals e hmap hr
  obtain ⟨f, h, hcar, hflags⟩ := buildFin_carries hfin
  obtain ⟨pre, ack, post, hout, hpre, hack⟩ := onDatagram_answersFin hpeer hcar hflags hc
  have hl : Lingers (p.get s).conn := ⟨he.control s, he.waits s, hp⟩
  obtain ⟨hfa, hclosed⟩ := hl.answered hack hpre (hmap.trans hout) hr
  have hok : e.conn.control.Ok := calls_ok (he.control s) hr
  refine ⟨hfa, ?_, fun hcl => hclosed ?_⟩
  · rw [← Option.not_isSome_iff_eq_none]
    intro hp'
    have hno : e.conn.finAcked = false := (hok.pending hp').2
    rw [hfa] at hno
    cases hno
  · -- a closed peer has been acknowledged its FIN, so this side has seen it
    have hseen := he.acked s.peer ((he.control s.peer).closed hcl).1
    rw [Pair.peer_peer] at hseen
    exact hseen

theorem fin_returns (hc : ccfg.Sane) (hs : scfg.Sane) (hrun : Pair.Run b ccfg scfg Early Pair.Quits past p)
    (hlen : past.length + 1 < 2 ^ 32) (hfits : p.Fits) (hp : (p.get s).conn.finPending.isSome) :
    p.FinReturns b s past.length := by
  have hl := reach_linked hc.segment_pos hs.segment_pos hrun.via.reach hfits s
  have hb := run_inBounds hc hs hrun hfits
  have hrecv : RecvFits b (p.get s).conn := fun _ => hl.recvOk
  obtain ⟨bytes, hbytes⟩ := hrecv.headerBytes
  have hfin : (p.get s).conn.buildFin b =
      .ok (encodeFrame (p.get s).conn.sendBase (FLAG_FIN ||| FLAG_ACK) bytes) :=
    bind_eq_ok.mpr ⟨bytes, hbytes, rfl⟩
  refine ⟨_, hfin, fun now hnow => ?_⟩
  have hsaid := (buildFin_linked hl hp hfin).symm
  have hmem := List.mem_append_right (p.get s).emitted (List.mem_singleton_self
    (encodeFrame (p.get s).conn.sendBase (FLAG_FIN ||| FLAG_ACK) bytes))
  obtain ⟨⟨c, out⟩, hcall⟩ := hsaid.onDatagram_returns (hb s.peer) hlen hmem hnow
  refine ⟨c, out, hcall, fun arrivals hmap hearly hn => ?_⟩
  have hback := (onDatagram_linked hsaid hmem hcall).symm.unsaid
  have hcount : arrivals.length = out.length := by rw [← hmap, List.length_map]
  refine deliveries_return hback (hb s) (Pair.fits_get hfits s) (by omega) fun x hx => ⟨hearly x hx, ?_⟩
  rw [Endpoint.put_emitted, ← hmap]
  exact List.mem_append_right _ (List.mem_map_of_mem hx)

/-- **Teardown strands no side.**  In every run in which no side sends after its own `close`, the peer
    of a side with a pending FIN has failed or is at least in `SynReceived`; the FIN, sent again, is
    acknowledged by what the peer returns, if the calls return, which they do in a short run with
    sensible configurations; and a peer that was closed leaves this side closed. -/
theorem teardown_strands_no_side (hrun : Pair.Run b ccfg scfg T Pair.Quits past p)
    (hp : (p.get s).conn.finPending.isSome) (hlive : (p.get s.peer).conn.isFailed = false) :
    ((p.get s.peer).conn.state = .synReceived ∨ (p.get s.peer).conn.state = .established ∨
      (p.get s.peer).conn.state = .closing ∨ (p.get s.peer).conn.state = .closed) ∧
    (∀ fin, (p.get s).conn.buildFin b = .ok fin → p.FinAcknowledged b s fin) ∧
    (ccfg.Sane → scfg.Sane → (∀ t, T t → Early t) → past.length + 1 < 2 ^ 32 → p.Fits →
      p.FinReturns b s past.length) := by
  have he := run_ending hrun
  have hst := ((he.waits s) hp).1
  have hpeer := (run_greeted hrun).awaits (by rw [hst]; rfl) hlive
  refine ⟨?_, fun fin hfin => he.acknowledged hp hpeer hfin, fun hc hs hT hlen hfits => ?_⟩
  · refine hpeer.imp id fun ho => ?_
    cases hcs : (p.get s.peer).conn.state with
    | established => left; rfl
    | closing => right; left; rfl
    | closed => right; right; rfl
    | _ => rw [hcs] at ho; cases ho
  · exact fin_returns hc hs (hrun.mono hT) hlen hfits hp

end Runs

/-! ## A lost `fin_ack` -/

instance decidableQuits (p : Pair) (s : Side) : ∀ a : Call, Decidable (p.Quits s a)
  | .send now data => decidable_of_iff ((p.get s).conn.closeRequested = false)
      ⟨fun h _ _ _ => h, fun h => h now data rfl⟩
  | .close _ | .recv | .onTick _ | .onDatagram _ _ => .isTrue fun _ _ h => by cases h

/-- Both sides close at once; the client has seen the server's FIN and the server is closed, but its
    `fin_ack` is lost. -/
def lostFinAck : List (Side × Act) :=
  [(.server, .deliver 1 0), (.client, .deliver 2 0), (.server, .deliver 3 1), (.client, .close 4),
   (.server, .close 4), (.client, .deliver 5 1), (.server, .deliver 5 2), (.server, .deliver 6 3)]

theorem teardown_strands_no_side_sample : ∃ past p fin c out e,
    Pair.Run .checked sampleConfig sampleConfig Early Pair.Quits past p ∧ p.client.conn.finPending.isSome ∧
    p.server.conn.state = .closed ∧ p.client.conn.buildFin .checked = .ok fin ∧
    p.server.conn.onDatagram .checked 80 fin = .ok (c, out) ∧
    p.client.calls .checked (deliveries (out.map fun d => (81, d))) = .ok e ∧
    e.conn.finAcked ∧ e.conn.state = .closed := by
  have hrun : Pair.playsVia .checked sampleConfig sampleConfig
      (fun p s a => a.tick?.all (fun now => decide (Early now)) && decide (p.Quits s a)) lostFinAck
      (fun p => decide (p.client.conn.finPending.isSome ∧ p.server.conn.state = .closed ∧ p.Fits) &&
        returnsIn (p.client.conn.buildFin .checked) fun fin =>
          returnsIn (p.server.conn.onDatagram .checked 80 fin) fun r => decide (r.2.length = 1)) = true := by
    decide +kernel
  obtain ⟨past, p, hlen, hp, ht⟩ := Pair.playsVia_run (G := Pair.Quits) (show Early 0 by decide)
    (fun _ _ _ hg => ⟨early_of_all (Bool.and_eq_true_iff.mp hg).1,
      of_decide_eq_true (Bool.and_eq_true_iff.mp hg).2⟩) hrun
  obtain ⟨hst, hcalls⟩ := Bool.and_eq_true_iff.mp ht
  obtain ⟨hpend, hcl, hfits⟩ := of_decide_eq_true hst
  obtain ⟨fin, hfin, hcalls⟩ := of_returnsIn hcalls
  obtain ⟨⟨c, out⟩, hc, hone⟩ := of_returnsIn hcalls
  have hone : out.length = 1 := of_decide_eq_true hone
  have hshort : past.length = 8 := hlen
  obtain ⟨_, hack, hret⟩ := teardown_strands_no_side (s := .client) hp hpend
    (show p.server.conn.isFailed = false by simp [Connection.isFailed, hcl])
  obtain ⟨fin', hfin', hret⟩ := hret sampleConfig_sane sampleConfig_sane (fun _ h => h) (by omega) hfits
  cases hfin.symm.trans hfin'
  obtain ⟨c', out', hc', hret⟩ := hret 80 (show (80#64).toNat < 2 ^ 60 by decide)
  cases hc.symm.trans hc'
  have hearly : ∀ x ∈ out.map fun d => ((81 : Tick), d), Early x.1 := by
    intro x hx
    obtain ⟨d, _, rfl⟩ := List.mem_map.mp hx
    exact show (81#64).toNat < 2 ^ 60 by decide
  obtain ⟨e, he⟩ := hret (out.map fun d => (81, d)) (by simp) hearly (by omega)
  obtain ⟨hfa, _, hclosed⟩ := hack fin hfin 80 c out hc _ e (by simp) he
  exact ⟨past, p, fin, c, out, e, hp, hpend, hcl, hfin, hc, he, hfa, hclosed hcl⟩

/-- A client that closes before a server that does not return from the end of the handshake is
    established. -/
theorem rebuilt_fin_hangs : ∃ past p fin,
    Pair.Run .checked sampleConfig stuckConfig (fun _ => True) Pair.Quits past p ∧
    p.client.conn.finPending.isSome ∧ p.server.conn.isFailed = false ∧
    p.client.conn.buildFin .checked = .ok fin ∧
    p.server.conn.onDatagram .checked 80 fin = .error .hang := by
  have hrun : Pair.playsVia .checked sampleConfig stuckConfig (fun p s a => decide (p.Quits s a))
      ((.server, .send 1 [7]) :: strandedRun ++ [(.client, .close 4)])
      (fun p => decide (p.client.conn.finPending.isSome ∧ p.server.conn.isFailed = false) &&
        returnsIn (p.client.conn.buildFin .checked) fun fin =>
          decide (fault? (p.server.conn.onDatagram .checked 80 fin) = some .hang)) = true := by
    decide +kernel
  obtain ⟨past, p, _, hp, ht⟩ := Pair.playsVia_run (T := fun _ => True) (G := Pair.Quits) trivial
    (fun _ _ _ hg => ⟨fun _ _ => trivial, of_decide_eq_true hg⟩) hrun
  obtain ⟨hst, hcalls⟩ := Bool.and_eq_true_iff.mp ht
  obtain ⟨hpend, hlive⟩ := of_decide_eq_true hst
  obtain ⟨fin, hfin, hhang⟩ := of_returnsIn hcalls
  exact ⟨past, p, fin, hp, hpend, hlive, hfin, eq_error_of_fault? (of_decide_eq_true hhang)⟩

end Distrans
