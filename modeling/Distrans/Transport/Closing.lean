import Distrans.Transport.Effect
import Distrans.Transport.Teardown

/-!
# What a close leaves behind

`check_fully_closed` looks at the two FIN flags alone, where `maybe_send_fin` also asks for an
empty queue and an empty buffer; but a side in `Closing` still takes bytes to send.

* `Connection.Finishes` — the segment that completes the exchange of FINs.
* `close_discards_nothing` — **a side that enters `Closed` leaves nothing queued or unacknowledged
  exactly when that segment finds the queue empty and acknowledges all that is in flight.**
* `close_discards` — it need not.
-/

set_option autoImplicit false

namespace Distrans

open Machine OrdMap Relation

variable {b : Build} {c c' : Connection} {out : List Datagram} {h : SegmentHeader}

/-! ## Entering `Closed` -/

/-- With both FIN flags set a side does not stay in `Closing`. -/
def Control.Unfinished (k : Control) : Prop := k.state = .closing → ¬ (k.finAcked ∧ k.peerFinSeen)

theorem checkFullyClosed_unfinished (c : Connection) : c.checkFullyClosed.control.Unfinished := by
  unfold Connection.checkFullyClosed
  split
  · intro hst; cases hst
  · rename_i hcond
    intro hst hflags
    exact hcond ⟨hst, hflags.1, hflags.2⟩

theorem drainAndMaybeFin_unfinished (hr : c.drainAndMaybeFin b = .ok (c', out)) : c'.control.Unfinished := by
  obtain ⟨⟨c₁, out₁⟩, _, hr⟩ := bind_eq_ok.mp hr
  obtain ⟨⟨c₂, fin⟩, _, hr⟩ := bind_eq_ok.mp hr
  cases hr
  exact checkFullyClosed_unfinished c₂

theorem unfinished_of_state (hst : c.state ≠ .closing) : c.control.Unfinished := fun hcl => absurd hcl hst

/-- Without a segment the FIN flags stay as they are, so nothing is closed. -/
theorem Turns.not_closed {a : Cause} {k k' : Control} (ht : Turns a k k')
    (ha : ∀ fa fin, a ≠ .segment fa fin) (hk : k.state ≠ .closed ∧ k.Unfinished) :
    k'.state ≠ .closed ∧ k'.Unfinished := by
  refine ht.preserves (P := fun k => k.state ≠ .closed ∧ k.Unfinished) (fun hk ht => ?_) hk
  cases ht with
  | synReceived hs | establish hs | finAck hs | seeFin hs => exact absurd hs (ha _ _)
  | request => exact hk
  | startFin _ _ hno => exact ⟨nofun, fun _ hflags => by rw [hno] at hflags; cases hflags.1⟩
  | close hst hfa hseen => exact absurd ⟨hfa, hseen⟩ (hk.2 hst)
  | fail | failFin => exact ⟨nofun, nofun⟩

/-- Sending leaves the buffer empty only where it was and nothing was sent. -/
theorem trySendMore_emptied_iff (hr : c.trySendMore b = .ok (c', out)) : Emptied c' ↔ Emptied c := by
  constructor
  · intro he
    have hor : c' = c ∨ c'.unacked.entries ≠ [] := by
      refine trySendMore_keeps (P := fun c' => c' = c ∨ c'.unacked.entries ≠ []) ?_ hr (Or.inl rfl)
      rintro c₁ c₂ n d - _ _ hcut
      obtain ⟨nextSeq, bytes, _, _, _, rfl⟩ := cutSegment_spec hcut
      exact Or.inr (List.ne_nil_of_mem (mem_insert.mpr (Or.inl rfl)))
    rcases hor with rfl | hne
    · exact he
    · exact absurd he.2 hne
  · intro he
    rw [trySendMore_emptied he] at hr
    cases hr
    exact he

theorem drainAndMaybeFin_closes (hr : c.drainAndMaybeFin b = .ok (c', out)) :
    (c'.state = .closed ↔ c.state = .closed ∨ (c.state = .closing ∧ c.finAcked ∧ c.peerFinSeen)) ∧
      (c.state ≠ .established → (Emptied c' ↔ Emptied c)) := by
  obtain ⟨⟨c₁, out₁⟩, h₁, hr⟩ := bind_eq_ok.mp hr
  obtain ⟨⟨c₂, fin⟩, h₂, hr⟩ := bind_eq_ok.mp hr
  cases hr
  have hk := trySendMore_control h₁
  have hst : c₁.state = c.state := control_state hk
  have hfa : c₁.finAcked = c.finAcked := congrArg Control.finAcked hk
  have hseen : c₁.peerFinSeen = c.peerFinSeen := congrArg Control.peerFinSeen hk
  rw [← hst, ← hfa, ← hseen, ← trySendMore_emptied_iff h₁]
  cases maybeSendFin_branch h₂ with
  | sent _ _ hno hest =>
    refine ⟨?_, fun hne => absurd hest hne⟩
    simp [Connection.checkFullyClosed, hno, hest]
  | skip =>
    unfold Connection.checkFullyClosed
    split
    · rename_i hcond
      exact ⟨iff_of_true rfl (Or.inr hcond), fun _ => Iff.rfl⟩
    · rename_i hcond
      refine ⟨⟨Or.inl, fun hor => ?_⟩, fun _ => Iff.rfl⟩
      exact hor.resolve_right hcond

/-! ## One segment -/

/-- The segment completes the exchange of FINs of a side in `Closing`: it acknowledges this side's,
    or one before did, and carries the peer's, or one before did. -/
def Connection.Finishes (c : Connection) (f : Frame) (h : SegmentHeader) : Prop :=
  c.state = .closing ∧ (c.finAcked ∨ (ackSet f.flags ∧ h.finAck ∧ ¬ c.Resends h)) ∧
    (c.peerFinSeen ∨ finSet f.flags)

/-- Nothing is queued, and the segment acknowledges all that is in flight. -/
def Connection.Covers (c : Connection) (f : Frame) (h : SegmentHeader) : Prop :=
  c.sendQueue = [] ∧ (c.unacked.entries = [] ∨
    (ackSet f.flags ∧ c.sendBase < h.ack ∧ ∀ e ∈ c.unacked.entries, e.1 < h.ack))

theorem remaining_nil : c.remaining h = [] ↔
    c.unacked.entries = [] ∨ (c.sendBase < h.ack ∧ ∀ e ∈ c.unacked.entries, e.1 < h.ack) := by
  unfold Connection.remaining
  split
  · rename_i hlt
    rw [List.filter_eq_nil_iff]
    constructor
    · intro hall
      exact Or.inr ⟨hlt, fun e he => by simpa using hall e he⟩
    · rintro (hnil | ⟨_, hall⟩) e he
      · rw [hnil] at he; cases he
      · simpa using hall e he
  · rename_i hlt
    constructor
    · exact Or.inl
    · rintro (hnil | ⟨hlt', _⟩)
      · exact hnil
      · exact absurd hlt' hlt

/-- What the shared block does to a side in `Closing`. -/
theorem openBlock_closing (hst : c.state = .closing) {f : Frame} {app : List U8}
    (hr : c.openBlock b f.sequence h app (ackSet f.flags) (finSet f.flags) = .ok (c', out)) :
    (c'.state = .closed ↔ c.Finishes f h) ∧ (Emptied c' ↔ c.Covers f h) := by
  obtain ⟨c₁, resent, c₂, acks, out₄, hap, hdel, _, hdrain, _⟩ := openBlock_parts hr
  have hafter : c₁.sendQueue = c.sendQueue ∧ c₁.peerFinSeen = c.peerFinSeen ∧
      (c₁.finAcked ↔ c.finAcked ∨ (ackSet f.flags ∧ h.finAck ∧ ¬ c.Resends h)) ∧
      (c₁.state = .closing ∨ (c₁.state = .closed ∧ c₁.finAcked ∧ c₁.peerFinSeen)) ∧
      (c₁.unacked.entries = [] ↔ c.unacked.entries = [] ∨
        (ackSet f.flags ∧ c.sendBase < h.ack ∧ ∀ e ∈ c.unacked.entries, e.1 < h.ack)) := by
    split at hap
    · rename_i hack
      have ha := applyAck_acked hap
      refine ⟨ha.queue, ha.seen, ?_, ?_, ?_⟩
      · rw [ha.finAcked]
        simp [Connection.marks, hack]
      · rcases ha.state with hs | ⟨_, hs⟩
        · exact Or.inl (hs.trans hst)
        · exact Or.inr hs
      · rw [ha.entries.nil_iff, remaining_nil]
        simp [hack]
    · rename_i hack
      cases hap
      simp [hst, hack]
  obtain ⟨hq, hseen, hfa, hs, hu⟩ := hafter
  obtain ⟨buf, ex, st, del, rfl⟩ := (deliverData_delivers hdel).fields
  obtain ⟨hclosed, hempty⟩ := drainAndMaybeFin_closes hdrain
  simp only [Connection.noted] at hclosed hempty
  constructor
  · rw [hclosed, Bool.or_eq_true, hseen]
    unfold Connection.Finishes
    rw [← hfa]
    rcases hs with hs | ⟨hs, hfa₁, hseen₁⟩
    · simp [hs, hst]
    · rw [hseen] at hseen₁
      simp [hs, hst, hfa₁, hseen₁]
  · have hne : c₁.state ≠ .established := by
      intro hest
      rcases hs with hs | ⟨hs, _⟩ <;> cases hs.symm.trans hest
    rw [hempty hne]
    unfold Emptied Connection.Covers
    rw [← hu, ← hq]

/-! ## One call -/

theorem handshakeArm_state {isSyn isAck returns : Bool}
    (hr : c.handshakeArm b isSyn isAck = .ok (returns, c', out)) :
    c'.state = c.state ∨ c'.state = .synReceived ∨ c'.state = .established := by
  have hdone : ∀ {c₁ : Connection}, c.completeHandshake b = .ok c₁ → c₁.state = .established := by
    intro c₁ h₁
    obtain ⟨r, rfl⟩ := completeHandshake_spec h₁
    rfl
  cases handshakeArm_branch hr with
  | greet => exact Or.inr (Or.inl rfl)
  | accept _ _ h₁ => exact Or.inr (Or.inr (hdone h₁))
  | connect _ _ h₁ => exact Or.inr (Or.inr (hdone h₁))
  | regreet | confirm | pass => exact Or.inl rfl

/-- A side that is not in `Closing` when a segment arrives is not closed by it. -/
theorem openBlock_established (hst : c.state = .established) {seq : U32} {app : List U8} {isAck isFin : Bool}
    (hr : c.openBlock b seq h app isAck isFin = .ok (c', out)) : c'.state ≠ .closed := by
  obtain ⟨c₁, resent, c₂, acks, out₄, hap, hdel, _, hdrain, _⟩ := openBlock_parts hr
  have hst₁ : c₁.state = .established := by
    split at hap
    · rcases (applyAck_acked hap).state with hs | ⟨hs, _⟩
      · exact hs.trans hst
      · rw [hst] at hs; cases hs
    · cases hap; exact hst
  obtain ⟨buf, ex, st, del, rfl⟩ := (deliverData_delivers hdel).fields
  intro hcl
  rcases (drainAndMaybeFin_closes hdrain).1.mp hcl with hs | ⟨hs, _⟩ <;>
    rw [show c₁.state = _ from hs] at hst₁ <;> cases hst₁

/-- What a segment does to a side that is not closed. -/
theorem onSegment_closes (hst : c.state ≠ .closed) {f : Frame} {app : List U8}
    (hr : c.onSegment b f.sequence f.flags h app = .ok (c', out)) : c'.control.Unfinished ∧
    (c'.state = .closed ↔ c.Finishes f h) ∧ (c'.state = .closed → (Emptied c' ↔ c.Covers f h)) := by
  by_cases hcl : c.state = .closing
  · have ho₀ : c.isOpen := by simp [Connection.isOpen, hcl]
    cases onSegment_branch hr with
    | closed hst' => exact absurd hst' hst
    | handshake _ _ hadm => rw [admits_of_isOpen ho₀] at hadm; cases hadm
    | block _ h₁ _ h₂ =>
      have hc₁ := handshakeArm_open (c := { c with peerWindow := h.window }) ho₀ h₁
      subst hc₁
      obtain ⟨hclosed, hempty⟩ := openBlock_closing (c := { c with peerWindow := h.window }) hcl h₂
      obtain ⟨_, _, _, _, _, _, _, _, hdrain, _⟩ := openBlock_parts h₂
      exact ⟨drainAndMaybeFin_unfinished hdrain, hclosed, fun _ => hempty⟩
  · have hno : ¬ c.Finishes f h := fun hfin => hcl hfin.1
    have hstates : ∀ {c₁ : Connection},
        (c₁.state = c.state ∨ c₁.state = .synReceived ∨ c₁.state = .established) →
        c₁.state ≠ .closing ∧ c₁.state ≠ .closed := by
      rintro c₁ (hs | hs | hs)
      · rw [hs]; exact ⟨hcl, hst⟩
      · rw [hs]; simp
      · rw [hs]; simp
    cases onSegment_branch hr with
    | closed hst' => exact absurd hst' hst
    | handshake _ h₁ =>
      have hst' := hstates (handshakeArm_state (c := { c with peerWindow := h.window }) h₁)
      exact ⟨unfinished_of_state hst'.1, iff_of_false hst'.2 hno, fun hs => absurd hs hst'.2⟩
    | block _ h₁ ho h₂ =>
      have hst₁ := hstates (handshakeArm_state (c := { c with peerWindow := h.window }) h₁)
      have hopen := openBlock_established ((isOpen_cases ho).resolve_right hst₁.1) h₂
      obtain ⟨_, _, _, _, _, _, _, _, hdrain, _⟩ := openBlock_parts h₂
      exact ⟨drainAndMaybeFin_unfinished hdrain, iff_of_false hopen hno, fun hs => absurd hs hopen⟩

/-- The segment that arrives with the call, if it completes the exchange of FINs, finds nothing to
    send and acknowledges the rest. -/
def Connection.Settles (c : Connection) (a : Call) : Prop :=
  ∀ s ∈ a.segment?, c.Finishes s.1 s.2.1 → c.Covers s.1 s.2.1

theorem call_closes {e e' : Endpoint} {a : Call} (hst : e.conn.state ≠ .closed)
    (hk : e.conn.control.Unfinished) (hr : e.call b a = .ok e') : e'.conn.control.Unfinished ∧
    ((e'.conn.state = .closed → Emptied e'.conn) ↔ e.conn.Settles a) := by
  cases hs : a.segment? with
  | none =>
    have hcause : ∀ fa fin, a.cause ≠ .segment fa fin := by
      intro fa fin ha
      obtain ⟨now, d, f, hdr, app, rfl, hcar, _⟩ := cause_segment ha
      rw [hcar.segment?_eq now] at hs
      cases hs
    obtain ⟨hopen, hk'⟩ := (call_turns hr).not_closed hcause ⟨hst, hk⟩
    refine ⟨hk', iff_of_true (fun hcl => absurd hcl hopen) ?_⟩
    intro s hm
    rw [hs] at hm
    cases hm
  | some seg =>
    obtain ⟨f, hdr, app⟩ := seg
    cases a with
    | onDatagram now d =>
      obtain ⟨⟨c', out⟩, hc, hr⟩ := bind_eq_ok.mp hr
      cases hr
      rw [(carries_of_segment? hs).onDatagram] at hc
      obtain ⟨hk', hclosed, hempty⟩ := onSegment_closes (c := e.conn.advance now) hst hc
      refine ⟨hk', ?_⟩
      have hclosed' : c'.state = .closed ↔ e.conn.Finishes f hdr := hclosed
      have hempty' : c'.state = .closed → (Emptied c' ↔ e.conn.Covers f hdr) := hempty
      have hset : e.conn.Settles (.onDatagram now d) ↔ (e.conn.Finishes f hdr → e.conn.Covers f hdr) := by
        unfold Connection.Settles
        rw [hs]
        simp
      rw [hset, ← hclosed', Endpoint.put_conn]
      exact ⟨fun hall hcl => (hempty' hcl).mp (hall hcl), fun hall hcl => (hempty' hcl).mpr (hall hcl)⟩
    | _ => cases hs

/-! ## Runs -/

def Pair.Settles (p : Pair) (s : Side) (a : Call) : Prop := (p.get s).conn.Settles a

/-- A side that enters `Closed` on the way from `p` to `p'` leaves nothing queued and nothing
    unacknowledged. -/
def Pair.Settled (p p' : Pair) : Prop :=
  ∀ s, (p.get s).conn.state ≠ .closed → (p'.get s).conn.state = .closed → Emptied (p'.get s).conn

variable {ccfg scfg : Config} {T : Tick → Prop} {G : Pair → Side → Call → Prop} {past : List Pair}
  {p p' : Pair} {s : Side} {a : Call}

theorem Born.unfinished {cfg : Config} {e : Endpoint} (he : Born b cfg e) : e.conn.control.Unfinished := by
  refine unfinished_of_state fun hcl => ?_
  cases he with
  | client hc => cases (connect_greets hc).1.symm.trans hcl
  | server hc => cases (listen_greets hc).1.symm.trans hcl

theorem reach_unfinished (hp : Pair.ReachVia b ccfg scfg G p) (s : Side) :
    (p.get s).conn.control.Unfinished := by
  refine reach_each (P := fun e => e.conn.control.Unfinished) (fun _ he => he.unfinished) ?_ hp
  intro p a e hk _ hr
  by_cases hst : (p.get s).conn.state = .closed
  · refine unfinished_of_state ?_
    rw [call_stays_closed hst hr]
    nofun
  · exact (call_closes hst hk hr).1

/-- A step leaves nothing behind exactly when it settles what it finishes. -/
theorem step_settled_iff (hp : Pair.ReachVia b ccfg scfg G p) (hr : p.step b s a = .ok p') :
    p.Settled p' ↔ p.Settles s a := by
  obtain ⟨e, he, rfl⟩ := Pair.step_inv hr
  have hside : p.Settled (p.set s e) ↔
      ((p.get s).conn.state ≠ .closed → e.conn.state = .closed → Emptied e.conn) := by
    constructor
    · intro hall
      have hs := hall s
      rwa [Pair.get_set_self] at hs
    · intro hs t
      rcases t.eq_or_peer s with rfl | rfl
      · rwa [Pair.get_set_self]
      · rw [Pair.get_set_peer]
        exact fun hne hcl => absurd hcl hne
  rw [hside]
  by_cases hst : (p.get s).conn.state = .closed
  · refine iff_of_true (fun hne => absurd hst hne) fun seg _ hfin => ?_
    rw [hfin.1] at hst
    cases hst
  · have hiff := (call_closes hst (reach_unfinished hp s) he).2
    exact ⟨fun hall => hiff.mp (hall hst), fun hset _ => hiff.mpr hset⟩

/-- **A close discards nothing** in a run in which every segment that completes an exchange of FINs
    settles it; and the next step leaves something behind exactly when it does not. -/
theorem close_discards_nothing (hrun : Pair.Run b ccfg scfg T Pair.Settles past p) :
    (p :: past).IsChain (fun p' p => p.Settled p') ∧
      ∀ s a p', p.Legal s a → p.step b s a = .ok p' → (p.Settled p' ↔ p.Settles s a) := by
  refine ⟨?_, fun s a p' _ hr => step_settled_iff hrun.via hr⟩
  induction hrun with
  | start => exact .singleton _
  | step hrun _ _ hg hr ih => exact .cons_cons ((step_settled_iff hrun.via hr).mpr hg) ih

/-! ## Bytes sent in `Closing` -/

instance decidableFinishes (c : Connection) (f : Frame) (h : SegmentHeader) : Decidable (c.Finishes f h) :=
  inferInstanceAs (Decidable (_ ∧ _ ∧ _))

instance decidableCovers (c : Connection) (f : Frame) (h : SegmentHeader) : Decidable (c.Covers f h) :=
  inferInstanceAs (Decidable (_ ∧ (_ ∨ _ ∧ _ ∧ ∀ e ∈ _, _)))

instance decidableSettles (c : Connection) (a : Call) : Decidable (c.Settles a) :=
  inferInstanceAs (Decidable (∀ s ∈ a.segment?, _ → _))

/-- Both sides of the sample run close, the client with everything acknowledged. -/
theorem close_discards_nothing_sample : ∃ past p,
    Pair.Run .checked sampleConfig sampleConfig (fun _ => True) Pair.Settles past p ∧
    p.client.conn.state = .closed ∧ p.client.sent = [1, 2, 3, 4, 5] ∧
    (p :: past).IsChain (fun p' p => p.Settled p') := by
  have hrun : Pair.playsVia .checked sampleConfig sampleConfig
      (fun p s a => decide ((p.get s).conn.Settles a)) (sampleRun ++ sampleEnd)
      (fun p => decide (p.client.conn.state = .closed ∧ p.client.sent = [1, 2, 3, 4, 5])) = true := by
    decide +kernel
  obtain ⟨past, p, _, hp, ht⟩ := Pair.playsVia_run (T := fun _ => True) (G := Pair.Settles) trivial
    (fun p s a hg => ⟨fun _ _ => trivial, (of_decide_eq_true hg : (p.get s).conn.Settles a)⟩) hrun
  obtain ⟨hcl, hsent⟩ := of_decide_eq_true ht
  exact ⟨past, p, hp, hcl, hsent, (close_discards_nothing hp).1⟩

/-- Handshake; the client closes, its FIN is acknowledged, it sends two bytes; the server closes. -/
def lateSend : List (Side × Act) :=
  [(.server, .deliver 1 0), (.client, .deliver 2 0), (.server, .deliver 3 1), (.client, .close 4),
   (.server, .deliver 5 2), (.server, .close 5), (.client, .deliver 6 1), (.client, .send 7 [1, 2])]

/-- The server's FIN closes the client, whose two bytes are in flight; a closed side does not send
    them again. -/
theorem close_discards : ∃ p p' d, Pair.Reach .checked sampleConfig sampleConfig p ∧
    p.Legal .client (.onDatagram 8 d) ∧ p.step .checked .client (.onDatagram 8 d) = .ok p' ∧
    p'.client.conn.unacked.isEmpty = false ∧ ¬ p.Settled p' := by
  have hrun : Pair.plays .checked sampleConfig sampleConfig lateSend
      (fun p => decide (p.client.conn.state = .closing) && p.server.emitted.any fun d =>
        returnsIn (p.step .checked .client (.onDatagram 8 d)) fun p' =>
          decide (p'.client.conn.state = .closed ∧ p'.client.conn.unacked.isEmpty = false)) = true := by
    decide +kernel
  obtain ⟨p, hp, ht⟩ := Pair.plays_reach hrun
  obtain ⟨hst, hany⟩ := Bool.and_eq_true_iff.mp ht
  obtain ⟨d, hd, ht⟩ := List.any_eq_true.mp hany
  obtain ⟨p', hp', ht⟩ := of_returnsIn ht
  obtain ⟨hcl, hne⟩ := of_decide_eq_true ht
  have hst' : p.client.conn.state = .closing := of_decide_eq_true hst
  refine ⟨p, p', d, hp, hd, hp', hne, fun hset => ?_⟩
  have hopen : (p.get .client).conn.state ≠ .closed := by
    intro hclosed
    cases hst'.symm.trans hclosed
  have hemp : p'.client.conn.unacked.entries = [] := (hset .client hopen hcl).2
  rw [isEmpty_iff.mpr hemp] at hne
  cases hne

end Distrans
