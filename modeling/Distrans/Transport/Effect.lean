import Distrans.Transport.Congestion
import Distrans.Transport.Handshake
import Distrans.Transport.Ledger

/-!
# What an acknowledgement does

`Acked` says what `apply_ack` makes of the send side: which segments leave the buffer, which are
marked, what happens to the FIN.  The duplicate that triggers a fast retransmit returns before
its selective acks and its `fin_ack` are looked at.

* `ack_takes_effect` — **an acknowledgement takes full effect exactly when it is not that
  duplicate, or says nothing new.**
* `trigger_loses_marks` — it may say something new.
-/

set_option autoImplicit false

namespace Distrans

open Machine OrdMap

variable {b : Build} {c c' : Connection} {out : List Datagram} {h : SegmentHeader}

/-! ## The send side after an acknowledgement -/

/-- The sequence number lies in a range of the header. -/
def SegmentHeader.covers (h : SegmentHeader) (k : U32) : Bool :=
  h.sack.any fun r => decide (r.start ≤ k ∧ k ≤ r.stop)

/-- The selective acks and `fin_ack` of the header are looked at. -/
def Connection.marks (c : Connection) (h : SegmentHeader) : Bool := !decide (c.Resends h)

/-- The segments that the cumulative acknowledgement leaves in the buffer. -/
def Connection.remaining (c : Connection) (h : SegmentHeader) : List (U32 × UnackedSegment) :=
  if c.sendBase < h.ack then c.unacked.entries.filter (h.ack ≤ ·.1) else c.unacked.entries

/-- The connection after the end of `apply_ack`, with the ranges marked in `u`. -/
structure Tagged (c : Connection) (h : SegmentHeader) (c' : Connection) : Prop where
  fields : ∃ st u, c' = { c with
    unacked := u, state := st, finAcked := c.finAcked || h.finAck
    finPending := if h.finAck then none else c.finPending }
  state : c'.state = c.state ∨ (c.state = .closing ∧ c'.state = .closed ∧ c'.finAcked ∧ c'.peerFinSeen)
  entries : EntriesRel (fun k v v' => v' = { v with sacked := v.sacked || h.covers k })
    c.unacked.entries c'.unacked.entries

/-- The connection after `apply_ack`. -/
structure Acked (c : Connection) (h : SegmentHeader) (c' : Connection) : Prop where
  config : c'.config = c.config
  queue : c'.sendQueue = c.sendQueue
  nextSeq : c'.nextSeq = c.nextSeq
  base : c'.sendBase = if c.sendBase < h.ack then h.ack else c.sendBase
  received : c'.expectedSeq = c.expectedSeq ∧ c'.recvBuffer = c.recvBuffer
  seen : c'.peerFinSeen = c.peerFinSeen
  finAcked : c'.finAcked = (c.finAcked || (h.finAck && c.marks h))
  finPending : c'.finPending = if h.finAck && c.marks h then none else c.finPending
  state : c'.state = c.state ∨ (c.state = .closing ∧ c'.state = .closed ∧ c'.finAcked ∧ c'.peerFinSeen)
  entries : EntriesRel (fun k v v' => v'.sacked = (v.sacked || (h.covers k && c.marks h)))
    (c.remaining h) c'.unacked.entries

theorem sackMarks_sets : ∀ {rs : List SackRange} {u u' : OrdMap U32 UnackedSegment},
    rs.foldlM (fun m r => m.mapRange r.start r.stop fun seg => { seg with sacked := true }) u = .ok u' →
    EntriesRel (fun k v v' => v' =
      { v with sacked := v.sacked || rs.any fun r => decide (r.start ≤ k ∧ k ≤ r.stop) })
      u.entries u'.entries
  | [], u, u', hr => by
    cases hr
    exact .refl (fun _ v => by simp) _
  | r :: rs, u, u', hr => by
    rw [List.foldlM_cons] at hr
    obtain ⟨u₁, h₁, hr⟩ := bind_eq_ok.mp hr
    refine EntriesRel.trans_mem (mapRange_rel_if h₁) (sackMarks_sets hr) ?_
    rintro k v v₁ v₂ - rfl rfl
    by_cases hk : r.start ≤ k ∧ k ≤ r.stop
    · simp [hk]
    · simp only [hk, if_false, List.any_cons, decide_false, Bool.false_or]

theorem ackMarks_tagged (hr : c.ackMarks h = .ok c') : Tagged c h c' := by
  cases ackMarks_branch hr with
  | @marked u hfin hu => exact ⟨⟨c.state, u, by simp [hfin]⟩, Or.inl rfl, sackMarks_sets hu⟩
  | @finAcked u hfin hu =>
    have hsets := sackMarks_sets hu
    unfold Connection.checkFullyClosed
    split
    · rename_i hcond
      exact ⟨⟨.closed, u, by simp [hfin]⟩, Or.inr ⟨hcond.1, rfl, rfl, hcond.2.2⟩, hsets⟩
    · exact ⟨⟨c.state, u, by simp [hfin]⟩, Or.inl rfl, hsets⟩

/-- What the end of `apply_ack` does, it does to the connection that the middle leaves. -/
theorem Tagged.acked {c₁ : Connection} (hm : Tagged c₁ h c') (hnot : ¬ c.Resends h)
    (hcfg : c₁.config = c.config) (hq : c₁.sendQueue = c.sendQueue) (hn : c₁.nextSeq = c.nextSeq)
    (hbase : c₁.sendBase = if c.sendBase < h.ack then h.ack else c.sendBase)
    (hrecv : c₁.expectedSeq = c.expectedSeq ∧ c₁.recvBuffer = c.recvBuffer)
    (hk : c₁.control = c.control) (hfp : c₁.finPending = c.finPending)
    (hu : c₁.unacked.entries = c.remaining h) : Acked c h c' := by
  have hmarks : c.marks h = true := by simp [Connection.marks, hnot]
  have hstate := hm.state
  have hentries := hm.entries
  obtain ⟨st, u, rfl⟩ := hm.fields
  have hfa : c₁.finAcked = c.finAcked := congrArg Control.finAcked hk
  have hseen : c₁.peerFinSeen = c.peerFinSeen := congrArg Control.peerFinSeen hk
  rw [control_state hk] at hstate
  rw [hu] at hentries
  refine ⟨hcfg, hq, hn, hbase, hrecv, hseen, ?_, ?_, hstate, hentries.imp ?_⟩
  · simp [hfa, hmarks]
  · simp [hfp, hmarks]
  · rintro k v v' rfl
    simp [hmarks]

/-- A fast retransmit touches the windows and the first segment's timer. -/
theorem fastRetransmit_entries {resent : Option Datagram} (hr : c.fastRetransmit b = .ok (c', resent)) :
    (∃ u st w r n, c' = { c with unacked := u, stats := st, cwnd := w, ssthresh := r, dupAckCount := n }) ∧
      EntriesRel (fun _ v v' => v'.sacked = v.sacked) c.unacked.entries c'.unacked.entries := by
  cases fastRetransmit_branch hr with
  | nothing _ hu | oldest _ hu =>
    exact ⟨⟨_, _, _, _, _, rfl⟩, (fast_again hu).imp fun _ _ _ hv => hv.data.2⟩

theorem applyAck_acked {resent : Option Datagram} (hr : c.applyAck b h = .ok (c', resent)) :
    Acked c h c' := by
  have hdup : h.ack = c.sendBase → c.remaining h = c.unacked.entries ∧
      c.sendBase = if c.sendBase < h.ack then h.ack else c.sendBase := by
    intro hack
    rw [Connection.remaining, hack, if_neg (lt_irrefl _), if_neg (lt_irrefl _)]
    exact ⟨rfl, rfl⟩
  cases applyAck_branch hr with
  | advance hadv h₁ h₂ =>
    obtain ⟨_, r, w, _, _, _, rfl⟩ := ackAdvance_spec h₁
    refine (ackMarks_tagged h₂).acked ?_ rfl rfl rfl (by rw [if_pos hadv]) ⟨rfl, rfl⟩ rfl rfl ?_
    · rintro ⟨heq, _⟩
      rw [heq] at hadv
      exact lt_irrefl _ hadv
    · rw [Connection.remaining, if_pos hadv]
      exact entries_eraseAll_below _ _
  | duplicate hack hne hn hk h₂ =>
    obtain ⟨hrem, hbase⟩ := hdup hack
    rw [Build.add_eq hn] at hk
    exact (ackMarks_tagged h₂).acked (fun hres => hk hres.2.2) rfl rfl rfl hbase ⟨rfl, rfl⟩ rfl rfl
      hrem.symm
  | resend hack hne hn hk hfast =>
    obtain ⟨hrem, hbase⟩ := hdup hack
    rw [Build.add_eq hn] at hk
    have hmarks : c.marks h = false := by
      have hres : c.Resends h := ⟨hack, hne, hk⟩
      simp [Connection.marks, hres]
    obtain ⟨⟨u, st, w, r, n', rfl⟩, hrel⟩ := fastRetransmit_entries hfast
    refine ⟨rfl, rfl, rfl, hbase, ⟨rfl, rfl⟩, rfl, by simp [hmarks], by simp [hmarks], Or.inl rfl, ?_⟩
    rw [hrem]
    exact hrel.imp fun k v v' hv => by rw [hv, hmarks]; simp
  | stale hadv hdup h₂ =>
    refine (ackMarks_tagged h₂).acked (fun hres => hdup ⟨hres.1, hres.2.1⟩) rfl rfl rfl
      (by rw [if_neg hadv]) ⟨rfl, rfl⟩ rfl rfl ?_
    rw [Connection.remaining, if_neg hadv]

/-! ## Sending afterwards -/

/-- `N` bytes have been given to send; what is in the buffer lies before `next_seq`. -/
structure Placed (N : Nat) (l : Ledger) : Prop where
  total : l.nextSeq.toNat + l.sendQueue.length = N
  below : ∀ e ∈ l.unacked.entries, e.1 < l.nextSeq

variable {N : Nat}

/-- What is cut gets sequence numbers that nothing in the buffer has. -/
theorem trySendMore_old (hN : b = .checked ∨ N < 2 ^ 32)
    (htotal : c.nextSeq.toNat + c.sendQueue.length = N) (hr : c.trySendMore b = .ok (c', out)) :
    ∀ e : U32 × UnackedSegment, e.1 < c.nextSeq → (e ∈ c'.unacked.entries ↔ e ∈ c.unacked.entries) := by
  refine (trySendMore_keeps (P := fun c' => c'.nextSeq.toNat + c'.sendQueue.length = N ∧
    c.nextSeq ≤ c'.nextSeq ∧ ∀ e : U32 × UnackedSegment, e.1 < c.nextSeq →
      (e ∈ c'.unacked.entries ↔ e ∈ c.unacked.entries)) ?_ hr ⟨htotal, le_refl _, fun _ _ => Iff.rfl⟩).2.2
  rintro c₁ c₂ n d ⟨hsum, hle, hold⟩ hq hn hcut
  obtain ⟨nextSeq, bytes, hadd, _, _, rfl⟩ := cutSegment_spec hcut
  have hnext : nextSeq.toNat = c₁.nextSeq.toNat + n := add_length_toNat hN hn (by omega) hadd
  refine ⟨?_, hle.trans ?_, fun e he => ?_⟩
  · show nextSeq.toNat + (c₁.sendQueue.drop n).length = N
    rw [hnext, List.length_drop]
    omega
  · have hmono : c₁.nextSeq.toNat ≤ nextSeq.toNat := by omega
    exact hmono
  · rw [← hold e he, mem_insert]
    have hne : e.1 ≠ c₁.nextSeq := (he.trans_le hle).ne
    constructor
    · rintro (rfl | ⟨he', _⟩)
      · exact absurd rfl hne
      · exact he'
    · intro he'
      exact Or.inr ⟨he', hne⟩

theorem drainAndMaybeFin_old (hN : b = .checked ∨ N < 2 ^ 32)
    (htotal : c.nextSeq.toNat + c.sendQueue.length = N) (hr : c.drainAndMaybeFin b = .ok (c', out)) :
    ∀ e : U32 × UnackedSegment, e.1 < c.nextSeq → (e ∈ c'.unacked.entries ↔ e ∈ c.unacked.entries) := by
  obtain ⟨⟨c₁, out₁⟩, h₁, hr⟩ := bind_eq_ok.mp hr
  obtain ⟨⟨c₂, fin⟩, h₂, hr⟩ := bind_eq_ok.mp hr
  cases hr
  have hfin : c₂.unacked = c₁.unacked := by cases maybeSendFin_branch h₂ <;> rfl
  have hcheck : c₂.checkFullyClosed.unacked = c₂.unacked :=
    congrArg Ledger.unacked (checkFullyClosed_ledger c₂)
  rw [hcheck, hfin]
  exact trySendMore_old hN htotal h₁

/-- A FIN that has been acknowledged is not pending again. -/
theorem Turns.settled {a : Cause} {k k' : Control} (ht : Turns a k k')
    (hk : k.finAcked ∧ k.finPending = false) : k'.finAcked ∧ k'.finPending = false := by
  refine ht.preserves (P := fun k => k.finAcked ∧ k.finPending = false) (fun hk ht => ?_) hk
  cases ht with
  | startFin _ _ hno => rw [hk.1] at hno; cases hno
  | finAck => exact ⟨rfl, rfl⟩
  | failFin => exact ⟨hk.1, rfl⟩
  | _ => exact hk

/-! ## The whole call -/

/-- Every segment of `c` that is still in the buffer and lies in a range of the header is marked,
    and `fin_ack` has settled the FIN. -/
structure TakesEffect (h : SegmentHeader) (c c' : Connection) : Prop where
  sacked : ∀ e ∈ c.unacked.entries, ∀ e' ∈ c'.unacked.entries, e'.1 = e.1 → h.covers e.1 → e'.2.sacked
  fin : h.finAck → c'.finAcked ∧ c'.finPending = none

/-- The header tells the connection nothing it does not know. -/
def Connection.Knows (c : Connection) (h : SegmentHeader) : Prop :=
  (∀ e ∈ c.unacked.entries, h.covers e.1 → e.2.sacked) ∧ (h.finAck → c.finAcked)

/-- What is left in the buffer after the acknowledgement is what was there, marked. -/
theorem Acked.mem (ha : Acked c h c') {e : U32 × UnackedSegment} (he : e ∈ c'.unacked.entries) :
    ∃ old, (e.1, old) ∈ c.unacked.entries ∧ e.2.sacked = (old.sacked || (h.covers e.1 && c.marks h)) := by
  obtain ⟨old, hold, hs⟩ := ha.entries.mem (show (e.1, e.2) ∈ _ from he)
  refine ⟨old, ?_, hs⟩
  unfold Connection.remaining at hold
  split at hold
  · exact List.mem_of_mem_filter hold
  · exact hold

/-- The connection after the call is the acknowledged one, with more segments cut and perhaps a
    FIN of its own. -/
structure Processed (c : Connection) (h : SegmentHeader) (c₁ c' : Connection) : Prop where
  acked : Acked c h c₁
  old : ∀ e : U32 × UnackedSegment, e.1 < c.nextSeq → (e ∈ c'.unacked.entries ↔ e ∈ c₁.unacked.entries)
  finAcked : c'.finAcked → c₁.finAcked
  settled : c₁.finAcked → c₁.finPending = none → c'.finAcked ∧ c'.finPending = none

theorem onDatagram_processed (htotal : c.nextSeq.toNat + c.sendQueue.length = N)
    (hN : b = .checked ∨ N < 2 ^ 32) (ho : c.isOpen) {now : Tick} {d : Datagram} {f : Frame} {app : List U8}
    (hc : Carries d f h app) (hack : f.flags &&& FLAG_ACK ≠ 0#16)
    (hr : c.onDatagram b now d = .ok (c', out)) : ∃ c₁, Processed c h c₁ c' := by
  obtain ⟨c₁, resent, c₂, answered, out₄, hap, hdel, hdrain⟩ := onDatagram_open ho hc hr
  rw [if_pos (by simpa using hack)] at hap
  have ha₀ := applyAck_acked hap
  have ha : Acked c h c₁ := ⟨ha₀.config, ha₀.queue, ha₀.nextSeq, ha₀.base, ha₀.received, ha₀.seen,
    ha₀.finAcked, ha₀.finPending, ha₀.state, ha₀.entries⟩
  obtain ⟨buf, ex, st, del, rfl⟩ := (deliverData_delivers hdel).fields
  have hold := drainAndMaybeFin_old (N := N) hN (by rw [← htotal, ← ha.nextSeq, ← ha.queue]; rfl) hdrain
  have hturns := drainAndMaybeFin_turns (a := .other) hdrain
  refine ⟨c₁, ha, fun e he => hold e ?_, fun hfa => ?_, fun hfa hfp => ?_⟩
  · rw [← ha.nextSeq] at he
    exact he
  · exact (hturns.finAcked hfa).resolve_right nofun
  · obtain ⟨hfa', hnone⟩ := hturns.settled ⟨hfa, show c₁.finPending.isSome = false by rw [hfp]; rfl⟩
    exact ⟨hfa', Option.not_isSome_iff_eq_none.mp (by rw [Bool.not_eq_true]; exact hnone)⟩

/-- An acknowledgement that gets to the end of `apply_ack` takes full effect. -/
theorem Processed.takesEffect {c₁ : Connection} (hp : Processed c h c₁ c') (hpl : Placed N c.ledger)
    (hres : ¬ c.Resends h) : TakesEffect h c c' := by
  have hmarks : c.marks h = true := by simpa [Connection.marks] using hres
  refine ⟨fun e he e' he' hkey hcov => ?_, fun hfin => ?_⟩
  · have hlt : e'.1 < c.nextSeq := by rw [hkey]; exact hpl.below e he
    obtain ⟨old, _, hs⟩ := hp.acked.mem ((hp.old e' hlt).mp he')
    rw [hs, hkey, hcov, hmarks]
    simp
  · refine hp.settled ?_ ?_
    · rw [hp.acked.finAcked, hfin, hmarks]; simp
    · rw [hp.acked.finPending, hfin, hmarks]; rfl

/-- The duplicate that triggers a fast retransmit takes effect if it says nothing new. -/
theorem Processed.resends {c₁ : Connection} (hp : Processed c h c₁ c') (hok : c.control.Ok)
    (hpl : Placed N c.ledger) (hres : c.Resends h) : TakesEffect h c c' ↔ c.Knows h := by
  have hno : c.marks h = false := by simpa [Connection.marks] using hres
  have hrem : c.remaining h = c.unacked.entries := by
    rw [Connection.remaining, if_neg (by rw [hres.1]; exact lt_irrefl _)]
  have hfa₁ : c₁.finAcked = c.finAcked := by rw [hp.acked.finAcked, hno]; simp
  constructor
  · rintro ⟨hsacked, hfin⟩
    refine ⟨fun e he hcov => ?_, fun hfa => ?_⟩
    · -- nothing has left the buffer
      obtain ⟨v', hv', hs⟩ := hp.acked.entries.mem_left (show (e.1, e.2) ∈ c.remaining h by rw [hrem]; exact he)
      have hm : (e.1, v') ∈ c'.unacked.entries := (hp.old (e.1, v') (hpl.below e he)).mpr hv'
      have hs' : v'.sacked = true := hsacked e he (e.1, v') hm rfl hcov
      rw [hs, hno] at hs'
      simpa using hs'
    · rw [← hfa₁]
      exact hp.finAcked (hfin hfa).1
  · rintro ⟨hsacked, hfin⟩
    refine ⟨fun e he e' he' hkey hcov => ?_, fun hfa => ?_⟩
    · have hlt : e'.1 < c.nextSeq := by rw [hkey]; exact hpl.below e he
      obtain ⟨old, hm, hs⟩ := hp.acked.mem ((hp.old e' hlt).mp he')
      have hsame : e.2 = old := mem_unique (show (e.1, e.2) ∈ _ from he) (hkey ▸ hm)
      rw [hs, ← hsame, hsacked e he hcov]
      rfl
    · have hfa₀ := hfin hfa
      have hpend : c.finPending = none := by
        by_contra hsome
        have hnot : c.finAcked = false := (hok.pending (Option.isSome_iff_ne_none.mpr hsome)).2
        rw [hfa₀] at hnot
        cases hnot
      refine hp.settled (by rw [hfa₁, hfa₀]) ?_
      rw [hp.acked.finPending, hno, hpend]
      simp

/-! ## Runs -/

namespace Placed

variable {o : Connection} {a : Call} {l l' : Ledger}

theorem keep (h : Placed N l) (hq : l'.sendQueue = l.sendQueue) (hn : l'.nextSeq = l.nextSeq)
    (hu : ∀ k seg, (k, seg) ∈ l'.unacked.entries → ∃ old, (k, old) ∈ l.unacked.entries) : Placed N l' where
  total := by rw [hq, hn]; exact h.total
  below := fun e he => by
    obtain ⟨old, hm⟩ := hu e.1 e.2 he
    rw [hn]
    have hlt : (e.1, old).1 < l.nextSeq := h.below _ hm
    exact hlt

theorem deed (h : Placed N l) (hN : b = .checked ∨ N < 2 ^ 32) (hd : Deed b o a l l' out) :
    Placed N l' := by
  have hsame : ∀ k seg, (k, seg) ∈ l.unacked.entries → ∃ old, (k, old) ∈ l.unacked.entries :=
    fun k seg hm => ⟨seg, hm⟩
  cases hd with
  | learn k =>
    refine h.keep rfl rfl fun k' seg hm => ⟨seg, ?_⟩
    have hm' : (k', seg) ∈ (l.unacked.eraseAll (l.unacked.below k)).entries := hm
    rw [entries_eraseAll_below] at hm'
    exact List.mem_of_mem_filter hm'
  | mark hu =>
    refine h.keep rfl rfl fun k seg hm => ?_
    obtain ⟨old, hm', _⟩ := hu.mem hm
    exact ⟨old, hm'⟩
  | @fast k n seg rest u d _ _ hes _ hu _ =>
    refine h.keep rfl rfl fun k' seg' hm => ?_
    have hm' : (k', seg') ∈ u.entries := hm
    rw [hu] at hm'
    rw [hes]
    rcases List.mem_cons.mp hm' with heq | hm'
    · cases heq; exact ⟨seg, List.mem_cons_self⟩
    · exact ⟨seg', List.mem_cons_of_mem _ hm'⟩
  | @cut n nextSeq d _ _ hq hn32 hadd _ =>
    have htotal := h.total
    have hnext : nextSeq.toNat = l.nextSeq.toNat + n := add_length_toNat hN hn32 (by omega) hadd
    refine ⟨?_, fun e he => ?_⟩
    · show nextSeq.toNat + (l.sendQueue.drop n).length = N
      rw [hnext, List.length_drop]
      omega
    · have hlt : l.nextSeq < nextSeq := by
        have : l.nextSeq.toNat < nextSeq.toNat := by omega
        exact this
      rcases mem_insert.mp he with rfl | ⟨he, _⟩
      · exact hlt
      · exact (h.below e he).trans hlt
  | sweep _ hu =>
    refine h.keep rfl rfl fun k seg hm => ?_
    obtain ⟨old, hm', _⟩ := (mapM_rel hu).mem hm
    exact ⟨old, hm'⟩
  | overrun => exact h.keep rfl rfl fun _ _ hm => nomatch hm
  | _ => exact h.keep rfl rfl hsame

end Placed

/-- What the effect of an acknowledgement rests on, in every state of a run. -/
structure Sound (b : Build) (cfg : Config) (e : Endpoint) : Prop where
  steady : Steady cfg e
  control : e.conn.control.Ok
  placed : b = .checked ∨ e.sent.length < 2 ^ 32 → Placed e.sent.length e.conn.ledger

theorem Born.sound {cfg : Config} {e : Endpoint} (he : Born b cfg e) : Sound b cfg e := by
  refine ⟨he.steady, ?_, fun _ => ?_⟩
  · cases he with
    | client hc => exact (connect_greets hc).2.1
    | server hc => exact (listen_greets hc).2
  · obtain ⟨hsent, t, hs, listening, hl, _⟩ := he.ledger
    rw [hl, hsent]
    exact ⟨rfl, fun _ hm => nomatch hm⟩

theorem Sound.call {cfg : Config} {e e' : Endpoint} {a : Call} (hs : Sound b cfg e)
    (hr : e.call b a = .ok e') : Sound b cfg e' := by
  refine ⟨hs.steady.call hr, call_ok hs.control hr, fun hN => ?_⟩
  obtain ⟨out, hd, _, hsent⟩ := call_deeds hs.steady.cuts hr
  have hlen : e'.sent.length = e.sent.length + a.input.length := by rw [hsent, List.length_append]
  have hpl := hs.placed (hN.imp id fun hlt => by omega)
  have hposted : Placed e'.sent.length (e.conn.posted a) := by
    refine ⟨?_, hpl.below⟩
    show e.conn.nextSeq.toNat + (e.conn.sendQueue ++ a.input).length = _
    have htotal : e.conn.nextSeq.toNat + e.conn.sendQueue.length = e.sent.length := hpl.total
    rw [List.length_append, hlen]
    omega
  exact hd.keeps (P := Placed e'.sent.length) (fun hl hd' => hl.deed hN hd') hposted

section Pairs

variable {ccfg scfg : Config} {p : Pair} {s : Side}

theorem reach_sound {G : Pair → Side → Call → Prop} (hp : Pair.ReachVia b ccfg scfg G p) (s : Side) :
    Sound b (s.config ccfg scfg) (p.get s) :=
  reach_each (fun _ he => he.sound) (fun hs _ hr => hs.call hr) hp

/-- **Every processed acknowledgement takes full effect, the duplicate that triggers a fast
    retransmit excepted**: that one does exactly if it says nothing the side does not know. -/
theorem ack_takes_effect (hp : Pair.Reach b ccfg scfg p)
    (hN : b = .checked ∨ (p.get s).sent.length < 2 ^ 32) (ho : (p.get s).conn.isOpen) {now : Tick}
    {d : Datagram} {f : Frame} {app : List U8} (hc : Carries d f h app)
    (hack : f.flags &&& FLAG_ACK ≠ 0#16) (hr : (p.get s).conn.onDatagram b now d = .ok (c', out)) :
    TakesEffect h (p.get s).conn c' ↔ ((p.get s).conn.Resends h → (p.get s).conn.Knows h) := by
  have hs := reach_sound hp s
  have hpl := hs.placed hN
  obtain ⟨c₁, hproc⟩ := onDatagram_processed hpl.total hN ho hc hack hr
  by_cases hres : (p.get s).conn.Resends h
  · rw [hproc.resends hs.control hpl hres]
    exact ⟨fun hk _ => hk, fun hk => hk hres⟩
  · exact iff_of_true (hproc.takesEffect hpl hres) fun hres' => absurd hres' hres

end Pairs

/-! ## The duplicate that says more than those before it

The run of `one_loss_two_cuts` up to the third duplicate: each acknowledges one segment more. -/

def twoDuplicates : List (Side × Act) :=
  beforeLoss ++ (.client, .deliver 6 1) :: afterLoss.take 8

instance decidableTakesEffect (h : SegmentHeader) (c c' : Connection) : Decidable (TakesEffect h c c') :=
  decidable_of_iff ((∀ e ∈ c.unacked.entries, ∀ e' ∈ c'.unacked.entries, e'.1 = e.1 → h.covers e.1 →
      e'.2.sacked) ∧ (h.finAck → c'.finAcked ∧ c'.finPending = none))
    ⟨fun ⟨h₁, h₂⟩ => ⟨h₁, h₂⟩, fun ⟨h₁, h₂⟩ => ⟨h₁, h₂⟩⟩

/-- The second duplicate marks two segments. -/
theorem ack_takes_effect_sample : ∃ p d f h app c' out, Pair.Reach .checked lossConfig lossConfig p ∧
    d ∈ p.server.emitted ∧ Carries d f h app ∧ p.client.conn.onDatagram .checked 7 d = .ok (c', out) ∧
    h.covers 2 ∧ h.covers 3 ∧ TakesEffect h p.client.conn c' := by
  have hrun : Pair.plays .checked lossConfig lossConfig
      (beforeLoss ++ (.client, .deliver 6 1) :: afterLoss.take 7)
      (fun p => p.client.conn.isOpen && p.server.emitted.any fun d =>
        (fault? (p.client.conn.onDatagram .checked 7 d)).isNone &&
          (Call.onDatagram 7 d).segment?.any fun s => decide (s.1.flags &&& FLAG_ACK ≠ 0#16 ∧
            s.2.1.covers 2 ∧ s.2.1.covers 3 ∧ ¬ p.client.conn.Resends s.2.1)) = true := by
    decide +kernel
  obtain ⟨p, hp, ht⟩ := Pair.plays_reach hrun
  obtain ⟨ho, hany⟩ := Bool.and_eq_true_iff.mp ht
  obtain ⟨d, hd, ht⟩ := List.any_eq_true.mp hany
  obtain ⟨hok, hseg⟩ := Bool.and_eq_true_iff.mp ht
  obtain ⟨⟨f, h, app⟩, hs, ht⟩ := (Option.any_eq_true _ _).mp hseg
  obtain ⟨hack, h₂, h₃, hres⟩ := of_decide_eq_true ht
  obtain ⟨⟨c', out⟩, hr⟩ := ok_of_fault? hok
  have hcar := carries_of_segment? hs
  exact ⟨p, d, f, h, app, c', out, hp, hd, hcar, hr, h₂, h₃,
    (ack_takes_effect (s := .client) hp (Or.inl rfl) ho hcar hack hr).mpr fun hres' => absurd hres' hres⟩

/-- The third says that a third one has arrived; it is not marked. -/
theorem trigger_loses_marks : ∃ p d f h app c' out, Pair.Reach .checked lossConfig lossConfig p ∧
    p.client.conn.isOpen ∧ d ∈ p.server.emitted ∧ Carries d f h app ∧ f.flags &&& FLAG_ACK ≠ 0#16 ∧
    p.client.conn.onDatagram .checked 7 d = .ok (c', out) ∧ ¬ TakesEffect h p.client.conn c' := by
  have hrun : Pair.plays .checked lossConfig lossConfig twoDuplicates
      (fun p => p.client.conn.isOpen && p.server.emitted.any fun d =>
        (Call.onDatagram 7 d).segment?.any fun s => decide (s.1.flags &&& FLAG_ACK ≠ 0#16) &&
          returnsIn (p.client.conn.onDatagram .checked 7 d)
            fun r => !decide (TakesEffect s.2.1 p.client.conn r.1)) = true := by
    decide +kernel
  obtain ⟨p, hp, ht⟩ := Pair.plays_reach hrun
  obtain ⟨ho, hany⟩ := Bool.and_eq_true_iff.mp ht
  obtain ⟨d, hd, hseg⟩ := List.any_eq_true.mp hany
  obtain ⟨⟨f, h, app⟩, hs, ht⟩ := (Option.any_eq_true _ _).mp hseg
  obtain ⟨hack, hmiss⟩ := Bool.and_eq_true_iff.mp ht
  obtain ⟨⟨c', out⟩, hr, hmiss⟩ := of_returnsIn hmiss
  exact ⟨p, d, f, h, app, c', out, hp, ho, hd, carries_of_segment? hs, of_decide_eq_true hack, hr,
    by simpa using hmiss⟩

end Distrans
