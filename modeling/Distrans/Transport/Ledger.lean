import Distrans.Transport.Phases

/-!
# What a connection puts on the wire

`wire?` reads a datagram back without looking at its length field or its checksum, so that it says
what a frame of any size carries; `item?` is what the frame is a transmission of.  `Ledger` is
the part of a connection that decides what is transmitted, and `Deed` lists the elementary steps
that change it, each with the frames it emits.  A call is a sequence of deeds (`call_deeds`).

`o` is the connection before the call `a`: a deed that sends something again says from which
state of `o` it does so, and a fast retransmit or the answer to a repeated SYN what arrived.
-/

set_option autoImplicit false

namespace Distrans

open Machine OrdMap

variable {b : Build} {c c' : Connection} {out : List Datagram}

/-! ## Frames -/

/-- Sequence number, flags and application bytes of a datagram. -/
def wire? (d : Datagram) : Option (U32 × U16 × List U8) :=
  match readLe 32 d 2 6, readLe 16 d 6 8, slice d HEADER_LEN (d.length - CRC_LEN) with
  | .ok sequence, .ok flags, .ok payload =>
    match SegmentHeader.decode payload with
    | .ok (some (_, app)) => some (sequence, flags, app)
    | _ => none
  | _, _, _ => none

theorem wire?_encodeFrame (seq : U32) (flags : U16) (h : SegmentHeader) (data : List U8) :
    wire? (encodeFrame seq flags (h.encode ++ data)) = some (seq, flags, data) := by
  obtain ⟨f, hf⟩ : ∃ f : Frame, f = ⟨0, seq, flags, h.encode ++ data⟩ := ⟨_, rfl⟩
  obtain ⟨_, _, hseq, hflags, _⟩ := Frame.encode_fields f
  have hend : f.encode.length - CRC_LEN = HEADER_LEN + f.payload.length := by
    rw [Frame.encode_length]
    simp only [MIN_FRAME_LEN]
    omega
  have hpay := Frame.encode_payload f
  rw [← hend] at hpay
  rw [encodeFrame, ← hf, wire?]
  simp only [hseq, hflags, hpay]
  simp only [hf, SegmentHeader.decode_encode_append]

/-- What decodes reads the same. -/
theorem Carries.wire {d : Datagram} {f : Frame} {h : SegmentHeader} {app : List U8}
    (hc : Carries d f h app) : wire? d = some (f.sequence, f.flags, app) := by
  have hf := hc.frame
  unfold Frame.decode at hf
  split at hf
  · cases hf
  · rename_i hlen
    obtain ⟨version, _, hf⟩ := bind_eq_ok.mp hf
    split at hf
    · cases hf
    · obtain ⟨frameType, _, hf⟩ := bind_eq_ok.mp hf
      obtain ⟨sequence, hseq, hf⟩ := bind_eq_ok.mp hf
      obtain ⟨flags, hflags, hf⟩ := bind_eq_ok.mp hf
      obtain ⟨declared, _, hf⟩ := bind_eq_ok.mp hf
      dsimp only at hf
      split at hf
      · cases hf
      · obtain ⟨claimed, _, hf⟩ := bind_eq_ok.mp hf
        obtain ⟨covered, _, hf⟩ := bind_eq_ok.mp hf
        split at hf
        · cases hf
        · obtain ⟨payload, hpay, hf⟩ := bind_eq_ok.mp hf
          cases hf
          have hend : HEADER_LEN + (d.length - HEADER_LEN - CRC_LEN) = d.length - CRC_LEN := by
            simp only [HEADER_LEN, CRC_LEN, MIN_FRAME_LEN] at hlen ⊢
            omega
          rw [hend] at hpay
          unfold wire?
          simp only [hseq, hflags, hpay, hc.header]

/-- What a frame is a transmission of. -/
inductive Item where
  | handshake
  | data (seq : U32)
  deriving DecidableEq, Repr

def item? (d : Datagram) : Option Item :=
  match wire? d with
  | some (seq, flags, app) =>
    if flags &&& FLAG_SYN != 0#16 then some .handshake
    else if app.isEmpty then none else some (.data seq)
  | none => none

/-- A frame with SYN and no data. -/
def Hails (d : Datagram) : Prop :=
  ∃ seq flags, wire? d = some (seq, flags, []) ∧ (flags &&& FLAG_SYN != 0#16) = true

/-- A frame with neither SYN nor data. -/
def Mute (d : Datagram) : Prop :=
  ∃ seq flags, wire? d = some (seq, flags, []) ∧ (flags &&& FLAG_SYN != 0#16) = false

/-- A data frame. -/
def Sends (d : Datagram) (seq : U32) (data : List U8) : Prop := wire? d = some (seq, FLAG_ACK, data)

theorem Hails.item {d : Datagram} (h : Hails d) : item? d = some .handshake := by
  obtain ⟨seq, flags, hw, hs⟩ := h
  simp only [item?, hw, hs, if_true]

theorem Mute.item {d : Datagram} (h : Mute d) : item? d = none := by
  obtain ⟨seq, flags, hw, hs⟩ := h
  simp [item?, hw, hs]

theorem Sends.item {d : Datagram} {seq : U32} {data : List U8} (h : Sends d seq data)
    (hne : data ≠ []) : item? d = some (.data seq) := by
  have hs : (FLAG_ACK &&& FLAG_SYN != 0#16) = false := by decide
  simp [item?, show wire? d = _ from h, hs, hne]

theorem headerBytes_wire {bytes : List U8} (h : c.headerBytes b = .ok bytes) (seq : U32) (flags : U16)
    (data : List U8) : wire? (encodeFrame seq flags (bytes ++ data)) = some (seq, flags, data) := by
  obtain ⟨hdr, _, rfl⟩ := headerBytes_spec h
  exact wire?_encodeFrame seq flags hdr data

theorem buildSyn_hails {d : Datagram} (h : c.buildSyn b = .ok d) : Hails d := by
  obtain ⟨bytes, hb, h⟩ := bind_eq_ok.mp h
  cases h
  have hw := headerBytes_wire hb 0 FLAG_SYN []
  rw [List.append_nil] at hw
  exact ⟨_, _, hw, by decide⟩

theorem buildSynack_hails {d : Datagram} (h : c.buildSynack b = .ok d) : Hails d := by
  obtain ⟨bytes, hb, h⟩ := bind_eq_ok.mp h
  cases h
  have hw := headerBytes_wire hb 0 (FLAG_SYN ||| FLAG_ACK) []
  rw [List.append_nil] at hw
  exact ⟨_, _, hw, by decide⟩

theorem buildHandshakeAck_mute {d : Datagram} (h : c.buildHandshakeAck b = .ok d) : Mute d := by
  obtain ⟨bytes, hb, h⟩ := bind_eq_ok.mp h
  cases h
  have hw := headerBytes_wire hb 0 FLAG_ACK []
  rw [List.append_nil] at hw
  exact ⟨_, _, hw, by decide⟩

theorem buildFin_mute {d : Datagram} (h : c.buildFin b = .ok d) : Mute d := by
  obtain ⟨bytes, hb, h⟩ := bind_eq_ok.mp h
  cases h
  have hw := headerBytes_wire hb c.sendBase (FLAG_FIN ||| FLAG_ACK) []
  rw [List.append_nil] at hw
  exact ⟨_, _, hw, by decide⟩

theorem buildPureAck_mute {finAck : Bool} {d : Datagram} (h : c.buildPureAck b finAck = .ok d) :
    Mute d := by
  obtain ⟨hdr, _, h⟩ := bind_eq_ok.mp h
  cases h
  have hw := wire?_encodeFrame c.sendBase FLAG_ACK hdr []
  rw [List.append_nil] at hw
  exact ⟨_, _, hw, by decide⟩

/-! ## The ledger -/

structure Ledger where
  config : Config
  now : Tick
  listening : Bool
  failed : Bool
  handshake : Option PendingControl
  finPending : Option PendingControl
  sendQueue : List U8
  nextSeq : U32
  unacked : OrdMap U32 UnackedSegment

def Connection.ledger (c : Connection) : Ledger :=
  ⟨c.config, c.now, decide (c.state = .listening), c.isFailed, c.handshake, c.finPending, c.sendQueue,
    c.nextSeq, c.unacked⟩

/-- The duplicate acknowledgement that triggers the fast retransmit arrives with a call. -/
def Connection.Repairs (c : Connection) (a : Call) : Prop := ∃ h ∈ c.ackOf a, c.Resends h

/-- A SYN arrives with a call at a side that has answered one. -/
def Connection.Regreets (c : Connection) (a : Call) : Prop :=
  c.state = .synReceived ∧ ∃ s ∈ a.segment?,
    ((s.1.flags &&& FLAG_SYN != 0#16) && !(s.1.flags &&& FLAG_ACK != 0#16)) = true

/-- The frames that send the unmarked segments of a buffer again. -/
def Resent (u : OrdMap U32 UnackedSegment) (out : List Datagram) : Prop :=
  List.Forall₂ (fun d e => Sends d e.1 e.2.data) out (u.entries.filter fun e => !e.2.sacked)

/-- One elementary step and the frames it emits. -/
inductive Deed (b : Build) (o : Connection) (a : Call) (l : Ledger) : Ledger → List Datagram → Prop
  | mute {d : Datagram} : Mute d → Deed b o a l l [d]
  -- handshake
  | greet {d : Datagram} : l.listening → Hails d →
      Deed b o a l { l with listening := false, handshake := some ⟨l.now, 1⟩ } [d]
  | answer {d : Datagram} : l.listening = false → l.handshake = o.handshake → o.Regreets a →
      Hails d → Deed b o a l l [d]
  | retryHandshake {h : PendingControl} {n : U32} {d : Datagram} : l.listening = false →
      l.handshake = o.handshake → l.handshake = some h → b.add h.attempts 1#32 = .ok n →
      n ≤ l.config.maxRetries → Hails d →
      Deed b o a l { l with handshake := some ⟨l.now, n⟩ } [d]
  | endHandshake : Deed b o a l { l with handshake := none } []
  | failHandshake : Deed b o a l { l with handshake := none, listening := false, failed := true } []
  -- acknowledgements
  | learn (k : U32) : Deed b o a l { l with unacked := l.unacked.eraseAll (l.unacked.below k) } []
  | mark {u : OrdMap U32 UnackedSegment} :
      EntriesRel (fun _ v v' => ∃ s, v' = { v with sacked := s }) l.unacked.entries u.entries →
      Deed b o a l { l with unacked := u } []
  | fast {k n : U32} {seg : UnackedSegment} {rest : List (U32 × UnackedSegment)}
      {u : OrdMap U32 UnackedSegment} {d : Datagram} : l.unacked = o.unacked → o.Repairs a →
      l.unacked.entries = (k, seg) :: rest → b.add seg.retransmitCount 1#32 = .ok n →
      u.entries = (k, { seg with retransmitCount := n, sentAt := l.now }) :: rest →
      Sends d k seg.data → Deed b o a l { l with unacked := u } [d]
  -- sending
  | cut {n : Nat} {nextSeq : U32} {d : Datagram} : 0 < n → n ≤ l.config.segmentSize →
      n ≤ l.sendQueue.length → n < 2 ^ 32 → b.add l.nextSeq (BitVec.ofNat 32 n) = .ok nextSeq →
      Sends d l.nextSeq (l.sendQueue.take n) →
      Deed b o a l { l with
        sendQueue := l.sendQueue.drop n, nextSeq
        unacked := l.unacked.insert l.nextSeq ⟨l.sendQueue.take n, l.now, 0, false⟩ } [d]
  | fin {f : Option PendingControl} : (∀ p ∈ f, p.attempts ≤ max 1#32 l.config.maxRetries) →
      Deed b o a l { l with finPending := f } []
  -- timers
  | sweep {u : OrdMap U32 UnackedSegment} {out : List Datagram} : l.unacked = o.unacked →
      l.unacked.mapM (fun _ seg => Connection.resend b l.now seg) = .ok u → Resent u out →
      (∀ e ∈ u.entries, e.2.sacked = false → e.2.retransmitCount ≤ l.config.maxRetries) →
      Deed b o a l { l with unacked := u } out
  | overrun {u : OrdMap U32 UnackedSegment} {out : List Datagram} : l.unacked = o.unacked →
      l.unacked.mapM (fun _ seg => Connection.resend b l.now seg) = .ok u → Resent u out →
      Deed b o a l { l with unacked := OrdMap.empty, listening := false, failed := true } out
  | failFin : Deed b o a l { l with finPending := none, listening := false, failed := true } []

/-- Any number of deeds, and all they emit. -/
inductive Deeds (b : Build) (o : Connection) (a : Call) (l : Ledger) : Ledger → List Datagram → Prop
  | refl : Deeds b o a l l []
  | tail {l₁ l₂ : Ledger} {out out' : List Datagram} : Deeds b o a l l₁ out → Deed b o a l₁ l₂ out' →
      Deeds b o a l l₂ (out ++ out')

section

variable {o : Connection} {a : Call} {l l' l₁ l₂ : Ledger} {out' : List Datagram}

namespace Deeds

theorem one (h : Deed b o a l l' out) : Deeds b o a l l' out := refl.tail h

theorem trans (h : Deeds b o a l l₁ out) (h' : Deeds b o a l₁ l₂ out') :
    Deeds b o a l l₂ (out ++ out') := by
  induction h' with
  | refl => rw [List.append_nil]; exact h
  | tail _ hd ih => rw [← List.append_assoc]; exact ih.tail hd

/-- What every deed keeps of the ledger and the frames emitted so far, a sequence of deeds
    keeps. -/
theorem preserves {P : Ledger → List Datagram → Prop}
    (hstep : ∀ {l l' log out}, P l log → Deed b o a l l' out → P l' (log ++ out))
    (h : Deeds b o a l l' out) {log : List Datagram} (hl : P l log) : P l' (log ++ out) := by
  induction h with
  | refl => rw [List.append_nil]; exact hl
  | tail _ hd ih => rw [← List.append_assoc]; exact hstep ih hd

/-- What every deed keeps of the ledger alone. -/
theorem keeps {P : Ledger → Prop} (hstep : ∀ {l l' out}, P l → Deed b o a l l' out → P l')
    (h : Deeds b o a l l' out) (hl : P l) : P l' := by
  induction h with
  | refl => exact hl
  | tail _ hd ih => exact hstep ih hd

end Deeds

theorem Deed.config (h : Deed b o a l l' out) : l'.config = l.config := by cases h <;> rfl

theorem Deed.now (h : Deed b o a l l' out) : l'.now = l.now := by cases h <;> rfl

theorem Deeds.config (h : Deeds b o a l l' out) : l'.config = l.config :=
  h.keeps (P := fun l' => l'.config = l.config) (fun hl hd => hd.config.trans hl) rfl

theorem Deeds.now (h : Deeds b o a l l' out) : l'.now = l.now :=
  h.keeps (P := fun l' => l'.now = l.now) (fun hl hd => hd.now.trans hl) rfl

/-- Within `N` bytes, a side that counts them in 32 bits does not wrap around. -/
theorem add_length_toNat {x y : U32} {n N : Nat} (hN : b = .checked ∨ N < 2 ^ 32) (hn : n < 2 ^ 32)
    (hle : x.toNat + n ≤ N) (hadd : b.add x (BitVec.ofNat 32 n) = .ok y) : y.toNat = x.toNat + n := by
  rcases hN with rfl | hN
  · have hnat : (BitVec.ofNat 32 n).toNat = n := by rw [BitVec.toNat_ofNat]; omega
    rw [(Build.checked_add hadd).2, hnat]
  · exact Build.add_ofNat_toNat hadd (by omega)

/-- With `segment_size = 0` nothing is ever cut. -/
def Ledger.Cuts (l : Ledger) : Prop := l.config.segmentSize = 0 → l.unacked.entries = []

theorem Deed.cuts (h : Deed b o a l l' out) (hl : l.Cuts) : l'.Cuts := by
  intro h0
  rw [h.config] at h0
  have hnil := hl h0
  cases h with
  | learn k =>
    show (l.unacked.eraseAll (l.unacked.below k)).entries = []
    rw [entries_eraseAll_below, hnil]; rfl
  | mark hu => exact hu.eq_nil hnil
  | fast _ _ hcons => rw [hnil] at hcons; cases hcons
  | cut hn hseg => omega
  | sweep _ hu => exact (mapM_rel hu).eq_nil hnil
  | overrun => rfl
  | _ => exact hnil

theorem Deeds.cuts (h : Deeds b o a l l' out) (hl : l.Cuts) : l'.Cuts := by
  induction h with
  | refl => exact hl
  | tail _ hd ih => exact hd.cuts ih

/-! ## Sending -/

/-- A loop that cuts empty segments does not stop. -/
theorem trySendLoop_stuck : ∀ {fuel : Nat} {c : Connection}, c.config.segmentSize = 0 →
    (∀ e ∈ c.unacked.entries, e.2.data = []) → c.sendQueue ≠ [] →
    ∀ r, c.trySendLoop b fuel ≠ .ok r
  | 0, _, _, _, _, r => by intro h; cases h
  | fuel + 1, c, h0, hempty, hq, r => by
    intro h
    have hzero : c.inFlightBytes b = .ok 0#32 := by
      have hsum : ∀ es : List (U32 × UnackedSegment), (∀ e ∈ es, e.2.data = []) →
          ((es.map (·.2)).map fun s => len32 s.data).foldlM b.add 0#32 = .ok 0#32 := by
        intro es hes
        induction es with
        | nil => rfl
        | cons e es ih =>
          have he : len32 e.2.data = 0#32 := by rw [hes e List.mem_cons_self]; rfl
          have hadd : b.add (0#32) 0#32 = .ok 0#32 := by cases b <;> rfl
          rw [List.map_cons, List.map_cons, List.foldlM_cons, he, hadd]
          exact ih fun a ha => hes a (List.mem_cons_of_mem _ ha)
      exact hsum _ hempty
    have hcap : c.admissionCap b = .ok (max (satSub c.effectiveWindow 0#32) 1#32) := by
      rw [Connection.admissionCap, hzero, ok_bind]
      rfl
    have hpos : max (satSub c.effectiveWindow 0#32) 1#32 ≠ 0 := by
      intro hz
      have hle : (1#32 : U32) ≤ max (satSub c.effectiveWindow 0#32) 1#32 := le_max_right _ _
      rw [hz] at hle
      exact absurd hle (by decide)
    simp only [Connection.trySendLoop, List.isEmpty_iff, hq, if_false, hcap, ok_bind, hpos] at h
    obtain ⟨⟨c₁, d⟩, hcut, h⟩ := bind_eq_ok.mp h
    obtain ⟨⟨c₂, out₂⟩, hrec, h⟩ := bind_eq_ok.mp h
    rw [h0, Nat.zero_min, Nat.zero_min] at hcut
    obtain ⟨nextSeq, bytes, _, _, _, hc₁⟩ := cutSegment_spec hcut
    refine trySendLoop_stuck (c := c₁) ?_ ?_ ?_ _ hrec
    · rw [hc₁]; exact h0
    · rw [hc₁]
      intro e he
      rcases mem_insert.mp he with rfl | ⟨he, _⟩
      · rfl
      · exact hempty e he
    · rw [hc₁]; exact hq

/-- One round of the loop: it stops, or it cuts a segment that is not empty. -/
theorem trySendLoop_round {fuel : Nat} (hcuts : c.ledger.Cuts)
    (h : c.trySendLoop b (fuel + 1) = .ok (c', out)) :
    (c' = c ∧ out = []) ∨ ∃ n c₁ d out₁, 0 < n ∧ n ≤ c.sendQueue.length ∧ n ≤ c.config.segmentSize ∧
      n < 2 ^ 32 ∧ c.cutSegment b n = .ok (c₁, d) ∧ c₁.trySendLoop b fuel = .ok (c', out₁) ∧
      out = d :: out₁ := by
  by_cases hseg : 1 ≤ c.config.segmentSize
  · rcases trySendLoop_cases hseg h with ⟨hc, hout, _⟩ |
      ⟨n, cap, c₁, d, out₁, _, hn, hq, hle, hns, hcut, hrec, hout⟩
    · exact Or.inl ⟨hc, hout⟩
    · exact Or.inr ⟨n, c₁, d, out₁, hn, hq, hns, Nat.lt_of_le_of_lt hle cap.isLt, hcut, hrec, hout⟩
  · have h0 : c.config.segmentSize = 0 := by omega
    have hnil : c.unacked.entries = [] := hcuts h0
    by_cases hq : c.sendQueue = []
    · simp only [Connection.trySendLoop, List.isEmpty_iff, hq, if_true] at h
      cases h
      exact Or.inl ⟨rfl, rfl⟩
    · exact absurd h (trySendLoop_stuck h0 (by rw [hnil]; simp) hq _)

theorem cutSegment_deed {n : Nat} {d : Datagram} (hn : 0 < n) (hq : n ≤ c.sendQueue.length)
    (hns : n ≤ c.config.segmentSize) (hn32 : n < 2 ^ 32) (h : c.cutSegment b n = .ok (c', d)) :
    Deed b o a c.ledger c'.ledger [d] := by
  obtain ⟨nextSeq, bytes, hadd, hbytes, rfl, rfl⟩ := cutSegment_spec h
  exact .cut hn hns hq hn32 hadd (headerBytes_wire hbytes _ _ _)

theorem trySendLoop_deeds : ∀ {fuel : Nat} {c c' : Connection} {out : List Datagram}, c.ledger.Cuts →
    c.trySendLoop b fuel = .ok (c', out) → Deeds b o a c.ledger c'.ledger out
  | 0, _, _, _, _, h => by cases h
  | fuel + 1, c, c', out, hcuts, h => by
    rcases trySendLoop_round hcuts h with ⟨rfl, rfl⟩ | ⟨n, c₁, d, out₁, hn, hq, hns, hn32, hcut, hrec, rfl⟩
    · exact .refl
    · have hdeed : Deed b o a c.ledger c₁.ledger [d] := cutSegment_deed hn hq hns hn32 hcut
      exact (Deeds.one hdeed).trans (trySendLoop_deeds (hdeed.cuts hcuts) hrec)

theorem maybeSendFin_deeds {fin : Option Datagram} (h : c.maybeSendFin b = .ok (c', fin)) :
    Deeds b o a c.ledger c'.ledger fin.toList := by
  cases maybeSendFin_branch h with
  | skip => exact .refl
  | sent _ _ _ hst _ _ hd =>
    have hl : Deed b o a c.ledger
        (Connection.ledger { c with state := .closing, finPending := some ⟨c.now, 1⟩ }) [] := by
      have heq : Connection.ledger { c with state := .closing, finPending := some ⟨c.now, 1⟩ } =
          { c.ledger with finPending := some ⟨c.now, 1⟩ } := by
        simp [Connection.ledger, Connection.isFailed, hst]
      rw [heq]
      refine .fin fun p hp => ?_
      cases hp
      exact le_max_left _ _
    exact (Deeds.one hl).tail (.mute (buildFin_mute hd))

theorem checkFullyClosed_ledger (c : Connection) : c.checkFullyClosed.ledger = c.ledger := by
  unfold Connection.checkFullyClosed
  split
  · rename_i hcond
    simp [Connection.ledger, Connection.isFailed, hcond.1]
  · rfl

theorem drainAndMaybeFin_deeds (hcuts : c.ledger.Cuts) (h : c.drainAndMaybeFin b = .ok (c', out)) :
    Deeds b o a c.ledger c'.ledger out := by
  obtain ⟨⟨c₁, out₁⟩, h₁, h⟩ := bind_eq_ok.mp h
  obtain ⟨⟨c₂, fin⟩, h₂, h⟩ := bind_eq_ok.mp h
  cases h
  have hsent : Deeds b o a c.ledger c₁.ledger out₁ := by
    unfold Connection.trySendMore at h₁
    split at h₁
    · exact trySendLoop_deeds hcuts h₁
    · cases h₁; exact .refl
  rw [checkFullyClosed_ledger]
  exact hsent.trans (maybeSendFin_deeds h₂)

/-! ## Receiving -/

theorem ackAdvance_deed {h : SegmentHeader} (hr : c.ackAdvance b h = .ok c') :
    Deed b o a c.ledger c'.ledger [] := by
  obtain ⟨_, r, w, _, _, _, rfl⟩ := ackAdvance_spec hr
  exact .learn h.ack

theorem sackMarks_rel : ∀ {rs : List SackRange} {u u' : OrdMap U32 UnackedSegment},
    rs.foldlM (fun m r => m.mapRange r.start r.stop fun seg => { seg with sacked := true }) u = .ok u' →
    EntriesRel (fun _ v v' => ∃ s, v' = { v with sacked := s }) u.entries u'.entries
  | [], u, u', h => by
    cases h
    exact .refl (fun _ v => ⟨v.sacked, rfl⟩) _
  | r :: rs, u, u', h => by
    rw [List.foldlM_cons] at h
    obtain ⟨u₁, h₁, h⟩ := bind_eq_ok.mp h
    refine EntriesRel.trans_mem (mapRange_rel h₁) (sackMarks_rel h) ?_
    rintro k v v₁ v₂ - hv ⟨s, rfl⟩
    rcases hv with rfl | ⟨_, _, rfl⟩
    · exact ⟨s, rfl⟩
    · exact ⟨s, rfl⟩

theorem ackMarks_deeds {h : SegmentHeader} (hr : c.ackMarks h = .ok c') :
    Deeds b o a c.ledger c'.ledger [] := by
  cases ackMarks_branch hr with
  | marked _ hu => exact .one (.mark (sackMarks_rel hu))
  | @finAcked u _ hu =>
    have hmark : Deed b o a c.ledger (Connection.ledger { c with unacked := u }) [] :=
      .mark (sackMarks_rel hu)
    rw [checkFullyClosed_ledger]
    exact (Deeds.one hmark).tail (.fin (f := none) fun p hp => by cases hp)

theorem fastRetransmit_deeds (hu₀ : c.unacked = o.unacked) (hrep : o.Repairs a)
    (hne : c.unacked.isEmpty = false) {resent : Option Datagram} (hr : c.fastRetransmit b = .ok (c', resent)) :
    Deeds b o a c.ledger c'.ledger resent.toList := by
  obtain ⟨⟨k, seg⟩, hhead⟩ := exists_head hne
  obtain ⟨rest, hes⟩ := List.head?_eq_some_iff.mp hhead
  cases fastRetransmit_branch hr with
  | nothing _ hu hnil =>
    obtain ⟨seg', _, hu'⟩ := mapFirst_cons hu hes
    rw [hnil] at hu'
    cases hu'
  | oldest _ hu hfirst hb =>
    obtain ⟨seg', hseg, hu'⟩ := mapFirst_cons hu hes
    obtain ⟨n, hn, hseg⟩ := bind_eq_ok.mp hseg
    cases hseg
    rw [hu'] at hfirst
    cases hfirst
    exact .one (.fast hu₀ hrep hes hn hu' (headerBytes_wire hb _ _ _))

theorem applyAck_deeds {h : SegmentHeader} (hrep : c.Resends h → c.unacked = o.unacked ∧ o.Repairs a)
    {resent : Option Datagram} (hr : c.applyAck b h = .ok (c', resent)) :
    Deeds b o a c.ledger c'.ledger resent.toList := by
  cases applyAck_branch hr with
  | advance _ h₁ h₂ => exact (Deeds.one (ackAdvance_deed h₁)).trans (ackMarks_deeds h₂)
  | duplicate _ _ _ _ h₂ =>
    have hmarks : Deeds b o a _ c'.ledger [] := ackMarks_deeds h₂
    exact hmarks
  | @resend n _ _ hack hne hn hk hfast =>
    obtain ⟨hu₀, hrep⟩ := hrep ⟨hack, hne, by rw [← Build.add_eq hn]; exact hk⟩
    exact fastRetransmit_deeds (c := { c with dupAckCount := n }) hu₀ hrep hne hfast
  | stale _ _ h₂ => exact ackMarks_deeds h₂

theorem completeHandshake_deed (hst : c.state = .synReceived ∨ c.state = .synSent)
    (hr : c.completeHandshake b = .ok c') : Deed b o a c.ledger c'.ledger [] := by
  obtain ⟨r, rfl⟩ := completeHandshake_spec hr
  have heq : Connection.ledger { c with rto := r, handshake := none, state := .established } =
      { c.ledger with handshake := none } := by
    rcases hst with hst | hst <;> simp [Connection.ledger, Connection.isFailed, hst]
  rw [heq]
  exact .endHandshake

theorem handshakeArm_deeds {isSyn isAck returns : Bool}
    (hgreet : c.state = .synReceived → (isSyn && !isAck) = true →
      c.handshake = o.handshake ∧ o.Regreets a)
    (hr : c.handshakeArm b isSyn isAck = .ok (returns, c', out)) :
    Deeds b o a c.ledger c'.ledger out := by
  cases handshakeArm_branch hr with
  | greet hst _ hd =>
    have heq : Connection.ledger { c with state := .synReceived, handshake := some ⟨c.now, 1⟩ } =
        { c.ledger with listening := false, handshake := some ⟨c.now, 1⟩ } := by
      simp [Connection.ledger, Connection.isFailed, hst]
    rw [heq]
    exact .one (.greet (by simp [Connection.ledger, hst]) (buildSynack_hails hd))
  | regreet hst hsyn hd =>
    obtain ⟨hs₀, hre⟩ := hgreet hst hsyn
    exact .one (.answer (by simp [Connection.ledger, hst]) hs₀ hre (buildSynack_hails hd))
  | accept hst _ h₁ => exact .one (completeHandshake_deed (Or.inl hst) h₁)
  | connect hst _ h₁ hd =>
    exact (Deeds.one (completeHandshake_deed (Or.inr hst) h₁)).tail (.mute (buildHandshakeAck_mute hd))
  | confirm _ _ hd => exact .one (.mute (buildHandshakeAck_mute hd))
  | pass => exact .refl

theorem deliverData_ledger {seq : U32} {data : List U8} (h : c.deliverData b seq data = .ok c') :
    c'.ledger = c.ledger := by
  obtain ⟨_, _, _, _, rfl⟩ := (deliverData_delivers h).fields
  rfl

theorem openBlock_deeds {h : SegmentHeader} {seq : U32} {app : List U8} {isAck isFin : Bool}
    (hcuts : c.ledger.Cuts) (hrep : isAck → c.Resends h → c.unacked = o.unacked ∧ o.Repairs a)
    (hr : c.openBlock b seq h app isAck isFin = .ok (c', out)) : Deeds b o a c.ledger c'.ledger out := by
  obtain ⟨c₁, resent, c₂, acks, out₄, hap, hdel, hans, hdrain, rfl⟩ := openBlock_parts hr
  have hacked : Deeds b o a c.ledger c₂.ledger resent.toList := by
    rw [deliverData_ledger hdel]
    split at hap
    · rename_i hack
      exact applyAck_deeds (hrep hack) hap
    · cases hap; exact .refl
  have hanswered : Deeds b o a c.ledger c₂.ledger (resent.toList ++ acks) := by
    split at hans
    · rw [hans, List.append_nil]; exact hacked
    · obtain ⟨ack, hb, rfl⟩ := hans
      exact hacked.tail (.mute (buildPureAck_mute hb))
  have hnoted : ∀ f a, (c₂.noted f a).ledger = c₂.ledger := fun _ _ => rfl
  have hrest := drainAndMaybeFin_deeds (b := b) (o := o) (a := a)
    (by rw [hnoted]; exact hacked.cuts hcuts) hdrain
  rw [hnoted] at hrest
  exact hanswered.trans hrest

theorem onSegment_deeds {h : SegmentHeader} {seq : U32} {flags : U16} {app : List U8}
    (hcuts : c.ledger.Cuts)
    (hrep : (flags &&& FLAG_ACK != 0#16) → c.admits (flags &&& FLAG_SYN != 0#16)
      (flags &&& FLAG_ACK != 0#16) → c.Resends h → c.unacked = o.unacked ∧ o.Repairs a)
    (hgreet : c.state = .synReceived →
      ((flags &&& FLAG_SYN != 0#16) && !(flags &&& FLAG_ACK != 0#16)) = true →
      c.handshake = o.handshake ∧ o.Regreets a)
    (hr : c.onSegment b seq flags h app = .ok (c', out)) : Deeds b o a c.ledger c'.ledger out := by
  cases onSegment_branch hr with
  | closed _ _ hb => exact .one (.mute (buildPureAck_mute hb))
  | handshake _ h₁ => exact handshakeArm_deeds (c := { c with peerWindow := h.window }) hgreet h₁
  | block _ h₁ ho h₂ =>
    have harm := handshakeArm_deeds (c := { c with peerWindow := h.window }) hgreet h₁
    have hadm := handshakeArm_admits (c := { c with peerWindow := h.window }) h₁ ho
    refine harm.trans (openBlock_deeds (harm.cuts hcuts) (fun hack hres => ?_) h₂)
    obtain ⟨st, hs, r, rfl⟩ := handshakeArm_fields h₁
    exact hrep hack hadm hres

/-! ## Timers -/

theorem tickHandshake_deeds (hs₀ : c.handshake = o.handshake) (h : c.tickHandshake b = .ok (c', out)) :
    Deeds b o a c.ledger c'.ledger out := by
  cases tickHandshake_branch h with
  | idle => exact .refl
  | fail => exact .one .failHandshake
  | @retry _ _ _ d hhs _ hatt hmax _ hd =>
    have hsent : Hails d ∧ c.ledger.listening = false := by
      rcases hd with ⟨hst, hd⟩ | ⟨hst, hd⟩
      · exact ⟨buildSyn_hails hd, by simp [Connection.ledger, hst]⟩
      · exact ⟨buildSynack_hails hd, by simp [Connection.ledger, hst]⟩
    exact .one (.retryHandshake hsent.2 hs₀ hhs hatt hmax hsent.1)

theorem resent_frames {bytes : List U8} (hb : c.headerBytes b = .ok bytes)
    (u : OrdMap U32 UnackedSegment) :
    Resent u ((u.entries.filter fun e => !e.2.sacked).map fun e =>
      Connection.buildDataFrame e.1 e.2.data bytes) := by
  unfold Resent
  rw [List.forall₂_map_left_iff]
  exact List.forall₂_same.mpr fun e _ => headerBytes_wire hb _ _ _

theorem tickData_deeds (hu₀ : c.unacked = o.unacked) (h : c.tickData b = .ok (c', out)) :
    Deeds b o a c.ledger c'.ledger out := by
  cases tickData_branch h with
  | idle => exact .refl
  | fail _ _ _ _ hb hu => exact .one (.overrun hu₀ hu (resent_frames hb _))
  | sweep _ _ _ _ hb hu hle => exact .one (.sweep hu₀ hu (resent_frames hb _) hle)

theorem tickFin_deeds (h : c.tickFin b = .ok (c', out)) : Deeds b o a c.ledger c'.ledger out := by
  cases tickFin_branch h with
  | idle => exact .refl
  | fail => exact .one .failFin
  | @retry _ n _ _ _ _ _ hmax _ hd =>
    have hfin : Deed b o a c.ledger { c.ledger with finPending := some ⟨c.now, n⟩ } [] := by
      refine .fin fun p hp => ?_
      cases hp
      exact hmax.trans (le_max_right _ _)
    exact (Deeds.one hfin).tail (.mute (buildFin_mute hd))

theorem tickOpen_deeds (hcuts : c.ledger.Cuts) (hu₀ : c.unacked = o.unacked)
    (h : c.tickOpen b = .ok (c', out)) : Deeds b o a c.ledger c'.ledger out := by
  obtain ⟨c₁, out₁, h₁, hr⟩ := tickOpen_parts h
  have hd₁ : Deeds b o a c.ledger c₁.ledger out₁ := tickData_deeds hu₀ h₁
  rcases hr with ⟨_, rfl, rfl⟩ | ⟨_, c₂, out₂, h₂, hr⟩
  · exact hd₁
  · have hd₂ := hd₁.trans (tickFin_deeds h₂)
    rcases hr with ⟨_, rfl, rfl⟩ | ⟨_, out₃, h₃, rfl⟩
    · exact hd₂
    · exact hd₂.trans (drainAndMaybeFin_deeds (hd₂.cuts hcuts) h₃)

theorem onTick_deeds {now : Tick} (hcuts : c.ledger.Cuts) (h : c.onTick b now = .ok (c', out)) :
    Deeds b c a (c.advance now).ledger c'.ledger out := by
  cases onTick_branch h with
  | handshake _ h => exact tickHandshake_deeds rfl h
  | opened _ h => exact tickOpen_deeds (by exact hcuts) rfl h
  | rest => exact .refl

end

/-! ## Calls -/

/-- The clock after a call. -/
def Connection.clock (c : Connection) (a : Call) : Tick :=
  match a.tick? with
  | some now => max c.now now
  | none => c.now

/-- The bytes a call gives to send. -/
def Call.input : Call → List U8
  | .send _ data => data
  | _ => []

/-- The ledger when the code of a call starts to run. -/
def Connection.posted (c : Connection) (a : Call) : Ledger :=
  { c.ledger with now := c.clock a, sendQueue := c.sendQueue ++ a.input }

/-- A call is a sequence of deeds; it emits what they emit. -/
theorem call_deeds {e e' : Endpoint} {a : Call} (hcuts : e.conn.ledger.Cuts)
    (h : e.call b a = .ok e') : ∃ out,
      Deeds b e.conn a (e.conn.posted a) e'.conn.ledger out ∧ e'.emitted = e.emitted ++ out ∧
      e'.sent = e.sent ++ a.input := by
  cases a with
  | send now data =>
    obtain ⟨⟨c', out⟩, hc, h⟩ := bind_eq_ok.mp h
    cases h
    unfold Connection.send at hc
    exact ⟨out, drainAndMaybeFin_deeds (by exact hcuts) hc, rfl, rfl⟩
  | close now =>
    obtain ⟨⟨c', out⟩, hc, h⟩ := bind_eq_ok.mp h
    cases h
    unfold Connection.close at hc
    have hd := drainAndMaybeFin_deeds (b := b) (o := e.conn) (a := .close now) (by exact hcuts) hc
    refine ⟨out, ?_, rfl, by simp [Call.input, Endpoint.put]⟩
    have hposted : e.conn.posted (.close now) = Connection.ledger
        { e.conn.advance now with closeRequested := true } := by
      simp [Connection.posted, Call.input]
      rfl
    rw [hposted]
    exact hd
  | recv =>
    cases h
    refine ⟨[], ?_, by simp [Endpoint.put], by simp [Call.input, Endpoint.put]⟩
    have hposted : e.conn.posted .recv = Connection.ledger { e.conn with delivered := [] } := by
      simp [Connection.posted, Call.input]
      rfl
    rw [hposted]
    exact .refl
  | onTick now =>
    obtain ⟨⟨c', out⟩, hc, h⟩ := bind_eq_ok.mp h
    cases h
    refine ⟨out, ?_, rfl, by simp [Call.input, Endpoint.put]⟩
    have hposted : e.conn.posted (.onTick now) = (e.conn.advance now).ledger := by
      simp [Connection.posted, Call.input]
      rfl
    rw [hposted]
    exact onTick_deeds hcuts hc
  | onDatagram now d =>
    obtain ⟨⟨c', out⟩, hc, h⟩ := bind_eq_ok.mp h
    cases h
    refine ⟨out, ?_, rfl, by simp [Call.input, Endpoint.put]⟩
    have hposted : e.conn.posted (.onDatagram now d) = (e.conn.advance now).ledger := by
      simp [Connection.posted, Call.input]
      rfl
    rw [hposted]
    rcases onDatagram_cases hc with ⟨rfl, rfl⟩ | ⟨f, hh, app, hcar, hs⟩
    · exact .refl
    · have hseg := hcar.segment?_eq now
      refine onSegment_deeds (c := e.conn.advance now) (by exact hcuts)
        (fun hack hadm hres => ⟨rfl, hh, ?_, hres⟩) (fun hst hsyn => ⟨rfl, hst, _, hseg, hsyn⟩) hs
      have hadm' : e.conn.admits (f.flags &&& FLAG_SYN != 0#16) (f.flags &&& FLAG_ACK != 0#16) = true :=
        hadm
      simp only [Connection.ackOf, hseg, Option.bind_some]
      rw [hadm', hack]
      rfl

/-! ## Runs -/

/-- A connection without a history: a client that has sent its SYN, or a server. -/
inductive Born (b : Build) (cfg : Config) : Endpoint → Prop
  | client {t : Tick} {c : Connection} {d : Datagram} : Connection.connect b cfg t = .ok (c, d) →
      Born b cfg (Endpoint.fresh c [d])
  | server {t : Tick} {c : Connection} : Connection.listen b cfg t = .ok c →
      Born b cfg (Endpoint.fresh c [])

/-- What such a connection has. -/
theorem Born.ledger {cfg : Config} {e : Endpoint} (h : Born b cfg e) : e.sent = [] ∧
    ∃ t hs listening, e.conn.ledger = {
        config := cfg, now := t, listening, failed := false, handshake := hs, finPending := none
        sendQueue := [], nextSeq := 0, unacked := OrdMap.empty } ∧
      ((hs = none ∧ e.emitted = []) ∨
        (listening = false ∧ hs = some ⟨t, 1⟩ ∧ ∃ d, Hails d ∧ e.emitted = [d])) := by
  cases h with
  | client h =>
    obtain ⟨c₀, hc₀, h⟩ := bind_eq_ok.mp h
    obtain ⟨d, hd, h⟩ := bind_eq_ok.mp h
    obtain ⟨w, _, hc₀⟩ := bind_eq_ok.mp hc₀
    cases hc₀
    cases h
    exact ⟨rfl, _, _, _, rfl, Or.inr ⟨rfl, rfl, _, buildSyn_hails hd, rfl⟩⟩
  | server h =>
    obtain ⟨w, _, h⟩ := bind_eq_ok.mp h
    cases h
    exact ⟨rfl, _, _, _, rfl, Or.inl ⟨rfl, rfl⟩⟩

section Pairs

variable {ccfg scfg : Config} {p : Pair}

theorem start_born {t t' : Tick} (h : Pair.start b ccfg scfg t t' = .ok p) (s : Side) :
    Born b (s.config ccfg scfg) (p.get s) := by
  obtain ⟨⟨c, syn⟩, hc, h⟩ := bind_eq_ok.mp h
  obtain ⟨c', hs, h⟩ := bind_eq_ok.mp h
  cases h
  cases s with
  | client => exact .client hc
  | server => exact .server hs

/-- What holds of a side when it is born and what its own calls keep holds in every state of a
    run. -/
theorem reach_each {G : Pair → Side → Call → Prop} {P : Endpoint → Prop} {s : Side}
    (hborn : ∀ e, Born b (s.config ccfg scfg) e → P e)
    (hcall : ∀ {p : Pair} {a : Call} {e : Endpoint}, P (p.get s) → G p s a →
      (p.get s).call b a = .ok e → P e)
    (h : Pair.ReachVia b ccfg scfg G p) : P (p.get s) := by
  induction h with
  | start h => exact hborn _ (start_born h s)
  | @step p p' t a _ _ hg hr ih =>
    obtain ⟨e, he, rfl⟩ := Pair.step_inv hr
    rcases s.eq_or_peer t with rfl | rfl
    · rw [Pair.get_set_self]
      exact hcall ih hg he
    · rw [Pair.get_set_peer]
      exact ih

/-- The configuration of a side and that it cuts no empty segments. -/
structure Steady (cfg : Config) (e : Endpoint) : Prop where
  config : e.conn.config = cfg
  cuts : e.conn.ledger.Cuts

theorem Born.steady {cfg : Config} {e : Endpoint} (h : Born b cfg e) : Steady cfg e := by
  obtain ⟨_, t, hs, listening, hl, _⟩ := h.ledger
  refine ⟨congrArg Ledger.config hl, ?_⟩
  rw [hl]
  intro _; rfl

theorem Steady.call {cfg : Config} {e e' : Endpoint} {a : Call} (h : Steady cfg e) (hr : e.call b a = .ok e') :
    Steady cfg e' := by
  obtain ⟨out, hd, _⟩ := call_deeds h.cuts hr
  exact ⟨hd.config.trans h.config, hd.cuts h.cuts⟩

theorem reach_steady {G : Pair → Side → Call → Prop} (h : Pair.ReachVia b ccfg scfg G p) (s : Side) :
    Steady (s.config ccfg scfg) (p.get s) :=
  reach_each (fun _ he => he.steady) (fun hk _ hr => hk.call hr) h

end Pairs

end Distrans
