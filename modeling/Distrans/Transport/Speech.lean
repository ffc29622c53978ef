import Distrans.Lib.Fifo
import Distrans.Transport.Effect

/-!
# What two sides tell each other

`Standing` is an account of what one side has told the other: how far the handshake is, how many
bytes have been sent and how many acknowledged, FIN and `fin_ack`.  `Connection.heard` is the
account a side has of its peer, `Connection.told` the one it has given, and `Says` what a frame
adds when none is sent twice: data continue the stream, a segment that carries neither data nor
FIN nor `fin_ack` acknowledges something new, FIN and `fin_ack` come once.

An open side whose peer speaks so takes each segment in (`openBlock_speaks`) and, as long as no
timer fires and nothing is retransmitted, speaks so itself.
-/

set_option autoImplicit false

namespace Distrans

open Machine OrdMap Fifo

variable {b : Build} {c c' : Connection} {out : List Datagram} {h : SegmentHeader}

/-! ## Accounts -/

inductive Stage where
  | silent
  | greeted
  | done
  deriving DecidableEq, Repr

structure Standing where
  stage : Stage
  seq : Nat
  ack : Nat
  fin : Bool
  finAck : Bool
  deriving DecidableEq, Repr

/-- What a frame tells the side `s`. -/
inductive Says (s : Side) (v : Standing) (d : Datagram) : Standing → Prop
  | syn {f : Frame} {h : SegmentHeader} : s = .server → v.stage = .silent → Carries d f h [] →
      f.flags = FLAG_SYN → Says s v d { v with stage := .greeted }
  | synack {f : Frame} {h : SegmentHeader} : s = .client → v.stage = .silent → Carries d f h [] →
      f.flags = FLAG_SYN ||| FLAG_ACK → h.finAck = false → h.ack.toNat = v.ack →
      Says s v d { v with stage := .done }
  | ack {f : Frame} {h : SegmentHeader} : s = .server → v.stage = .greeted → Carries d f h [] →
      f.flags = FLAG_ACK → h.finAck = false → h.ack.toNat = v.ack → Says s v d { v with stage := .done }
  | segment {f : Frame} {h : SegmentHeader} {app : List U8} : v.stage = .done → Carries d f h app →
      f.flags &&& FLAG_SYN = 0#16 → f.flags &&& FLAG_ACK ≠ 0#16 → v.ack ≤ h.ack.toNat →
      (app ≠ [] → f.sequence.toNat = v.seq) →
      (finSet f.flags → v.fin = false ∧ app = []) → (h.finAck → v.finAck = false ∧ app = []) →
      (app = [] → finSet f.flags = false → h.finAck = false → v.ack < h.ack.toNat) →
      Says s v d {
        stage := .done, seq := v.seq + app.length, ack := h.ack.toNat
        fin := v.fin || finSet f.flags, finAck := v.finAck || h.finAck }

/-- How far a side has heard of the handshake. -/
def State.heard : State → Stage
  | .listening | .synSent => .silent
  | .synReceived => .greeted
  | _ => .done

/-- How far it has told of it. -/
def State.told : State → Stage
  | .listening => .silent
  | .synSent => .greeted
  | _ => .done

/-- The FIN has been sent. -/
def State.finished : State → Bool
  | .closing | .closed => true
  | _ => false

def Connection.heard (c : Connection) : Standing :=
  { stage := c.state.heard, seq := c.expectedSeq.toNat, ack := c.sendBase.toNat, fin := c.peerFinSeen
    finAck := c.finAcked }

/-- The account given, `ack` being the last acknowledgement sent. -/
def Connection.told (c : Connection) (ack : Nat) : Standing :=
  { stage := c.state.told, seq := c.nextSeq.toNat, ack, fin := c.state.finished, finAck := c.peerFinSeen }

theorem Says.seq_le {s : Side} {v v' : Standing} {d : Datagram} (hs : Says s v d v') : v.seq ≤ v'.seq := by
  cases hs with
  | segment => exact Nat.le_add_right _ _
  | _ => exact Nat.le_refl _

/-- FIN and `fin_ack` told. -/
def Standing.marks (v : Standing) : Nat := v.fin.toNat + v.finAck.toNat

theorem Standing.marks_le (v : Standing) : v.marks ≤ 2 := by
  unfold Standing.marks
  have h₁ := v.fin.toNat_le
  have h₂ := v.finAck.toNat_le
  omega

theorem toNat_le_or (x y : Bool) : x.toNat ≤ (x || y).toNat := by cases x <;> cases y <;> simp

theorem Says.marks_le {s : Side} {v v' : Standing} {d : Datagram} (hs : Says s v d v') :
    v.marks ≤ v'.marks := by
  cases hs with
  | segment => exact Nat.add_le_add (toNat_le_or _ _) (toNat_le_or _ _)
  | _ => exact Nat.le_refl _

/-- After the handshake only data, a FIN or `fin_ack` come with an acknowledgement that is not new. -/
theorem Says.marks_lt {s : Side} {v v' : Standing} {d : Datagram} {f : Frame} (hs : Says s v d v')
    (hdone : v.stage = .done) (hc : Carries d f h []) (hack : h.ack.toNat = v.ack) : v.marks < v'.marks := by
  cases hs with
  | syn _ hst | synack _ hst | ack _ hst =>
    rw [hdone] at hst
    cases hst
  | @segment f' h' app _ hc' _ _ _ _ hfin hfa hnew =>
    have hsame := (hc.segment?_eq 0).symm.trans (hc'.segment?_eq 0)
    simp only [Option.some.injEq, Prod.mk.injEq] at hsame
    obtain ⟨rfl, rfl, rfl⟩ := hsame
    unfold Standing.marks
    cases hset : finSet f.flags with
    | true =>
      rw [(hfin hset).1]
      have hle := toNat_le_or v.finAck h.finAck
      simp only [Bool.false_or, Bool.toNat_true, Bool.toNat_false]
      omega
    | false =>
      cases hset' : h.finAck with
      | true =>
        rw [(hfa hset').1]
        simp
      | false =>
        have hlt := hnew rfl hset hset'
        omega

theorem Says.fin_mono {s : Side} {v v' : Standing} {d : Datagram} (hs : Says s v d v') (hv : v.fin = true) :
    v'.fin = true := by
  cases hs with
  | segment => simp [hv]
  | _ => exact hv

/-! ## Frames -/

/-- A frame of decodable size carries the header it was built from, its ranges cut to what fits. -/
theorem carries_frame {finAck : Bool} (hh : c.header b finAck = .ok h) (seq : U32) (flags : U16)
    {data : List U8} (hlen : data.length < 2 ^ 31) :
    ∃ f h', Carries (encodeFrame seq flags (h.encode ++ data)) f h' data ∧ f.sequence = seq ∧
      f.flags = flags ∧ h'.ack = c.expectedSeq ∧ h'.finAck = finAck := by
  have hpay : (h.encode ++ data).length < 2 ^ 32 := by
    have hle := SegmentHeader.encode_length_le h
    rw [List.length_append]
    omega
  obtain ⟨w, _, hh⟩ := bind_eq_ok.mp hh
  obtain ⟨sack, _, hh⟩ := bind_eq_ok.mp hh
  cases hh
  exact ⟨_, _, ⟨Frame.decode_encode hpay, SegmentHeader.decode_encode_append _ _⟩, rfl, rfl, rfl, rfl⟩

theorem carries_bare {finAck : Bool} (hh : c.header b finAck = .ok h) (seq : U32) (flags : U16) :
    ∃ f h', Carries (encodeFrame seq flags h.encode) f h' [] ∧ f.sequence = seq ∧
      f.flags = flags ∧ h'.ack = c.expectedSeq ∧ h'.finAck = finAck := by
  obtain ⟨f, h', hc, hrest⟩ := carries_frame hh seq flags (show ([] : List U8).length < 2 ^ 31 by decide)
  rw [List.append_nil] at hc
  exact ⟨f, h', hc, hrest⟩

section Sending

variable {s : Side} {a N : Nat}

/-- What a side needs to be understood: it cuts no empty segments, its frames are small enough to
    be decoded, and its sequence numbers do not wrap around within `N` bytes. -/
structure Fluent (b : Build) (N : Nat) (c : Connection) : Prop where
  cuts : c.ledger.Cuts
  small : c.config.segmentSize < 2 ^ 31
  room : b = .checked ∨ N < 2 ^ 32
  total : c.nextSeq.toNat + c.sendQueue.length = N

theorem told_of_opened {st : State} (ho : st.opened) : st.told = .done := by
  cases st <;> simp_all [State.opened, State.told]

theorem heard_of_opened {st : State} (ho : st.opened) : st.heard = .done := by
  cases st <;> simp_all [State.opened, State.heard]

/-- A segment that is cut continues the stream. -/
theorem cutSegment_tells (hfl : Fluent b N c) (ho : c.isOpen) (ha : a ≤ c.expectedSeq.toNat) {n : Nat}
    (hn : 0 < n) (hq : n ≤ c.sendQueue.length) (hns : n ≤ c.config.segmentSize) {d : Datagram}
    (hr : c.cutSegment b n = .ok (c', d)) :
    Says s (c.told a) d (c'.told c.expectedSeq.toNat) ∧ Fluent b N c' := by
  have htotal := hfl.total
  have hsmall := hfl.small
  have hdeed : Deed b c .recv c.ledger c'.ledger [d] := cutSegment_deed hn hq hns (by omega) hr
  have hcuts := hdeed.cuts hfl.cuts
  obtain ⟨nextSeq, bytes, hadd, hbytes, rfl, rfl⟩ := cutSegment_spec hr
  obtain ⟨hdr, hhdr, rfl⟩ := headerBytes_spec hbytes
  have hlen : (c.sendQueue.take n).length = n := by rw [List.length_take]; omega
  have hnext : nextSeq.toNat = c.nextSeq.toNat + n := add_length_toNat hfl.room (by omega) (by omega) hadd
  obtain ⟨f, h', hcar, hseq, hflags, hack, hfa⟩ :=
    carries_frame hhdr c.nextSeq FLAG_ACK (show (c.sendQueue.take n).length < 2 ^ 31 by omega)
  have hdone : c.state.told = .done := told_of_opened (opened_of_isOpen ho)
  have hne : c.sendQueue.take n ≠ [] := by
    rw [← List.length_pos_iff]
    omega
  have hfin : finSet f.flags = false := by rw [hflags]; rfl
  have hsay := Says.segment (s := s) (v := c.told a) hdone hcar (by rw [hflags]; rfl)
    (by rw [hflags]; decide) (by rw [hack]; exact ha) (fun _ => by rw [hseq]; rfl)
    (by rw [hfin]; nofun) (by rw [hfa]; nofun) (fun hnil => absurd hnil hne)
  rw [hlen, hfin, hfa, hack, Bool.or_false, Bool.or_false] at hsay
  refine ⟨?_, hcuts, hsmall, hfl.room, ?_⟩
  · simp only [Connection.told, hdone, hnext] at hsay ⊢
    exact hsay
  · show nextSeq.toNat + (c.sendQueue.drop n).length = N
    rw [hnext, List.length_drop]
    omega

/-- What the loop sends continues the stream. -/
theorem trySendLoop_along : ∀ {fuel : Nat} {c c' : Connection} {out : List Datagram} {a : Nat},
    Fluent b N c → c.isOpen → a ≤ c.expectedSeq.toNat → c.trySendLoop b fuel = .ok (c', out) →
    ∃ a', a' ≤ c.expectedSeq.toNat ∧ Along (Says s) (c.told a) out (c'.told a')
  | 0, _, _, _, _, _, _, _, hr => by cases hr
  | fuel + 1, c, c', out, a, hfl, ho, ha, hr => by
    rcases trySendLoop_round hfl.cuts hr with ⟨rfl, rfl⟩ |
      ⟨n, c₁, d, out₁, hn, hq, hns, _, hcut, hrec, rfl⟩
    · exact ⟨a, ha, .nil⟩
    · obtain ⟨hsay, hfl₁⟩ := cutSegment_tells (s := s) hfl ho ha hn hq hns hcut
      obtain ⟨nextSeq, bytes, _, _, _, rfl⟩ := cutSegment_spec hcut
      obtain ⟨a', ha', hrest⟩ := trySendLoop_along hfl₁ ho (le_refl _) hrec
      exact ⟨a', ha', .cons hsay hrest⟩

/-- The FIN comes once, from an established side. -/
theorem maybeSendFin_along (ha : a ≤ c.expectedSeq.toNat) {fin : Option Datagram}
    (hr : c.maybeSendFin b = .ok (c', fin)) :
    ∃ a', a' ≤ c.expectedSeq.toNat ∧ Along (Says s) (c.told a) fin.toList (c'.told a') := by
  cases maybeSendFin_branch hr with
  | skip => exact ⟨a, ha, .nil⟩
  | sent _ _ _ hest _ _ hd =>
    obtain ⟨bytes, hb, hd⟩ := bind_eq_ok.mp hd
    cases hd
    obtain ⟨hdr, hhdr, rfl⟩ := headerBytes_spec hb
    obtain ⟨f, h', hcar, _, hflags, hack, hfa⟩ := carries_bare hhdr c.sendBase (FLAG_FIN ||| FLAG_ACK)
    have hack' : h'.ack = c.expectedSeq := hack
    have hfin : finSet f.flags = true := by rw [hflags]; rfl
    have hsay := Says.segment (s := s) (v := c.told a) (by rw [Connection.told, hest]; rfl) hcar
      (by rw [hflags]; rfl) (by rw [hflags]; decide) (by rw [hack']; exact ha) (fun hne => absurd rfl hne)
      (fun _ => ⟨by rw [Connection.told, hest]; rfl, rfl⟩) (by rw [hfa]; nofun)
      (fun _ hno => by rw [hfin] at hno; cases hno)
    refine ⟨_, le_refl _, .single ?_⟩
    rw [hfin, hfa, hack', Bool.or_true, Bool.or_false] at hsay
    exact hsay

theorem checkFullyClosed_told (c : Connection) (a : Nat) : c.checkFullyClosed.told a = c.told a := by
  unfold Connection.checkFullyClosed
  split
  · rename_i hcond
    simp [Connection.told, hcond.1, State.told, State.finished]
  · rfl

theorem drainAndMaybeFin_along (hfl : Fluent b N c) (ha : a ≤ c.expectedSeq.toNat)
    (hr : c.drainAndMaybeFin b = .ok (c', out)) :
    ∃ a', a' ≤ c'.expectedSeq.toNat ∧ Along (Says s) (c.told a) out (c'.told a') := by
  have hfields := drainAndMaybeFin_fields hr
  by_cases ho : c.isOpen = true
  · obtain ⟨⟨c₁, out₁⟩, h₁, hr⟩ := bind_eq_ok.mp hr
    obtain ⟨⟨c₂, fin⟩, h₂, hr⟩ := bind_eq_ok.mp hr
    cases hr
    have hex : c₁.expectedSeq = c.expectedSeq := by
      refine trySendMore_keeps (P := fun c₁ => c₁.expectedSeq = c.expectedSeq) ?_ h₁ rfl
      intro c₁ c₂ n d hc _ _ hcut
      obtain ⟨nextSeq, bytes, _, _, _, rfl⟩ := cutSegment_spec hcut
      exact hc
    unfold Connection.trySendMore at h₁
    rw [if_pos ho] at h₁
    obtain ⟨a₁, ha₁, hsent⟩ := trySendLoop_along (s := s) hfl ho ha h₁
    rw [← hex] at ha₁
    obtain ⟨a₂, ha₂, hfin⟩ := maybeSendFin_along (s := s) ha₁ h₂
    obtain ⟨st, fp, q, n, u, stats, hc'⟩ := hfields
    refine ⟨a₂, ?_, ?_⟩
    · rw [hc', ← hex]
      exact ha₂
    · rw [checkFullyClosed_told]
      exact hsent.append hfin
  · rw [drainAndMaybeFin_idle (by simpa using ho)] at hr
    cases hr
    exact ⟨a, ha, .nil⟩

end Sending

/-! ## Receiving -/

/-- Data that continue the stream are handed on at once. -/
theorem deliverData_inOrder (hbuf : c.recvBuffer.entries = []) {seq : U32} {app : List U8}
    (hdata : app ≠ [] → seq.toNat = c.expectedSeq.toNat ∧ c.expectedSeq.toNat + app.length < 2 ^ 32)
    (hr : c.deliverData b seq app = .ok c') :
    c'.expectedSeq.toNat = c.expectedSeq.toNat + app.length ∧ c'.recvBuffer.entries = [] := by
  have hnext : ∀ {stop : U32}, app ≠ [] → b.add seq (len32 app) = .ok stop →
      stop.toNat = c.expectedSeq.toNat + app.length := by
    intro stop hne hstop
    obtain ⟨hseq, hlt⟩ := hdata hne
    rw [add_length_toNat (N := 2 ^ 32 - 1) (Or.inr (by omega)) (by omega) (by omega) hstop, hseq]
  cases deliverData_branch hr with
  | empty hnil =>
    rw [hnil]
    exact ⟨rfl, hbuf⟩
  | old hne hstop hold =>
    have hpos : 0 < app.length := List.length_pos_iff.mpr hne
    have hstop' := hnext hne hstop
    rw [BitVec.le_def] at hold
    omega
  | next hne hstop _ _ _ _ hdrain =>
    rcases drainLoop_cases hdrain with rfl | ⟨v, expectedSeq, hm, _⟩
    · exact ⟨hnext hne hstop, hbuf⟩
    · rw [show c.recvBuffer.entries = [] from hbuf] at hm
      cases hm
  | early hne _ _ hgap =>
    obtain ⟨hseq, _⟩ := hdata hne
    rw [BitVec.lt_def] at hgap
    omega

/-- Only the duplicate that triggers it makes `apply_ack` send something. -/
theorem applyAck_silent (hres : ¬ c.Resends h) {resent : Option Datagram}
    (hr : c.applyAck b h = .ok (c', resent)) : resent = none := by
  cases applyAck_branch hr with
  | advance | duplicate | stale => rfl
  | resend hack hne hn hk =>
    rw [Build.add_eq hn] at hk
    exact absurd ⟨hack, hne, hk⟩ hres

section Answering

variable {s : Side} {a N : Nat}

/-- The answer to data acknowledges something new, the one to a FIN has `fin_ack`. -/
theorem buildPureAck_tells (ho : c.state.opened) {isFin : Bool} {c₀ : Connection}
    (hst : c.state.finished = c₀.state.finished) (ho₀ : c₀.state.opened) (hn : c.nextSeq = c₀.nextSeq)
    (hseen : c.peerFinSeen = (c₀.peerFinSeen || isFin)) (hle : a ≤ c.expectedSeq.toNat)
    (hfin : isFin → c₀.peerFinSeen = false) (hlt : isFin = false → a < c.expectedSeq.toNat)
    {d : Datagram} (hr : c.buildPureAck b isFin = .ok d) :
    Says s (c₀.told a) d (c.told c.expectedSeq.toNat) := by
  obtain ⟨hdr, hhdr, hr⟩ := bind_eq_ok.mp hr
  cases hr
  obtain ⟨f, h', hcar, _, hflags, hack, hfa⟩ := carries_bare hhdr c.sendBase FLAG_ACK
  have hno : finSet f.flags = false := by rw [hflags]; rfl
  have hsay := Says.segment (s := s) (v := c₀.told a) (told_of_opened ho₀) hcar (by rw [hflags]; rfl)
    (by rw [hflags]; decide) (by rw [hack]; exact hle) (fun hne => absurd rfl hne) (by rw [hno]; nofun)
    (fun hset => ⟨hfin (by rw [← hfa]; exact hset), rfl⟩)
    (fun _ _ hset => by rw [hack]; exact hlt (by rw [← hfa]; exact hset))
  rw [hno, hfa, hack, Bool.or_false] at hsay
  have heq : c.told c.expectedSeq.toNat = { (c₀.told a) with
      stage := .done, seq := (c₀.told a).seq + 0, ack := c.expectedSeq.toNat
      finAck := c₀.peerFinSeen || isFin } := by
    simp only [Connection.told, told_of_opened ho, hst, hn, hseen, Nat.add_zero]
  rw [heq]
  exact hsay

/-- A segment has been heeded: the acknowledgement and the data are in, the answer is due. -/
structure Heeded (c : Connection) (f : Frame) (h : SegmentHeader) (app : List U8) (c' : Connection) :
    Prop where
  opened : c'.state.opened
  finished : c'.state.finished = c.state.finished
  config : c'.config = c.config
  queue : c'.sendQueue = c.sendQueue
  nextSeq : c'.nextSeq = c.nextSeq
  base : c'.sendBase = h.ack
  finAcked : c'.finAcked = (c.finAcked || h.finAck)
  seen : c'.peerFinSeen = (c.peerFinSeen || finSet f.flags)
  seq : c'.expectedSeq.toNat = c.expectedSeq.toNat + app.length
  buffer : c'.recvBuffer.entries = []
  cuts : c'.ledger.Cuts

theorem applyAck_heeded (hcuts : c.ledger.Cuts) (ho : c.isOpen) (hbuf : c.recvBuffer.entries = [])
    (hres : ¬ c.Resends h) (hle : c.sendBase ≤ h.ack) {f : Frame} {app : List U8}
    (hdata : app ≠ [] → f.sequence.toNat = c.expectedSeq.toNat ∧ c.expectedSeq.toNat + app.length < 2 ^ 32)
    {c₁ c₂ : Connection} {resent : Option Datagram} (hap : c.applyAck b h = .ok (c₁, resent))
    (hdel : c₁.deliverData b f.sequence app = .ok c₂) (answered : Bool) :
    Heeded c f h app (c₂.noted (finSet f.flags) answered) := by
  have ha := applyAck_acked hap
  have hcuts₁ : c₁.ledger.Cuts :=
    (applyAck_deeds (o := c) (a := .recv) (fun hres' => absurd hres' hres) hap).cuts hcuts
  have hst : c₁.state.opened ∧ c₁.state.finished = c.state.finished := by
    rcases ha.state with hs | ⟨hs, hs', _⟩
    · rw [hs]; exact ⟨opened_of_isOpen ho, rfl⟩
    · rw [hs, hs']; exact ⟨rfl, rfl⟩
  have hbase : c₁.sendBase = h.ack := by
    rw [ha.base]
    split
    · rfl
    · rename_i hlt
      exact le_antisymm hle (not_lt.mp hlt)
  have hfa : c₁.finAcked = (c.finAcked || h.finAck) := by
    rw [ha.finAcked, show c.marks h = true by simp [Connection.marks, hres], Bool.and_true]
  obtain ⟨hex, hbuf₂⟩ := deliverData_inOrder (by rw [ha.received.2]; exact hbuf)
    (by rw [ha.received.1]; exact hdata) hdel
  rw [ha.received.1] at hex
  obtain ⟨buf, ex, st, del, rfl⟩ := (deliverData_delivers hdel).fields
  exact ⟨hst.1, hst.2, ha.config, ha.queue, ha.nextSeq, hbase, hfa, by rw [← ha.seen]; rfl, hex, hbuf₂,
    hcuts₁⟩

/-- An open side takes a segment in and answers it. -/
theorem openBlock_speaks (hfl : Fluent b N c) (ho : c.isOpen) (hbuf : c.recvBuffer.entries = [])
    (ha : a ≤ c.expectedSeq.toNat) (hres : ¬ c.Resends h) (hle : c.sendBase ≤ h.ack) {f : Frame}
    {app : List U8}
    (hdata : app ≠ [] → f.sequence.toNat = c.expectedSeq.toNat ∧ c.expectedSeq.toNat + app.length < 2 ^ 32)
    (hfin : finSet f.flags → c.peerFinSeen = false ∧ app = [])
    (hr : c.openBlock b f.sequence h app true (finSet f.flags) = .ok (c', out)) :
    c'.heard = {
        stage := .done, seq := c.expectedSeq.toNat + app.length, ack := h.ack.toNat
        fin := c.peerFinSeen || finSet f.flags, finAck := c.finAcked || h.finAck } ∧
      c'.recvBuffer.entries = [] ∧ c'.state.opened ∧
      ∃ a', a' ≤ c'.expectedSeq.toNat ∧ Along (Says s) (c.told a) out (c'.told a') := by
  have hopened := opened_of_isOpen ho
  obtain ⟨c₁, resent, c₂, acks, out₄, hap, hdel, hans, hdrain, rfl⟩ := openBlock_parts hr
  rw [if_pos rfl] at hap
  obtain ⟨answered, hanswered⟩ : ∃ x, x = !(app.isEmpty && !finSet f.flags) := ⟨_, rfl⟩
  rw [← hanswered] at hdrain
  have hh := applyAck_heeded hfl.cuts ho hbuf hres hle hdata hap hdel answered
  obtain ⟨c₃, hc₃⟩ : ∃ c₃, c₃ = c₂.noted (finSet f.flags) answered := ⟨_, rfl⟩
  rw [← hc₃] at hdrain hh
  have hfl₃ : Fluent b N c₃ :=
    ⟨hh.cuts, by rw [hh.config]; exact hfl.small, hfl.room, by rw [hh.nextSeq, hh.queue]; exact hfl.total⟩
  have hle₃ : a ≤ c₃.expectedSeq.toNat := by rw [hh.seq]; omega
  have hspoken : ∃ a₃, a₃ ≤ c₃.expectedSeq.toNat ∧ Along (Says s) (c.told a) acks (c₃.told a₃) := by
    split at hans
    · rename_i hplain
      have hnofin : finSet f.flags = false := by simp_all
      have heq : c₃.told a = c.told a := by
        simp only [Connection.told, hh.finished, told_of_opened hh.opened, told_of_opened hopened, hh.nextSeq,
          hh.seen, hnofin, Bool.or_false]
      refine ⟨a, hle₃, ?_⟩
      rw [hans, heq]
      exact .nil
    · rename_i hplain
      obtain ⟨ack, hb, rfl⟩ := hans
      have hb' : c₃.buildPureAck b (finSet f.flags) = .ok ack := by
        rw [hc₃, hanswered, Bool.eq_false_of_not_eq_true hplain]
        exact hb
      refine ⟨_, le_refl _, .single (buildPureAck_tells hh.opened hh.finished hopened hh.nextSeq hh.seen hle₃
        (fun hset => (hfin hset).1) (fun hno => ?_) hb')⟩
      have hne : app ≠ [] := by
        rintro rfl
        exact hplain (by simp [hno])
      have hpos := List.length_pos_iff.mpr hne
      rw [hh.seq]
      omega
  obtain ⟨a₃, ha₃, hsaid⟩ := hspoken
  obtain ⟨a', ha', hdrained⟩ := drainAndMaybeFin_along (s := s) hfl₃ ha₃ hdrain
  have ho' : c'.state.opened := (drainAndMaybeFin_turns (a := .other) hdrain).opened nofun hh.opened
  obtain ⟨st, fp, q, n, u, stats, hc'⟩ := drainAndMaybeFin_fields hdrain
  refine ⟨?_, ?_, ho', a', ha', ?_⟩
  · simp only [Connection.heard, heard_of_opened ho']
    rw [hc']
    simp only [hh.seq, hh.base, hh.seen, hh.finAcked]
  · rw [hc']
    exact hh.buffer
  · rw [applyAck_silent hres hap]
    exact hsaid.append hdrained

end Answering

end Distrans
