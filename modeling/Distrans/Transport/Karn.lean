import Distrans.Transport.Samples
import Distrans.Transport.Transmissions
import Distrans.Transport.Guarantees

/-!
# Karn's rule

* `samples_sent_once` — **as long as no SYN is answered a second time while the handshake counts
  one attempt, whatever is sampled has been transmitted once, and the sample is the time since.**
* `sampled_twice_sent` — the answer to a repeated SYN is a second transmission of the SYN-ACK that
  is not counted: a round trip is measured that may be that of either.
-/

set_option autoImplicit false

namespace Distrans

open Machine OrdMap Journal

variable {b : Build} {o : Connection} {a : Call} {l l' : Ledger} {out : List Datagram} {N : Nat} {log : Log}

/-- When a handshake segment was transmitted. -/
abbrev greetTimes (log : Log) : List Tick := times item? .handshake log

/-- What the handshake timer knows of the handshake segments in `log`. -/
structure Hailed (l : Ledger) (log : Log) : Prop where
  fresh : l.listening → greetTimes log = []
  live : ∀ h ∈ l.handshake, h.attempts ≠ 0 ∧ (h.attempts = 1 → greetTimes log = [h.sentAt])

/-- The call answers no SYN a second time while the handshake counts one attempt, and no counter is
    full. -/
structure Connection.Distinct (b : Build) (c : Connection) (a : Call) : Prop where
  answers : c.Regreets a → ∀ h ∈ c.handshake, h.attempts ≠ 1
  handshake : b = .checked ∨ ∀ h ∈ c.handshake, h.attempts ≠ BitVec.allOnes 32
  roomy : c.Roomy b

theorem Sends.not_handshake {d : Datagram} {k : U32} {data : List U8} (h : Sends d k data) :
    item? d ≠ some .handshake := by
  by_cases hne : data = []
  · subst hne
    have hs : (FLAG_ACK &&& FLAG_SYN != 0#16) = false := by decide
    simp [item?, show wire? d = _ from h, hs]
  · rw [h.item hne]
    intro hitem
    cases hitem

theorem Resent.not_handshake {u : OrdMap U32 UnackedSegment} (h : Resent u out) :
    ∀ d ∈ out, item? d ≠ some .handshake := by
  intro d hd
  obtain ⟨i, hi, rfl⟩ := List.getElem_of_mem hd
  obtain ⟨hlen, hget⟩ := List.forall₂_iff_get.mp h
  exact (hget i hi (by rw [← hlen]; exact hi)).not_handshake

namespace Hailed

theorem idle {t : Tick} (hout : ∀ d ∈ out, item? d ≠ some .handshake) :
    greetTimes (log ++ stamp t out) = greetTimes log := by
  rw [greetTimes, times_append, times_stamp_of_not_mem hout, List.append_nil]

/-- No handshake segment is transmitted, and the timer stays or ends. -/
theorem keep (h : Hailed l log) {t : Tick} (hl : l'.listening → l.listening)
    (hs : l'.handshake = l.handshake ∨ l'.handshake = none)
    (hout : ∀ d ∈ out, item? d ≠ some .handshake) : Hailed l' (log ++ stamp t out) := by
  refine ⟨fun hl' => by rw [idle hout]; exact h.fresh (hl hl'), fun p hp => ?_⟩
  rcases hs with hs | hs
  · rw [idle hout]
    exact h.live p (by rw [← hs]; exact hp)
  · rw [hs] at hp
    cases hp

theorem deed (h : Hailed l log) (hg : o.Distinct b a) (hd : Deed b o a l l' out) :
    Hailed l' (log ++ stamp l.now out) := by
  have hquiet : ∀ d ∈ ([] : List Datagram), item? d ≠ some .handshake := by simp
  cases hd with
  | mute hm =>
    refine h.keep id (Or.inl rfl) fun d hd => ?_
    rw [List.mem_singleton.mp hd, hm.item]
    exact nofun
  | greet hl hg =>
    refine ⟨fun hl' => (nomatch hl'), fun p hp => ?_⟩
    cases hp
    refine ⟨show (1#32 : U32) ≠ 0 by decide, fun _ => ?_⟩
    exact times_first (h.fresh hl) hg.item
  | answer hl hs₀ hre _ =>
    refine ⟨fun hl' => ?_, fun p hp => ⟨(h.live p hp).1, fun hone => ?_⟩⟩
    · rw [hl] at hl'
      cases hl'
    · exact absurd hone (hg.answers hre p (by rw [← hs₀]; exact hp))
  | @retryHandshake p n d hl hs₀ hp hadd _ _ =>
    refine ⟨fun hl' => ?_, fun p' hp' => ?_⟩
    · have hl'' : l.listening = true := hl'
      rw [hl] at hl''
      cases hl''
    · cases hp'
      -- the counter was at least one, so it is now at least two
      have hpos := (h.live p hp).1
      have hfull := hg.handshake.imp id fun hf => hf p (by rw [← hs₀]; exact hp)
      have hnat := add_one_toNat hadd hfull
      have hpos' : p.attempts.toNat ≠ 0 := fun h0 => hpos (BitVec.eq_of_toNat_eq h0)
      refine ⟨fun h0 => ?_, fun h1 => ?_⟩
      · have h0' : n = 0#32 := h0
        rw [h0', BitVec.toNat_zero] at hnat
        omega
      · have h1' : n = 1#32 := h1
        rw [h1', show (1#32 : U32).toNat = 1 from rfl] at hnat
        omega
  | endHandshake => exact h.keep id (Or.inr rfl) hquiet
  | failHandshake => exact h.keep (fun hl => (nomatch hl)) (Or.inr rfl) hquiet
  | learn | mark | fin => exact h.keep id (Or.inl rfl) hquiet
  | fast _ _ _ _ _ hs | cut _ _ _ _ _ hs =>
    refine h.keep id (Or.inl rfl) fun d hd => ?_
    rw [List.mem_singleton.mp hd]
    exact hs.not_handshake
  | sweep _ _ hr => exact h.keep id (Or.inl rfl) hr.not_handshake
  | overrun _ _ hr => exact h.keep (fun hl => (nomatch hl)) (Or.inl rfl) hr.not_handshake
  | failFin => exact h.keep (fun hl => (nomatch hl)) (Or.inl rfl) hquiet

theorem deeds (h : Hailed l log) (hg : o.Distinct b a) (hd : Deeds b o a l l' out) :
    Hailed l' (log ++ stamp l.now out) := by
  induction hd with
  | refl => rw [stamp_nil, List.append_nil]; exact h
  | tail hd hone ih =>
    rw [stamp_append, ← List.append_assoc, ← hd.now]
    rw [← hd.now] at ih
    exact ih.deed hg hone

end Hailed

/-! ## Runs -/

/-- The frames that a side has emitted in a run, each with the time the side had when it did. -/
def Pair.journal (s : Side) : List Pair → Pair → Log
  | [], p => stamp (p.get s).conn.now (p.get s).emitted
  | q :: past, p =>
    journal s past q ++ stamp (p.get s).conn.now ((p.get s).emitted.drop (q.get s).emitted.length)

/-- What the journal of a side says of it. -/
structure Journaled (b : Build) (e : Endpoint) (log : Log) : Prop where
  cuts : e.conn.ledger.Cuts
  hailed : Hailed e.conn.ledger log
  tallied : b = .checked ∨ e.sent.length < 2 ^ 32 → Tallied e.sent.length e.conn.ledger log

theorem Journaled.call {e e' : Endpoint} (h : Journaled b e log) (hg : e.conn.Distinct b a)
    (hr : e.call b a = .ok e') :
    Journaled b e' (log ++ stamp e'.conn.now (e'.emitted.drop e.emitted.length)) := by
  obtain ⟨out, hd, hem, hsent⟩ := call_deeds h.cuts hr
  have hnow : e'.conn.now = (e.conn.posted a).now := hd.now
  have hout : e'.emitted.drop e.emitted.length = out := by rw [hem, List.drop_left]
  have hle := Endpoint.call_sent_le hr
  rw [hout, hnow]
  refine ⟨hd.cuts h.cuts, ?_, fun hN => ?_⟩
  · have hposted : Hailed (e.conn.posted a) log := ⟨h.hailed.fresh, h.hailed.live⟩
    exact hposted.deeds hg hd
  · have hposted := (h.tallied (hN.imp id fun hN => by omega)).posted a
    have hlen : e'.sent.length = e.sent.length + a.input.length := by rw [hsent, List.length_append]
    rw [← hlen] at hposted
    exact hposted.deeds hN hg.roomy hd

theorem Born.journaled {cfg : Config} {e : Endpoint} (h : Born b cfg e) :
    Journaled b e (stamp e.conn.now e.emitted) := by
  refine ⟨h.steady.cuts, ?_, fun _ => h.tallied⟩
  obtain ⟨_, t, hs, listening, hl, hor⟩ := h.ledger
  have hnow : e.conn.now = t := congrArg Ledger.now hl
  rw [hl, hnow]
  rcases hor with ⟨rfl, hem⟩ | ⟨rfl, rfl, d, hg, hem⟩
  · rw [hem]
    exact ⟨fun _ => rfl, fun p hp => (nomatch hp)⟩
  · refine ⟨fun hl' => (nomatch hl'), fun p hp => ?_⟩
    cases hp
    rw [hem]
    exact ⟨show (1#32 : U32) ≠ 0 by decide, fun _ => times_stamp_single hg.item⟩

section

variable {ccfg scfg : Config} {T : Tick → Prop} {past : List Pair} {p p' : Pair}

theorem run_journaled
    (h : Pair.Run b ccfg scfg T (fun p s a => (p.get s).conn.Distinct b a) past p) (s : Side) :
    Journaled b (p.get s) (Pair.journal s past p) := by
  induction h with
  | start _ _ h => exact (start_born h s).journaled
  | @step past p p' t a _ _ _ hg hr ih =>
    obtain ⟨e, he, rfl⟩ := Pair.step_inv hr
    rw [Pair.journal]
    rcases s.eq_or_peer t with rfl | rfl
    · rw [Pair.get_set_self]
      exact ih.call hg he
    · rw [Pair.get_set_peer, List.drop_length, stamp_nil, List.append_nil]
      exact ih

/-- The journal has the frames that were emitted. -/
theorem journal_frames {G : Pair → Side → Call → Prop} (h : Pair.Run b ccfg scfg T G past p) (s : Side) :
    (Pair.journal s past p).map (·.2) = (p.get s).emitted := by
  induction h with
  | start => exact map_stamp _ _
  | @step past p p' t a hrun _ _ _ hr ih =>
    obtain ⟨e, he, rfl⟩ := Pair.step_inv hr
    obtain ⟨out, _, hem, _⟩ := call_deeds (reach_steady hrun.via t).cuts he
    rw [Pair.journal, List.map_append, map_stamp, ih]
    rcases s.eq_or_peer t with rfl | rfl
    · rw [Pair.get_set_self, hem, List.drop_left]
    · rw [Pair.get_set_peer, List.drop_length, List.append_nil]

theorem satSub_of_le {x y : U64} (h : y ≤ x) : satSub x y = x - y := by
  simp [satSub, h]

/-- A sample of an item that was transmitted once. -/
theorem sample_of_times {i : Item} {t now : Tick} (hpast : ∀ x ∈ log, x.1 ≤ now)
    (h : times item? i log = [t]) : ∃ t', times item? i log = [t'] ∧ t' ≤ now ∧
      satSub now t = now - t' := by
  obtain ⟨d, hd⟩ := mem_of_mem_times (show t ∈ times item? i log by rw [h]; exact List.mem_singleton_self t)
  exact ⟨t, h, hpast _ hd, satSub_of_le (hpast _ hd)⟩

theorem Journaled.samples {e : Endpoint} (h : Journaled b e log)
    (hN : b = .checked ∨ e.sent.length < 2 ^ 32) {x : Item × U64} (hx : x ∈ e.conn.samples a) :
    ∃ t, times item? x.1 log = [t] ∧ t ≤ e.conn.clock a ∧ x.2 = e.conn.clock a - t := by
  have htallied := h.tallied hN
  have hpast := (htallied.posted a).past
  unfold Connection.samples at hx
  split at hx
  · cases hx
  · dsimp only at hx
    split at hx
    · rcases List.mem_append.mp hx with hx | hx
      · -- the handshake
        split at hx
        · cases hx
        · unfold Connection.handshakeSample at hx
          split at hx
          · rename_i p hp
            split at hx
            · rename_i hone
              rw [List.mem_singleton.mp hx]
              exact sample_of_times hpast ((h.hailed.live p hp).2 hone)
            · cases hx
          · cases hx
      · -- a segment
        split at hx
        · obtain ⟨⟨k, seg⟩, he, hs⟩ := List.mem_filterMap.mp hx
          split at hs
          · rename_i hzero
            cases hs
            obtain ⟨_, _, hlen, hlast⟩ := htallied.live k seg (List.mem_of_mem_filter he)
            have hzero' : seg.retransmitCount.toNat = 0 := by
              rw [show seg.retransmitCount = 0 from hzero]; rfl
            rw [hzero'] at hlen
            obtain ⟨t, ht⟩ := List.length_eq_one_iff.mp hlen
            rw [ht] at hlast
            cases hlast
            exact sample_of_times hpast ht
          · cases hs
        · cases hx
    · cases hx

/-- **Karn's rule.**  In every run in which no SYN is answered a second time while the handshake
    counts one attempt and no counter wraps around: the estimator is fed, at every call, with the
    samples of the call, and every item sampled has been transmitted exactly once by then, and the
    sample is the time since. -/
theorem samples_sent_once
    (h : Pair.Run b ccfg scfg T (fun p s a => (p.get s).conn.Distinct b a) past p) {s : Side}
    (hr : p.step b s a = .ok p') (hN : b = .checked ∨ (p.get s).sent.length < 2 ^ 32) :
    (∃ r, (p.get s).conn.rto.feed b ((p.get s).conn.samples a) = .ok r ∧
      BackedOff b r (p'.get s).conn.rto) ∧
    ∀ x ∈ (p.get s).conn.samples a, ∃ t, times item? x.1 (Pair.journal s past p) = [t] ∧
      t ≤ (p'.get s).conn.now ∧ x.2 = (p'.get s).conn.now - t := by
  have hj := run_journaled h s
  obtain ⟨e, he, rfl⟩ := Pair.step_inv hr
  rw [Pair.get_set_self]
  obtain ⟨out, hd, _⟩ := call_deeds hj.cuts he
  have hnow : e.conn.now = (p.get s).conn.clock a := hd.now
  rw [hnow]
  exact ⟨call_samples he, fun x hx => hj.samples hN hx⟩

end

/-! ## A repeated SYN -/

instance decidableRegreets (c : Connection) (a : Call) : Decidable (c.Regreets a) :=
  inferInstanceAs (Decidable (_ ∧ ∃ s ∈ a.segment?, _))

instance decidableRoomy (b : Build) (c : Connection) : Decidable (c.Roomy b) :=
  inferInstanceAs (Decidable (_ ∨ _))

instance decidableDistinct (b : Build) (c : Connection) (a : Call) : Decidable (c.Distinct b a) :=
  decidable_of_iff ((c.Regreets a → ∀ h ∈ c.handshake, h.attempts ≠ 1) ∧
      (b = .checked ∨ ∀ h ∈ c.handshake, h.attempts ≠ BitVec.allOnes 32) ∧ c.Roomy b)
    ⟨fun h => ⟨h.1, h.2.1, h.2.2⟩, fun h => ⟨h.answers, h.handshake, h.roomy⟩⟩

/-- A client sends one segment and its acknowledgement arrives. -/
theorem samples_sent_once_sample : ∃ past p p' d t,
    Pair.Run .checked sampleConfig sampleConfig (fun _ => True)
      (fun p s a => (p.get s).conn.Distinct .checked a) past p ∧
    p.step .checked .client (.onDatagram 6 d) = .ok p' ∧ d ∈ p.server.emitted ∧
    p.client.conn.samples (.onDatagram 6 d) = [(.data 0, 3)] ∧
    times item? (.data 0) (Pair.journal .client past p) = [t] ∧ 3 = p'.client.conn.now - t := by
  have hrun : Pair.playsVia .checked sampleConfig sampleConfig
      (fun p s a => decide ((p.get s).conn.Distinct .checked a))
      [(.server, .deliver 1 0), (.client, .deliver 2 0), (.server, .deliver 3 1),
        (.client, .send 3 [1, 2]), (.server, .deliver 4 2)]
      (fun p => p.server.emitted.any fun d =>
        decide (p.client.conn.samples (.onDatagram 6 d) = [(.data 0, 3)]) &&
          (fault? (p.step .checked .client (.onDatagram 6 d))).isNone) = true := by
    decide +kernel
  obtain ⟨past, p, _, hp, ht⟩ := Pair.playsVia_run (T := fun _ => True)
    (G := fun p s a => (p.get s).conn.Distinct .checked a) trivial
    (fun p s a h => ⟨fun _ _ => trivial, of_decide_eq_true h⟩) hrun
  obtain ⟨d, hd, ht⟩ := List.any_eq_true.mp ht
  obtain ⟨hs, hok⟩ := Bool.and_eq_true_iff.mp ht
  have hs := of_decide_eq_true hs
  obtain ⟨p', hp'⟩ := ok_of_fault? hok
  obtain ⟨_, hall⟩ := samples_sent_once hp hp' (Or.inl rfl)
  obtain ⟨t, hone, _, hval⟩ := hall (.data 0, 3) (by
    show _ ∈ p.client.conn.samples _
    rw [hs]
    exact List.mem_singleton_self _)
  exact ⟨past, p, p', d, t, hp, hp', hd, hs, hone, hval⟩

/-- The SYN arrives twice and is answered twice; the handshake is completed and sampled. -/
theorem sampled_twice_sent : ∃ past p p' d,
    Pair.Run .checked sampleConfig sampleConfig (fun _ => True) (fun _ _ _ => True) past p ∧
    d ∈ p.client.emitted ∧ p.step .checked .server (.onDatagram 7 d) = .ok p' ∧
    p.server.conn.samples (.onDatagram 7 d) = [(.handshake, 6)] ∧
    (greetTimes (Pair.journal .server past p)).length = 2 := by
  have hrun : Pair.playsVia .checked sampleConfig sampleConfig (fun _ _ _ => true)
      [(.server, .deliver 1 0), (.server, .deliver 5 0), (.client, .deliver 6 0)]
      (fun p => decide ((p.server.emitted.filter fun d => item? d = some .handshake).length = 2) &&
        p.client.emitted.any fun d =>
          decide (p.server.conn.samples (.onDatagram 7 d) = [(.handshake, 6)]) &&
            (fault? (p.step .checked .server (.onDatagram 7 d))).isNone) = true := by
    decide +kernel
  obtain ⟨past, p, _, hp, ht⟩ := Pair.playsVia_run (T := fun _ => True) (G := fun _ _ _ => True) trivial
    (fun _ _ _ _ => ⟨fun _ _ => trivial, trivial⟩) hrun
  obtain ⟨htwice, hany⟩ := Bool.and_eq_true_iff.mp ht
  obtain ⟨d, hd, ht⟩ := List.any_eq_true.mp hany
  obtain ⟨hs, hok⟩ := Bool.and_eq_true_iff.mp ht
  obtain ⟨p', hp'⟩ := ok_of_fault? hok
  refine ⟨past, p, p', d, hp, hd, hp', of_decide_eq_true hs, ?_⟩
  rw [greetTimes, length_times, journal_frames hp]
  exact of_decide_eq_true htwice

end Distrans
