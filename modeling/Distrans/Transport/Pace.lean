import Distrans.Transport.Guarantees
import Distrans.Transport.Phases

/-!
# The pace of a sender

`Pace` is what duplicate-ack counting and congestion control keep.  A call changes it in one of
four ways, or not at all (`Beat`, `call_beat`): an acknowledgement that advances `send_base`, a
duplicate below the threshold, the duplicate that triggers the fast retransmit, and a firing of
the retransmission timer.  The events are conditions on the state before the call and on what
arrives.
-/

set_option autoImplicit false

namespace Distrans

open Machine OrdMap

variable {b : Build} {c c' : Connection} {out : List Datagram}

structure Pace where
  config : Config
  sendBase : U32
  dupAckCount : U32
  cwnd : U32
  ssthresh : U32
  fastRetransmits : Nat
  congestionEvents : Nat

def Connection.pace (c : Connection) : Pace :=
  ⟨c.config, c.sendBase, c.dupAckCount, c.cwnd, c.ssthresh, c.stats.fastRetransmits,
    c.stats.congestionEvents⟩

/-! ## Events -/

/-- The call brings an acknowledgement beyond `send_base`. -/
def Connection.Advances (c : Connection) (a : Call) : Prop :=
  ∃ h ∈ c.ackOf a, c.sendBase < h.ack

/-- The call brings one that repeats `send_base` while something is outstanding. -/
def Connection.Repeats (c : Connection) (a : Call) : Prop :=
  ∃ h ∈ c.ackOf a, h.ack = c.sendBase ∧ c.unacked.isEmpty = false

/-- The call is a tick at which the retransmission timer fires. -/
def Connection.Fires (b : Build) (c : Connection) (a : Call) : Prop :=
  ∃ now, a = .onTick now ∧ c.RtoFires b now

/-- What a call does to the pace. -/
inductive Beat (b : Build) (c : Connection) (a : Call) (c' : Connection) : Prop
  | advance {h : SegmentHeader} {w : U32} : c.ackOf a = some h → c.sendBase < h.ack →
      c.grownCwnd b (h.ack - c.sendBase) = .ok w →
      c'.pace = { c.pace with sendBase := h.ack, dupAckCount := 0, cwnd := w } → Beat b c a c'
  | duplicate {n : U32} : c.Repeats a → b.add c.dupAckCount 1#32 = .ok n →
      n ≠ c.config.fastRetransmitDupAcks → c'.pace = { c.pace with dupAckCount := n } → Beat b c a c'
  | fast {w : U32} : c.Repeats a → b.add c.dupAckCount 1#32 = .ok c.config.fastRetransmitDupAcks →
      c.halvedWindow b = .ok w →
      c'.pace = { c.pace with
        dupAckCount := 0, cwnd := w, ssthresh := w
        fastRetransmits := c.stats.fastRetransmits + 1
        congestionEvents := c.stats.congestionEvents + 1 } → Beat b c a c'
  | fire {w : U32} : c.Fires b a → c.halvedWindow b = .ok w →
      c'.pace = { c.pace with
        dupAckCount := 0, cwnd := c.config.segment32, ssthresh := w
        congestionEvents := c.stats.congestionEvents + 1 } → Beat b c a c'
  | idle : ¬ c.Advances a → ¬ c.Repeats a → ¬ c.Fires b a → c'.pace = c.pace → Beat b c a c'

/-! ## What leaves the pace alone -/

theorem checkFullyClosed_pace (c : Connection) : c.checkFullyClosed.pace = c.pace := by
  unfold Connection.checkFullyClosed
  split <;> rfl

theorem drainAndMaybeFin_pace (h : c.drainAndMaybeFin b = .ok (c', out)) : c'.pace = c.pace := by
  obtain ⟨st, fp, q, n, u, sent, rfl⟩ := drainAndMaybeFin_fields h
  rfl

theorem drainLoop_pace : ∀ {fuel : Nat} {c c' : Connection}, c.drainLoop b fuel = .ok c' →
    c'.pace = c.pace
  | 0, _, _, h => by cases h
  | fuel + 1, c, c', h => by
    rcases drainLoop_cases h with rfl | ⟨v, expectedSeq, _, _, h⟩
    · rfl
    · have hp := drainLoop_pace h
      exact hp

theorem deliverData_pace {seq : U32} {data : List U8} (h : c.deliverData b seq data = .ok c') :
    c'.pace = c.pace := by
  cases deliverData_branch h with
  | empty | old | early => rfl
  | next _ _ _ _ _ _ hdrain => exact (drainLoop_pace hdrain).trans rfl

theorem ackMarks_pace {h : SegmentHeader} (hr : c.ackMarks h = .ok c') : c'.pace = c.pace := by
  cases ackMarks_branch hr with
  | marked => rfl
  | finAcked => exact checkFullyClosed_pace _

theorem tickHandshake_pace (h : c.tickHandshake b = .ok (c', out)) : c'.pace = c.pace := by
  cases tickHandshake_branch h <;> rfl

theorem tickFin_pace (h : c.tickFin b = .ok (c', out)) : c'.pace = c.pace := by
  cases tickFin_branch h <;> rfl

/-! ## The acknowledgement -/

section Ack

variable {h : SegmentHeader}

theorem grownCwnd_congr {n : U32} (hcfg : c'.config = c.config) (hw : c'.cwnd = c.cwnd)
    (hs : c'.ssthresh = c.ssthresh) : c'.grownCwnd b n = c.grownCwnd b n := by
  simp only [Connection.grownCwnd, hcfg, hw, hs]

theorem ackAdvance_pace (hr : c.ackAdvance b h = .ok c') :
    ∃ w, c.grownCwnd b (h.ack - c.sendBase) = .ok w ∧
      c'.pace = { c.pace with sendBase := h.ack, dupAckCount := 0, cwnd := w } := by
  obtain ⟨_, r, w, hacked, _, hw, rfl⟩ := ackAdvance_spec hr
  rw [← Build.sub_eq hacked]
  exact ⟨w, hw, rfl⟩

theorem fastRetransmit_pace {resent : Option Datagram} (hr : c.fastRetransmit b = .ok (c', resent)) :
    ∃ w, c.halvedWindow b = .ok w ∧
      c'.pace = { c.pace with
        dupAckCount := 0, cwnd := w, ssthresh := w
        fastRetransmits := c.stats.fastRetransmits + 1
        congestionEvents := c.stats.congestionEvents + 1 } := by
  cases fastRetransmit_branch hr with
  | nothing hw | oldest hw => exact ⟨_, hw, rfl⟩

/-- The events are the same for the connection that has gone through the handshake arm. -/
theorem applyAck_beat {a : Call} {c₀ : Connection} {resent : Option Datagram}
    (ha : c₀.ackOf a = some h) (hf : ¬ c₀.Fires b a) (hp : c.pace = c₀.pace)
    (hu : c.unacked = c₀.unacked) (hr : c.applyAck b h = .ok (c', resent)) : Beat b c₀ a c' := by
  have hcfg : c.config = c₀.config := congrArg Pace.config hp
  have hbase : c.sendBase = c₀.sendBase := congrArg Pace.sendBase hp
  have hdup : c.dupAckCount = c₀.dupAckCount := congrArg Pace.dupAckCount hp
  have hcwnd : c.cwnd = c₀.cwnd := congrArg Pace.cwnd hp
  have hss : c.ssthresh = c₀.ssthresh := congrArg Pace.ssthresh hp
  have hrepeats : h.ack = c.sendBase → c.unacked.isEmpty = false → c₀.Repeats a := fun heq hne =>
    ⟨h, ha, by rw [heq, hbase], by rw [← hu]; exact hne⟩
  cases applyAck_branch hr with
  | advance hadv h₁ h₂ =>
    obtain ⟨w, hw, hpace⟩ := ackAdvance_pace h₁
    rw [hbase] at hadv
    rw [grownCwnd_congr hcfg hcwnd hss, hbase] at hw
    refine .advance ha hadv hw ?_
    rw [ackMarks_pace h₂, hpace, hp]
  | duplicate heq hne hn hk h₂ =>
    rw [hdup] at hn
    refine .duplicate (hrepeats heq hne) hn (by rw [← hcfg]; exact hk) ?_
    rw [ackMarks_pace h₂, ← hp]
    rfl
  | resend heq hne hn hk hfast =>
    rw [hdup] at hn
    obtain ⟨w, hw, hpace⟩ := fastRetransmit_pace hfast
    have hw₀ : c₀.halvedWindow b = .ok w := by
      rw [← hw]
      simp only [Connection.halvedWindow, hcfg, hcwnd]
    refine .fast (hrepeats heq hne) (by rw [hn, hk, hcfg]) hw₀ ?_
    rw [hpace]
    simp only [Connection.pace] at hp ⊢
    simp only [Pace.mk.injEq] at hp
    simp only [hbase, hp.1, hp.2.2.2.2.2.1, hp.2.2.2.2.2.2]
  | stale hadv hrep h₁ =>
    have hnone : ∀ h' ∈ c₀.ackOf a, h' = h := by
      intro h' hh'
      rw [ha] at hh'
      exact (Option.some.inj hh').symm
    refine .idle ?_ ?_ hf (by rw [ackMarks_pace h₁, hp])
    · rintro ⟨h', hh', hlt⟩
      rw [hnone h' hh', ← hbase] at hlt
      exact hadv hlt
    · rintro ⟨h', hh', heq, hne⟩
      rw [hnone h' hh', ← hbase] at heq
      exact hrep ⟨heq, by rw [hu]; exact hne⟩

end Ack

/-! ## Reading a beat -/

section Read

variable {a : Call}

theorem Connection.Advances.not_repeats (h : c.Advances a) : ¬ c.Repeats a := by
  obtain ⟨hdr, hh, hlt⟩ := h
  rintro ⟨hdr', hh', heq, _⟩
  rw [hh] at hh'
  cases hh'
  rw [heq] at hlt
  exact absurd hlt (lt_irrefl _)

theorem Connection.Fires.ackOf (h : c.Fires b a) : c.ackOf a = none := by
  obtain ⟨now, rfl, _⟩ := h
  rfl

theorem Connection.Fires.not_advances (h : c.Fires b a) : ¬ c.Advances a := by
  rintro ⟨hdr, hh, _⟩
  rw [h.ackOf] at hh; cases hh

theorem Connection.Fires.not_repeats (h : c.Fires b a) : ¬ c.Repeats a := by
  rintro ⟨hdr, hh, _⟩
  rw [h.ackOf] at hh; cases hh

theorem Beat.config (h : Beat b c a c') : c'.config = c.config := by
  cases h with
  | advance _ _ _ hp | duplicate _ _ _ hp | fast _ _ _ hp | fire _ _ hp | idle _ _ _ hp =>
    exact congrArg Pace.config hp

theorem Beat.advances {h : SegmentHeader} (hb : Beat b c a c') (ha : c.ackOf a = some h)
    (hadv : c.sendBase < h.ack) : ∃ w, c.grownCwnd b (h.ack - c.sendBase) = .ok w ∧
      c'.pace = { c.pace with sendBase := h.ack, dupAckCount := 0, cwnd := w } := by
  have had : c.Advances a := ⟨h, ha, hadv⟩
  cases hb with
  | @advance h' w ha' _ hw hp =>
    rw [ha] at ha'
    cases ha'
    exact ⟨w, hw, hp⟩
  | duplicate hrep | fast hrep => exact absurd hrep had.not_repeats
  | fire hf => exact absurd had hf.not_advances
  | idle hn => exact absurd had hn

theorem Beat.repeats (hb : Beat b c a c') (hrep : c.Repeats a) :
    ∃ n, b.add c.dupAckCount 1#32 = .ok n ∧
      ((n ≠ c.config.fastRetransmitDupAcks ∧ c'.pace = { c.pace with dupAckCount := n }) ∨
        (n = c.config.fastRetransmitDupAcks ∧ ∃ w, c.halvedWindow b = .ok w ∧
          c'.pace = { c.pace with
            dupAckCount := 0, cwnd := w, ssthresh := w
            fastRetransmits := c.stats.fastRetransmits + 1
            congestionEvents := c.stats.congestionEvents + 1 })) := by
  cases hb with
  | advance ha hadv => exact absurd hrep (Connection.Advances.not_repeats ⟨_, ha, hadv⟩)
  | @duplicate n _ hn hk hp => exact ⟨n, hn, Or.inl ⟨hk, hp⟩⟩
  | @fast w _ hn hw hp => exact ⟨_, hn, Or.inr ⟨rfl, w, hw, hp⟩⟩
  | fire hf => exact absurd hrep hf.not_repeats
  | idle _ hn => exact absurd hrep hn

theorem Beat.fires (hb : Beat b c a c') (hf : c.Fires b a) : ∃ w, c.halvedWindow b = .ok w ∧
    c'.pace = { c.pace with
      dupAckCount := 0, cwnd := c.config.segment32, ssthresh := w
      congestionEvents := c.stats.congestionEvents + 1 } := by
  cases hb with
  | advance ha hadv => exact absurd ⟨_, ha, hadv⟩ hf.not_advances
  | duplicate hrep | fast hrep => exact absurd hrep hf.not_repeats
  | @fire w _ hw hp => exact ⟨w, hw, hp⟩
  | idle _ _ hn => exact absurd hf hn

theorem Beat.still (hb : Beat b c a c') (hadv : ¬ c.Advances a) (hrep : ¬ c.Repeats a)
    (hf : ¬ c.Fires b a) : c'.pace = c.pace := by
  cases hb with
  | advance ha hlt => exact absurd ⟨_, ha, hlt⟩ hadv
  | duplicate h | fast h => exact absurd h hrep
  | fire h => exact absurd h hf
  | idle _ _ _ hp => exact hp

end Read

/-! ## Calls -/

/-- The beat is that of the state the pace was taken from. -/
theorem Beat.keep {a : Call} {c'' : Connection} (h : Beat b c a c') (hp : c''.pace = c'.pace) :
    Beat b c a c'' := by
  cases h with
  | advance h1 h2 h3 h4 => exact .advance h1 h2 h3 (hp.trans h4)
  | duplicate h1 h2 h3 h4 => exact .duplicate h1 h2 h3 (hp.trans h4)
  | fast h1 h2 h3 h4 => exact .fast h1 h2 h3 (hp.trans h4)
  | fire h1 h2 h3 => exact .fire h1 h2 (hp.trans h3)
  | idle h1 h2 h3 h4 => exact .idle h1 h2 h3 (hp.trans h4)

/-- Without an acknowledgement and without a firing timer the pace stays. -/
theorem Beat.of_quiet {a : Call} (ha : c.ackOf a = none) (hf : ¬ c.Fires b a) (hp : c'.pace = c.pace) :
    Beat b c a c' := by
  refine .idle ?_ ?_ hf hp
  · rintro ⟨h, hh, _⟩
    rw [ha] at hh; cases hh
  · rintro ⟨h, hh, _⟩
    rw [ha] at hh; cases hh

theorem onDatagram_beat {now : Tick} {d : Datagram} (hr : c.onDatagram b now d = .ok (c', out)) :
    Beat b c (.onDatagram now d) c' := by
  have hf : ¬ c.Fires b (.onDatagram now d) := by
    rintro ⟨now', heq, _⟩
    cases heq
  by_cases hcar : ∃ f h app, Carries d f h app
  · obtain ⟨f, h, app, hcar⟩ := hcar
    have hack : c.ackOf (.onDatagram now d) =
        if (f.flags &&& FLAG_ACK != 0#16) &&
          c.admits (f.flags &&& FLAG_SYN != 0#16) (f.flags &&& FLAG_ACK != 0#16) then some h
        else none := by
      simp only [Connection.ackOf, hcar.segment?_eq now, Option.bind_some]
    rw [hcar.onDatagram now] at hr
    rcases onSegment_parts hr with ⟨hadm, st, hs, r, rfl⟩ | ⟨hadm, c₁, out₁, out₂, h₁, ho, h₂, rfl⟩
    · refine .of_quiet ?_ hf rfl
      rw [hack, show c.admits _ _ = false from hadm]
      simp
    · obtain ⟨st, hs, r, heq⟩ := handshakeArm_fields h₁
      have hp₁ : c₁.pace = c.pace := by rw [heq]; rfl
      have hu₁ : c₁.unacked = c.unacked := by rw [heq]; rfl
      obtain ⟨c₂, resent, c₃, acks, out₄, hap, hdel, _, hdrain, _⟩ := openBlock_parts h₂
      have hlast : c'.pace = c₂.pace := by
        rw [drainAndMaybeFin_pace hdrain, ← deliverData_pace hdel]
        rfl
      rw [show c.admits _ _ = true from hadm, Bool.and_true] at hack
      split at hap
      · rename_i hia
        rw [if_pos hia] at hack
        exact (applyAck_beat hack hf hp₁ hu₁ hap).keep hlast
      · rename_i hia
        rw [if_neg hia] at hack
        cases hap
        exact .of_quiet hack hf (hlast.trans hp₁)
  · rw [onDatagram_dropped hcar now] at hr
    cases hr
    refine .of_quiet ?_ hf rfl
    simp only [Connection.ackOf, segment?_dropped hcar now, Option.bind_none]

theorem tickData_pace (h : c.tickData b = .ok (c', out)) :
    (∃ k seg rest w, c.unacked.entries = (k, seg) :: rest ∧ c.Due b seg.sentAt ∧
      c.halvedWindow b = .ok w ∧ c'.pace = { c.pace with
        dupAckCount := 0, cwnd := c.config.segment32, ssthresh := w
        congestionEvents := c.stats.congestionEvents + 1 }) ∨
    ((∀ k seg rest, c.unacked.entries = (k, seg) :: rest → ¬ c.Due b seg.sentAt) ∧
      c'.pace = c.pace) := by
  cases tickData_branch h with
  | idle hidle => exact Or.inr ⟨fun k seg rest he => hidle (k, seg) (by rw [he]; rfl), rfl⟩
  | fail he hdue _ hw => exact Or.inl ⟨_, _, _, _, he, hdue, hw, rfl⟩
  | sweep he hdue _ hw => exact Or.inl ⟨_, _, _, _, he, hdue, hw, rfl⟩

theorem onTick_beat {now : Tick} (h : c.onTick b now = .ok (c', out)) : Beat b c (.onTick now) c' := by
  by_cases ho : c.isOpen
  · rw [onTick_open b ho] at h
    obtain ⟨c₁, out₁, h₁, hr⟩ := tickOpen_parts h
    have hlast : c'.pace = c₁.pace := by
      rcases hr with ⟨_, rfl, _⟩ | ⟨_, c₂, out₂, h₂, ⟨_, rfl, _⟩ | ⟨_, out₃, h₃, _⟩⟩
      · rfl
      · exact tickFin_pace h₂
      · exact (drainAndMaybeFin_pace h₃).trans (tickFin_pace h₂)
    rcases tickData_pace h₁ with ⟨k, seg, rest, w, he, hdue, hw, hp⟩ | ⟨hnot, hp⟩
    · exact .fire ⟨now, rfl, ho, k, seg, rest, he, hdue⟩ hw (hlast.trans hp)
    · refine .of_quiet rfl ?_ (hlast.trans hp)
      rintro ⟨now', heq, _, k, seg, rest, he, hdue⟩
      cases heq
      exact hnot k seg rest he hdue
  · refine .of_quiet rfl ?_ ?_
    · rintro ⟨_, _, ho', _⟩
      exact ho ho'
    · cases onTick_branch h with
      | handshake _ h => exact (tickHandshake_pace h).trans rfl
      | opened ho' => exact absurd ho' ho
      | rest => rfl

/-- **Every call is one of the five beats.** -/
theorem call_beat {e e' : Endpoint} {a : Call} (h : e.call b a = .ok e') : Beat b e.conn a e'.conn := by
  have hquiet : ∀ {c' : Connection}, (∀ now d, a ≠ .onDatagram now d) → (∀ now, a ≠ .onTick now) →
      c'.pace = e.conn.pace → Beat b e.conn a c' := by
    intro c' hd ht hp
    refine .of_quiet ?_ (fun ⟨now, heq, _⟩ => ht now heq) hp
    cases a with
    | onDatagram now d => exact absurd rfl (hd now d)
    | _ => rfl
  cases a with
  | send now data =>
    obtain ⟨⟨c', out⟩, hc, h⟩ := bind_eq_ok.mp h
    cases h
    have hp := drainAndMaybeFin_pace hc
    exact hquiet (by simp) (by simp) hp
  | close now =>
    obtain ⟨⟨c', out⟩, hc, h⟩ := bind_eq_ok.mp h
    cases h
    have hp := drainAndMaybeFin_pace hc
    exact hquiet (by simp) (by simp) hp
  | recv =>
    cases h
    exact hquiet (by simp) (by simp) rfl
  | onTick now =>
    obtain ⟨⟨c', out⟩, hc, h⟩ := bind_eq_ok.mp h
    cases h
    exact onTick_beat hc
  | onDatagram now d =>
    obtain ⟨⟨c', out⟩, hc, h⟩ := bind_eq_ok.mp h
    cases h
    exact onDatagram_beat hc

end Distrans
