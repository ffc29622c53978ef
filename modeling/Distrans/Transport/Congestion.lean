import Distrans.Transport.Pace
import Distrans.Transport.Robust

/-!
# Congestion control

* `aimd_envelope` — **the congestion window and the threshold never fall below one and two
  segments, and every call moves the window as slow start, congestion avoidance, a timeout or a
  fast retransmit prescribes, or not at all.**
* `cuts_per_duplicates` — **between two advances of `send_base`, without a timeout, every
  `fast_retransmit_dup_acks` duplicates cut the window once more**, so that one loss event is
  one cut exactly while the duplicates stay below twice that number.
* `one_loss_two_cuts` — a window's worth of later segments is enough for a second cut.
-/

set_option autoImplicit false

namespace Distrans

open Machine OrdMap

variable {b : Build} {c c' : Connection} {a : Call}

/-! ## The envelope -/

/-- The floors of the congestion window and of the slow-start threshold. -/
structure Connection.Envelope (c : Connection) : Prop where
  cwnd : c.config.segmentSize ≤ c.cwnd.toNat
  ssthresh : 2 * c.config.segmentSize ≤ c.ssthresh.toNat

theorem segment32_toNat {cfg : Config} (hseg : cfg.segmentSize < 2 ^ 31) :
    cfg.segment32.toNat = cfg.segmentSize := by
  rw [Config.segment32, BitVec.toNat_ofNat]
  omega

theorem halvedWindow_toNat (hseg : c.config.segmentSize < 2 ^ 31) {w : U32}
    (h : c.halvedWindow b = .ok w) : w.toNat = max (c.cwnd.toNat / 2) (2 * c.config.segmentSize) := by
  obtain ⟨floor, hfloor, h⟩ := bind_eq_ok.mp h
  cases h
  have h2 : (2#32).toNat = 2 := rfl
  have hf : floor.toNat = 2 * c.config.segmentSize := by
    rw [Build.fit_toNat hfloor, segment32_toNat hseg, h2]
    omega
  rw [max_toNat, hf, BitVec.toNat_udiv, h2]

/-- Slow start: the window grows by the acknowledged bytes. -/
theorem grownCwnd_slow {n w : U32} (hslow : c.cwnd < c.ssthresh) (h : c.grownCwnd b n = .ok w) :
    w.toNat = min (c.cwnd.toNat + n.toNat) (2 ^ 32 - 1) := by
  unfold Connection.grownCwnd at h
  rw [if_pos hslow] at h
  cases h
  exact satAdd_toNat _ _

/-- In congestion avoidance the increment is at most half a segment. -/
theorem Connection.Envelope.increment_le (h : c.Envelope) (havoid : ¬ c.cwnd < c.ssthresh) :
    c.config.segmentSize * c.config.segmentSize / c.cwnd.toNat ≤ c.config.segmentSize / 2 := by
  have hle : c.ssthresh.toNat ≤ c.cwnd.toNat := not_lt.mp havoid
  have hfloor : 2 * c.config.segmentSize ≤ c.cwnd.toNat := Nat.le_trans h.ssthresh hle
  rcases Nat.eq_zero_or_pos c.config.segmentSize with h0 | hpos
  · simp [h0]
  · calc c.config.segmentSize * c.config.segmentSize / c.cwnd.toNat
        ≤ c.config.segmentSize * c.config.segmentSize / (2 * c.config.segmentSize) :=
          Nat.div_le_div_left hfloor (by omega)
      _ = c.config.segmentSize / 2 := Nat.mul_div_mul_right _ _ hpos

/-- Congestion avoidance: the window grows by `segment_size² / cwnd`, at least one; the cast to
    32 bits loses nothing. -/
theorem grownCwnd_avoid (hseg : 1 ≤ c.config.segmentSize) (hseg' : c.config.segmentSize < 2 ^ 31)
    (he : c.Envelope) (havoid : ¬ c.cwnd < c.ssthresh) {n w : U32} (h : c.grownCwnd b n = .ok w) :
    w.toNat = min (c.cwnd.toNat +
      max (c.config.segmentSize * c.config.segmentSize / c.cwnd.toNat) 1) (2 ^ 32 - 1) := by
  unfold Connection.grownCwnd at h
  rw [if_neg havoid] at h
  obtain ⟨square, hsq, h⟩ := bind_eq_ok.mp h
  cases h
  have hfloor := he.cwnd
  have hinc := he.increment_le havoid
  have h1 : (1#32).toNat = 1 ∧ (1#64).toNat = 1 := ⟨rfl, rfl⟩
  have h64 : (BitVec.ofNat 64 c.config.segmentSize).toNat = c.config.segmentSize := by
    rw [BitVec.toNat_ofNat]; omega
  have hsquare : square.toNat = c.config.segmentSize * c.config.segmentSize := by
    have hlt : c.config.segmentSize * c.config.segmentSize < 2 ^ 64 := calc
      c.config.segmentSize * c.config.segmentSize ≤ 2 ^ 31 * 2 ^ 31 :=
        Nat.mul_le_mul (by omega) (by omega)
      _ < 2 ^ 64 := by decide
    rw [Build.fit_toNat hsq, h64, Nat.mod_eq_of_lt hlt]
  have hden : ((max c.cwnd 1#32).setWidth 64).toNat = c.cwnd.toNat := by
    have hlt := c.cwnd.isLt
    rw [BitVec.toNat_setWidth, max_toNat, h1.1]
    omega
  have hcast : ((max (square / (max c.cwnd 1#32).setWidth 64) 1#64).setWidth 32).toNat =
      max (c.config.segmentSize * c.config.segmentSize / c.cwnd.toNat) 1 := by
    rw [BitVec.toNat_setWidth, max_toNat, BitVec.toNat_udiv, hsquare, hden, h1.2]
    omega
  rw [satAdd_toNat, hcast]

theorem Connection.Envelope.pace (h : c.Envelope) (hp : c'.pace = c.pace) : c'.Envelope := by
  have h1 : c'.config = c.config := congrArg Pace.config hp
  have h2 : c'.cwnd = c.cwnd := congrArg Pace.cwnd hp
  have h3 : c'.ssthresh = c.ssthresh := congrArg Pace.ssthresh hp
  exact ⟨by rw [h1, h2]; exact h.cwnd, by rw [h1, h3]; exact h.ssthresh⟩

/-- One call keeps the envelope. -/
theorem Connection.Envelope.beat (hseg : 1 ≤ c.config.segmentSize)
    (hseg' : c.config.segmentSize < 2 ^ 31) (h : c.Envelope) (hb : Beat b c a c') : c'.Envelope := by
  have hcfg := hb.config
  have hmade : ∀ {w w' : U32}, c'.cwnd = w → c'.ssthresh = w' → c.config.segmentSize ≤ w.toNat →
      2 * c.config.segmentSize ≤ w'.toNat → c'.Envelope := by
    intro w w' hw hw' h1 h2
    exact ⟨by rw [hcfg, hw]; exact h1, by rw [hcfg, hw']; exact h2⟩
  have hfloor := h.cwnd
  cases hb with
  | @advance hdr w _ _ hw hp =>
    refine hmade (congrArg Pace.cwnd hp) (congrArg Pace.ssthresh hp) ?_ h.ssthresh
    by_cases hslow : c.cwnd < c.ssthresh
    · rw [grownCwnd_slow hslow hw]; omega
    · rw [grownCwnd_avoid hseg hseg' h hslow hw]; omega
  | duplicate _ _ _ hp =>
    exact hmade (congrArg Pace.cwnd hp) (congrArg Pace.ssthresh hp) h.cwnd h.ssthresh
  | @fast w _ _ hw hp =>
    have hhalf : 2 * c.config.segmentSize ≤ w.toNat := by rw [halvedWindow_toNat hseg' hw]; omega
    have hone : c.config.segmentSize ≤ w.toNat := by omega
    exact hmade (congrArg Pace.cwnd hp) (congrArg Pace.ssthresh hp) hone hhalf
  | @fire w _ hw hp =>
    have hhalf : 2 * c.config.segmentSize ≤ w.toNat := by rw [halvedWindow_toNat hseg' hw]; omega
    exact hmade (congrArg Pace.cwnd hp) (congrArg Pace.ssthresh hp)
      (by rw [segment32_toNat hseg']) hhalf
  | idle _ _ _ hp => exact h.pace hp

theorem blank_envelope {cfg : Config} {t : Tick} {st : State} (hseg' : cfg.segmentSize < 2 ^ 31)
    (h : Connection.blank b cfg t st = .ok c) : c.config = cfg ∧ c.Envelope := by
  obtain ⟨w, hw, h⟩ := bind_eq_ok.mp h
  cases h
  have h2 : (2#32).toNat = 2 := rfl
  have hones : (BitVec.allOnes 32).toNat = 2 ^ 32 - 1 := rfl
  have hw' : w.toNat = 2 * cfg.segmentSize := by
    rw [Build.fit_toNat hw, segment32_toNat hseg', h2]
    omega
  refine ⟨rfl, ?_, ?_⟩
  · show cfg.segmentSize ≤ (max w 1#32).toNat
    rw [max_toNat, hw']
    omega
  · show 2 * cfg.segmentSize ≤ (BitVec.allOnes 32).toNat
    rw [hones]
    omega

theorem solo_envelope {cfg : Config} {e : Endpoint} {heard : Nat} (hseg : 1 ≤ cfg.segmentSize)
    (hseg' : cfg.segmentSize < 2 ^ 31) (h : Solo b cfg e heard) :
    e.conn.config = cfg ∧ e.conn.Envelope := by
  induction h with
  | connect h =>
    obtain ⟨c₀, hc₀, h⟩ := bind_eq_ok.mp h
    obtain ⟨d, _, h⟩ := bind_eq_ok.mp h
    cases h
    obtain ⟨hcfg, he⟩ := blank_envelope hseg' hc₀
    exact ⟨hcfg, he.cwnd, he.ssthresh⟩
  | listen h => exact blank_envelope hseg' h
  | step _ hr ih =>
    obtain ⟨hcfg, he⟩ := ih
    have hb := call_beat hr
    exact ⟨hb.config.trans hcfg, he.beat (by rw [hcfg]; exact hseg) (by rw [hcfg]; exact hseg') hb⟩

/-- How a call may move the congestion window. -/
structure Aimd (b : Build) (c : Connection) (a : Call) (c' : Connection) : Prop where
  /-- Slow start: by at most the acknowledged bytes. -/
  slowStart : ∀ h ∈ c.ackOf a, c.sendBase < h.ack → c.cwnd < c.ssthresh →
    c.cwnd.toNat ≤ c'.cwnd.toNat ∧
      c'.cwnd.toNat ≤ c.cwnd.toNat + (h.ack.toNat - c.sendBase.toNat)
  /-- Congestion avoidance: by at least one unless the window is full, at most half a segment;
      the increment fits 32 bits. -/
  avoidance : ∀ h ∈ c.ackOf a, c.sendBase < h.ack → ¬ c.cwnd < c.ssthresh →
    (c.cwnd ≠ BitVec.allOnes 32 → c.cwnd.toNat + 1 ≤ c'.cwnd.toNat) ∧
      c'.cwnd.toNat ≤ c.cwnd.toNat + max 1 (c.config.segmentSize / 2) ∧
      c.config.segmentSize * c.config.segmentSize / c.cwnd.toNat < 2 ^ 32 ∧
      c'.cwnd.toNat = min (c.cwnd.toNat +
        max (c.config.segmentSize * c.config.segmentSize / c.cwnd.toNat) 1) (2 ^ 32 - 1)
  timeout : c.Fires b a → c'.cwnd.toNat = c.config.segmentSize
  fastRetransmit : c.Repeats a → c.dupAckCount + 1#32 = c.config.fastRetransmitDupAcks →
    c'.cwnd = c'.ssthresh ∧
      c'.cwnd.toNat = max (c.cwnd.toNat / 2) (2 * c.config.segmentSize)
  otherwise : ¬ c.Advances a → ¬ c.Fires b a →
    ¬ (c.Repeats a ∧ c.dupAckCount + 1#32 = c.config.fastRetransmitDupAcks) → c'.cwnd = c.cwnd

theorem Connection.Envelope.aimd (hseg : 1 ≤ c.config.segmentSize)
    (hseg' : c.config.segmentSize < 2 ^ 31) (he : c.Envelope) (hb : Beat b c a c') :
    Aimd b c a c' where
  slowStart := by
    intro h ha hadv hslow
    obtain ⟨w, hw, hp⟩ := hb.advances ha hadv
    have hw' := grownCwnd_slow hslow hw
    rw [Build.toNat_sub_of_le (le_of_lt hadv)] at hw'
    have hlt := c.cwnd.isLt
    rw [show c'.cwnd = w from congrArg Pace.cwnd hp]
    omega
  avoidance := by
    intro h ha hadv havoid
    obtain ⟨w, hw, hp⟩ := hb.advances ha hadv
    have hw' := grownCwnd_avoid hseg hseg' he havoid hw
    have hinc := he.increment_le havoid
    have hlt := c.cwnd.isLt
    rw [show c'.cwnd = w from congrArg Pace.cwnd hp]
    refine ⟨fun hne => ?_, by omega, by omega, hw'⟩
    have hnat : c.cwnd.toNat ≠ 2 ^ 32 - 1 := fun heq => hne (BitVec.eq_of_toNat_eq heq)
    omega
  timeout := by
    intro hf
    obtain ⟨w, _, hp⟩ := hb.fires hf
    rw [show c'.cwnd = c.config.segment32 from congrArg Pace.cwnd hp, segment32_toNat hseg']
  fastRetransmit := by
    intro hrep hk
    obtain ⟨n, hn, hrest⟩ := hb.repeats hrep
    rw [← Build.add_eq hn] at hk
    rcases hrest with ⟨hne, _⟩ | ⟨_, w, hw, hp⟩
    · exact absurd hk hne
    · have hcwnd : c'.cwnd = w := congrArg Pace.cwnd hp
      have hss : c'.ssthresh = w := congrArg Pace.ssthresh hp
      exact ⟨by rw [hcwnd, hss], by rw [hcwnd, halvedWindow_toNat hseg' hw]⟩
  otherwise := by
    intro hadv hf hnot
    by_cases hrep : c.Repeats a
    · obtain ⟨n, hn, ⟨_, hp⟩ | ⟨hk, _⟩⟩ := hb.repeats hrep
      · exact congrArg Pace.cwnd hp
      · rw [Build.add_eq hn] at hk
        exact absurd ⟨hrep, hk⟩ hnot
    · exact congrArg Pace.cwnd (hb.still hadv hrep hf)

/-- **AIMD stays in its envelope.** -/
theorem aimd_envelope {cfg : Config} {e : Endpoint} {heard : Nat} (hseg : 1 ≤ cfg.segmentSize)
    (hseg' : cfg.segmentSize < 2 ^ 31) (h : Solo b cfg e heard) :
    cfg.segmentSize ≤ e.conn.cwnd.toNat ∧ 2 * cfg.segmentSize ≤ e.conn.ssthresh.toNat ∧
      ∀ a e', e.call b a = .ok e' → Aimd b e.conn a e'.conn := by
  obtain ⟨hcfg, he⟩ := solo_envelope hseg hseg' h
  refine ⟨by rw [← hcfg]; exact he.cwnd, by rw [← hcfg]; exact he.ssthresh, fun a e' hr => ?_⟩
  exact he.aimd (by rw [hcfg]; exact hseg) (by rw [hcfg]; exact hseg') (call_beat hr)

/-- A client that has sent two bytes, of which the peer acknowledges one. -/
theorem aimd_envelope_sample : ∃ e n e', Solo .checked soloConfig e n ∧
    e.call .checked (.onDatagram 4 (crafted 0 FLAG_ACK 1 [] [])) = .ok e' ∧
    e'.conn.sendBase = 1#32 ∧ 1 ≤ e.conn.cwnd.toNat ∧
    Aimd .checked e.conn (.onDatagram 4 (crafted 0 FLAG_ACK 1 [] [])) e'.conn := by
  have hrun : Endpoint.plays .checked soloConfig openedRun (fun e =>
      returnsIn (e.call .checked (.onDatagram 4 (crafted 0 FLAG_ACK 1 [] [])))
        fun e' => decide (e'.conn.sendBase = 1#32)) = true := by
    decide +kernel
  obtain ⟨e, he, ht⟩ := Endpoint.plays_solo hrun
  obtain ⟨hcwnd, _, haimd⟩ := aimd_envelope (by decide) (by decide) he
  obtain ⟨e', hr, ht⟩ := of_returnsIn ht
  exact ⟨e, _, e', he, hr, of_decide_eq_true ht, hcwnd, haimd _ e' hr⟩

/-! ## Loss events -/

section Loss

variable {ccfg scfg : Config} {s : Side} {p₀ p : Pair} {n : Nat}

/-- From `p₀` on, `send_base` of the side `s` has not advanced and its retransmission timer has
    not fired; `n` duplicates of the acknowledgement at `send_base` have arrived. -/
inductive Pair.Stretch (b : Build) (s : Side) (p₀ : Pair) : Nat → Pair → Prop
  | start : Stretch b s p₀ 0 p₀
  | duplicate {n : Nat} {p p' : Pair} {a : Call} : Stretch b s p₀ n p → p.Legal s a →
      (p.get s).conn.Repeats a → p.step b s a = .ok p' → Stretch b s p₀ (n + 1) p'
  | other {n : Nat} {p p' : Pair} {t : Side} {a : Call} : Stretch b s p₀ n p → p.Legal t a →
      (t = s → ¬ (p.get s).conn.Advances a ∧ ¬ (p.get s).conn.Repeats a ∧
        ¬ (p.get s).conn.Fires b a) →
      p.step b t a = .ok p' → Stretch b s p₀ n p'

/-- The run has just advanced `send_base` of the side `s`. -/
def Pair.Advanced (b : Build) (ccfg scfg : Config) (s : Side) (p₀ : Pair) : Prop :=
  ∃ p a, Pair.Reach b ccfg scfg p ∧ p.Legal s a ∧ (p.get s).conn.Advances a ∧ p.step b s a = .ok p₀

/-- How many duplicates trigger a fast retransmit: a threshold of zero is met when the 32-bit
    counter comes round. -/
def Config.dupPeriod (cfg : Config) : Nat :=
  if cfg.fastRetransmitDupAcks = 0 then 2 ^ 32 else cfg.fastRetransmitDupAcks.toNat

theorem dupPeriod_pos (cfg : Config) : 0 < cfg.dupPeriod := by
  unfold Config.dupPeriod
  split
  · decide
  · rename_i h
    exact Nat.pos_of_ne_zero fun h0 => h (BitVec.eq_of_toNat_eq h0)

/-- One more duplicate: the counter meets the threshold at the end of the period, and counts
    exactly before that. -/
theorem dup_step {cfg : Config} {x n : U32} (hlt : x.toNat < cfg.dupPeriod)
    (h : b.add x 1#32 = .ok n) :
    (n = cfg.fastRetransmitDupAcks ↔ x.toNat + 1 = cfg.dupPeriod) ∧
      (n ≠ cfg.fastRetransmitDupAcks → n.toNat = x.toNat + 1) := by
  have hn := Build.fit_toNat h
  have h1 : (1#32).toNat = 1 := rfl
  have hx := x.isLt
  have hk := cfg.fastRetransmitDupAcks.isLt
  have hiff : n = cfg.fastRetransmitDupAcks ↔ n.toNat = cfg.fastRetransmitDupAcks.toNat :=
    ⟨congrArg _, BitVec.eq_of_toNat_eq⟩
  rw [h1] at hn
  unfold Config.dupPeriod at *
  split at hlt
  · rename_i h0
    rw [if_pos h0, ne_eq, hiff, h0, show (0 : U32).toNat = 0 from rfl]
    omega
  · rename_i h0
    rw [if_neg h0, ne_eq, hiff]
    omega

/-- `n` duplicates are `q` full periods and what the counter shows; each period is one fast
    retransmit and one congestion event. -/
structure Cycles (c₀ : Connection) (n q : Nat) (c : Connection) : Prop where
  config : c.config = c₀.config
  count : n = c₀.config.dupPeriod * q + c.dupAckCount.toNat
  below : c.dupAckCount.toNat < c₀.config.dupPeriod
  fastRetransmits : c.stats.fastRetransmits = c₀.stats.fastRetransmits + q
  congestionEvents : c.stats.congestionEvents = c₀.stats.congestionEvents + q

theorem Cycles.still {c₀ : Connection} {q : Nat} (h : Cycles c₀ n q c) (hp : c'.pace = c.pace) :
    Cycles c₀ n q c' := by
  have hdup : c'.dupAckCount = c.dupAckCount := congrArg Pace.dupAckCount hp
  refine ⟨(congrArg Pace.config hp).trans h.config, ?_, ?_,
    (congrArg Pace.fastRetransmits hp).trans h.fastRetransmits,
    (congrArg Pace.congestionEvents hp).trans h.congestionEvents⟩
  · rw [hdup]; exact h.count
  · rw [hdup]; exact h.below

theorem Cycles.duplicate {c₀ : Connection} {q : Nat} (h : Cycles c₀ n q c) (hb : Beat b c a c')
    (hrep : c.Repeats a) : ∃ q', Cycles c₀ (n + 1) q' c' := by
  obtain ⟨m, hm, hrest⟩ := hb.repeats hrep
  obtain ⟨hiff, hnext⟩ := dup_step h.below hm
  have hcfg := hb.config.trans h.config
  have hcount := h.count
  rw [h.config] at hrest
  rcases hrest with ⟨hne, hp⟩ | ⟨heq, w, _, hp⟩
  · have hdup : c'.dupAckCount = m := congrArg Pace.dupAckCount hp
    have hbelow := h.below
    have hnot : ¬ c.dupAckCount.toNat + 1 = c₀.config.dupPeriod := fun h' => hne (hiff.mpr h')
    rw [← hdup] at hnext
    have hm' := hnext (by rw [hdup]; exact hne)
    exact ⟨q, hcfg, by omega, by omega, (congrArg Pace.fastRetransmits hp).trans h.fastRetransmits,
      (congrArg Pace.congestionEvents hp).trans h.congestionEvents⟩
  · have hdup : c'.dupAckCount = 0 := congrArg Pace.dupAckCount hp
    have hfull := hiff.mp heq
    have hfr := h.fastRetransmits
    have hce := h.congestionEvents
    have hfr' : c'.stats.fastRetransmits = c.stats.fastRetransmits + 1 :=
      congrArg Pace.fastRetransmits hp
    have hce' : c'.stats.congestionEvents = c.stats.congestionEvents + 1 :=
      congrArg Pace.congestionEvents hp
    refine ⟨q + 1, hcfg, ?_, ?_, by omega, by omega⟩
    · rw [hdup, Nat.mul_succ, show (0 : U32).toNat = 0 from rfl]
      omega
    · rw [hdup]
      exact dupPeriod_pos _

theorem Pair.Advanced.counter (h : Pair.Advanced b ccfg scfg s p₀) :
    (p₀.get s).conn.dupAckCount = 0 := by
  obtain ⟨p, a, _, _, ⟨hdr, ha, hadv⟩, hr⟩ := h
  obtain ⟨e, he, rfl⟩ := Pair.step_inv hr
  obtain ⟨w, _, hp⟩ := (call_beat he).advances ha hadv
  rw [Pair.get_set_self]
  exact congrArg Pace.dupAckCount hp

theorem stretch_cycles (h₀ : (p₀.get s).conn.dupAckCount = 0) (h : Pair.Stretch b s p₀ n p) :
    ∃ q, Cycles (p₀.get s).conn n q (p.get s).conn := by
  induction h with
  | start =>
    refine ⟨0, rfl, ?_, ?_, rfl, rfl⟩
    · rw [h₀]; rfl
    · rw [h₀]; exact dupPeriod_pos _
  | duplicate _ _ hrep hr ih =>
    obtain ⟨q, hq⟩ := ih
    obtain ⟨e, he, rfl⟩ := Pair.step_inv hr
    rw [Pair.get_set_self]
    exact hq.duplicate (call_beat he) hrep
  | @other n p p' t a _ _ hquiet hr ih =>
    obtain ⟨q, hq⟩ := ih
    obtain ⟨e, he, rfl⟩ := Pair.step_inv hr
    rcases s.eq_or_peer t with rfl | rfl
    · obtain ⟨hadv, hrep, hf⟩ := hquiet rfl
      rw [Pair.get_set_self]
      exact ⟨q, hq.still ((call_beat he).still hadv hrep hf)⟩
    · rw [Pair.get_set_peer]
      exact ⟨q, hq⟩

/-- **One cut per period of duplicates**: between two advances without a timeout a loss event is
    one cut exactly while fewer than two periods of duplicates arrive. -/
theorem cuts_per_duplicates (h₀ : Pair.Advanced b ccfg scfg s p₀) (h : Pair.Stretch b s p₀ n p) :
    (p.get s).conn.stats.fastRetransmits =
        (p₀.get s).conn.stats.fastRetransmits + n / (p₀.get s).conn.config.dupPeriod ∧
      (p.get s).conn.stats.congestionEvents =
        (p₀.get s).conn.stats.congestionEvents + n / (p₀.get s).conn.config.dupPeriod ∧
      ((p.get s).conn.stats.fastRetransmits ≤ (p₀.get s).conn.stats.fastRetransmits + 1 ↔
        n < 2 * (p₀.get s).conn.config.dupPeriod) := by
  obtain ⟨q, hq⟩ := stretch_cycles h₀.counter h
  have hpos := dupPeriod_pos (p₀.get s).conn.config
  have hdiv : n / (p₀.get s).conn.config.dupPeriod = q := by
    rw [hq.count, Nat.mul_add_div hpos, Nat.div_eq_of_lt hq.below, Nat.add_zero]
  refine ⟨by rw [hdiv]; exact hq.fastRetransmits, by rw [hdiv]; exact hq.congestionEvents, ?_⟩
  rw [hq.fastRetransmits, Nat.add_le_add_iff_left, ← hdiv, ← Nat.lt_succ_iff, Nat.div_lt_iff_lt_mul hpos]

/-! ## One lost segment

Eight one-byte segments; the first is acknowledged, the second is lost, the other six arrive and
are acknowledged in order. -/

instance decidableAdvances (c : Connection) (a : Call) : Decidable (c.Advances a) :=
  inferInstanceAs (Decidable (∃ h ∈ c.ackOf a, _))

/-- The call neither advances `send_base` of the side `s` nor is a tick of that side. -/
def Pair.calm (s : Side) (p : Pair) (t : Side) : Call → Bool
  | .onTick _ => t != s
  | a => t != s || !decide ((p.get s).conn.Advances a)

theorem calm_quiet {t : Side} (h : p.calm s t a = true) :
    t = s → ¬ (p.get s).conn.Advances a ∧ ¬ (p.get s).conn.Fires b a := by
  rintro rfl
  cases a with
  | onTick now => simp [Pair.calm] at h
  | _ =>
    refine ⟨by simpa [Pair.calm] using h, ?_⟩
    rintro ⟨now, heq, _⟩
    cases heq

theorem play_stretch : ∀ {acts : List (Side × Act)} {n : Nat} {p p' : Pair}, Pair.Stretch b s p₀ n p →
    Pair.play b (Pair.calm s) acts p = .ok p' → ∃ n', Pair.Stretch b s p₀ n' p'
  | [], n, _, _, h, hp => by cases hp; exact ⟨n, h⟩
  | (t, act) :: acts, n, p, p', h, hp => by
    simp only [Pair.play] at hp
    split at hp
    · cases hp
    · rename_i a ha
      split at hp
      · rename_i hcalm
        obtain ⟨p₁, hs, hp⟩ := bind_eq_ok.mp hp
        have hquiet := calm_quiet (b := b) hcalm
        by_cases hrep : t = s ∧ (p.get s).conn.Repeats a
        · obtain ⟨hts, hrep⟩ := hrep
          rw [hts] at ha hs
          exact play_stretch (.duplicate h (Pair.callOf_legal ha) hrep hs) hp
        · refine play_stretch (.other h (Pair.callOf_legal ha) (fun ht => ?_) hs) hp
          exact ⟨(hquiet ht).1, fun hr => hrep ⟨ht, hr⟩, (hquiet ht).2⟩
      · cases hp

/-- Does the script `before`, an advance of the client and then the script `after`, without
    another advance or a tick of the client, play to states that pass the test? -/
def Pair.playsLoss (b : Build) (cfg : Config) (before : List (Side × Act)) (turn : Act)
    (after : List (Side × Act)) (test : Pair → Pair → Bool) : Bool :=
  match (do
    let p ← Pair.start b cfg cfg 0 0
    let p ← Pair.play b (fun _ _ _ => true) before p
    match p.callOf .client turn with
    | none => .error .outOfBounds
    | some a =>
      if p.client.conn.Advances a then do
        let p₀ ← p.step b .client a
        let p' ← Pair.play b (Pair.calm .client) after p₀
        .ok (p₀, p')
      else .error .unreachable) with
  | .ok r => test r.1 r.2
  | .error _ => false

theorem playsLoss_stretch {cfg : Config} {before after : List (Side × Act)} {turn : Act}
    {test : Pair → Pair → Bool} (h : Pair.playsLoss b cfg before turn after test = true) :
    ∃ p₀ p n, Pair.Advanced b cfg cfg .client p₀ ∧ Pair.Stretch b .client p₀ n p ∧
      test p₀ p = true := by
  unfold Pair.playsLoss at h
  split at h
  · rename_i r hr
    obtain ⟨p₁, h₁, hr⟩ := bind_eq_ok.mp hr
    obtain ⟨p₂, h₂, hr⟩ := bind_eq_ok.mp hr
    split at hr
    · cases hr
    · rename_i a ha
      split at hr
      · rename_i hadv
        obtain ⟨p₀, h₀, hr⟩ := bind_eq_ok.mp hr
        obtain ⟨p', h', hr⟩ := bind_eq_ok.mp hr
        cases hr
        obtain ⟨n, hn⟩ := play_stretch .start h'
        have hreach : Pair.Reach b cfg cfg p₂ :=
          Pair.play_reach (fun _ _ _ _ => trivial) (.start h₁) h₂
        exact ⟨p₀, p', n, ⟨p₂, a, hreach, Pair.callOf_legal ha, hadv, h₀⟩, hn, h⟩
      · cases hr
  · cases h

def lossConfig : Config where
  segmentSize := 8
  recvWindowCapacity := 64
  minRto := 20
  maxRto := 64
  maxRetries := 3
  fastRetransmitDupAcks := 3

def beforeLoss : List (Side × Act) :=
  [(.server, .deliver 1 0), (.client, .deliver 2 0), (.server, .deliver 3 1),
   (.client, .send 4 [1]), (.client, .send 4 [2]), (.client, .send 4 [3]), (.client, .send 4 [4]),
   (.client, .send 4 [5]), (.client, .send 4 [6]), (.client, .send 4 [7]), (.client, .send 4 [8]),
   (.server, .deliver 5 2)]

def afterLoss : List (Side × Act) :=
  [(.server, .deliver 5 4), (.server, .deliver 5 5), (.server, .deliver 5 6), (.server, .deliver 5 7),
   (.server, .deliver 5 8), (.server, .deliver 5 9), (.client, .deliver 7 2), (.client, .deliver 7 3),
   (.client, .deliver 7 4), (.client, .deliver 7 5), (.client, .deliver 7 6), (.client, .deliver 7 7)]

theorem loss_plays : Pair.playsLoss .checked lossConfig beforeLoss (.deliver 6 1) afterLoss
    (fun p₀ p => decide (p₀.client.conn.stats.fastRetransmits = 0 ∧
      p₀.client.conn.config.dupPeriod = 3 ∧ p.client.conn.stats.fastRetransmits = 2)) = true := by
  decide +kernel

/-- **One loss, two cuts**: no datagram is duplicated or reordered, one is lost, and the window
    is cut twice without an advance or a tick in between. -/
theorem one_loss_two_cuts : ∃ p₀ p n, Pair.Advanced .checked lossConfig lossConfig .client p₀ ∧
    Pair.Stretch .checked .client p₀ n p ∧
    ¬ (p.get .client).conn.stats.fastRetransmits ≤ (p₀.get .client).conn.stats.fastRetransmits + 1 := by
  obtain ⟨p₀, p, n, h₀, hn, ht⟩ := playsLoss_stretch loss_plays
  obtain ⟨hbase, _, hfast⟩ := of_decide_eq_true ht
  refine ⟨p₀, p, n, h₀, hn, ?_⟩
  show ¬ p.client.conn.stats.fastRetransmits ≤ p₀.client.conn.stats.fastRetransmits + 1
  omega

theorem cuts_per_duplicates_sample : ∃ p₀ p n, Pair.Advanced .checked lossConfig lossConfig .client p₀ ∧
    Pair.Stretch .checked .client p₀ n p ∧ n / 3 = 2 ∧
    p.client.conn.stats.congestionEvents = p₀.client.conn.stats.congestionEvents + 2 := by
  obtain ⟨p₀, p, n, h₀, hn, ht⟩ := playsLoss_stretch loss_plays
  obtain ⟨hbase, hper, hfast⟩ := of_decide_eq_true ht
  obtain ⟨hfr, hce, _⟩ := cuts_per_duplicates h₀ hn
  rw [show (p₀.get .client).conn.config.dupPeriod = 3 from hper] at hfr hce
  have hq : n / 3 = 2 := by
    have : p.client.conn.stats.fastRetransmits = p₀.client.conn.stats.fastRetransmits + n / 3 := hfr
    omega
  exact ⟨p₀, p, n, h₀, hn, hq, by rw [← hq]; exact hce⟩

end Loss

end Distrans
