import Distrans.Transport.Invariants

/-!
# Calls that return

When does a call return, that is, neither overflow nor index out of bounds nor loop?  Headers
need `RecvFits` (the receive side fits the sequence space), sending needs `SendOk`, timers need
`Timers`; each lemma here turns these into the existence of a result.
-/

set_option autoImplicit false

namespace Distrans

open Machine OrdMap Tiling

variable {b : Build} {c c' : Connection} {out : List Datagram}

/-! ## The receive side -/

/-- Nothing but an arriving segment touches the receive side. -/
theorem RecvOk.move (h : RecvOk c) (hm : Move b none c c') : RecvOk c' := by
  cases hm with
  | deliver hh => cases hh
  | _ => exact h.congr rfl rfl

theorem RecvFits.move (h : RecvFits b c) (hm : Move b none c c') : RecvFits b c' :=
  fun hb => (h hb).move hm

/-! ## Sending -/

/-- The bytes in the retransmission buffer. -/
def Connection.inFlight (c : Connection) : Nat := (c.segments.map fun e => e.2.length).sum

theorem SendOk.inFlight_le (h : SendOk c) : c.inFlight ≤ c.nextSeq.toNat := by
  obtain ⟨a, ht⟩ := h.tiles
  have := ht.sum
  simp only [Connection.inFlight]
  omega

theorem inFlightBytes_returns (hlt : c.inFlight < 2 ^ 32) (b : Build) :
    ∃ w, c.inFlightBytes b = .ok w ∧ w.toNat = c.inFlight := by
  have hlens : ((c.unacked.values.map (·.data)).map List.length).sum = c.inFlight := by
    rw [Connection.inFlight, Connection.segments, OrdMap.values, List.map_map, List.map_map,
      List.map_map]
    rfl
  have hmap : (c.unacked.values.map fun s => len32 s.data) =
      (c.unacked.values.map (·.data)).map len32 := by rw [List.map_map]; rfl
  have hsum : ((c.unacked.values.map fun s => len32 s.data).map BitVec.toNat).sum =
      c.inFlight := by
    rw [hmap, sum_len32 (by omega), hlens]
  obtain ⟨w, hw, hn⟩ := b.sum_ok (show _ < 2 ^ 32 from by rw [hsum]; omega)
  exact ⟨w, hw, hn.trans hsum⟩

theorem SendOk.inFlightBytes (h : SendOk c) (b : Build) :
    ∃ w, c.inFlightBytes b = .ok w ∧ w.toNat = c.inFlight :=
  inFlightBytes_returns (Nat.lt_of_le_of_lt h.inFlight_le c.nextSeq.isLt) b

/-- What the window leaves beyond the bytes in flight, at least one byte when nothing is. -/
def Connection.admissible (c : Connection) : Nat :=
  if c.inFlight = 0 then max (c.effectiveWindow.toNat) 1 else c.effectiveWindow.toNat - c.inFlight

/-- The cap of `try_send_more`. -/
theorem admissionCap_returns (hlt : c.inFlight < 2 ^ 32) (b : Build) :
    ∃ cap, c.admissionCap b = .ok cap ∧ cap.toNat = c.admissible := by
  obtain ⟨w, hw, hn⟩ := inFlightBytes_returns hlt b
  simp only [Connection.admissionCap, hw, ok_bind]
  refine ⟨_, rfl, ?_⟩
  by_cases h0 : w = 0
  · have hz : c.inFlight = 0 := by rw [← hn, h0]; rfl
    rw [if_pos h0, Connection.admissible, if_pos hz, max_toNat, satSub_toNat, hn, hz]; rfl
  · have hz : c.inFlight ≠ 0 := fun hz => h0 (BitVec.eq_of_toNat_eq (by rw [hn, hz]; rfl))
    rw [if_neg h0, Connection.admissible, if_neg hz, satSub_toNat, hn]

theorem SendOk.admissionCap (h : SendOk c) (b : Build) :
    ∃ cap, c.admissionCap b = .ok cap ∧ cap.toNat =
      if c.inFlight = 0 then max (c.effectiveWindow.toNat) 1
      else c.effectiveWindow.toNat - c.inFlight :=
  admissionCap_returns (Nat.lt_of_le_of_lt h.inFlight_le c.nextSeq.isLt) b

theorem cutSegment_returns (b : Build) (hs : SendOk c) (hr : RecvFits b c) {n : Nat}
    (hn : n ≤ c.sendQueue.length) : ∃ r, c.cutSegment b n = .ok r := by
  have hroom := hs.room
  have hn32 : (BitVec.ofNat 32 n).toNat = n := by rw [BitVec.toNat_ofNat]; omega
  obtain ⟨nextSeq, hseq, _⟩ := b.add_ok (x := c.nextSeq) (y := BitVec.ofNat 32 n) (by omega)
  have hr' : RecvFits b { c with sendQueue := c.sendQueue.drop n, nextSeq } := hr.congr rfl rfl
  obtain ⟨bytes, hb⟩ := hr'.headerBytes
  simp only [Connection.cutSegment, hseq, hb, ok_bind]
  exact ⟨_, rfl⟩

/-- The sending loop returns if, in the states `P` it passes through, the cap is computed and a chunk
    that it admits is cut. -/
theorem trySendLoop_ends {P : Connection → Prop}
    (hcap : ∀ {c : Connection}, P c → ∃ cap, c.admissionCap b = .ok cap)
    (hcut : ∀ {c : Connection} {n : Nat} {cap : U32}, P c → c.admissionCap b = .ok cap → 0 < n →
      n ≤ c.sendQueue.length → n ≤ c.config.segmentSize → n ≤ cap.toNat →
      ∃ c' d, c.cutSegment b n = .ok (c', d) ∧ P c') :
    ∀ {fuel : Nat} {c : Connection}, P c → 1 ≤ c.config.segmentSize → c.sendQueue.length < fuel →
      ∃ r, c.trySendLoop b fuel = .ok r
  | 0, _, _, _, hf => by omega
  | fuel + 1, c, hc, hseg, hf => by
    obtain ⟨cap, hcap'⟩ := hcap hc
    simp only [Connection.trySendLoop, hcap', ok_bind]
    split
    · exact ⟨_, rfl⟩
    · rename_i hq
      split
      · exact ⟨_, rfl⟩
      · rename_i h0
        have hqlen : 0 < c.sendQueue.length := by
          rw [List.length_pos_iff]; simpa using hq
        have hpos : 0 < cap.toNat := by
          rcases Nat.eq_zero_or_pos cap.toNat with hz | hz
          · exact absurd (BitVec.eq_of_toNat_eq hz) h0
          · exact hz
        obtain ⟨n, hn⟩ : ∃ n, n = min (min c.config.segmentSize c.sendQueue.length) cap.toNat :=
          ⟨_, rfl⟩
        obtain ⟨c₁, d, hchunk, hc₁⟩ :=
          hcut (n := n) hc hcap' (by omega) (by omega) (by omega) (by omega)
        obtain ⟨⟨c₂, out₂⟩, hrec⟩ : ∃ r, c₁.trySendLoop b fuel = .ok r :=
          trySendLoop_ends hcap hcut hc₁ (by rw [(cutSegment_state hchunk).2]; exact hseg)
            (by rw [cutSegment_queue hchunk, List.length_drop]; omega)
        rw [← hn, hchunk, ok_bind, hrec, ok_bind]
        exact ⟨_, rfl⟩

theorem trySendLoop_returns (b : Build) {fuel : Nat} (hs : SendOk c) (hr : RecvFits b c) (ho : c.isOpen)
    (hseg : 1 ≤ c.config.segmentSize) (hf : c.sendQueue.length < fuel) :
    ∃ r, c.trySendLoop b fuel = .ok r := by
  refine trySendLoop_ends (P := fun c => SendOk c ∧ RecvFits b c ∧ c.isOpen) (fun ⟨hs, _, _⟩ => ?_)
    (fun {c n cap} ⟨hs, hr, ho⟩ hcap hn hq _ hle => ?_) ⟨hs, hr, ho⟩ hseg hf
  · obtain ⟨cap, hcap, _⟩ := hs.admissionCap b
    exact ⟨cap, hcap⟩
  · obtain ⟨⟨c₁, d⟩, hcut⟩ := cutSegment_returns b hs hr hq
    have hmove : Move b none c c₁ := cutSegment_move ho hcap hn hq hle hcut
    have hopen : c₁.isOpen := by rw [isOpen_congr (cutSegment_state hcut).1]; exact ho
    exact ⟨c₁, d, hcut, hs.move hmove, hr.move hmove, hopen⟩

theorem maybeSendFin_returns (hr : RecvFits b c) : ∃ r, c.maybeSendFin b = .ok r := by
  unfold Connection.maybeSendFin
  split
  · have hr' : RecvFits b { c with state := .closing, finPending := some ⟨c.now, 1⟩ } :=
      hr.congr rfl rfl
    obtain ⟨bytes, hb⟩ := hr'.headerBytes
    simp only [Connection.buildFin, hb, ok_bind]
    exact ⟨_, rfl⟩
  · exact ⟨_, rfl⟩

theorem drainAndMaybeFin_returns (b : Build) (hs : SendOk c) (hr : RecvFits b c)
    (hseg : 1 ≤ c.config.segmentSize) : ∃ r, c.drainAndMaybeFin b = .ok r := by
  obtain ⟨⟨c₁, out₁⟩, h₁⟩ : ∃ r, c.trySendMore b = .ok r := by
    unfold Connection.trySendMore
    split
    · rename_i ho
      exact trySendLoop_returns b hs hr ho hseg (Nat.lt_succ_self _)
    · exact ⟨_, rfl⟩
  have hm₁ : Moves b none c c₁ := trySendMore_moves hseg h₁
  have hr₁ : RecvFits b c₁ := hm₁.preserves RecvFits.move hr
  obtain ⟨⟨c₂, fin⟩, h₂⟩ := maybeSendFin_returns hr₁
  simp only [Connection.drainAndMaybeFin, h₁, h₂, ok_bind]
  exact ⟨_, rfl⟩

/-! ## Timers -/

/-- A configuration whose timers and windows stay within their words. -/
structure ConfigOk (b : Build) (cfg : Config) : Prop where
  segment_pos : 1 ≤ cfg.segmentSize
  window : b = .checked → 2 * cfg.segment32.toNat < 2 ^ 32
  rto : cfg.minRto ≤ cfg.maxRto
  range : b = .checked → cfg.maxRto.toNat < 2 ^ 58
  retries : cfg.maxRetries.toNat + 1 < 2 ^ 32

theorem clamp_ok {x lo hi : U64} (h : lo ≤ hi) :
    ∃ v, RtoEstimator.clamp x lo hi = .ok v ∧ v ≤ hi := by
  obtain ⟨v, hv, hn⟩ := RtoEstimator.clamp_eq (x := x) h
  have hle : lo.toNat ≤ hi.toNat := h
  refine ⟨v, hv, ?_⟩
  show v.toNat ≤ hi.toNat
  omega

theorem RtoOk.baseRto {cfg : Config} {r : RtoEstimator} (h : RtoOk b cfg r)
    (hle : cfg.minRto ≤ cfg.maxRto) : ∃ v, r.baseRto b = .ok v ∧ v ≤ cfg.maxRto := by
  have hclamp : ∀ est, ∃ v, RtoEstimator.clamp est r.minRto r.maxRto = .ok v ∧ v ≤ cfg.maxRto := by
    intro est
    rw [h.minRto, h.maxRto]
    exact clamp_ok hle
  unfold RtoEstimator.baseRto
  cases hs : r.srtt with
  | none => exact hclamp r.minRto
  | some srtt =>
    have hmax : (max (r.rttvar / (SCALE / 2#64)) 1#64).toNat = max (r.rttvar.toNat / 4) 1 := by
      rw [max_toNat, BitVec.toNat_udiv]; rfl
    obtain ⟨four, hf⟩ : ∃ four, b.mul 4#64 (max (r.rttvar / (SCALE / 2#64)) 1#64) = .ok four := by
      refine Build.fit_returns fun hb => ?_
      have := h.rttvar hb
      rw [hmax]
      simp only [show (4#64).toNat = 4 from rfl, RTT_LIMIT] at *
      omega
    obtain ⟨sum, hsum⟩ : ∃ sum, b.add (srtt / SCALE) four = .ok sum := by
      refine Build.fit_returns fun hb => ?_
      have hv := h.rttvar hb
      have hs' := h.srtt hb srtt hs
      subst hb
      obtain ⟨_, hfn⟩ := Build.checked_mul hf
      rw [hmax] at hfn
      rw [BitVec.toNat_udiv]
      simp only [show (4#64).toNat = 4 from rfl, show SCALE.toNat = 8 from rfl, RTT_LIMIT] at *
      omega
    simp only [hf, hsum, ok_bind]
    exact hclamp sum

theorem RtoOk.current {cfg : Config} {r : RtoEstimator} (h : RtoOk b cfg r)
    (hle : cfg.minRto ≤ cfg.maxRto) (hrange : b = .checked → cfg.maxRto.toNat < 2 ^ 58) :
    ∃ v, r.current b = .ok v ∧ v ≤ cfg.maxRto := by
  obtain ⟨base, hbase, hble⟩ := h.baseRto hle
  have hbo : (r.backoff.setWidth 64).toNat = r.backoff.toNat := by
    rw [BitVec.toNat_setWidth]; have := r.backoff.isLt; omega
  obtain ⟨product, hp⟩ : ∃ product, b.mul base (r.backoff.setWidth 64) = .ok product := by
    refine Build.fit_returns fun hb => ?_
    have h1 : base.toNat ≤ cfg.maxRto.toNat := hble
    have h2 := hrange hb
    have h3 := h.backoff
    rw [hbo]
    calc base.toNat * r.backoff.toNat ≤ base.toNat * 64 := Nat.mul_le_mul_left _ h3
      _ < 2 ^ 64 := by omega
  refine ⟨min product r.maxRto, ?_, ?_⟩
  · simp only [RtoEstimator.current, hbase, hp, ok_bind]
  · rw [h.maxRto]; exact min_le_right _ _

theorem RtoOk.onTimeout_returns {cfg : Config} {r : RtoEstimator} (h : RtoOk b cfg r) :
    ∃ r', r.onTimeout b = .ok r' := by
  obtain ⟨backoff, hr, _⟩ := RtoEstimator.onTimeout_eq h.backoff
  exact ⟨_, hr b⟩

theorem halvedWindow_returns (h : b = .checked → 2 * c.config.segment32.toNat < 2 ^ 32) :
    ∃ w, c.halvedWindow b = .ok w := by
  obtain ⟨floor, hf⟩ : ∃ f, b.mul 2#32 c.config.segment32 = .ok f := Build.fit_returns h
  simp only [Connection.halvedWindow, hf, ok_bind]
  exact ⟨_, rfl⟩

/-- A counter that has not passed `max_retries` can be raised. -/
theorem PendingOk.attempts_returns {now : Tick} {m : U32} {p : PendingControl}
    (h : PendingOk now m p) (hm : m.toNat + 1 < 2 ^ 32) :
    ∃ n, b.add p.attempts 1#32 = .ok n ∧ n.toNat = p.attempts.toNat + 1 := by
  have := h.attempts
  exact b.add_ok (by simp only [show (1#32).toNat = 1 from rfl]; omega)

/-- No unmarked segment has used up its counter. -/
def CountsOk (c : Connection) : Prop :=
  ∀ e ∈ c.unacked.entries, e.2.sacked = false → e.2.retransmitCount.toNat + 1 < 2 ^ 32

/-- Every counter that a tick may raise can be raised. -/
structure Raises (b : Build) (c : Connection) : Prop where
  handshake : ∀ p, c.handshake = some p → ∃ n, b.add p.attempts 1#32 = .ok n
  fin : ∀ p, c.finPending = some p → ∃ n, b.add p.attempts 1#32 = .ok n
  resent : ∀ e ∈ c.unacked.entries, e.2.sacked = false → ∃ n, b.add e.2.retransmitCount 1#32 = .ok n

theorem Raises.wrapping (c : Connection) : Raises .wrapping c :=
  ⟨fun _ _ => ⟨_, Build.wrapping_add _ _⟩, fun _ _ => ⟨_, Build.wrapping_add _ _⟩,
    fun _ _ _ => ⟨_, Build.wrapping_add _ _⟩⟩

theorem tickHandshake_returns (hle : c.config.minRto ≤ c.config.maxRto)
    (hrange : b = .checked → c.config.maxRto.toNat < 2 ^ 58)
    (hadd : ∀ p, c.handshake = some p → ∃ n, b.add p.attempts 1#32 = .ok n) (ht : Timers b c)
    (hr : RecvFits b c) (hst : c.state = .synSent ∨ c.state = .synReceived) :
    ∃ r, c.tickHandshake b = .ok r := by
  unfold Connection.tickHandshake
  split
  · exact ⟨_, rfl⟩
  · rename_i p hp
    obtain ⟨rto, hrto, _⟩ := ht.rto.current hle hrange
    rw [hrto, ok_bind]
    split
    · exact ⟨_, rfl⟩
    · obtain ⟨n, hn⟩ := hadd p hp
      rw [hn, ok_bind]
      split
      · exact ⟨_, rfl⟩
      · obtain ⟨est, hest⟩ := ht.rto.onTimeout_returns
        rw [hest, ok_bind]
        have hbytes : ∀ c' : Connection, c'.recvBuffer = c.recvBuffer →
            c'.delivered = c.delivered → ∃ bytes, c'.headerBytes b = .ok bytes :=
          fun c' h1 h2 => (hr.congr h1 h2).headerBytes
        obtain ⟨bytes, hb⟩ := hbytes { c with
          rto := est, handshake := some ⟨c.now, n⟩
          stats := { c.stats with controlRetransmissions := c.stats.controlRetransmissions + 1 } }
          rfl rfl
        rcases hst with hst | hst <;>
        · simp only [hst, Connection.buildSyn, Connection.buildSynack] at hb ⊢
          simp only [hb, ok_bind]
          exact ⟨_, rfl⟩

theorem tickData_returns (hwindow : b = .checked → 2 * c.config.segment32.toNat < 2 ^ 32)
    (hle : c.config.minRto ≤ c.config.maxRto)
    (hrange : b = .checked → c.config.maxRto.toNat < 2 ^ 58) (ht : Timers b c) (hr : RecvFits b c)
    (hadd : ∀ e ∈ c.unacked.entries, e.2.sacked = false →
      ∃ n, b.add e.2.retransmitCount 1#32 = .ok n) : ∃ r, c.tickData b = .ok r := by
  unfold Connection.tickData
  split
  · exact ⟨_, rfl⟩
  · obtain ⟨rto, hrto, _⟩ := ht.rto.current hle hrange
    rw [hrto, ok_bind]
    split
    · exact ⟨_, rfl⟩
    · obtain ⟨est, hest⟩ := ht.rto.onTimeout_returns
      obtain ⟨w, hw⟩ := halvedWindow_returns hwindow
      obtain ⟨u, hu⟩ : ∃ u, c.unacked.mapM (fun _ seg => Connection.resend b c.now seg) = .ok u := by
        refine mapM_ok fun e he => ?_
        unfold Connection.resend
        split
        · exact ⟨_, rfl⟩
        · rename_i hs
          obtain ⟨n, hn⟩ := hadd e he (by simpa using hs)
          rw [hn, ok_bind]
          exact ⟨_, rfl⟩
      have hr' : RecvFits b { c with
          rto := est, ssthresh := w, cwnd := c.config.segment32, dupAckCount := 0
          stats := { c.stats with congestionEvents := c.stats.congestionEvents + 1 } } :=
        hr.congr rfl rfl
      obtain ⟨bytes, hb⟩ := hr'.headerBytes
      simp only [hest, hw, hb, hu, ok_bind]
      split <;> exact ⟨_, rfl⟩

theorem tickData_finPending (h : c.tickData b = .ok (c', out)) : c'.finPending = c.finPending := by
  cases tickData_branch h <;> rfl

theorem tickFin_returns (hle : c.config.minRto ≤ c.config.maxRto)
    (hrange : b = .checked → c.config.maxRto.toNat < 2 ^ 58)
    (hadd : ∀ p, c.finPending = some p → ∃ n, b.add p.attempts 1#32 = .ok n) (ht : Timers b c)
    (hr : RecvFits b c) : ∃ r, c.tickFin b = .ok r := by
  unfold Connection.tickFin
  split
  · exact ⟨_, rfl⟩
  · rename_i p hp
    obtain ⟨rto, hrto, _⟩ := ht.rto.current hle hrange
    rw [hrto, ok_bind]
    split
    · exact ⟨_, rfl⟩
    · obtain ⟨n, hn⟩ := hadd p hp
      rw [hn, ok_bind]
      split
      · exact ⟨_, rfl⟩
      · obtain ⟨est, hest⟩ := ht.rto.onTimeout_returns
        have hr' : RecvFits b { c with
            rto := est, finPending := some ⟨c.now, n⟩
            stats := { c.stats with
              controlRetransmissions := c.stats.controlRetransmissions + 1 } } := hr.congr rfl rfl
        obtain ⟨bytes, hb⟩ := hr'.headerBytes
        simp only [hest, Connection.buildFin, hb, ok_bind]
        exact ⟨_, rfl⟩

/-- **A tick returns** whenever its timers, its counters and both sides are in order. -/
theorem onTick_runs (hseg : 1 ≤ c.config.segmentSize)
    (hwindow : b = .checked → 2 * c.config.segment32.toNat < 2 ^ 32)
    (hle : c.config.minRto ≤ c.config.maxRto)
    (hrange : b = .checked → c.config.maxRto.toNat < 2 ^ 58)
    (hadd : Raises b c) (ht : Timers b c) (hs : SendOk c) (hr : RecvFits b c) (now : Tick) :
    ∃ r, c.onTick b now = .ok r := by
  have ht' := ht.advance now
  have hs' : SendOk (c.advance now) := hs.of_segments rfl rfl rfl
  have hr' : RecvFits b (c.advance now) := hr.congr rfl rfl
  have hopen : ∃ r, (c.advance now).tickOpen b = .ok r := by
    obtain ⟨⟨c₁, out₁⟩, h₁⟩ :=
      tickData_returns (c := c.advance now) hwindow hle hrange ht' hr' hadd.resent
    have hm₁ : Moves b none (c.advance now) c₁ := tickData_moves h₁
    have hr₁ := hm₁.preserves RecvFits.move hr'
    have hcfg₁ : c₁.config = c.config := hm₁.config
    have hfin₁ : c₁.finPending = (c.advance now).finPending := tickData_finPending h₁
    obtain ⟨⟨c₂, out₂⟩, h₂⟩ := tickFin_returns (by rw [hcfg₁]; exact hle)
      (by rw [hcfg₁]; exact hrange) (by rw [hfin₁]; exact hadd.fin)
      (hm₁.preserves Timers.move ht') hr₁
    have hm₂ : Moves b none (c.advance now) c₂ := hm₁.trans (tickFin_moves h₂)
    obtain ⟨⟨c₃, out₃⟩, h₃⟩ := drainAndMaybeFin_returns b (hm₂.preserves SendOk.move hs')
      (hm₂.preserves RecvFits.move hr') (by rw [hm₂.config]; exact hseg)
    simp only [Connection.tickOpen, h₁, h₂, h₃, ok_bind]
    split
    · exact ⟨_, rfl⟩
    · split <;> exact ⟨_, rfl⟩
  unfold Connection.onTick
  dsimp only
  split
  · rename_i hst
    exact tickHandshake_returns (c := c.advance now) hle hrange hadd.handshake ht' hr' (Or.inl hst)
  · rename_i hst
    exact tickHandshake_returns (c := c.advance now) hle hrange hadd.handshake ht' hr' (Or.inr hst)
  · exact hopen
  · exact hopen
  · exact ⟨_, rfl⟩

/-- The retry limit keeps the control counters in range. -/
theorem onTick_returns (hcfg : ConfigOk b c.config) (ht : Timers b c) (hs : SendOk c)
    (hr : RecvFits b c) (hcount : CountsOk c) (now : Tick) : ∃ r, c.onTick b now = .ok r := by
  refine onTick_runs hcfg.segment_pos hcfg.window hcfg.rto hcfg.range
    ⟨fun p hp => ?_, fun p hp => ?_, fun e he hmark => ?_⟩ ht hs hr now
  · obtain ⟨n, hn, _⟩ := (ht.handshake p hp).attempts_returns (b := b) hcfg.retries
    exact ⟨n, hn⟩
  · obtain ⟨n, hn, _⟩ := (ht.finPending p hp).1.attempts_returns (b := b) hcfg.retries
    exact ⟨n, hn⟩
  · obtain ⟨n, hn, _⟩ := b.add_ok (x := e.2.retransmitCount) (y := 1#32) (hcount e he hmark)
    exact ⟨n, hn⟩

end Distrans
