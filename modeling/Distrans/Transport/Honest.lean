import Distrans.Transport.Counters
import Distrans.Transport.Guarantees

/-!
# Honest runs never panic

A client and a server that hear only each other, with sensible configurations (`Sane`), early
ticks (`Early`) and fewer than `2 ^ 32` bytes in each direction.

* `Linked.accepts` — what the peer has emitted is in order when it arrives: the acknowledgements
  lie within what was sent, every selective ack starts before it ends, the payload is a piece of
  the stream.
* `honest_never_panics` — **in a run of fewer than `2 ^ 32 - 1` steps every call returns**, and
  no statistic leaves its word.
-/

set_option autoImplicit false

namespace Distrans

open Machine OrdMap Tiling

variable {b : Build} {X Y : Endpoint} {c c' : Connection} {n : Nat}

/-! ## Bounds -/

/-- A configuration whose arithmetic stays within its words. -/
structure Config.Sane (cfg : Config) : Prop where
  segment_pos : 1 ≤ cfg.segmentSize
  segment_lt : cfg.segmentSize < 2 ^ 31
  dup_acks : 1 ≤ cfg.fastRetransmitDupAcks.toNat
  rto : cfg.minRto ≤ cfg.maxRto
  range : cfg.maxRto.toNat ≤ 2 ^ 57

theorem Config.Sane.window {cfg : Config} (h : cfg.Sane) : 2 * cfg.segment32.toNat < 2 ^ 32 := by
  have := h.segment_lt
  simp only [Config.segment32, BitVec.toNat_ofNat]
  omega

theorem Config.Sane.timeouts {cfg : Config} (h : cfg.Sane) : cfg.maxRto.toNat < 2 ^ 58 :=
  Nat.lt_of_le_of_lt h.range (by decide)

/-- A tick after which every round trip can still be scaled. -/
def Early (t : Tick) : Prop := t.toNat < 2 ^ 60

instance decidableEarly (t : Tick) : Decidable (Early t) := inferInstanceAs (Decidable (_ < _))

/-- The bytes a call passes to `send`. -/
def Call.sends : Call → Nat
  | .send _ data => data.length
  | _ => 0

theorem Endpoint.call_sends {e e' : Endpoint} {a : Call} (h : e.call b a = .ok e') :
    e'.sent.length = e.sent.length + a.sends := by
  cases a with
  | send now data =>
    obtain ⟨⟨c, out⟩, _, h'⟩ := bind_eq_ok.mp h
    cases h'
    exact List.length_append
  | recv => cases h; rfl
  | _ =>
    obtain ⟨⟨c, out⟩, _, h'⟩ := bind_eq_ok.mp h
    cases h'; rfl

/-- All statistics fit their 64-bit words. -/
def Stats.Fits (st : Stats) : Prop :=
  ∀ n ∈ [st.dataSegmentsSent, st.dataSegmentsRetransmitted, st.ackSegmentsSent,
    st.controlRetransmissions, st.bytesSentApp, st.bytesDeliveredApp, st.duplicateBytesReceived,
    st.fastRetransmits, st.congestionEvents], n < 2 ^ 64

/-- What an endpoint keeps in the first `n` calls of a run. -/
structure InBounds (b : Build) (n : Nat) (e : Endpoint) : Prop where
  config : e.conn.config.Sane
  timers : Timers b e.conn
  early : Early e.conn.now
  counts : Counts (.after n e) e.conn

theorem since_lt (h : Early c.now) (t : Tick) : (c.since t).toNat < RTT_LIMIT := by
  have hlt : c.now.toNat < 2 ^ 60 := h
  rw [Connection.since, satSub_toNat]
  simp only [RTT_LIMIT]
  omega

theorem early_advance (h : Early c.now) {now : Tick} (hnow : Early now) :
    Early (c.advance now).now := by
  have h₁ : c.now.toNat < 2 ^ 60 := h
  have h₂ : now.toNat < 2 ^ 60 := hnow
  show (max c.now now).toNat < 2 ^ 60
  rw [max_toNat]
  omega

theorem Linked.sendOk (h : Linked X Y) : SendOk X.conn := by
  obtain ⟨_, _, _, _, h₁, _⟩ := h
  exact h₁.sendOk

theorem Linked.recvOk (h : Linked X Y) : RecvOk X.conn := by
  obtain ⟨_, _, _, _, _, h₂⟩ := h
  exact h₂.recvOk

/-! ## What the peer has emitted is in order -/

section Incoming

variable {d : Datagram} {f : Frame} {hdr : SegmentHeader} {app : List U8}

/-- A range that reports pieces starts before it ends. -/
theorem SackOk.le {cs : List (List U8)} {S : Set Nat} {r : SackRange} (hne : ∀ c ∈ cs, c ≠ [])
    (h : SackOk cs S r) : r.start ≤ r.stop := by
  obtain ⟨i, k, hik, hk, hstart, hstop, _⟩ := h
  have hlt := pos_lt hne hik hk
  have hle : r.start.toNat ≤ r.stop.toNat := by omega
  exact hle

theorem Linked.ranges (h : Linked X Y) (hd : d ∈ Y.emitted) (hc : Carries d f hdr app) :
    ∀ r ∈ hdr.sack, r.start ≤ r.stop := by
  obtain ⟨cs, s, _, _, h₁, _⟩ := h
  obtain ⟨a, _, _, hsack⟩ := (h₁.acks d hd f hdr app hc).1
  exact fun r hr => (hsack r hr).le h₁.send.nonempty

/-- The payload ends within the sequence space. -/
theorem Linked.payload_fits (h : Linked X Y) (hd : d ∈ Y.emitted) (hc : Carries d f hdr app)
    (hne : app ≠ []) : f.sequence.toNat + app.length < 2 ^ 32 := by
  obtain ⟨_, _, cs, s, _, h₂⟩ := h
  rcases (h₂.data d hd f hdr app hc).1 with hnil | ⟨m, hm, hseq⟩
  · exact absurd hnil hne
  · rw [hseq, ← pos_succ_of_getElem? hm]
    exact h₂.send.pos_fits (m + 1)

theorem allOnes_ne {x : U32} (h : x.toNat + 1 < 2 ^ 32) : x ≠ BitVec.allOnes 32 := by
  intro heq
  rw [heq, BitVec.toNat_allOnes] at h
  omega

theorem Linked.inOrder (h : Linked X Y) (hd : d ∈ Y.emitted) (hc : Carries d f hdr app)
    (hearly : Early X.conn.now) (hcounts : Counts (.after n X) X.conn) (hn : n + 1 < 2 ^ 32) :
    InOrder b X.conn f hdr app where
  ack := fun _ => {
    ranges := fun _ => h.ranges hd hc
    acked := fun _ _ e _ _ _ => since_lt hearly e.2.sentAt
    dups := fun _ _ _ => allOnes_ne (Nat.lt_of_le_of_lt (Nat.succ_le_succ hcounts.dups) hn)
    resend := fun _ _ e he => allOnes_ne
      (Nat.lt_of_le_of_lt (Nat.succ_le_succ (hcounts.resent e (List.mem_of_mem_head? he))) hn) }
  data := fun _ hne => h.payload_fits hd hc hne
  handshake := fun _ _ p _ _ => since_lt hearly p.sentAt

/-- After the acknowledgement and the payload the receive side still fits. -/
theorem Linked.takes (h : Linked X Y) (hd : d ∈ Y.emitted) (hc : Carries d f hdr app)
    (ho : X.conn.isOpen) {isAck : Bool} : Takes b X.conn f.sequence hdr app isAck := by
  intro c₁ resent c₂ h₁ h₂ _
  have hack : Linked (X.put c₁ resent.toList) Y := by
    split at h₁
    · exact applyAck_linked h (isFailed_of_isOpen ho) hd hc h₁
    · cases h₁
      rw [Option.toList_none, Endpoint.put_self]; exact h
  exact (deliverData_linked (X := X.put c₁ resent.toList) hack hd hc h₂).recvOk

/-- **A segment of the peer is processed** if its fields are in order. -/
theorem Linked.onDatagram_runs (h : Linked X Y) (hcfg : X.conn.config.Sane) (ht : Timers b X.conn)
    (hd : d ∈ Y.emitted) {now : Tick}
    (hin : ∀ f hdr app, Carries d f hdr app → InOrder b (X.conn.advance now) f hdr app) :
    ∃ r, X.conn.onDatagram b now d = .ok r := by
  by_cases hcar : ∃ f hdr app, Carries d f hdr app
  · obtain ⟨f, hdr, app, hcar⟩ := hcar
    have hadv := h.advance now
    rw [hcar.onDatagram now]
    refine onSegment_returns hcfg.segment_pos hcfg.segment_lt (ht.advance now)
      hadv.sendOk (fun _ => hadv.recvOk) hcar.length_lt (fun c₁ out₁ h₁ ho => ?_)
      (fun _ => hin f hdr app hcar)
    have hwin : Linked (X.move { X.conn.advance now with peerWindow := hdr.window }) Y :=
      hadv.quiet (.timers ..)
    exact (handshakeArm_linked hwin h₁).takes hd hcar ho
  · exact ⟨_, onDatagram_dropped hcar now⟩

/-- **A datagram of the peer is processed.** -/
theorem Linked.onDatagram_returns (h : Linked X Y) (hk : InBounds b n X) (hn : n + 1 < 2 ^ 32)
    (hd : d ∈ Y.emitted) {now : Tick} (hnow : Early now) :
    ∃ r, X.conn.onDatagram b now d = .ok r := by
  refine h.onDatagram_runs hk.config hk.timers hd fun f hdr app hcar => ?_
  have hcounts : Counts (.after n X) (X.conn.advance now) := { hk.counts with }
  exact (h.advance now).inOrder hd hcar (early_advance hk.early hnow) hcounts hn

end Incoming

/-! ## Timers and the application -/

theorem InBounds.raises (hk : InBounds b n X) (hn : n + 2 < 2 ^ 32) : Raises b X.conn := by
  have hadd : ∀ k : U32, k.toNat ≤ n + 1 → ∃ m, b.add k 1#32 = .ok m := by
    intro k hle
    obtain ⟨m, hm, _⟩ := b.add_ok (x := k) (y := 1#32) (by
      simp only [show (1#32).toNat = 1 from rfl]; omega)
    exact ⟨m, hm⟩
  refine ⟨fun p hp => hadd _ (hk.counts.handshake p hp), fun p hp => hadd _ (hk.counts.fin p hp),
    fun e he _ => hadd _ ?_⟩
  have hle : e.2.retransmitCount.toNat ≤ n := hk.counts.resent e he
  omega

/-- **A call returns** if the counters it raises can be raised and a segment it processes is in
    order. -/
theorem Linked.call_runs (h : Linked X Y) (hcfg : X.conn.config.Sane) (ht : Timers b X.conn)
    (hadd : Raises b X.conn) {a : Call}
    (hprocess : ∀ now d, a = .onDatagram now d → ∃ r, X.conn.onDatagram b now d = .ok r)
    (hsent : X.sent.length + a.sends < 2 ^ 32) : ∃ X', X.call b a = .ok X' := by
  have hrecv : RecvFits b X.conn := fun _ => h.recvOk
  cases a with
  | send now data =>
    have hfits : (X.sent ++ data).length < 2 ^ 32 := by
      rw [List.length_append]; exact hsent
    have hq := (h.enqueue hfits { X.conn.stats with
      bytesSentApp := X.conn.stats.bytesSentApp + data.length } (max X.conn.now now)).sendOk
    exact bind_returns (drainAndMaybeFin_returns b hq (hrecv.congr rfl rfl) hcfg.segment_pos)
      fun _ _ => ⟨_, rfl⟩
  | close now =>
    have hq := (h.requestClose (max X.conn.now now)).sendOk
    exact bind_returns (drainAndMaybeFin_returns b hq (hrecv.congr rfl rfl) hcfg.segment_pos)
      fun _ _ => ⟨_, rfl⟩
  | recv => exact ⟨_, rfl⟩
  | onTick now =>
    exact bind_returns (onTick_runs hcfg.segment_pos (fun _ => hcfg.window) hcfg.rto
      (fun _ => hcfg.timeouts) hadd ht h.sendOk (fun _ => h.recvOk) now) fun _ _ => ⟨_, rfl⟩
  | onDatagram now d => exact bind_returns (hprocess now d rfl) fun _ _ => ⟨_, rfl⟩

/-- **Every call returns.** -/
theorem Linked.call_returns (h : Linked X Y) (hk : InBounds b n X) (hn : n + 2 < 2 ^ 32)
    {a : Call} (hlegal : ∀ now d, a = .onDatagram now d → d ∈ Y.emitted)
    (hearly : ∀ now ∈ a.tick?, Early now) (hsent : X.sent.length + a.sends < 2 ^ 32) :
    ∃ X', X.call b a = .ok X' := by
  refine h.call_runs hk.config hk.timers (hk.raises hn) (fun now d ha => ?_) hsent
  subst ha
  exact h.onDatagram_returns hk (by omega) (hlegal now d rfl) (hearly now rfl)

/-- **So does every call in a build that wraps**, however many there have been. -/
theorem Linked.call_wraps (h : Linked X Y) (hcfg : X.conn.config.Sane)
    (ht : Timers .wrapping X.conn) {a : Call}
    (hlegal : ∀ now d, a = .onDatagram now d → d ∈ Y.emitted)
    (hsent : X.sent.length + a.sends < 2 ^ 32) : ∃ X', X.call .wrapping a = .ok X' := by
  have hnot : ¬ Build.wrapping = .checked := by rintro ⟨⟩
  refine h.call_runs hcfg ht (.wrapping _) (fun now d ha => ?_) hsent
  refine h.onDatagram_runs hcfg ht (hlegal now d ha) fun f hdr app hcar => ?_
  exact ⟨fun _ => ⟨fun _ => h.ranges (hlegal now d ha) hcar, fun hb => absurd hb hnot,
    fun hb => absurd hb hnot, fun hb => absurd hb hnot⟩, fun hb => absurd hb hnot,
    fun hb => absurd hb hnot⟩

theorem Prepares.early {a : Call} {hdr : Option SegmentHeader} (h : Prepares c a hdr c')
    (hc : Early c.now) (hearly : ∀ now ∈ a.tick?, Early now) : Early c'.now := by
  cases h with
  | recv => exact hc
  | send now | close now | tick now | drop now | @segment now =>
    exact early_advance hc (hearly now rfl)

theorem InBounds.call (h : InBounds b n X) {X' : Endpoint} {a : Call} (hs : SendOk X.conn)
    (hearly : ∀ now ∈ a.tick?, Early now) (hr : X.call b a = .ok X') : InBounds b (n + 1) X' := by
  have hseg := h.config.segment_pos
  obtain ⟨hdr, c₀, hp, hm⟩ := call_moves hseg hr
  constructor
  · rw [call_config hseg hr]; exact h.config
  · exact h.timers.call hseg hr
  · rw [hm.now]; exact hp.early h.early hearly
  · exact call_counts h.counts hs hseg hr

theorem InBounds.later {n m : Nat} (h : InBounds b n X) (hle : n ≤ m) : InBounds b m X :=
  ⟨h.config, h.timers, h.early, h.counts.later hle⟩

/-! ## Runs -/

theorem blank_inBounds {cfg : Config} {t : Tick} {st : State} {hs : Option PendingControl}
    {out : List Datagram} (hcfg : cfg.Sane) (ht : Early t)
    (h : Connection.blank b cfg t st = .ok c) (hh : ∀ p, hs = some p → p.attempts = 1)
    (htimers : Timers b { c with handshake := hs }) :
    InBounds b 0 (Endpoint.fresh { c with handshake := hs } out) := by
  obtain ⟨w, _, h⟩ := bind_eq_ok.mp h
  cases h
  refine ⟨hcfg, htimers, ht, ⟨Nat.le_refl _, ?_, ?_, ?_, Nat.le_refl _, Nat.le_refl _, Nat.le_refl _,
    Nat.le_refl _, Nat.le_refl _, Nat.le_refl _, Nat.le_refl _, Nat.le_refl _, rfl⟩⟩
  · intro e he; cases he
  · intro p hp
    rw [hh p hp]
    show (1#32).toNat ≤ 0 + 1
    decide
  · intro p hp; cases hp

theorem start_inBounds {ccfg scfg : Config} (hc : ccfg.Sane) (hs : scfg.Sane) {t t' : Tick} {p : Pair}
    (ht : Early t) (ht' : Early t') (h : Pair.start b ccfg scfg t t' = .ok p) (s : Side) :
    InBounds b 0 (p.get s) := by
  obtain ⟨⟨c, syn⟩, hcon, h⟩ := bind_eq_ok.mp h
  obtain ⟨c', hlis, h⟩ := bind_eq_ok.mp h
  cases h
  cases s with
  | client =>
    have htimers := connect_timers hcon
    obtain ⟨c₀, hc₀, hcon⟩ := bind_eq_ok.mp hcon
    obtain ⟨d, _, hcon⟩ := bind_eq_ok.mp hcon
    cases hcon
    exact blank_inBounds hc ht hc₀ (fun p hp => by cases hp; rfl) htimers
  | server =>
    have htimers := blank_timers (by intro h; cases h) (by intro h; cases h) hlis
    have hnone : c'.handshake = none := by
      obtain ⟨w, _, hlis⟩ := bind_eq_ok.mp hlis
      cases hlis; rfl
    exact blank_inBounds (c := c') hs ht' hlis (fun p hp => by rw [hnone] at hp; cases hp) htimers

theorem start_returns {ccfg scfg : Config} (hc : ccfg.Sane) (hs : scfg.Sane) (t t' : Tick) :
    ∃ p, Pair.start b ccfg scfg t t' = .ok p := by
  have hblank : ∀ {cfg : Config} (t : Tick) (st : State), cfg.Sane →
      ∃ c, Connection.blank b cfg t st = .ok c := fun t st h =>
    bind_returns (Build.fit_returns fun _ => h.window) fun _ _ => ⟨_, rfl⟩
  refine bind_returns (bind_returns (hblank t .synSent hc) fun c hc₀ => ?_) fun _ _ =>
    bind_returns (hblank t' .listening hs) fun _ _ => ⟨_, rfl⟩
  -- a fresh connection holds nothing, so its SYN can be built
  have hfits : RecvFits b { c with handshake := some ⟨t, 1⟩ } := by
    obtain ⟨w, _, hc₀⟩ := bind_eq_ok.mp hc₀
    cases hc₀
    have hroom : 0 + 0 < 2 ^ 32 := by decide
    exact fun _ => ⟨fun e he => (by cases he), fun e he => (by cases he), hroom⟩
  exact bind_returns (bind_returns hfits.headerBytes fun _ _ => ⟨_, rfl⟩) fun _ _ => ⟨_, rfl⟩

variable {ccfg scfg : Config} {G : Pair → Side → Call → Prop} {past : List Pair} {p : Pair}

theorem run_inBounds (hc : ccfg.Sane) (hs : scfg.Sane) (h : Pair.Run b ccfg scfg Early G past p)
    (hfits : p.Fits) (s : Side) : InBounds b past.length (p.get s) := by
  induction h generalizing s with
  | start ht ht' h => exact start_inBounds hc hs ht ht' h s
  | @step past p p' t a hrun hlegal hearly _ hr ih =>
    have hfits₀ := Pair.fits_of_step hr hfits
    have hl := reach_linked hc.segment_pos hs.segment_pos hrun.via.reach hfits₀ t
    obtain ⟨e, he, rfl⟩ := Pair.step_inv hr
    rcases s.eq_or_peer t with rfl | rfl
    · rw [Pair.get_set_self]
      exact (ih hfits₀ s).call hl.sendOk hearly he
    · rw [Pair.get_set_peer]
      exact (ih hfits₀ t.peer).later (Nat.le_succ _)

/-- Counters that were raised fewer than `2 ^ 32` times. -/
theorem InBounds.stats (h : InBounds b n X) (hl : Linked X Y) (hn : n < 2 ^ 32)
    (hfits : X.sent.length < 2 ^ 32) : X.conn.stats.Fits := by
  obtain ⟨_, _, _, _, _, h₂⟩ := hl
  have horder := congrArg List.length h₂.inOrder.1
  have hle := h₂.inOrder.2
  have hsent := h₂.send.fits
  rw [Endpoint.inOrder, List.length_append, List.length_take] at horder
  obtain ⟨_, _, _, _, hfast, hcong, hacks, hctrl, hres, hdup, hseg, hbytes, hdel⟩ := h.counts
  simp only [Limits.after] at *
  intro m hm
  simp only [List.mem_cons, List.not_mem_nil, or_false] at hm
  rcases hm with rfl | rfl | rfl | rfl | rfl | rfl | rfl | rfl | rfl <;> omega

theorem Pair.fits_of_get (s : Side) (h : (p.get s).sent.length < 2 ^ 32)
    (h' : (p.get s.peer).sent.length < 2 ^ 32) : p.Fits := by
  cases s with
  | client => exact ⟨h, h'⟩
  | server => exact ⟨h', h⟩

/-- The next call of a short run returns. -/
theorem run_returns (hc : ccfg.Sane) (hs : scfg.Sane) (h : Pair.Run b ccfg scfg Early G past p)
    {s : Side} {a : Call} (hlegal : p.Legal s a) (hearly : ∀ now ∈ a.tick?, Early now)
    (hlen : past.length + 1 < 2 ^ 32 - 1) (hsent : (p.get s).sent.length + a.sends < 2 ^ 32)
    (hpeer : (p.get s.peer).sent.length < 2 ^ 32) : ∃ e, (p.get s).call b a = .ok e := by
  have hfits : p.Fits := Pair.fits_of_get s (by omega) hpeer
  have hl := reach_linked hc.segment_pos hs.segment_pos h.via.reach hfits s
  have hk := run_inBounds hc hs h hfits s
  exact hl.call_returns hk (by omega) (fun now d ha => by subst ha; exact hlegal) hearly hsent

/-- **Honest runs never panic**: with sensible configurations, early ticks, fewer than `2 ^ 32`
    bytes in each direction and fewer than `2 ^ 32 - 1` steps, the two constructors return, every
    call the network and the applications may make next returns, and the statistics fit. -/
theorem honest_never_panics (hc : ccfg.Sane) (hs : scfg.Sane) :
    (∀ t t', Early t → Early t' → ∃ p, Pair.start b ccfg scfg t t' = .ok p) ∧
    ∀ past p s a, Pair.Run b ccfg scfg Early (fun _ _ _ => True) past p → p.Legal s a →
      (∀ now ∈ a.tick?, Early now) → past.length + 1 < 2 ^ 32 - 1 →
      (p.get s).sent.length + a.sends < 2 ^ 32 → (p.get s.peer).sent.length < 2 ^ 32 →
      ∃ p', p.step b s a = .ok p' ∧ ∀ t, (p'.get t).conn.stats.Fits := by
  refine ⟨fun t t' _ _ => start_returns hc hs t t', ?_⟩
  intro past p s a hrun hlegal hearly hlen hsent hpeer
  obtain ⟨e, he⟩ := run_returns hc hs hrun hlegal hearly hlen hsent hpeer
  have hstep : p.step b s a = .ok (p.set s e) := bind_eq_ok.mpr ⟨e, he, rfl⟩
  refine ⟨p.set s e, hstep, fun t => ?_⟩
  have hrun' := hrun.step hlegal hearly trivial hstep
  have hfits' : (p.set s e).Fits := by
    refine Pair.fits_of_get s ?_ ?_
    · rw [Pair.get_set_self, Endpoint.call_sends he]; exact hsent
    · rw [Pair.get_set_peer]; exact hpeer
  refine (run_inBounds hc hs hrun' hfits' t).stats
    (reach_linked hc.segment_pos hs.segment_pos hrun'.via.reach hfits' t) ?_ (Pair.fits_get hfits' t)
  rw [List.length_cons]
  omega

theorem early_of_all {a : Call} (h : a.tick?.all (fun now => decide (Early now)) = true) :
    ∀ now ∈ a.tick?, Early now := by
  intro now hnow
  rw [Option.mem_def.mp hnow] at h
  exact of_decide_eq_true h

theorem sampleConfig_sane : sampleConfig.Sane := by
  constructor <;> decide

/-- The sample run, and the timer after it. -/
theorem honest_never_panics_sample : ∃ past p p', past.length = sampleRun.length ∧
    Pair.Run .checked sampleConfig sampleConfig Early (fun _ _ _ => True) past p ∧
    p.step .checked .client (.onTick 90) = .ok p' ∧ ∀ t, (p'.get t).conn.stats.Fits := by
  have hrun : Pair.playsVia .checked sampleConfig sampleConfig
      (fun _ _ a => a.tick?.all fun now => decide (Early now)) sampleRun
      (fun p => decide p.Fits) = true := by decide +kernel
  obtain ⟨past, p, hlen, hp, ht⟩ := Pair.playsVia_run (show Early 0 by decide)
    (fun _ _ a h => ⟨early_of_all h, trivial⟩) hrun
  have hfits : p.Fits := of_decide_eq_true ht
  have htick : ∀ now ∈ (Call.onTick 90).tick?, Early now := by
    intro now hnow
    cases hnow
    exact show 90 < 2 ^ 60 by omega
  have hshort : sampleRun.length = 10 := rfl
  obtain ⟨p', hstep, hst⟩ := (honest_never_panics sampleConfig_sane sampleConfig_sane).2 past p
    .client (.onTick 90) hp trivial htick (by omega) hfits.1 hfits.2
  exact ⟨past, p, p', hlen, hp, hstep, hst⟩

end Distrans
