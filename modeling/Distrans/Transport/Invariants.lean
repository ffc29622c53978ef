import Distrans.Transport.Estimator
import Distrans.Transport.Moves

/-!
# Invariants of one connection

What holds of a connection whatever its peer does, move by move.

* `SendOk` — the retransmission buffer tiles an interval that ends at `next_seq`, and the bytes
  still to be sent fit the sequence space.
* `RtoOk` — the estimator keeps its bounds, and without wrap-around its state stays small enough
  for the next timeout to be computed.
* `Timers` — every armed timer was armed in the past, and has not been retried more often than
  `max_retries`.
-/

set_option autoImplicit false

namespace Distrans

open Machine OrdMap Tiling

variable {b : Build} {hdr : Option SegmentHeader} {c c' : Connection} {out : List Datagram}

/-! ## The send side -/

structure SendOk (c : Connection) : Prop where
  tiles : ∃ a, Tiles a c.segments c.nextSeq.toNat
  room : c.nextSeq.toNat + c.sendQueue.length < 2 ^ 32

/-- Every buffered segment ends at or below `next_seq`. -/
theorem SendOk.mem (h : SendOk c) {e : U32 × UnackedSegment} (he : e ∈ c.unacked.entries) :
    e.1.toNat + e.2.data.length ≤ c.nextSeq.toNat ∧ e.2.data ≠ [] := by
  obtain ⟨a, ht⟩ := h.tiles
  have := ht.mem (e.1.toNat, e.2.data) (List.mem_map.mpr ⟨e, he, rfl⟩)
  exact this.2

theorem SendOk.lt_nextSeq (h : SendOk c) : ∀ e ∈ c.unacked.entries, e.1 < c.nextSeq := by
  intro e he
  obtain ⟨hle, hne⟩ := h.mem he
  have := List.length_pos_iff.mpr hne
  have hlt : e.1.toNat < c.nextSeq.toNat := by omega
  exact hlt

/-- A new segment goes to the end of the buffer. -/
theorem SendOk.segments_insert (h : SendOk c) (v : UnackedSegment) :
    (c.unacked.insert c.nextSeq v).entries.map (fun e => (e.1.toNat, e.2.data)) =
      c.segments ++ [(c.nextSeq.toNat, v.data)] := by
  rw [entries_insert_of_gt h.lt_nextSeq, List.map_append]
  rfl

/-- There is room for what is queued, so `next_seq` does not wrap around. -/
theorem SendOk.nextSeq_cut (h : SendOk c) {n : Nat} {nextSeq : U32} (hq : n ≤ c.sendQueue.length)
    (hseq : b.add c.nextSeq (BitVec.ofNat 32 n) = .ok nextSeq) :
    nextSeq.toNat = c.nextSeq.toNat + n := by
  have hroom := h.room
  exact Build.add_ofNat_toNat hseq (by omega)

theorem segments_of_rel {u : OrdMap U32 UnackedSegment}
    {R : U32 → UnackedSegment → UnackedSegment → Prop} (hu : EntriesRel R c.unacked.entries u.entries)
    (hR : ∀ k v v', R k v v' → v'.data = v.data) :
    u.entries.map (fun e => (e.1.toNat, e.2.data)) = c.segments :=
  hu.map_eq _ _ fun k v v' hv => by rw [hR k v v' hv]

/-- Sending segments again changes no data, -/
theorem segments_again {now : Tick} {u : OrdMap U32 UnackedSegment}
    (hu : EntriesRel (fun _ => SentAgain b now) c.unacked.entries u.entries) :
    u.entries.map (fun e => (e.1.toNat, e.2.data)) = c.segments :=
  segments_of_rel hu fun _ _ _ hv => hv.data.1

/-- nor does a selective acknowledgement. -/
theorem segments_mark {r : SackRange} {u : OrdMap U32 UnackedSegment}
    (hu : c.unacked.mapRange r.start r.stop (fun seg => { seg with sacked := true }) = .ok u) :
    u.entries.map (fun e => (e.1.toNat, e.2.data)) = c.segments := by
  refine segments_of_rel (mapRange_rel hu) fun k v v' hv => ?_
  rcases hv with rfl | ⟨_, _, rfl⟩
  · rfl
  · rfl

/-- Marks and timers of segments do not matter. -/
theorem SendOk.of_segments (h : SendOk c) (hs : c'.segments = c.segments)
    (hn : c'.nextSeq = c.nextSeq) (hq : c'.sendQueue = c.sendQueue) : SendOk c' :=
  ⟨by rw [hs, hn]; exact h.tiles, by rw [hn, hq]; exact h.room⟩

theorem SendOk.move (h : SendOk c) (hm : Move b hdr c c') : SendOk c' := by
  cases hm with
  | @learn hd r w =>
    refine ⟨?_, h.room⟩
    obtain ⟨a, ht⟩ := h.tiles
    obtain ⟨a', ht'⟩ := ht.filter_ge hd.ack.toNat
    refine ⟨a', ?_⟩
    show Tiles a' ((c.unacked.eraseAll (c.unacked.below hd.ack)).entries.map _) _
    rw [entries_eraseAll_below]
    rw [Connection.segments, List.filter_map] at ht'
    exact ht'
  | fast _ hu => exact h.of_segments (segments_again (fast_again hu)) rfl rfl
  | mark _ _ hu => exact h.of_segments (segments_mark hu) rfl rfl
  | sweep _ hu => exact h.of_segments (segments_again (sweep_again hu)) rfl rfl
  | deliver _ hd =>
    obtain ⟨_, _, _, _, rfl⟩ := (deliverData_delivers hd).fields
    exact h.of_segments rfl rfl rfl
  | failData => exact ⟨⟨c.nextSeq.toNat, rfl⟩, h.room⟩
  | @cut n cap nextSeq st _ _ hn hq _ hseq =>
    obtain ⟨a, ht⟩ := h.tiles
    have hroom := h.room
    have hnext := h.nextSeq_cut hq hseq
    have hlen : (c.sendQueue.take n).length = n := by rw [List.length_take]; omega
    have hne : c.sendQueue.take n ≠ [] := by rw [← List.length_pos_iff, hlen]; exact hn
    refine ⟨⟨a, ?_⟩, ?_⟩
    · show Tiles a ((c.unacked.insert c.nextSeq _).entries.map _) nextSeq.toNat
      rw [h.segments_insert, hnext]
      have := ht.concat hne
      rw [hlen] at this
      exact this
    · show nextSeq.toNat + (c.sendQueue.drop n).length < 2 ^ 32
      rw [hnext, List.length_drop]; omega
  | _ => exact h.of_segments rfl rfl rfl

/-- The sender of a flow. -/
theorem Flow.sendOk {cs : List (List U8)} {s : SelRep} {X Y : Endpoint} (h : Flow cs s X Y) :
    SendOk X.conn := by
  refine ⟨?_, ?_⟩
  · rcases h.send.tiles with ht | ⟨_, he⟩
    · refine ⟨pos cs s.base, ?_⟩
      rw [ht, h.send.nextSeq]
      exact tiles_layout h.send.nonempty rfl h.base_le
    · exact ⟨X.conn.nextSeq.toNat, by rw [Connection.segments, he]; rfl⟩
  · have := h.send.fits
    rw [h.send.stream, List.length_append, ← h.send.nextSeq] at this
    exact this

/-! ## The estimator -/

structure RtoOk (b : Build) (cfg : Config) (r : RtoEstimator) : Prop where
  minRto : r.minRto = cfg.minRto
  maxRto : r.maxRto = cfg.maxRto
  backoff : r.backoff.toNat ≤ 64
  srtt : b = .checked → ∀ v, r.srtt = some v → v.toNat ≤ 8 * (RTT_LIMIT - 1)
  rttvar : b = .checked → r.rttvar.toNat ≤ 4 * RTT_LIMIT

theorem RtoOk.new (cfg : Config) : RtoOk b cfg (RtoEstimator.new cfg.minRto cfg.maxRto) where
  minRto := rfl
  maxRto := rfl
  backoff := by show (1#32).toNat ≤ 64; decide
  srtt := fun _ v hv => by cases hv
  rttvar := fun _ => Nat.zero_le _

theorem RtoOk.track_le {cfg : Config} {r : RtoEstimator} (h : RtoOk b cfg r) (hb : b = .checked) :
    ∀ t, r.track = some t → t.srtt ≤ 8 * (RTT_LIMIT - 1) ∧ t.rttvar ≤ 4 * RTT_LIMIT := by
  intro t ht
  obtain ⟨srtt, hs, rfl⟩ := Option.map_eq_some_iff.mp ht
  exact ⟨h.srtt hb srtt hs, h.rttvar hb⟩

theorem RtoOk.onSample {cfg : Config} {r r' : RtoEstimator} (h : RtoOk b cfg r) {m : U64}
    (hr : r.onSample b m = .ok r') : RtoOk b cfg r' := by
  have hle : b = .checked → ∀ t, r'.track = some t →
      t.srtt ≤ 8 * (RTT_LIMIT - 1) ∧ t.rttvar ≤ 4 * RTT_LIMIT := by
    intro hb t ht
    subst hb
    obtain ⟨htrack, hm⟩ := RtoEstimator.onSample_track hr
    rw [htrack] at ht
    cases ht
    exact Track.advance_le (h.track_le rfl) hm
  obtain ⟨srtt, rttvar, rfl⟩ := RtoEstimator.onSample_fields hr
  refine ⟨h.minRto, h.maxRto, by show (1#32).toNat ≤ 64; decide, fun hb v hv => ?_, fun hb => ?_⟩
  · cases hv
    exact (hle hb _ rfl).1
  · exact (hle hb _ rfl).2

theorem RtoOk.sampled {cfg : Config} {r r' : RtoEstimator} (h : RtoOk b cfg r)
    (hs : Sampled b r r') : RtoOk b cfg r' := by
  induction hs with
  | refl => exact h
  | sample _ hr ih => exact ih.onSample hr

theorem RtoOk.onTimeout {cfg : Config} {r r' : RtoEstimator} (h : RtoOk b cfg r)
    (hr : r.onTimeout b = .ok r') : RtoOk b cfg r' := by
  obtain ⟨doubled, _, hr⟩ := bind_eq_ok.mp hr
  cases hr
  exact ⟨h.minRto, h.maxRto, by
    show (min doubled 64#32).toNat ≤ 64
    rw [min_toNat]; exact Nat.min_le_right _ _, h.srtt, h.rttvar⟩

/-! ## Timers -/

/-- A control message sent in the past, and not too often. -/
structure PendingOk (now : Tick) (maxRetries : U32) (p : PendingControl) : Prop where
  sentAt : p.sentAt ≤ now
  attempts : p.attempts.toNat ≤ max 1 maxRetries.toNat

structure Timers (b : Build) (c : Connection) : Prop where
  rto : RtoOk b c.config c.rto
  handshake_some : c.state = .synSent ∨ c.state = .synReceived → c.handshake.isSome
  handshake : ∀ p, c.handshake = some p → PendingOk c.now c.config.maxRetries p
  finPending : ∀ p, c.finPending = some p → PendingOk c.now c.config.maxRetries p ∧ c.finAcked = false
  sentAt : ∀ e ∈ c.unacked.entries, e.2.sentAt ≤ c.now

theorem Timers.advance (h : Timers b c) (now : Tick) : Timers b (c.advance now) := by
  have hle : c.now ≤ (c.advance now).now := le_max_left _ _
  exact ⟨h.rto, h.handshake_some,
    fun p hp => ⟨le_trans (h.handshake p hp).sentAt hle, (h.handshake p hp).attempts⟩,
    fun p hp => ⟨⟨le_trans (h.finPending p hp).1.sentAt hle, (h.finPending p hp).1.attempts⟩,
      (h.finPending p hp).2⟩,
    fun e he => le_trans (h.sentAt e he) hle⟩

/-- A first transmission, now. -/
theorem PendingOk.first (now : Tick) (m : U32) : PendingOk now m ⟨now, 1⟩ :=
  ⟨le_refl _, Nat.le_max_left _ _⟩

/-- Another one, now. -/
theorem PendingOk.again {now : Tick} {m n : U32} (h : n ≤ m) : PendingOk now m ⟨now, n⟩ :=
  ⟨le_refl _, Nat.le_trans h (Nat.le_max_right _ _)⟩

theorem Timers.move (h : Timers b c) (hm : Move b hdr c c') : Timers b c' := by
  have hrel : ∀ {u : OrdMap U32 UnackedSegment} {R : U32 → UnackedSegment → UnackedSegment → Prop},
      EntriesRel R c.unacked.entries u.entries →
      (∀ k v v', R k v v' → v'.sentAt = v.sentAt ∨ v'.sentAt = c.now) →
      ∀ e ∈ u.entries, e.2.sentAt ≤ c.now := by
    intro u R hu hR e he
    obtain ⟨v, hv, hr⟩ := hu.mem (show (e.1, e.2) ∈ u.entries from he)
    rcases hR _ _ _ hr with heq | heq
    · rw [heq]; exact h.sentAt _ hv
    · rw [heq]
  cases hm with
  | count => exact ⟨h.rto, h.handshake_some, h.handshake, h.finPending, h.sentAt⟩
  | synReceived =>
    exact ⟨h.rto, fun _ => rfl, (fun p hp => by cases hp; exact .first _ _), h.finPending, h.sentAt⟩
  | establish _ _ hs =>
    exact ⟨h.rto.sampled hs, (fun hst => by rcases hst with hst | hst <;> cases hst),
      (fun p hp => by cases hp), h.finPending, h.sentAt⟩
  | learn _ _ _ hs =>
    refine ⟨h.rto.sampled hs, h.handshake_some, h.handshake, h.finPending, fun e he => ?_⟩
    have he' : e ∈ (c.unacked.eraseAll _).entries := he
    rw [entries_eraseAll] at he'
    exact h.sentAt e (List.mem_of_mem_filter he')
  | dup => exact ⟨h.rto, h.handshake_some, h.handshake, h.finPending, h.sentAt⟩
  | fast _ hu =>
    exact ⟨h.rto, h.handshake_some, h.handshake, h.finPending,
      hrel (fast_again hu) fun _ _ _ hv => hv.sentAt⟩
  | mark _ _ hu =>
    refine ⟨h.rto, h.handshake_some, h.handshake, h.finPending,
      hrel (mapRange_rel hu) fun k v v' hv => ?_⟩
    rcases hv with rfl | ⟨_, _, rfl⟩ <;> exact Or.inl rfl
  | finAck => exact ⟨h.rto, h.handshake_some, h.handshake, fun p hp => (by cases hp), h.sentAt⟩
  | deliver _ hd =>
    obtain ⟨_, _, _, _, rfl⟩ := (deliverData_delivers hd).fields
    exact ⟨h.rto, h.handshake_some, h.handshake, h.finPending, h.sentAt⟩
  | seeFin => exact ⟨h.rto, h.handshake_some, h.handshake, h.finPending, h.sentAt⟩
  | cut =>
    refine ⟨h.rto, h.handshake_some, h.handshake, h.finPending, fun e he => ?_⟩
    rcases mem_insert.mp he with rfl | ⟨he, _⟩
    · exact le_refl _
    · exact h.sentAt e he
  | startFin _ hack =>
    exact ⟨h.rto, (fun hst => by rcases hst with hst | hst <;> cases hst), h.handshake,
      (fun p hp => by cases hp; exact ⟨.first _ _, hack⟩), h.sentAt⟩
  | close =>
    exact ⟨h.rto, (fun hst => by rcases hst with hst | hst <;> cases hst), h.handshake, h.finPending,
      h.sentAt⟩
  | retryHandshake _ _ _ hmax hest =>
    exact ⟨h.rto.onTimeout hest, fun _ => rfl, (fun p hp => by cases hp; exact .again hmax),
      h.finPending, h.sentAt⟩
  | failHandshake =>
    exact ⟨h.rto, (fun hst => by rcases hst with hst | hst <;> cases hst), fun p hp => (by cases hp),
      h.finPending, h.sentAt⟩
  | sweep hest hu =>
    exact ⟨h.rto.onTimeout hest, h.handshake_some, h.handshake, h.finPending,
      hrel (sweep_again hu) fun _ _ _ hv => hv.sentAt⟩
  | failData =>
    exact ⟨h.rto, (fun hst => by rcases hst with hst | hst <;> cases hst), h.handshake, h.finPending,
      fun e he => by cases he⟩
  | retryFin hp _ hmax hest =>
    exact ⟨h.rto.onTimeout hest, h.handshake_some, h.handshake,
      (fun p hp' => by cases hp'; exact ⟨.again hmax, (h.finPending _ hp).2⟩), h.sentAt⟩
  | failFin =>
    exact ⟨h.rto, (fun hst => by rcases hst with hst | hst <;> cases hst), h.handshake,
      fun p hp => (by cases hp), h.sentAt⟩

/-! ## Along a run -/

theorem Timers.prepare {a : Call} (h : Timers b c) (hp : Prepares c a hdr c') : Timers b c' := by
  cases hp with
  | recv => exact ⟨h.rto, h.handshake_some, h.handshake, h.finPending, h.sentAt⟩
  | send now | close now | tick now | drop now | @segment now =>
    have ha := h.advance now
    exact ⟨ha.rto, ha.handshake_some, ha.handshake, ha.finPending, ha.sentAt⟩

theorem Timers.call {e e' : Endpoint} {a : Call} (h : Timers b e.conn)
    (hseg : 1 ≤ e.conn.config.segmentSize) (hr : e.call b a = .ok e') : Timers b e'.conn := by
  obtain ⟨hdr, c₀, hp, hm⟩ := call_moves hseg hr
  exact hm.preserves Timers.move (h.prepare hp)

theorem blank_timers {cfg : Config} {t : Tick} {st : State} (hst : st = .synSent → False)
    (hst' : st = .synReceived → False) (h : Connection.blank b cfg t st = .ok c) : Timers b c := by
  obtain ⟨w, _, h⟩ := bind_eq_ok.mp h
  cases h
  refine ⟨.new cfg, fun hs => ?_, ?_, ?_, ?_⟩
  · rcases hs with hs | hs
    · exact (hst hs).elim
    · exact (hst' hs).elim
  · intro p hp; cases hp
  · intro p hp; cases hp
  · intro e he; cases he

theorem connect_timers {cfg : Config} {t : Tick} {d : Datagram}
    (h : Connection.connect b cfg t = .ok (c, d)) : Timers b c := by
  obtain ⟨c₀, hc₀, h⟩ := bind_eq_ok.mp h
  obtain ⟨d, _, h⟩ := bind_eq_ok.mp h
  cases h
  obtain ⟨w, _, hc₀⟩ := bind_eq_ok.mp hc₀
  cases hc₀
  refine ⟨.new cfg, fun _ => rfl, ?_, ?_, ?_⟩
  · intro p hp
    cases hp
    exact .first _ _
  · intro p hp; cases hp
  · intro e he; cases he

theorem reach_timers {ccfg scfg : Config} (hseg : 1 ≤ ccfg.segmentSize)
    (hseg' : 1 ≤ scfg.segmentSize) {p : Pair} (h : Pair.Reach b ccfg scfg p) (s : Side) :
    Timers b (p.get s).conn := by
  induction h generalizing s with
  | start h =>
    obtain ⟨⟨c, syn⟩, hc, h⟩ := bind_eq_ok.mp h
    obtain ⟨c', hs, h⟩ := bind_eq_ok.mp h
    cases h
    cases s with
    | client => exact connect_timers hc
    | server => exact blank_timers (by intro h; cases h) (by intro h; cases h) hs
  | @step p p' t a hreach _ _ hr ih =>
    obtain ⟨hcfg, _⟩ := reach_config hseg hseg' hreach t
    obtain ⟨e, he, rfl⟩ := Pair.step_inv hr
    rcases s.eq_or_peer t with rfl | rfl
    · rw [Pair.get_set_self]
      refine (ih s).call ?_ he
      rw [hcfg]
      cases s with
      | client => exact hseg
      | server => exact hseg'
    · rw [Pair.get_set_peer]
      exact ih t.peer

end Distrans
