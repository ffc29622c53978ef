import Distrans.Transport.Ledger

/-!
# What is sampled

`Connection.samples` lists what a call feeds to `RtoEstimator::on_sample`: the item whose round
trip is taken to be measured, and the measured time.  `call_samples` — it is the list the code
goes by: the estimator after a call is the one before it, fed with these values and then backed
off by the timers of a tick.
-/

set_option autoImplicit false

namespace Distrans

open Machine OrdMap

variable {b : Build} {c c' : Connection} {out : List Datagram}

/-- The sample of `complete_handshake`. -/
def Connection.handshakeSample (c : Connection) (now : Tick) : List (Item × U64) :=
  match c.handshake with
  | some p => if p.attempts = 1 then [(.handshake, satSub now p.sentAt)] else []
  | none => []

/-- The samples of an acknowledgement of everything below `ack`: the segments sent once. -/
def Connection.ackSamples (c : Connection) (now : Tick) (ack : U32) : List (Item × U64) :=
  (c.unacked.entries.filter fun e => e.1 < ack).filterMap fun e =>
    if e.2.retransmitCount = 0 then some (.data e.1, satSub now e.2.sentAt) else none

/-- The samples of a call. -/
def Connection.samples (c : Connection) (a : Call) : List (Item × U64) :=
  match a.segment? with
  | none => []
  | some (f, h, _) =>
    let isAck := f.flags &&& FLAG_ACK != 0#16
    if c.admits (f.flags &&& FLAG_SYN != 0#16) isAck then
      (if c.isOpen then [] else c.handshakeSample (c.clock a)) ++
        (if isAck ∧ c.sendBase < h.ack then c.ackSamples (c.clock a) h.ack else [])
    else []

/-- Feed the estimator. -/
def RtoEstimator.feed (b : Build) (r : RtoEstimator) (samples : List (Item × U64)) : Exec RtoEstimator :=
  samples.foldlM (fun r s => r.onSample b s.2) r

/-- The estimator after some timeouts. -/
inductive BackedOff (b : Build) (r : RtoEstimator) : RtoEstimator → Prop
  | refl : BackedOff b r r
  | timeout {r' r'' : RtoEstimator} : BackedOff b r r' → r'.onTimeout b = .ok r'' → BackedOff b r r''

theorem RtoEstimator.feed_append {r r' r'' : RtoEstimator} {xs ys : List (Item × U64)}
    (h : r.feed b xs = .ok r') (h' : r'.feed b ys = .ok r'') : r.feed b (xs ++ ys) = .ok r'' := by
  rw [feed, List.foldlM_append]
  exact bind_eq_ok.mpr ⟨r', h, h'⟩

/-! ## What does not touch the estimator -/

theorem checkFullyClosed_rto (c : Connection) : c.checkFullyClosed.rto = c.rto := by
  unfold Connection.checkFullyClosed
  split <;> rfl

theorem drainAndMaybeFin_rto (h : c.drainAndMaybeFin b = .ok (c', out)) : c'.rto = c.rto := by
  obtain ⟨st, fp, q, n, u, sent, rfl⟩ := drainAndMaybeFin_fields h
  rfl

theorem ackMarks_rto {h : SegmentHeader} (hr : c.ackMarks h = .ok c') : c'.rto = c.rto := by
  cases ackMarks_branch hr with
  | marked => rfl
  | finAcked => exact checkFullyClosed_rto _

theorem fastRetransmit_rto {resent : Option Datagram} (hr : c.fastRetransmit b = .ok (c', resent)) :
    c'.rto = c.rto := by
  cases fastRetransmit_branch hr <;> rfl

/-! ## Acknowledgements -/

/-- The loop over the acknowledged segments samples those that were sent once. -/
theorem ackSegments_samples {now : Tick} : ∀ {es : List (U32 × UnackedSegment)}
    {u u' : OrdMap U32 UnackedSegment} {r r' : RtoEstimator},
    (∀ e ∈ es, u.get? e.1 = some e.2) → (es.map (·.1)).Nodup →
    Connection.ackSegments b now (es.map (·.1)) u r = .ok (u', r') →
    r.feed b (es.filterMap fun e =>
      if e.2.retransmitCount = 0 then some (.data e.1, satSub now e.2.sentAt) else none) = .ok r'
  | [], u, u', r, r', _, _, h => by cases h; rfl
  | e :: es, u, u', r, r', hes, hnodup, h => by
    rw [List.map_cons, List.nodup_cons] at hnodup
    simp only [List.map_cons, Connection.ackSegments, hes e List.mem_cons_self] at h
    obtain ⟨r₁, h₁, h⟩ := bind_eq_ok.mp h
    have hrest := ackSegments_samples (fun e' he' => ?_) hnodup.2 h
    · rw [List.filterMap_cons]
      split at h₁
      · rename_i hzero
        simp only [hzero, if_true]
        have hfirst : r.feed b [(.data e.1, satSub now e.2.sentAt)] = .ok r₁ :=
          bind_eq_ok.mpr ⟨r₁, h₁, rfl⟩
        exact RtoEstimator.feed_append hfirst hrest
      · rename_i hzero
        cases h₁
        simp only [hzero, if_false]
        exact hrest
    · -- the other keys are still there
      have hne : e'.1 ≠ e.1 := fun heq => hnodup.1 (heq ▸ List.mem_map_of_mem he')
      have hget := mem_of_get? (hes e' (List.mem_cons_of_mem _ he'))
      exact get?_of_mem (mem_erase.mpr ⟨hget, hne⟩)

theorem ackAdvance_samples {h : SegmentHeader} (hr : c.ackAdvance b h = .ok c') :
    c.rto.feed b (c.ackSamples c.now h.ack) = .ok c'.rto := by
  obtain ⟨_, r, w, _, hu, _, rfl⟩ := ackAdvance_spec hr
  refine ackSegments_samples (fun e he => get?_of_mem (List.mem_of_mem_filter he)) ?_ hu
  exact (c.unacked.sorted.imp ne_of_lt).sublist (List.filter_sublist.map _)

theorem applyAck_samples {h : SegmentHeader} {resent : Option Datagram}
    (hr : c.applyAck b h = .ok (c', resent)) :
    c.rto.feed b (if c.sendBase < h.ack then c.ackSamples c.now h.ack else []) = .ok c'.rto := by
  have hkeep : ¬ c.sendBase < h.ack → c'.rto = c.rto →
      c.rto.feed b (if c.sendBase < h.ack then c.ackSamples c.now h.ack else []) = .ok c'.rto := by
    intro hadv hrto
    rw [if_neg hadv, hrto]
    rfl
  have hirrefl : h.ack = c.sendBase → ¬ c.sendBase < h.ack := fun hack => by
    rw [hack]; exact lt_irrefl _
  cases applyAck_branch hr with
  | advance hadv h₁ h₂ =>
    rw [if_pos hadv, ackMarks_rto h₂]
    exact ackAdvance_samples h₁
  | duplicate hack _ _ _ h₂ => exact hkeep (hirrefl hack) ((ackMarks_rto h₂).trans rfl)
  | resend hack _ _ _ hfast => exact hkeep (hirrefl hack) ((fastRetransmit_rto hfast).trans rfl)
  | stale hadv _ h₂ => exact hkeep hadv (ackMarks_rto h₂)

/-! ## Segments -/

theorem completeHandshake_samples (hr : c.completeHandshake b = .ok c') :
    c.rto.feed b (c.handshakeSample c.now) = .ok c'.rto := by
  obtain ⟨r, hs, hr⟩ := bind_eq_ok.mp hr
  cases hr
  unfold Connection.handshakeSample
  cases hp : c.handshake with
  | some p =>
    rw [hp] at hs
    dsimp only at hs ⊢
    split at hs
    · rename_i hone
      rw [if_pos hone]
      exact bind_eq_ok.mpr ⟨r, hs, rfl⟩
    · rename_i hone
      cases hs
      rw [if_neg hone]
      rfl
  | none =>
    rw [hp] at hs
    cases hs
    rfl

theorem handshakeArm_samples {isSyn isAck returns : Bool}
    (hr : c.handshakeArm b isSyn isAck = .ok (returns, c', out)) :
    c.rto.feed b (if c.admits isSyn isAck then (if c.isOpen then [] else c.handshakeSample c.now)
      else []) = .ok c'.rto := by
  have hadm := handshakeArm_admits_eq hr
  have hdone : ∀ {c₁ : Connection}, c.isOpen = false → c.completeHandshake b = .ok c₁ →
      c.rto.feed b (if (!false && c₁.isOpen) = true then
        (if c.isOpen then [] else c.handshakeSample c.now) else []) = .ok c₁.rto := by
    intro c₁ ho h₁
    rw [completeHandshake_isOpen h₁, ho]
    exact completeHandshake_samples h₁
  rw [hadm]
  cases handshakeArm_branch hr with
  | greet | regreet => rfl
  | accept hst _ h₁ => exact hdone (by simp [Connection.isOpen, hst]) h₁
  | connect hst _ h₁ => exact hdone (by simp [Connection.isOpen, hst]) h₁
  | confirm ho => rw [ho]; rfl
  | pass => cases ho : c.isOpen <;> rfl

theorem deliverData_rto {seq : U32} {data : List U8} (h : c.deliverData b seq data = .ok c') :
    c'.rto = c.rto := by
  obtain ⟨_, _, _, _, rfl⟩ := (deliverData_delivers h).fields
  rfl

/-- Nothing but the acknowledgement of a segment is sampled in an open state. -/
theorem openBlock_samples {h : SegmentHeader} {seq : U32} {app : List U8} {isAck isFin : Bool}
    (hr : c.openBlock b seq h app isAck isFin = .ok (c', out)) :
    c.rto.feed b (if isAck ∧ c.sendBase < h.ack then c.ackSamples c.now h.ack else []) = .ok c'.rto := by
  obtain ⟨c₁, resent, c₂, acks, out₄, hap, hdel, _, hdrain, _⟩ := openBlock_parts hr
  have hdrained := drainAndMaybeFin_rto hdrain
  rw [hdrained, show (c₂.noted _ _).rto = c₂.rto from rfl, deliverData_rto hdel]
  cases isAck with
  | false =>
    cases hap
    rw [if_neg (by simp)]
    rfl
  | true =>
    have hs := applyAck_samples hap
    simpa using hs

theorem onSegment_samples {h : SegmentHeader} {seq : U32} {flags : U16} {app : List U8}
    (hr : c.onSegment b seq flags h app = .ok (c', out)) :
    c.rto.feed b (if c.admits (flags &&& FLAG_SYN != 0#16) (flags &&& FLAG_ACK != 0#16) then
        (if c.isOpen then [] else c.handshakeSample c.now) ++
          (if (flags &&& FLAG_ACK != 0#16) ∧ c.sendBase < h.ack then c.ackSamples c.now h.ack else [])
      else []) = .ok c'.rto := by
  cases onSegment_branch hr with
  | closed hst =>
    simp only [Connection.admits, hst]
    rfl
  | handshake _ h₁ hadm =>
    have harm := handshakeArm_samples h₁
    rw [if_neg (by exact ne_true_of_eq_false hadm)] at harm
    rw [if_neg (ne_true_of_eq_false hadm)]
    exact harm
  | block _ h₁ ho h₂ =>
    have harm := handshakeArm_samples h₁
    have hadm := handshakeArm_admits (c := { c with peerWindow := h.window }) h₁ ho
    have hopen := openBlock_samples h₂
    obtain ⟨st, hs, r, rfl⟩ := handshakeArm_fields h₁
    rw [if_pos hadm] at harm
    rw [if_pos (show c.admits _ _ = true from hadm)]
    exact RtoEstimator.feed_append harm hopen

/-! ## Timers -/

theorem tickHandshake_backedOff (h : c.tickHandshake b = .ok (c', out)) : BackedOff b c.rto c'.rto := by
  cases tickHandshake_branch h with
  | idle | fail => exact .refl
  | retry _ _ _ _ hest => exact .timeout .refl hest

theorem tickData_backedOff (h : c.tickData b = .ok (c', out)) : BackedOff b c.rto c'.rto := by
  cases tickData_branch h with
  | idle => exact .refl
  | fail _ _ hest => exact .timeout .refl hest
  | sweep _ _ hest => exact .timeout .refl hest

theorem tickFin_backedOff {r : RtoEstimator} (hb : BackedOff b r c.rto)
    (h : c.tickFin b = .ok (c', out)) : BackedOff b r c'.rto := by
  cases tickFin_branch h with
  | idle | fail => exact hb
  | retry _ _ _ _ hest => exact .timeout hb hest

theorem tickOpen_backedOff (h : c.tickOpen b = .ok (c', out)) : BackedOff b c.rto c'.rto := by
  obtain ⟨c₁, out₁, h₁, hr⟩ := tickOpen_parts h
  have hb₁ := tickData_backedOff h₁
  rcases hr with ⟨_, rfl, _⟩ | ⟨_, c₂, out₂, h₂, hr⟩
  · exact hb₁
  · have hb₂ := tickFin_backedOff hb₁ h₂
    rcases hr with ⟨_, rfl, _⟩ | ⟨_, out₃, h₃, _⟩
    · exact hb₂
    · rw [drainAndMaybeFin_rto h₃]
      exact hb₂

theorem onTick_backedOff {now : Tick} (h : c.onTick b now = .ok (c', out)) :
    BackedOff b c.rto c'.rto := by
  cases onTick_branch h with
  | handshake _ h =>
    have hb := tickHandshake_backedOff h
    exact hb
  | opened _ h =>
    have hb := tickOpen_backedOff h
    exact hb
  | rest => exact .refl

/-- **The samples of a call are those that the code takes.** -/
theorem call_samples {e e' : Endpoint} {a : Call} (h : e.call b a = .ok e') :
    ∃ r, e.conn.rto.feed b (e.conn.samples a) = .ok r ∧ BackedOff b r e'.conn.rto := by
  have hnone : ∀ {r : RtoEstimator}, a.segment? = none → BackedOff b e.conn.rto r →
      ∃ r', e.conn.rto.feed b (e.conn.samples a) = .ok r' ∧ BackedOff b r' r := fun hs hb =>
    ⟨e.conn.rto, by rw [Connection.samples, hs]; rfl, hb⟩
  cases a with
  | send now data =>
    obtain ⟨⟨c', out⟩, hc, h⟩ := bind_eq_ok.mp h
    cases h
    have hkeep := drainAndMaybeFin_rto hc
    exact hnone rfl (by rw [Endpoint.put_conn, hkeep]; exact .refl)
  | close now =>
    obtain ⟨⟨c', out⟩, hc, h⟩ := bind_eq_ok.mp h
    cases h
    have hkeep := drainAndMaybeFin_rto hc
    exact hnone rfl (by rw [Endpoint.put_conn, hkeep]; exact .refl)
  | recv =>
    cases h
    exact hnone rfl .refl
  | onTick now =>
    obtain ⟨⟨c', out⟩, hc, h⟩ := bind_eq_ok.mp h
    cases h
    exact hnone rfl (onTick_backedOff hc)
  | onDatagram now d =>
    obtain ⟨⟨c', out⟩, hc, h⟩ := bind_eq_ok.mp h
    cases h
    by_cases hcar : ∃ f hdr app, Carries d f hdr app
    · obtain ⟨f, hdr, app, hcar⟩ := hcar
      rw [hcar.onDatagram] at hc
      have hs := onSegment_samples hc
      refine ⟨c'.rto, ?_, .refl⟩
      rw [Connection.samples, hcar.segment?_eq now]
      exact hs
    · rw [onDatagram_dropped hcar] at hc
      cases hc
      exact hnone (segment?_dropped hcar now) .refl

end Distrans
