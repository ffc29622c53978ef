import Distrans.Lib.RetryTimer
import Distrans.Transport.Guarantees
import Distrans.Transport.Returns

/-!
# A silent peer is detected

Ticked once per unit of time and otherwise left alone, a connection that still owes something
fails.  Each obligation is backed by a retry timer (`Debt`), whose budget every tick uses up
(`debt_tick`): the handshake and FIN timers, the timer of the oldest segment, or the next tick,
which cuts a segment.

* `silence_fails` — **the connection fails within `(max_retries + 1) * max(1, max_rto) + 1`
  ticks**, from every reachable state, provided the retry counters can pass `max_retries` and
  the timeout can be computed.
* `max_retries_never_fails` — with `max_retries = u32::MAX` no counter can pass it, and the
  connection is never declared failed.
-/

set_option autoImplicit false

namespace Distrans

open Machine OrdMap Tiling RetryTimer

variable {b : Build} {X Y : Endpoint} {c c' : Connection} {out : List Datagram}

/-! ## What sending changes -/

/-- New segments go to the end of the buffer, sent now for the first time. -/
structure Sent (c c' : Connection) : Prop where
  fields : ∃ sendQueue nextSeq unacked stats,
    c' = { c with sendQueue, nextSeq, unacked, stats }
  unacked : ∃ new, c'.unacked.entries = c.unacked.entries ++ new ∧
    ∀ e ∈ new, e.2.sentAt = c.now ∧ e.2.retransmitCount = 0 ∧ e.2.sacked = false
  idle : c.sendQueue = [] → c' = c

theorem Sent.refl (c : Connection) : Sent c c :=
  ⟨⟨_, _, _, _, rfl⟩, ⟨[], by simp, fun e he => by cases he⟩, fun _ => rfl⟩

theorem Sent.trans {c₁ c₂ : Connection} (h : Sent c c₁) (h' : Sent c₁ c₂) : Sent c c₂ := by
  obtain ⟨new, hn, hnew⟩ := h.unacked
  obtain ⟨new', hn', hnew'⟩ := h'.unacked
  have hnow : c₁.now = c.now := by
    obtain ⟨_, _, _, _, rfl⟩ := h.fields; rfl
  refine ⟨?_, ⟨new ++ new', by rw [hn', hn, List.append_assoc], ?_⟩, fun hq => ?_⟩
  · obtain ⟨_, _, _, _, rfl⟩ := h.fields
    obtain ⟨w, x, y, z, rfl⟩ := h'.fields
    exact ⟨w, x, y, z, rfl⟩
  · intro e he
    rcases List.mem_append.mp he with he | he
    · exact hnew e he
    · rw [← hnow]; exact hnew' e he
  · have h1 := h.idle hq
    rw [← h1] at hq
    exact (h'.idle hq).trans h1

theorem cutSegment_sent {n : Nat} {d : Datagram} (hs : SendOk c) (hn : 0 < n)
    (hq : n ≤ c.sendQueue.length) (h : c.cutSegment b n = .ok (c', d)) : Sent c c' := by
  obtain ⟨nextSeq, _, h⟩ := bind_eq_ok.mp h
  obtain ⟨bytes, _, h⟩ := bind_eq_ok.mp h
  cases h
  refine ⟨⟨_, _, _, _, rfl⟩, ⟨_, entries_insert_of_gt hs.lt_nextSeq, ?_⟩, fun hnil => ?_⟩
  · intro e he
    rw [List.mem_singleton.mp he]
    exact ⟨rfl, rfl, rfl⟩
  · rw [hnil] at hq
    simp at hq
    omega

theorem trySendLoop_sent : ∀ {fuel : Nat} {c c' : Connection} {out : List Datagram}, SendOk c →
    c.isOpen → 1 ≤ c.config.segmentSize → c.trySendLoop b fuel = .ok (c', out) → Sent c c'
  | 0, _, _, _, _, _, _, h => by cases h
  | fuel + 1, c, c', out, hs, ho, hseg, h => by
    rcases trySendLoop_cases hseg h with ⟨rfl, _, _⟩ |
      ⟨n, cap, c₁, d, out₁, hcap, hn, hq, hle, _, hcut, hrec, _⟩
    · exact .refl _
    · obtain ⟨hst, hcfg⟩ := cutSegment_state hcut
      have hmove : Move b none c c₁ := cutSegment_move ho hcap hn hq hle hcut
      exact (cutSegment_sent hs hn hq hcut).trans (trySendLoop_sent (hs.move hmove)
        (by rw [isOpen_congr hst]; exact ho) (by rw [hcfg]; exact hseg) hrec)

/-- With nothing in flight and something queued, at least one segment is cut. -/
theorem trySendMore_cuts (hs : SendOk c) (ho : c.isOpen) (hseg : 1 ≤ c.config.segmentSize)
    (hu : c.unacked.entries = []) (hq : c.sendQueue ≠ [])
    (h : c.trySendMore b = .ok (c', out)) : c'.unacked.entries ≠ [] := by
  unfold Connection.trySendMore at h
  rw [if_pos ho] at h
  rcases trySendLoop_cases hseg h with ⟨_, _, hnil | hcap⟩ |
    ⟨n, cap, c₁, d, out₁, hcap, hn, hqn, hle, _, hcut, hrec, _⟩
  · exact absurd hnil hq
  · obtain ⟨cap, hcap', hn⟩ := hs.admissionCap b
    rw [hcap] at hcap'
    cases hcap'
    have hzero : c.inFlight = 0 := by simp [Connection.inFlight, Connection.segments, hu]
    rw [if_pos hzero] at hn
    have h0 : (0 : U32).toNat = 0 := rfl
    have := Nat.le_max_right c.effectiveWindow.toNat 1
    omega
  · obtain ⟨hst, hcfg⟩ := cutSegment_state hcut
    have hmove : Move b none c c₁ := cutSegment_move ho hcap hn hqn hle hcut
    obtain ⟨new, hnew, _⟩ := (trySendLoop_sent (hs.move hmove) (by rw [isOpen_congr hst]; exact ho)
      (by rw [hcfg]; exact hseg) hrec).unacked
    intro hnil
    rw [hnil] at hnew
    have hc₁ : c₁.unacked.entries = [] := (List.append_eq_nil_iff.mp hnew.symm).1
    obtain ⟨nextSeq, _, hcut⟩ := bind_eq_ok.mp hcut
    obtain ⟨bytes, _, hcut⟩ := bind_eq_ok.mp hcut
    cases hcut
    have hins := entries_insert_of_gt
      (v := (⟨c.sendQueue.take n, c.now, 0, false⟩ : UnackedSegment)) hs.lt_nextSeq
    rw [hc₁] at hins
    simp at hins

/-! ## Closing -/

/-- The connection would not close by itself. -/
def Settled (c : Connection) : Prop := c.state = .closing → ¬ (c.finAcked ∧ c.peerFinSeen)

theorem settled_of_not_open (h : c.isOpen = false) : Settled c := by
  intro hst
  simp [Connection.isOpen, hst] at h

theorem checkFullyClosed_settled (c : Connection) : Settled c.checkFullyClosed := by
  unfold Connection.checkFullyClosed
  split
  · intro hst; cases hst
  · rename_i hcond
    exact fun hst hfin => hcond ⟨hst, hfin.1, hfin.2⟩

theorem drainAndMaybeFin_settled (h : c.drainAndMaybeFin b = .ok (c', out)) : Settled c' := by
  obtain ⟨⟨c₁, out₁⟩, _, h⟩ := bind_eq_ok.mp h
  obtain ⟨⟨c₂, fin⟩, _, h⟩ := bind_eq_ok.mp h
  cases h
  exact checkFullyClosed_settled c₂

/-- What the end of a call does to an open connection that would not close by itself. -/
structure Drained (c c' : Connection) : Prop where
  isOpen : c'.isOpen
  now : c'.now = c.now
  unacked : ∃ new, c'.unacked.entries = c.unacked.entries ++ new ∧
    ∀ e ∈ new, e.2.sentAt = c.now ∧ e.2.retransmitCount = 0 ∧ e.2.sacked = false
  idle : c.sendQueue = [] → c'.sendQueue = [] ∧ c'.unacked = c.unacked
  finPending : c.finPending.isSome → c'.finPending = c.finPending
  cuts : c.unacked.entries = [] → c.sendQueue ≠ [] → c'.unacked.entries ≠ []

theorem drainAndMaybeFin_drained (hs : SendOk c) (ho : c.isOpen) (hset : Settled c)
    (hseg : 1 ≤ c.config.segmentSize) (h : c.drainAndMaybeFin b = .ok (c', out)) :
    Drained c c' := by
  obtain ⟨⟨c₁, out₁⟩, h₁, h⟩ := bind_eq_ok.mp h
  obtain ⟨⟨c₂, fin⟩, h₂, h⟩ := bind_eq_ok.mp h
  cases h
  have hsent : Sent c c₁ := by
    have h₁' := h₁
    unfold Connection.trySendMore at h₁'
    rw [if_pos ho] at h₁'
    exact trySendLoop_sent hs ho hseg h₁'
  have hcuts : c.unacked.entries = [] → c.sendQueue ≠ [] → c₁.unacked.entries ≠ [] :=
    fun hu hq => trySendMore_cuts hs ho hseg hu hq h₁
  obtain ⟨new, hnew⟩ := hsent.unacked
  have hidle : c.sendQueue = [] → c₁.sendQueue = [] ∧ c₁.unacked = c.unacked := fun hq => by
    rw [hsent.idle hq]; exact ⟨hq, rfl⟩
  obtain ⟨q, n, u, st, rfl⟩ := hsent.fields
  cases maybeSendFin_branch h₂ with
  | sent _ hnone hack =>
    unfold Connection.checkFullyClosed
    rw [if_neg (by
      rintro ⟨_, hack', _⟩
      exact absurd hack' (by rw [hack]; decide))]
    refine ⟨rfl, rfl, ⟨new, hnew⟩, hidle, fun hp => ?_, hcuts⟩
    rw [show c.finPending = none from hnone] at hp
    cases hp
  | skip =>
    unfold Connection.checkFullyClosed
    rw [if_neg (by
      rintro ⟨hst, hfin⟩
      exact hset hst hfin)]
    exact ⟨ho, rfl, ⟨new, hnew⟩, hidle, fun _ => rfl, hcuts⟩

theorem tickHandshake_state (h : c.tickHandshake b = .ok (c', out)) :
    c'.state = c.state ∨ c'.isFailed := by
  cases tickHandshake_branch h with
  | fail => exact Or.inr rfl
  | idle | retry => exact Or.inl rfl

theorem not_open_of_failed (h : c.isFailed = true) : c.isOpen = false := by
  unfold Connection.isFailed at h
  unfold Connection.isOpen
  split at h
  · rename_i hst; rw [hst]
  · cases h

theorem tickOpen_settled (h : c.tickOpen b = .ok (c', out)) : Settled c' := by
  obtain ⟨c₁, out₁, h₁, hr⟩ := tickOpen_parts h
  rcases hr with ⟨hf, rfl, _⟩ | ⟨_, c₂, out₂, h₂, ⟨hf, rfl, _⟩ | ⟨_, out₃, h₃, _⟩⟩
  · exact settled_of_not_open (not_open_of_failed hf)
  · exact settled_of_not_open (not_open_of_failed hf)
  · exact drainAndMaybeFin_settled h₃

theorem onTick_settled (hset : Settled c) {now : Tick} (h : c.onTick b now = .ok (c', out)) :
    Settled c' := by
  have hhs : (c.advance now).tickHandshake b = .ok (c', out) → c.state ≠ .closing → Settled c' := by
    intro h hst
    rcases tickHandshake_state h with heq | hf
    · exact fun hc => absurd (heq.symm.trans hc) hst
    · exact settled_of_not_open (not_open_of_failed hf)
  cases onTick_branch h with
  | handshake hst h => exact hhs h (by rcases hst with hst | hst <;> rw [hst] <;> decide)
  | opened _ h => exact tickOpen_settled h
  | rest => exact hset

theorem handshakeArm_returns {isSyn isAck : Bool}
    (h : c.handshakeArm b isSyn isAck = .ok (true, c', out)) : c'.state = .synReceived := by
  cases handshakeArm_branch h with
  | greet => rfl
  | regreet hst => exact hst

theorem openBlock_settled {seq : U32} {hdr : SegmentHeader} {app : List U8} {isAck isFin : Bool}
    (h : c.openBlock b seq hdr app isAck isFin = .ok (c', out)) : Settled c' := by
  obtain ⟨_, _, _, _, _, _, _, _, h₄, _⟩ := openBlock_parts h
  exact drainAndMaybeFin_settled h₄

theorem onDatagram_settled (hset : Settled c) {now : Tick} {d : Datagram}
    (h : c.onDatagram b now d = .ok (c', out)) : Settled c' := by
  rcases onDatagram_cases h with ⟨rfl, _⟩ | ⟨f, hdr, app, _, h⟩
  · exact hset
  · cases onSegment_branch h with
    | closed hcl => exact fun hst => absurd (hcl.symm.trans hst) (by decide)
    | @handshake returns _ _ _ h₁ hadm =>
      -- what is not admitted is answered in `SynReceived`, or leaves the connection closed to data
      cases returns with
      | true => exact fun hst => absurd ((handshakeArm_returns h₁).symm.trans hst) (by decide)
      | false =>
        have heq := handshakeArm_admits_eq (c := { c.advance now with peerWindow := hdr.window }) h₁
        exact settled_of_not_open (heq.symm.trans hadm)
    | block _ _ _ h₂ => exact openBlock_settled h₂

theorem call_settled {e e' : Endpoint} {a : Call} (hset : Settled e.conn)
    (h : e.call b a = .ok e') : Settled e'.conn := by
  cases a with
  | send now data =>
    obtain ⟨⟨c', out⟩, hc, h⟩ := bind_eq_ok.mp h
    cases h; exact drainAndMaybeFin_settled hc
  | close now =>
    obtain ⟨⟨c', out⟩, hc, h⟩ := bind_eq_ok.mp h
    cases h; exact drainAndMaybeFin_settled hc
  | recv => cases h; exact hset
  | onTick now =>
    obtain ⟨⟨c', out⟩, hc, h⟩ := bind_eq_ok.mp h
    cases h; exact onTick_settled hset hc
  | onDatagram now d =>
    obtain ⟨⟨c', out⟩, hc, h⟩ := bind_eq_ok.mp h
    cases h; exact onDatagram_settled hset hc

theorem blank_settled {cfg : Config} {t : Tick} {st : State}
    (h : Connection.blank b cfg t st = .ok c) : Settled c := by
  obtain ⟨w, _, h⟩ := bind_eq_ok.mp h
  cases h
  intro _ hfin
  cases hfin.1

theorem reach_settled {ccfg scfg : Config} {p : Pair} (h : Pair.Reach b ccfg scfg p) (s : Side) :
    Settled (p.get s).conn := by
  induction h generalizing s with
  | start h =>
    obtain ⟨⟨c, syn⟩, hc, h⟩ := bind_eq_ok.mp h
    obtain ⟨c', hs, h⟩ := bind_eq_ok.mp h
    cases h
    obtain ⟨c₀, hc₀, hc⟩ := bind_eq_ok.mp hc
    obtain ⟨d, _, hc⟩ := bind_eq_ok.mp hc
    cases hc
    cases s with
    | client =>
      have h₀ := blank_settled hc₀
      exact h₀
    | server => exact blank_settled hs
  | @step p p' t a _ _ _ hr ih =>
    obtain ⟨e, he, rfl⟩ := Pair.step_inv hr
    rcases s.eq_or_peer t with rfl | rfl
    · rw [Pair.get_set_self]; exact call_settled (ih s) he
    · rw [Pair.get_set_peer]; exact ih t.peer

/-! ## Debts -/

/-- At most so many ticks between two firings. -/
def period (c : Connection) : Nat := max 1 c.config.maxRto.toNat

/-- The budget of a retry timer of `c`. -/
def timerBudget (c : Connection) (count : U32) (sentAt : Tick) : Nat :=
  budget (period c) c.config.maxRetries.toNat count.toNat sentAt.toNat c.now.toNat

/-- What `c` still owes, and how many ticks it can take until the debt fails it. -/
inductive Debt (c : Connection) : Nat → Prop
  | handshake {p : PendingControl} : c.state = .synSent ∨ c.state = .synReceived →
      c.handshake = some p → Debt c (timerBudget c p.attempts p.sentAt)
  | data {k : U32} {seg : UnackedSegment} {rest : List (U32 × UnackedSegment)} : c.isOpen →
      c.unacked.entries = (k, seg) :: rest → Debt c (timerBudget c seg.retransmitCount seg.sentAt)
  | queue : c.isOpen → c.unacked.entries = [] → c.sendQueue ≠ [] →
      Debt c ((c.config.maxRetries.toNat + 1) * period c + 1)
  | fin {p : PendingControl} : c.isOpen → c.unacked.entries = [] → c.sendQueue = [] →
      c.finPending = some p → Debt c (timerBudget c p.attempts p.sentAt)

/-- The connection waits for its peer. -/
def Connection.Owes (c : Connection) : Prop :=
  c.state = .synSent ∨ c.state = .synReceived ∨
    (c.isOpen ∧ (c.unacked.entries ≠ [] ∨ c.sendQueue ≠ [] ∨ c.finPending.isSome))

theorem period_pos (c : Connection) : 0 < period c := Nat.le_max_left _ _

theorem Debt.pos {d : Nat} (h : Debt c d) : 0 < d := by
  cases h with
  | handshake | data | fin => exact budget_pos
  | queue => exact Nat.succ_pos _

theorem Debt.exists_of_owes (ht : Timers b c) (h : c.Owes) :
    ∃ d, Debt c d ∧ d ≤ (c.config.maxRetries.toNat + 1) * period c + 1 := by
  have hle : ∀ (count : U32) (sentAt : Tick), sentAt ≤ c.now →
      timerBudget c count sentAt ≤ (c.config.maxRetries.toNat + 1) * period c + 1 :=
    fun count sentAt hat => Nat.le_succ_of_le (budget_le (period_pos c) hat)
  have hhs : c.state = .synSent ∨ c.state = .synReceived →
      ∃ d, Debt c d ∧ d ≤ (c.config.maxRetries.toNat + 1) * period c + 1 := by
    intro hst
    obtain ⟨p, hp⟩ := Option.isSome_iff_exists.mp (ht.handshake_some hst)
    exact ⟨_, .handshake hst hp, hle _ _ (ht.handshake p hp).sentAt⟩
  rcases h with hst | hst | ⟨ho, h⟩
  · exact hhs (Or.inl hst)
  · exact hhs (Or.inr hst)
  · cases hu : c.unacked.entries with
    | cons e rest =>
      obtain ⟨k, seg⟩ := e
      exact ⟨_, .data ho hu, hle _ _ (ht.sentAt (k, seg) (by rw [hu]; exact List.mem_cons_self))⟩
    | nil =>
      cases hq : c.sendQueue with
      | cons x q =>
        exact ⟨_, .queue ho hu (by rw [hq]; exact List.cons_ne_nil _ _), Nat.le_refl _⟩
      | nil =>
        rcases h with h | h | h
        · exact absurd hu h
        · exact absurd hq h
        · obtain ⟨p, hp⟩ := Option.isSome_iff_exists.mp h
          exact ⟨_, .fin ho hu hq hp, hle _ _ (ht.finPending p hp).1.sentAt⟩

/-! ## One silent tick -/

/-- What a connection keeps while no datagram arrives. -/
structure Silent (b : Build) (c : Connection) : Prop where
  cfg : ConfigOk b c.config
  timers : Timers b c
  send : SendOk c
  recv : RecvFits b c
  counts : CountsOk c
  head : ∀ e ∈ c.unacked.entries.head?, e.2.sacked = false

theorem Silent.advance (h : Silent b c) (now : Tick) : Silent b (c.advance now) :=
  ⟨h.cfg, h.timers.advance now, h.send.of_segments rfl rfl rfl, h.recv.congr rfl rfl, h.counts,
    h.head⟩

/-- All but the counters and the marks follow from the moves. -/
theorem Silent.moves (h : Silent b c) (hm : Moves b none c c') (hcount : CountsOk c')
    (hhead : ∀ e ∈ c'.unacked.entries.head?, e.2.sacked = false) : Silent b c' :=
  ⟨by rw [hm.config]; exact h.cfg, hm.preserves Timers.move h.timers,
    hm.preserves SendOk.move h.send, hm.preserves RecvFits.move h.recv, hcount, hhead⟩

/-- A timer that is not due was armed less than a period ago. -/
theorem Silent.wait (h : Silent b c) {sentAt : Tick} (hat : sentAt ≤ c.now)
    (hdue : ¬ c.Due b sentAt) : c.now.toNat < sentAt.toNat + period c := by
  obtain ⟨rto, hrto, hle⟩ := h.timers.rto.current h.cfg.rto h.cfg.range
  have hlt : c.since sentAt < rto := by
    by_contra hge
    exact hdue ⟨rto, hrto, not_lt.mp hge⟩
  have h1 : (c.since sentAt).toNat < rto.toNat := hlt
  have h2 : rto.toNat ≤ c.config.maxRto.toNat := hle
  have h3 : c.config.maxRto.toNat ≤ period c := Nat.le_max_right _ _
  have h4 : (c.since sentAt).toNat = c.now.toNat - sentAt.toNat := satSub_toNat _ _
  have h5 : sentAt.toNat ≤ c.now.toNat := hat
  omega

/-- A firing raises the counter and arms the timer again, or gives up: either way less of the
    budget is left than a tick earlier. -/
theorem budget_again {n count : U32} {sentAt : Tick} {now : Nat} (hnow : c.now.toNat = now + 1)
    (hn : n.toNat = count.toNat + 1) (hmax : n ≤ c.config.maxRetries) :
    timerBudget c n c.now <
      budget (period c) c.config.maxRetries.toNat count.toNat sentAt.toNat now := by
  have hle : n.toNat ≤ c.config.maxRetries.toNat := hmax
  rw [timerBudget, hn, hnow]
  exact budget_fire (period_pos c) (by omega)

theorem budget_later {count : U32} {sentAt : Tick} {now : Nat} (hnow : c.now.toNat = now + 1)
    (h : c.now.toNat < sentAt.toNat + period c) :
    timerBudget c count sentAt <
      budget (period c) c.config.maxRetries.toNat count.toNat sentAt.toNat now := by
  rw [timerBudget, hnow]
  exact budget_wait (by omega)

/-- The data timer keeps what silence keeps, and uses up the oldest segment's budget. -/
theorem Silent.tickData (h : Silent b c) (hset : Settled c) (hr : c.tickData b = .ok (c', out)) :
    c'.isFailed ∨ (Silent b c' ∧ Settled c' ∧ c'.state = c.state ∧ c'.sendQueue = c.sendQueue ∧
      c'.finPending = c.finPending ∧
      (c.unacked.entries = [] → c'.unacked.entries = []) ∧
      ∀ k seg rest, c.unacked.entries = (k, seg) :: rest → ∀ now, c.now.toNat = now + 1 →
        ∃ seg' rest', c'.unacked.entries = (k, seg') :: rest' ∧
          timerBudget c' seg'.retransmitCount seg'.sentAt < budget (period c)
            c.config.maxRetries.toNat seg.retransmitCount.toNat seg.sentAt.toNat now) := by
  have hm : Moves b none c c' := tickData_moves hr
  cases tickData_branch hr with
  | fail => exact Or.inl rfl
  | idle hdue =>
    refine Or.inr ⟨h, hset, rfl, rfl, rfl, fun he => he, fun k seg rest he now hnow => ?_⟩
    have hmem : (k, seg) ∈ c.unacked.entries := by rw [he]; exact List.mem_cons_self
    have hnot := hdue (k, seg) (by rw [he]; rfl)
    exact ⟨seg, rest, he, budget_later hnow (h.wait (h.timers.sentAt _ hmem) hnot)⟩
  | @sweep _ _ _ _ _ _ u _ _ _ _ _ hu hmax =>
    have hrel := mapM_rel hu
    -- the counters that a returning sweep leaves have not passed `max_retries`
    have hcount : ∀ e ∈ u.entries, e.2.sacked = false → e.2.retransmitCount.toNat + 1 < 2 ^ 32 := by
      intro e he hs
      have hle : e.2.retransmitCount.toNat ≤ c.config.maxRetries.toNat := hmax e he hs
      have := h.cfg.retries
      omega
    cases he : c.unacked.entries with
    | nil =>
      rw [he] at hrel
      have hnil : u.entries = [] := by
        cases hu' : u.entries with
        | nil => rfl
        | cons e rest => rw [hu'] at hrel; cases hrel
      refine Or.inr ⟨h.moves hm hcount ?_, hset, rfl, rfl, rfl, fun _ => hnil, fun k seg rest he' => ?_⟩
      · intro e he'
        rw [show (_ : Connection).unacked.entries = u.entries from rfl, hnil] at he'
        cases he'
      · cases he'
    | cons e₀ rest₀ =>
      obtain ⟨k, seg⟩ := e₀
      have hs : seg.sacked = false := h.head (k, seg) (by rw [he]; rfl)
      rw [he] at hrel
      obtain ⟨es, hes⟩ : ∃ es, u.entries = es := ⟨_, rfl⟩
      rw [hes] at hrel
      cases hrel with
      | @cons _ _ seg' _ rest' hr' _ =>
        obtain ⟨hn, hat, hs', _⟩ := resend_unmarked hs hr'
        refine Or.inr ⟨h.moves hm hcount ?_, hset, rfl, rfl, rfl, fun hnil => ?_, ?_⟩
        · intro e he'
          rw [show (_ : Connection).unacked.entries = u.entries from rfl, hes] at he'
          cases he'
          exact hs'
        · cases hnil
        · intro k₁ seg₁ rest₁ he₁ now hnow
          cases he₁
          refine ⟨seg', rest', hes, ?_⟩
          have hmem : (k, seg) ∈ c.unacked.entries := by rw [he]; exact List.mem_cons_self
          have hn' : seg'.retransmitCount.toNat = seg.retransmitCount.toNat + 1 :=
            Build.add_toNat hn (h.counts _ hmem hs)
          rw [hat]
          exact budget_again hnow hn' (hmax (k, seg') (by rw [hes]; exact List.mem_cons_self) hs')

/-- So does the FIN timer, and uses up its own. -/
theorem Silent.tickFin (h : Silent b c) (hset : Settled c) (hr : c.tickFin b = .ok (c', out)) :
    c'.isFailed ∨ (Silent b c' ∧ Settled c' ∧ c'.state = c.state ∧ c'.sendQueue = c.sendQueue ∧
      c'.unacked = c.unacked ∧
      ∀ p, c.finPending = some p → ∀ now, c.now.toNat = now + 1 →
        ∃ p', c'.finPending = some p' ∧ timerBudget c' p'.attempts p'.sentAt <
          budget (period c) c.config.maxRetries.toNat p.attempts.toNat p.sentAt.toNat now) := by
  have hm : Moves b none c c' := tickFin_moves hr
  cases tickFin_branch hr with
  | fail => exact Or.inl rfl
  | idle hdue =>
    refine Or.inr ⟨h, hset, rfl, rfl, rfl, fun p hp now hnow => ?_⟩
    have hat := (h.timers.finPending p hp).1.sentAt
    exact ⟨p, hp, budget_later hnow (h.wait hat (hdue p hp))⟩
  | @retry p n _ _ hp _ hn hmax =>
    refine Or.inr ⟨h.moves hm h.counts h.head, hset, rfl, rfl, rfl, fun p' hp' now hnow => ?_⟩
    rw [hp] at hp'
    cases hp'
    refine ⟨_, rfl, ?_⟩
    have := (h.timers.finPending p hp).1.attempts
    have hlt := h.cfg.retries
    have hn' : n.toNat = p.attempts.toNat + 1 :=
      Build.add_toNat hn (by simp only [show (1#32).toNat = 1 from rfl]; omega)
    exact budget_again hnow hn' hmax

/-- The end of the tick adds segments that have just been sent. -/
theorem Silent.drain (h : Silent b c) (ho : c.isOpen) (hset : Settled c)
    (hr : c.drainAndMaybeFin b = .ok (c', out)) : Silent b c' ∧ Drained c c' := by
  have hd := drainAndMaybeFin_drained h.send ho hset h.cfg.segment_pos hr
  obtain ⟨new, hnew, hfresh⟩ := hd.unacked
  refine ⟨h.moves (drainAndMaybeFin_moves h.cfg.segment_pos hr) ?_ ?_, hd⟩
  · intro e he hs
    rw [hnew] at he
    rcases List.mem_append.mp he with he | he
    · exact h.counts e he hs
    · rw [(hfresh e he).2.1]; decide
  · intro e he
    rw [hnew] at he
    cases hu : c.unacked.entries with
    | nil =>
      rw [hu, List.nil_append] at he
      exact (hfresh e (List.mem_of_mem_head? he)).2.2
    | cons e₀ rest =>
      rw [hu] at he
      cases he
      exact h.head e (by rw [hu]; rfl)

theorem timerBudget_congr {count : U32} {sentAt : Tick} (hcfg : c'.config = c.config)
    (hnow : c'.now = c.now) : timerBudget c' count sentAt = timerBudget c count sentAt := by
  simp only [timerBudget, period, hcfg, hnow]

/-- One silent tick of an open connection. -/
theorem Silent.tickOpen (h : Silent b c) (hset : Settled c) (ho : c.isOpen) {d : Nat}
    (hd : Debt c d) {now : Tick} (hnow : (c.advance now).now.toNat = c.now.toNat + 1)
    (hr : (c.advance now).tickOpen b = .ok (c', out)) :
    c'.isFailed ∨ (Silent b c' ∧ ∃ d' < d, Debt c' d') := by
  obtain ⟨c₁, out₁, h₁, hr⟩ := tickOpen_parts hr
  rcases hr with ⟨hf, rfl, _⟩ | ⟨hnf, c₂, out₂, h₂, ⟨hf, rfl, _⟩ | ⟨hnf₂, out₃, h₃, _⟩⟩
  · exact Or.inl hf
  · exact Or.inl hf
  have hm₁ : Moves b none (c.advance now) c₁ := tickData_moves h₁
  have hm₂ : Moves b none c₁ c₂ := tickFin_moves h₂
  rcases (h.advance now).tickData hset h₁ with hf | ⟨hs₁, hset₁, hst₁, hq₁, hp₁, hnil₁, hdata⟩
  · exact absurd hf (by rw [hnf]; decide)
  rcases hs₁.tickFin hset₁ h₂ with hf | ⟨hs₂, hset₂, hst₂, hq₂, hu₂, hfin⟩
  · exact absurd hf (by rw [hnf₂]; decide)
  have ho₂ : c₂.isOpen := by rw [isOpen_congr (hst₂.trans hst₁)]; exact ho
  have hm₃ : Moves b none c₂ c' := drainAndMaybeFin_moves hs₂.cfg.segment_pos h₃
  obtain ⟨hs', hdr⟩ := hs₂.drain ho₂ hset₂ h₃
  obtain ⟨new, hnew, hfresh⟩ := hdr.unacked
  refine Or.inr ⟨hs', ?_⟩
  cases hd with
  | handshake hst =>
    rcases hst with hst | hst <;> simp [Connection.isOpen, hst] at ho
  | @data k seg rest _ he =>
    obtain ⟨seg', rest', he', hlt⟩ := hdata k seg rest he c.now.toNat hnow
    have he'' : c'.unacked.entries = (k, seg') :: (rest' ++ new) := by
      rw [hnew, hu₂, he', List.cons_append]
    refine ⟨_, ?_, .data hdr.isOpen he''⟩
    rw [timerBudget_congr (hm₂.trans hm₃).config (hm₂.trans hm₃).now]
    exact hlt
  | queue _ he hq =>
    have hcuts := hdr.cuts (by rw [hu₂]; exact hnil₁ he) (by rw [hq₂, hq₁]; exact hq)
    cases he' : c'.unacked.entries with
    | nil => exact absurd he' hcuts
    | cons e rest =>
      obtain ⟨k, seg⟩ := e
      refine ⟨_, ?_, .data hdr.isOpen he'⟩
      have hcfg : c'.config = c.config := ((hm₁.trans hm₂).trans hm₃).config
      have hle : timerBudget c' seg.retransmitCount seg.sentAt ≤
          (c'.config.maxRetries.toNat + 1) * period c' :=
        budget_le (period_pos c')
          (hs'.timers.sentAt (k, seg) (by rw [he']; exact List.mem_cons_self))
      rw [hcfg, show period c' = period c by simp only [period, hcfg]] at hle
      omega
  | @fin p _ he hq hp =>
    have hq₂' : c₂.sendQueue = [] := by rw [hq₂, hq₁]; exact hq
    obtain ⟨p', hp', hlt⟩ := hfin p (by rw [hp₁]; exact hp) c.now.toNat
      (by rw [hm₁.now]; exact hnow)
    obtain ⟨hq', hu'⟩ := hdr.idle hq₂'
    have hp'' : c'.finPending = some p' := by
      rw [hdr.finPending (by rw [hp']; rfl), hp']
    refine ⟨_, ?_, .fin hdr.isOpen (by rw [hu', hu₂]; exact hnil₁ he) hq' hp''⟩
    rw [timerBudget_congr hm₃.config hm₃.now]
    rw [show period c₁ = period c by simp only [period, hm₁.config]; rfl, hm₁.config] at hlt
    exact hlt

/-- What a tick does to a handshake. -/
theorem onTick_handshake (b : Build) {now : Tick} (hst : c.state = .synSent ∨ c.state = .synReceived) :
    c.onTick b now = (c.advance now).tickHandshake b := by
  have hadv : (c.advance now).state = c.state := rfl
  unfold Connection.onTick
  dsimp only
  rcases hst with hst | hst <;> rw [hadv, hst]

/-- One silent tick of a handshake. -/
theorem Silent.tickHandshake (h : Silent b c) (hst : c.state = .synSent ∨ c.state = .synReceived)
    {d : Nat} (hd : Debt c d) {now : Tick} (hnow : (c.advance now).now.toNat = c.now.toNat + 1)
    (hr : (c.advance now).tickHandshake b = .ok (c', out)) :
    c'.isFailed ∨ (Silent b c' ∧ ∃ d' < d, Debt c' d') := by
  have hclosed : c.isOpen = false := by
    rcases hst with hst | hst <;> simp [Connection.isOpen, hst]
  have h₀ := h.advance now
  have hm : Moves b none (c.advance now) c' := tickHandshake_moves hr
  cases hd with
  | @handshake p _ hp =>
    have hok := h₀.timers.handshake p hp
    cases tickHandshake_branch hr with
    | fail => exact Or.inl rfl
    | idle hdue =>
      refine Or.inr ⟨h₀, _, ?_, .handshake hst hp⟩
      exact budget_later hnow (h₀.wait hok.sentAt (hdue p hp))
    | @retry p' n _ _ hp' _ hn hmax =>
      rw [show (c.advance now).handshake = _ from hp] at hp'
      cases hp'
      refine Or.inr ⟨h₀.moves hm h.counts h.head, _, ?_, .handshake hst rfl⟩
      have := hok.attempts
      have hlt : (c.advance now).config.maxRetries.toNat + 1 < 2 ^ 32 := h.cfg.retries
      have hn' : n.toNat = p.attempts.toNat + 1 :=
        Build.add_toNat hn (by simp only [show (1#32).toNat = 1 from rfl]; omega)
      exact budget_again hnow hn' hmax
  | data ho => rw [hclosed] at ho; cases ho
  | queue ho => rw [hclosed] at ho; cases ho
  | fin ho => rw [hclosed] at ho; cases ho

/-- **One silent tick fails the connection or leaves it a smaller debt.** -/
theorem Silent.tick (h : Silent b c) (hset : Settled c) {d : Nat} (hd : Debt c d) {now : Tick}
    (hnow : now.toNat = c.now.toNat + 1) :
    ∃ c' out, c.onTick b now = .ok (c', out) ∧ (c'.isFailed ∨
      (c'.now = now ∧ c'.config = c.config ∧ Silent b c' ∧ Settled c' ∧ ∃ d' < d, Debt c' d')) := by
  obtain ⟨⟨c', out⟩, hr⟩ := onTick_returns h.cfg h.timers h.send h.recv h.counts now
  have hat : (c.advance now).now = now := by
    have hle : c.now.toNat ≤ now.toNat := by omega
    exact max_eq_right hle
  have hclock : (c.advance now).now.toNat = c.now.toNat + 1 := by rw [hat, hnow]
  have hm : Moves b none (c.advance now) c' := onTick_moves h.cfg.segment_pos hr
  have hset' : Settled c' := onTick_settled hset hr
  refine ⟨c', out, hr, ?_⟩
  have hstep : c'.isFailed ∨ (Silent b c' ∧ ∃ d' < d, Debt c' d') := by
    by_cases ho : c.isOpen
    · rw [onTick_open b ho] at hr
      exact h.tickOpen hset ho hd hclock hr
    · have hst : c.state = .synSent ∨ c.state = .synReceived := by
        cases hd with
        | handshake hst => exact hst
        | data ho' => exact absurd ho' ho
        | queue ho' => exact absurd ho' ho
        | fin ho' => exact absurd ho' ho
      rw [onTick_handshake b hst] at hr
      exact h.tickHandshake hst hd hclock hr
  rcases hstep with hf | ⟨hs, hd'⟩
  · exact Or.inl hf
  · exact Or.inr ⟨hm.now.trans hat, hm.config, hs, hset', hd'⟩

/-! ## Silent runs -/

/-- `on_tick` with `now + 1`, `now + 2`, …, `now + n`, and nothing else. -/
def tickFrom (b : Build) : Nat → Tick → Connection → Exec Connection
  | 0, _, c => .ok c
  | n + 1, now, c => do
    let (c, _) ← c.onTick b (now + 1#64)
    tickFrom b n (now + 1#64) c

/-- A failed connection stays failed. -/
theorem tickFrom_failed : ∀ {n : Nat} {now : Tick} {c : Connection}, c.isFailed →
    ∃ c', tickFrom b n now c = .ok c' ∧ c'.isFailed
  | 0, _, c, hf => ⟨c, rfl, hf⟩
  | n + 1, now, c, hf => by
    have htick : c.onTick b (now + 1#64) = .ok (c.advance (now + 1#64), []) := by
      have hst : (c.advance (now + 1#64)).state = c.state := rfl
      unfold Connection.isFailed at hf
      unfold Connection.onTick
      dsimp only
      split at hf
      · rename_i hf'
        rw [hst, hf']
      · cases hf
    simp only [tickFrom, htick, ok_bind]
    exact tickFrom_failed hf

/-- A debt is used up, one unit a tick at least. -/
theorem Silent.run : ∀ {n : Nat} {c : Connection} {d : Nat}, Silent b c → Settled c → Debt c d →
    d ≤ n → c.now.toNat + n < 2 ^ 64 → ∃ c', tickFrom b n c.now c = .ok c' ∧ c'.isFailed
  | 0, c, d, _, _, hd, hn, _ => by
    have := hd.pos
    omega
  | n + 1, c, d, hs, hset, hd, hn, hwrap => by
    have hnow : (c.now + 1#64).toNat = c.now.toNat + 1 := by
      rw [BitVec.toNat_add, Nat.mod_eq_of_lt (by rw [show (1#64).toNat = 1 from rfl]; omega)]
      rfl
    obtain ⟨c₁, out, hr, hstep⟩ := hs.tick hset hd hnow
    simp only [tickFrom, hr, ok_bind]
    rcases hstep with hf | ⟨hat, _, hs₁, hset₁, d', hlt, hd'⟩
    · exact tickFrom_failed hf
    · rw [← hat]
      refine Silent.run hs₁ hset₁ hd' (by omega) ?_
      rw [hat, hnow]
      omega

theorem state_of_failed (h : c.isFailed = true) : c.state = .failed .tooManyRetries := by
  unfold Connection.isFailed at h
  split at h
  · rename_i r hst
    cases r
    exact hst
  · cases h

/-- **A silent peer is detected**: while the retry counters can pass `max_retries` and the
    timeout can be computed, a connection that owes something fails in time. -/
theorem silence_fails {ccfg scfg : Config} {p : Pair} {t : Side} (hseg : 1 ≤ ccfg.segmentSize)
    (hseg' : 1 ≤ scfg.segmentSize) (h : Pair.Reach b ccfg scfg p) (hfits : p.Fits)
    (hrto : (t.config ccfg scfg).minRto ≤ (t.config ccfg scfg).maxRto)
    (hrange : b = .checked → (t.config ccfg scfg).maxRto.toNat < 2 ^ 58)
    (hretries : (t.config ccfg scfg).maxRetries ≠ BitVec.allOnes 32)
    (hcount : ∀ e ∈ (p.get t).conn.unacked.entries, e.2.sacked = false →
      e.2.retransmitCount ≠ BitVec.allOnes 32)
    (howes : (p.get t).conn.Owes) {n : Nat}
    (hn : ((t.config ccfg scfg).maxRetries.toNat + 1) * max 1 (t.config ccfg scfg).maxRto.toNat + 1 ≤ n)
    (hwrap : (p.get t).conn.now.toNat + n < 2 ^ 64) :
    ∃ c', tickFrom b n (p.get t).conn.now (p.get t).conn = .ok c' ∧
      c'.state = .failed .tooManyRetries := by
  have hfull : ∀ x : U32, x ≠ BitVec.allOnes 32 → x.toNat + 1 < 2 ^ 32 := by
    intro x hx
    by_contra hge
    have := x.isLt
    exact hx (BitVec.eq_of_toNat_eq (by rw [BitVec.toNat_allOnes]; omega))
  obtain ⟨hcfg, w, hw⟩ := reach_config hseg hseg' h t
  obtain ⟨cs, s, _, _, hf, hf'⟩ := reach_linked hseg hseg' h hfits t
  have htimers := reach_timers hseg hseg' h t
  have hsilent : Silent b (p.get t).conn := by
    refine ⟨?_, htimers, hf.sendOk, fun _ => hf'.recvOk, fun e he hs => hfull _ (hcount e he hs), ?_⟩
    · rw [hcfg]
      refine ⟨?_, fun hb => ?_, hrto, hrange, hfull _ hretries⟩
      · cases t with
        | client => exact hseg
        | server => exact hseg'
      · subst hb
        exact (Build.checked_mul hw).1
    · intro e he
      cases hu : (p.get t).conn.unacked.entries with
      | nil => rw [hu] at he; cases he
      | cons e₀ rest =>
        rw [hu] at he
        cases he
        exact (hf.oldest hu).2
  obtain ⟨d, hd, hle⟩ := Debt.exists_of_owes htimers howes
  rw [hcfg, show period (p.get t).conn = max 1 (t.config ccfg scfg).maxRto.toNat by
    simp only [period, hcfg]] at hle
  obtain ⟨c', hc', hfail⟩ := hsilent.run (reach_settled h t) hd (Nat.le_trans hle hn) hwrap
  exact ⟨c', hc', state_of_failed hfail⟩

theorem silence_fails_sample : ∃ p, Pair.Reach .checked sampleConfig sampleConfig p ∧
    p.client.conn.unacked.entries.length = 2 ∧
    ∃ c', tickFrom .checked 257 p.client.conn.now p.client.conn = .ok c' ∧
      c'.state = .failed .tooManyRetries := by
  have hrun : Pair.plays .checked sampleConfig sampleConfig sampleRun
      (fun p => decide (p.Fits ∧ p.client.conn.unacked.entries.length = 2 ∧
        p.client.conn.isOpen = true ∧ p.client.conn.now.toNat = 5 ∧
        ∀ e ∈ p.client.conn.unacked.entries, e.2.retransmitCount ≠ BitVec.allOnes 32)) = true := by
    decide +kernel
  obtain ⟨p, hp, ht⟩ := Pair.plays_reach hrun
  obtain ⟨hfits, hlen, ho, hnow, hcount⟩ := of_decide_eq_true ht
  have howes : p.client.conn.Owes := by
    refine Or.inr (Or.inr ⟨ho, Or.inl fun hnil => ?_⟩)
    rw [hnil] at hlen
    cases hlen
  have hwrap : p.client.conn.now.toNat + 257 < 2 ^ 64 := by omega
  exact ⟨p, hp, hlen, silence_fails (t := .client) (by decide) (by decide) hp hfits (by decide)
    (by decide) (by decide) (fun e he _ => hcount e he) howes (by decide) hwrap⟩

/-! ## When the counters cannot pass the limit -/

/-- No retry limit, no timeout. -/
def patientConfig : Config where
  segmentSize := 1
  recvWindowCapacity := 8
  minRto := 0
  maxRto := 0
  maxRetries := BitVec.allOnes 32
  fastRetransmitDupAcks := 3

/-- Without a limit below `u32::MAX`, a tick of the opening handshake never fails it. -/
theorem patient_tick (hcfg : c.config = patientConfig) (hst : c.state = .synSent)
    (ht : Timers .wrapping c) (now : Tick) :
    ∃ c' out, c.onTick .wrapping now = .ok (c', out) ∧ c'.config = patientConfig ∧
      c'.state = .synSent ∧ Timers .wrapping c' := by
  have hcfg₀ : (c.advance now).config = patientConfig := hcfg
  have ht₀ := ht.advance now
  obtain ⟨⟨c', out⟩, h⟩ := tickHandshake_returns (by rw [hcfg₀]; decide) (fun hb => by cases hb)
    (fun p _ => Build.wrapping_fit _ _) ht₀ (fun hb => by cases hb) (Or.inl hst)
  have hm : Moves .wrapping none (c.advance now) c' := tickHandshake_moves h
  refine ⟨c', out, by rw [onTick_handshake _ (Or.inl hst), h], hm.config.trans hcfg, ?_,
    hm.preserves Timers.move ht₀⟩
  cases tickHandshake_branch h with
  | @fail _ n _ _ _ hlt =>
    rw [hcfg₀] at hlt
    have hlt' : (BitVec.allOnes 32).toNat < n.toNat := hlt
    have := n.isLt
    rw [BitVec.toNat_allOnes] at hlt'
    omega
  | idle | retry => exact hst

theorem patient_run : ∀ {n : Nat} {now : Tick} {c : Connection}, c.config = patientConfig →
    c.state = .synSent → Timers .wrapping c →
    ∃ c', tickFrom .wrapping n now c = .ok c' ∧ c'.state = .synSent
  | 0, _, c, _, hst, _ => ⟨c, rfl, hst⟩
  | n + 1, now, c, hcfg, hst, ht => by
    obtain ⟨c₁, out, h, hcfg₁, hst₁, ht₁⟩ := patient_tick hcfg hst ht (now + 1#64)
    simp only [tickFrom, h, ok_bind]
    exact patient_run hcfg₁ hst₁ ht₁

/-- **With `max_retries = u32::MAX` a silent peer is not detected**: the client stays in
    `SynSent`, however often it is ticked. -/
theorem max_retries_never_fails : ∃ p, Pair.Reach .wrapping patientConfig patientConfig p ∧
    p.client.conn.Owes ∧ ∀ n, ∃ c',
      tickFrom .wrapping n p.client.conn.now p.client.conn = .ok c' ∧ c'.state = .synSent := by
  have hrun : Pair.plays .wrapping patientConfig patientConfig []
      (fun p => decide (p.client.conn.state = .synSent)) = true := by decide +kernel
  obtain ⟨p, hp, ht⟩ := Pair.plays_reach hrun
  have hst := of_decide_eq_true ht
  obtain ⟨hcfg, _⟩ := reach_config (by decide) (by decide) hp .client
  have htimers := reach_timers (by decide) (by decide) hp .client
  exact ⟨p, hp, Or.inl hst, fun n => patient_run hcfg hst htimers⟩

end Distrans
