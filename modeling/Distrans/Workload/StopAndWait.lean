import Distrans.Workload.Unreliable

/-!
# Stop-and-wait

Runs of `run_stop_and_wait` over unreliable channels.

* `StopAndWait.Keeps` — the invariant: at most one chunk is unacknowledged, and it has been sent
  once more than it was retried; `turn_keeps` — a turn of the loop keeps it.
* `stop_and_wait_correct_iff` — **over every pair of unreliable channels a run delivers a prefix of
  the data, all of it if it completes, and sends no chunk more than `max_retries + 1` times, just if
  its counter of retries cannot be full before the last tick.**
* `stop_and_wait_recounts` — a run over channels that lose everything, which fills the counter.
-/

set_option autoImplicit false

namespace Distrans.Workload

open Machine

/-- Ticks between two transmissions of a chunk, at the least. -/
def ArqConfig.gap (config : ArqConfig) : Nat := max config.rto.toNat 1

theorem ArqConfig.gap_pos (config : ArqConfig) : 0 < config.gap := Nat.le_max_right _ _

namespace StopAndWait

variable {κ : Type} {b : Build} {M : Medium κ} {chunks : List (List U8)} {config : ArqConfig}
  {maxTicks : U64} {Carries : κ → Set Frame → Prop}

/-! ## The invariant -/

/-- The chunk `seq` is unacknowledged, and was sent last at `sentAt`. -/
structure Waiting (chunks : List (List U8)) (config : ArqConfig) (s : StopAndWait κ) (now : Nat)
    (seq : U32) (chunk : List U8) (sentAt : Tick) : Prop where
  chunk : chunks[seq.toNat]? = some chunk
  next : s.nextSeq.toNat = seq.toNat + 1
  count : s.transmitted.count seq = s.retries.toNat + 1
  paced : 1 + s.retries.toNat * config.gap ≤ sentAt.toNat
  past : sentAt.toNat ≤ now

/-- The sender has the acknowledgements of all chunks before `base`. -/
inductive Sender (chunks : List (List U8)) (config : ArqConfig) (s : StopAndWait κ) (now : Nat) :
    Nat → Prop
  | idle : s.unacked = none → s.retries = 0 → Sender chunks config s now s.nextSeq.toNat
  | waiting {seq : U32} {chunk : List U8} {sentAt : Tick} : s.unacked = some (seq, chunk, sentAt) →
      Waiting chunks config s now seq chunk sentAt → Sender chunks config s now seq.toNat

/-- What holds of the variables when nothing was sent after `now`. -/
structure Keeps (Carries : κ → Set Frame → Prop) (chunks : List (List U8)) (config : ArqConfig)
    (s : StopAndWait κ) (now : Nat) : Prop where
  flying : ∃ base out acks, Sender chunks config s now base ∧ Carries s.fwd out ∧
    Carries s.back acks ∧ Flying chunks s.nextSeq.toNat base s.receiver out acks
  fresh : ∀ seq ∈ s.transmitted, seq.toNat < s.nextSeq.toNat
  bounded : ∀ seq, s.transmitted.count seq ≤ config.maxRetries.toNat + 1

/-- What the scheme promises of a result. -/
structure Promise (chunks : List (List U8)) (config : ArqConfig) (r : RunResult)
    (s : StopAndWait κ) : Prop where
  cut : ∃ n, r.delivered = (chunks.take n).flatten
  complete : r.completed = true → r.delivered = chunks.flatten
  bounded : ∀ seq, s.transmitted.count seq ≤ config.maxRetries.toNat + 1

theorem Sender.later {s : StopAndWait κ} {now now' base : Nat}
    (h : Sender chunks config s now base) (hle : now ≤ now') : Sender chunks config s now' base := by
  cases h with
  | idle hnone hzero => exact .idle hnone hzero
  | waiting hsome h =>
    exact .waiting hsome ⟨h.chunk, h.next, h.count, h.paced, h.past.trans hle⟩

theorem Keeps.later {s : StopAndWait κ} {now now' : Nat} (h : Keeps Carries chunks config s now)
    (hle : now ≤ now') : Keeps Carries chunks config s now' := by
  obtain ⟨base, out, acks, hs, hfwd, hback, hfly⟩ := h.flying
  exact ⟨⟨base, out, acks, hs.later hle, hfwd, hback, hfly⟩, h.fresh, h.bounded⟩

/-! ## The sender -/

variable {s : StopAndWait κ} {now : Nat} {out acks : Set Frame}

/-- One datagram at the sender: an acknowledgement in flight is the awaited one, or changes
nothing. -/
theorem onAck_keeps {d : List U8}
    (hacks : ∀ f, Frame.decode d = .ok (.ok f) → f ∈ acks)
    (h : ∃ base, Sender chunks config s now base ∧
      Flying chunks s.nextSeq.toNat base s.receiver out acks) :
    ∃ unacked retries, s.onAck b d = .ok { s with unacked, retries } ∧
      ∃ base, Sender chunks config { s with unacked, retries } now base ∧
        Flying chunks s.nextSeq.toNat base s.receiver out acks := by
  obtain ⟨r, hr⟩ := Frame.decode_total d
  unfold onAck
  rw [hr, ok_bind]
  cases r with
  | error e => exact ⟨s.unacked, s.retries, rfl, h⟩
  | ok f =>
    dsimp only
    split
    · obtain ⟨base, hs, hfly⟩ := h
      cases hs with
      | idle hnone hzero =>
        rw [hnone]
        exact ⟨none, s.retries, congrArg (fun u => Except.ok { s with unacked := u }) hnone, _,
          .idle rfl hzero, hfly⟩
      | @waiting seq chunk sentAt hsome hw =>
        obtain ⟨next, hadd, hnext⟩ := Build.add_ok b (x := seq) (y := 1#32)
          (show seq.toNat + 1 < 2 ^ 32 by have := hw.next; omega)
        rw [hsome]
        dsimp only
        rw [hadd, ok_bind]
        split
        · rename_i hseq
          have hbase : f.sequence.toNat = s.nextSeq.toNat := by
            rw [hseq, hnext, hw.next]
            rfl
          have hlearn := hfly.learn (hacks f hr) (by have := hw.next; omega)
          rw [hbase] at hlearn
          exact ⟨none, 0, rfl, _, .idle rfl rfl, hlearn⟩
        · exact ⟨some (seq, chunk, sentAt), s.retries,
            congrArg (fun u => Except.ok { s with unacked := u }) hsome, _,
            .waiting rfl ⟨hw.chunk, hw.next, hw.count, hw.paced, hw.past⟩, hfly⟩
    · exact ⟨s.unacked, s.retries, rfl, h⟩

theorem listen_keeps (hM : Unreliable M (arqFrames chunks) Carries)
    (hfew : chunks.length < 2 ^ 32) (h : Keeps Carries chunks config s now) {tick : U64}
    (htick : b.add s.tick 1#64 = .ok tick) :
    ∃ s', s.listen b M = .ok s' ∧ Keeps Carries chunks config s' now ∧ s'.tick = tick := by
  obtain ⟨base, out, acks, hs, hfwd, hback, hfly⟩ := h.flying
  obtain ⟨fwd, back, receiver, hhear, acks', hfwd', hback', hfly'⟩ :=
    hear_keeps (b := b) hM hfew tick hfwd hback hfly
  refine ⟨{ s with fwd, back, receiver, tick }, ?_,
    ⟨⟨base, out, acks', ?_, hfwd', hback', hfly'⟩, h.fresh, h.bounded⟩, rfl⟩
  · unfold listen
    rw [htick, ok_bind, hhear]
    rfl
  · cases hs with
    | idle hnone hzero => exact .idle hnone hzero
    | waiting hsome h => exact .waiting hsome ⟨h.chunk, h.next, h.count, h.paced, h.past⟩

theorem heed_keeps (hM : Unreliable M (arqFrames chunks) Carries)
    (h : Keeps Carries chunks config s now) :
    ∃ s', s.heed b M = .ok s' ∧ Keeps Carries chunks config s' now ∧ s'.tick = s.tick := by
  obtain ⟨base, out, acks, hs, hfwd, hback, hfly⟩ := h.flying
  obtain ⟨back, ds, hadv, hback', hds⟩ := hM.advance s.tick hback
  -- the sender changes two variables only
  obtain ⟨s', hfold, ⟨unacked, retries, rfl⟩, base', hs', hfly'⟩ := foldlM_keeps (f := onAck b)
    (I := fun t => (∃ unacked retries, t = { s with back, unacked, retries }) ∧
      ∃ base, Sender chunks config t now base ∧
        Flying chunks t.nextSeq.toNat base t.receiver out acks)
    (s := { s with back }) ⟨⟨s.unacked, s.retries, rfl⟩, base, by
      cases hs with
      | idle hnone hzero => exact .idle hnone hzero
      | waiting hsome h => exact .waiting hsome ⟨h.chunk, h.next, h.count, h.paced, h.past⟩, hfly⟩
    (fun t d hd ht => by
      obtain ⟨⟨unacked, retries, rfl⟩, ht⟩ := ht
      obtain ⟨unacked', retries', hack, ht'⟩ := onAck_keeps (b := b) (hds d hd) ht
      exact ⟨_, hack, ⟨unacked', retries', rfl⟩, ht'⟩)
  refine ⟨_, ?_, ⟨⟨base', out, acks, hs', hfwd, hback', hfly'⟩, h.fresh, h.bounded⟩, rfl⟩
  unfold heed
  rw [hadv]
  exact hfold

/-- The counter of retries cannot be full before the last tick. -/
def Spared (chunks : List (List U8)) (config : ArqConfig) (maxTicks : U64) : Prop :=
  chunks = [] ∨ config.maxRetries ≠ BitVec.allOnes 32 ∨ maxTicks.toNat ≤ 2 ^ 32 * config.gap

/-- A chunk that is overdue was sent a gap ago. -/
theorem due {sentAt : Tick} (hdue : config.rto ≤ satSub s.tick sentAt)
    (hpast : sentAt.toNat < s.tick.toNat) : sentAt.toNat + config.gap ≤ s.tick.toNat := by
  have hle : config.rto.toNat ≤ (satSub s.tick sentAt).toNat := hdue
  rw [satSub_toNat] at hle
  simp only [ArqConfig.gap]
  omega

/-- There is room for one more retry. -/
theorem Waiting.room {seq : U32} {chunk : List U8} {sentAt : Tick}
    (hw : Waiting chunks config s now seq chunk sentAt)
    (hbounded : s.transmitted.count seq ≤ config.maxRetries.toNat + 1)
    (hspared : Spared chunks config maxTicks) (hmax : s.tick.toNat ≤ max maxTicks.toNat 1)
    (hdue : sentAt.toNat + config.gap ≤ s.tick.toNat) : s.retries.toNat + 1 < 2 ^ 32 := by
  have hcount := hw.count
  rcases hspared with hnil | hne | hticks
  · have hchunk := hw.chunk
    rw [hnil] at hchunk
    cases hchunk
  · have hlt : config.maxRetries.toNat ≠ 2 ^ 32 - 1 := fun h =>
      hne (BitVec.eq_of_toNat_eq (by rw [h, BitVec.toNat_allOnes]))
    have := config.maxRetries.isLt
    omega
  · -- a full counter takes `2 ^ 32` gaps
    by_contra hfull
    have hretries : s.retries.toNat = 2 ^ 32 - 1 := by omega
    have hpaced := hw.paced
    have hgap := config.gap_pos
    rw [hretries] at hpaced
    omega

theorem count_append {seq seq' : U32} {xs : List U32} :
    (xs ++ [seq]).count seq' = xs.count seq' + if seq = seq' then 1 else 0 := by
  rw [List.count_append, List.count_singleton]
  simp only [beq_iff_eq]

/-- The next chunk is sent. -/
theorem Keeps.sent {fwd : κ} {nextSeq : U32} {chunk : List U8}
    (h : Keeps Carries chunks config s now) (hzero : s.retries = 0)
    (hfly : Flying chunks s.nextSeq.toNat s.nextSeq.toNat s.receiver out acks)
    (hfwd : Carries fwd (insert (segment s.nextSeq chunk) out)) (hback : Carries s.back acks)
    (hchunk : chunks[s.nextSeq.toNat]? = some chunk) (hval : nextSeq.toNat = s.nextSeq.toNat + 1)
    (hnow : s.tick.toNat = now + 1) :
    Keeps Carries chunks config { s with
      fwd, nextSeq
      unacked := some (s.nextSeq, chunk, s.tick)
      transmitted := s.transmitted ++ [s.nextSeq] } s.tick.toNat := by
  have hnew : s.transmitted.count s.nextSeq = 0 := List.count_eq_zero.mpr fun hmem =>
    Nat.lt_irrefl _ (h.fresh _ hmem)
  obtain ⟨hlt, _⟩ := List.getElem?_eq_some_iff.mp hchunk
  refine ⟨⟨_, _, acks, .waiting rfl ⟨hchunk, hval, ?_, ?_, le_refl _⟩, hfwd, hback, ?_⟩, ?_, ?_⟩
  · show (s.transmitted ++ [s.nextSeq]).count s.nextSeq = s.retries.toNat + 1
    rw [count_append, hnew, if_pos rfl, hzero]
    rfl
  · show 1 + s.retries.toNat * config.gap ≤ s.tick.toNat
    rw [hzero]
    show 1 + 0 * config.gap ≤ _
    omega
  · show Flying chunks nextSeq.toNat s.nextSeq.toNat s.receiver _ acks
    rw [hval]
    exact (hfly.cut_next hlt).send (Nat.lt_succ_self _) hchunk
  · intro seq hseq
    show seq.toNat < nextSeq.toNat
    rcases List.mem_append.mp hseq with hseq | hseq
    · have := h.fresh seq hseq
      omega
    · rw [List.mem_singleton.mp hseq]
      omega
  · intro seq
    show (s.transmitted ++ [s.nextSeq]).count seq ≤ _
    rw [count_append]
    split
    · rename_i heq
      rw [← heq, hnew]
      omega
    · exact h.bounded seq

/-- The chunk that is overdue is sent again. -/
theorem Keeps.resent {fwd : κ} {retries seq : U32} {chunk : List U8} {sentAt : Tick}
    (h : Keeps Carries chunks config s now) (hw : Waiting chunks config s now seq chunk sentAt)
    (hfly : Flying chunks s.nextSeq.toNat seq.toNat s.receiver out acks)
    (hfwd : Carries fwd (insert (segment seq chunk) out)) (hback : Carries s.back acks)
    (hval : retries.toNat = s.retries.toNat + 1) (hmore : retries.toNat ≤ config.maxRetries.toNat)
    (hdue : sentAt.toNat + config.gap ≤ s.tick.toNat) :
    Keeps Carries chunks config { s with
      fwd, retries
      unacked := some (seq, chunk, s.tick)
      transmitted := s.transmitted ++ [seq] } s.tick.toNat := by
  have hnext := hw.next
  have hcount := hw.count
  refine ⟨⟨_, _, acks, .waiting rfl ⟨hw.chunk, hnext, ?_, ?_, le_refl _⟩, hfwd, hback,
    hfly.send (by omega) hw.chunk⟩, ?_, ?_⟩
  · show (s.transmitted ++ [seq]).count seq = retries.toNat + 1
    rw [count_append, if_pos rfl, hcount, hval]
  · show 1 + retries.toNat * config.gap ≤ s.tick.toNat
    have hpaced := hw.paced
    rw [hval, Nat.add_mul]
    omega
  · intro seq' hseq
    rcases List.mem_append.mp hseq with hseq | hseq
    · exact h.fresh seq' hseq
    · rw [List.mem_singleton.mp hseq]
      show seq.toNat < s.nextSeq.toNat
      omega
  · intro seq'
    show (s.transmitted ++ [seq]).count seq' ≤ _
    rw [count_append]
    split
    · rename_i heq
      rw [← heq, hcount]
      omega
    · exact h.bounded seq'

/-- What the sender does in a turn. -/
theorem transmit_keeps (hM : Unreliable M (arqFrames chunks) Carries)
    (hspared : Spared chunks config maxTicks) (hfew : chunks.length < 2 ^ 32)
    (h : Keeps Carries chunks config s now) (hnow : s.tick.toNat = now + 1)
    (hmax : s.tick.toNat ≤ max maxTicks.toNat 1) :
    (∃ s', s.transmit b M chunks config = .ok (.inl s') ∧
      Keeps Carries chunks config s' s.tick.toNat ∧ s'.tick = s.tick) ∨
    ∃ r s', s.transmit b M chunks config = .ok (.inr (r, s')) ∧ Promise chunks config r s' := by
  have hlater := h.later (show now ≤ s.tick.toNat by omega)
  obtain ⟨base, out, acks, hs, hfwd, hback, hfly⟩ := h.flying
  unfold transmit
  cases hs with
  | idle hnone hzero =>
    by_cases hlt : s.nextSeq.toNat < chunks.length
    · have hchunk : chunks[s.nextSeq.toNat]? = some chunks[s.nextSeq.toNat] :=
        List.getElem?_eq_getElem hlt
      obtain ⟨fwd, hsend, hfwd'⟩ := hM.send hfwd (Or.inl ⟨s.nextSeq, _, hchunk, rfl⟩)
      obtain ⟨nextSeq, hadd, hval⟩ := Build.add_ok b (x := s.nextSeq) (y := 1#32)
        (show s.nextSeq.toNat + 1 < 2 ^ 32 by omega)
      rw [if_pos ⟨hnone, hlt⟩, index_ok hlt, ok_bind]
      exact Or.inl ⟨_, bind_eq_ok.mpr ⟨fwd, hsend, bind_eq_ok.mpr ⟨nextSeq, hadd, rfl⟩⟩,
        h.sent hzero hfly hfwd' hback hchunk hval hnow, rfl⟩
    · rw [if_neg fun hc => hlt hc.2, hnone]
      exact Or.inl ⟨s, rfl, hlater, rfl⟩
  | @waiting seq chunk sentAt hsome hw =>
    have hbusy : ¬ (s.unacked = none ∧ s.nextSeq.toNat < chunks.length) := by
      rw [hsome]
      exact fun hc => absurd hc.1 (Option.some_ne_none _)
    rw [if_neg hbusy, hsome]
    dsimp only
    split
    · rename_i hdue
      have hpast := hw.past
      have hdue := due hdue (by omega)
      obtain ⟨retries, hadd, hval⟩ := Build.add_ok b (x := s.retries) (y := 1#32)
        (hw.room (h.bounded seq) hspared hmax hdue)
      rw [hadd, ok_bind]
      split
      · exact Or.inr ⟨_, _, rfl, ⟨_, hfly.delivered⟩, fun hc => Bool.noConfusion hc, h.bounded⟩
      · rename_i hmore
        obtain ⟨fwd, hsend, hfwd'⟩ := hM.send hfwd (Or.inl ⟨seq, chunk, hw.chunk, rfl⟩)
        exact Or.inl ⟨_, bind_eq_ok.mpr ⟨fwd, hsend, rfl⟩,
          h.resent hw hfly hfwd' hback hval (not_lt.mp hmore) hdue, rfl⟩
    · exact Or.inl ⟨s, rfl, hlater, rfl⟩

/-! ## Runs -/

/-- With nothing unacknowledged and nothing left to send, everything is delivered. -/
theorem Keeps.complete (h : Keeps Carries chunks config s now) (hnone : s.unacked = none)
    (hall : s.nextSeq.toNat = chunks.length) : s.receiver.delivered = chunks.flatten := by
  obtain ⟨base, out, acks, hs, _, _, hfly⟩ := h.flying
  cases hs with
  | idle => exact hfly.complete hall
  | waiting hsome =>
    rw [hnone] at hsome
    cases hsome

theorem Keeps.promise (h : Keeps Carries chunks config s now) {completed : Bool}
    (hdone : completed = true → s.unacked = none ∧ s.nextSeq.toNat = chunks.length) :
    Promise chunks config (s.result completed) s := by
  obtain ⟨base, out, acks, _, _, _, hfly⟩ := h.flying
  exact ⟨⟨_, hfly.delivered⟩, fun hc => h.complete (hdone hc).1 (hdone hc).2, h.bounded⟩

/-- The invariant at the head of the loop: there is a tick left. -/
structure Ready (Carries : κ → Set Frame → Prop) (chunks : List (List U8)) (config : ArqConfig)
    (maxTicks : U64) (s : StopAndWait κ) : Prop where
  keeps : Keeps Carries chunks config s s.tick.toNat
  left : s.tick.toNat ≤ maxTicks.toNat - 1

/-- The run returns, and keeps its promise. -/
def Returns (chunks : List (List U8)) (config : ArqConfig)
    (x : Exec (RunResult × StopAndWait κ)) : Prop :=
  ∃ r s, x = .ok (r, s) ∧ Promise chunks config r s

/-- **A turn of the loop.** -/
theorem turn_keeps (hM : Unreliable M (arqFrames chunks) Carries)
    (hspared : Spared chunks config maxTicks) (hfew : chunks.length < 2 ^ 32)
    (h : Ready Carries chunks config maxTicks s) :
    Lap (turn b M chunks config maxTicks) (Ready Carries chunks config maxTicks)
      (fun s => maxTicks.toNat - s.tick.toNat) (Returns chunks config) s := by
  have hlt := maxTicks.isLt
  have hleft := h.left
  obtain ⟨tick, hadd, hval⟩ := Build.add_ok b (x := s.tick) (y := 1#64)
    (show s.tick.toNat + 1 < 2 ^ 64 by omega)
  have hval : tick.toNat = s.tick.toNat + 1 := hval
  obtain ⟨s₁, hlisten, h₁, rfl⟩ := listen_keeps hM hfew h.keeps hadd
  obtain ⟨s₂, hheed, h₂, htick₂⟩ := heed_keeps (b := b) hM h₁
  rw [← htick₂] at hval
  rcases transmit_keeps (b := b) hM hspared hfew h₂ hval (by omega) with
    ⟨s', htransmit, h', htick⟩ | ⟨r, s', htransmit, hr⟩
  · have hturn : turn b M chunks config maxTicks s =
        if (s'.unacked = none ∧ s'.nextSeq.toNat = chunks.length) ∨ maxTicks ≤ s'.tick then
          .ok (.inr (s'.result (decide (s'.unacked = none ∧ s'.nextSeq.toNat = chunks.length)), s'))
        else .ok (.inl s') := by
      unfold turn
      rw [hlisten, ok_bind, hheed, ok_bind, htransmit]
      rfl
    rw [← htick] at h' hval
    split at hturn
    · exact .breaks hturn ⟨_, _, rfl, h'.promise of_decide_eq_true⟩
    · rename_i hgo
      have hgo : s'.tick.toNat < maxTicks.toNat := not_le.mp fun hle => hgo (Or.inr hle)
      exact .goes hturn ⟨h', by omega⟩ (by omega)
  · have hturn : turn b M chunks config maxTicks s = .ok (.inr (r, s')) := by
      unfold turn
      rw [hlisten, ok_bind, hheed, ok_bind, htransmit]
      rfl
    exact .breaks hturn ⟨r, s', rfl, hr⟩

theorem start_keeps {fwd back : κ} (hfwd : Carries fwd ∅) (hback : Carries back ∅) :
    Keeps Carries chunks config { fwd, back } 0 :=
  ⟨⟨_, ∅, ∅, .idle rfl rfl, hfwd, hback, .start⟩, fun _ hseq => absurd hseq List.not_mem_nil,
    fun _ => Nat.zero_le _⟩

theorem run_returns {data : List U8} {fwd back : κ}
    (hM : Unreliable M (arqFrames (config.chunks data)) Carries) (hfwd : Carries fwd ∅)
    (hback : Carries back ∅) (hfew : (config.chunks data).length < 2 ^ 32)
    (hspared : Spared (config.chunks data) config maxTicks) :
    Returns (config.chunks data) config
      (runStopAndWait b M data fwd back config maxTicks) :=
  loop_ends (fun _ h => turn_keeps hM hspared hfew h)
    ⟨start_keeps hfwd hback, Nat.zero_le _⟩ (Nat.lt_succ_of_le (Nat.sub_le _ _))

/-! ## Runs in which nothing arrives -/

/-- The first chunk has been sent `n + 1` times by now, one gap after the other. -/
inductive Starving (config : ArqConfig) (s : StopAndWait Channel) (now : Nat) : Prop
  | fresh : now = 0 → s.unacked = none → s.nextSeq = 0 → s.transmitted = [] → Starving config s now
  | waiting {chunk : List U8} {sentAt : Tick} (n : Nat) : s.unacked = some (0, chunk, sentAt) →
      s.transmitted.count 0 = n + 1 → sentAt.toNat = 1 + n * config.gap → sentAt.toNat ≤ now →
      now < sentAt.toNat + config.gap → Starving config s now

variable {t t' : StopAndWait Channel}

theorem listen_lost (h : Lost t.fwd) {tick : U64} (htick : b.add t.tick 1#64 = .ok tick) :
    ∃ fwd, t.listen b (channelMedium b) = .ok { t with fwd, tick } ∧ Lost fwd := by
  obtain ⟨fwd, hadv, hlost⟩ := h.advance (b := b) tick
  refine ⟨fwd, ?_, hlost⟩
  unfold listen hear
  rw [htick, ok_bind, hadv]
  rfl

theorem heed_lost (h : Lost t.back) :
    ∃ back, t.heed b (channelMedium b) = .ok { t with back } ∧ Lost back := by
  obtain ⟨back, hadv, hlost⟩ := h.advance (b := b) t.tick
  refine ⟨back, ?_, hlost⟩
  unfold heed
  rw [hadv]
  rfl

/-- Nothing is given up: no counter is larger than the limit. -/
theorem transmit_starving (hne : chunks ≠ []) (hfull : config.maxRetries = BitVec.allOnes 32)
    (hlost : Lost t.fwd) (h : Starving config t now) (hnow : t.tick.toNat = now + 1)
    {x : StopAndWait Channel ⊕ RunResult × StopAndWait Channel}
    (hx : t.transmit b (channelMedium b) chunks config = .ok x) :
    ∃ t', x = .inl t' ∧ Starving config t' t.tick.toNat ∧ t'.unacked ≠ none ∧ t'.tick = t.tick ∧
      Lost t'.fwd ∧ t'.back = t.back := by
  have hgap := config.gap_pos
  unfold transmit at hx
  cases h with
  | fresh hzero hnone hseq hsent =>
    have hlt : t.nextSeq.toNat < chunks.length := by
      rw [hseq]
      exact List.length_pos_iff.mpr hne
    rw [if_pos ⟨hnone, hlt⟩] at hx
    obtain ⟨chunk, _, hx⟩ := bind_eq_ok.mp hx
    obtain ⟨fwd, hsend, hx⟩ := bind_eq_ok.mp hx
    obtain ⟨nextSeq, _, hx⟩ := bind_eq_ok.mp hx
    obtain ⟨fwd', hsend', hlost'⟩ := hlost.send (b := b) (dataFrame t.nextSeq chunk)
    rw [hsend] at hsend'
    cases hsend'
    cases hx
    refine ⟨_, rfl, .waiting 0 (by rw [hseq]) ?_ ?_ (le_refl _) (by omega),
      Option.some_ne_none _, rfl, hlost', rfl⟩
    · show (t.transmitted ++ [t.nextSeq]).count 0 = 0 + 1
      rw [hsent, hseq]
      rfl
    · rw [hnow, hzero]
      omega
  | @waiting chunk sentAt n hsome hcount hat hpast hsoon =>
    have hbusy : ¬ (t.unacked = none ∧ t.nextSeq.toNat < chunks.length) := by
      rw [hsome]
      exact fun hc => absurd hc.1 (Option.some_ne_none _)
    rw [if_neg hbusy, hsome] at hx
    dsimp only at hx
    split at hx
    · rename_i hdue
      have hdue := due hdue (by omega)
      obtain ⟨retries, _, hx⟩ := bind_eq_ok.mp hx
      split at hx
      · rename_i hmore
        have hmore : config.maxRetries.toNat < retries.toNat := hmore
        have := retries.isLt
        rw [hfull, BitVec.toNat_allOnes] at hmore
        omega
      · obtain ⟨fwd, hsend, hx⟩ := bind_eq_ok.mp hx
        obtain ⟨fwd', hsend', hlost'⟩ := hlost.send (b := b) (dataFrame 0 chunk)
        rw [hsend] at hsend'
        cases hsend'
        cases hx
        refine ⟨_, rfl, .waiting (n + 1) rfl ?_ ?_ (le_refl _) (by omega),
          Option.some_ne_none _, rfl, hlost', rfl⟩
        · show (t.transmitted ++ [0]).count 0 = n + 1 + 1
          rw [count_append, if_pos rfl, hcount]
        · rw [Nat.add_mul]
          omega
    · rename_i hwait
      have hwait : ¬ config.rto.toNat ≤ (satSub t.tick sentAt).toNat := hwait
      rw [satSub_toNat] at hwait
      cases hx
      have hbusy : t.unacked ≠ none := by
        rw [hsome]
        exact Option.some_ne_none _
      refine ⟨_, rfl, .waiting n hsome hcount hat (by omega) ?_, hbusy, rfl, hlost, rfl⟩
      simp only [ArqConfig.gap]
      omega

/-- The run goes on until the last tick. -/
theorem turn_starving (hne : chunks ≠ []) (hfull : config.maxRetries = BitVec.allOnes 32)
    (hfwd : Lost t.fwd) (hback : Lost t.back) (h : Starving config t t.tick.toNat)
    (hleft : t.tick.toNat ≤ maxTicks.toNat - 1)
    {x : StopAndWait Channel ⊕ RunResult × StopAndWait Channel}
    (hx : turn b (channelMedium b) chunks config maxTicks t = .ok x) :
    ∃ t', Starving config t' t'.tick.toNat ∧ t'.unacked ≠ none ∧ Lost t'.fwd ∧ Lost t'.back ∧
      (t'.tick.toNat < maxTicks.toNat ∧ x = .inl t' ∨
        maxTicks.toNat ≤ t'.tick.toNat ∧ ∃ r, x = .inr (r, t')) := by
  have hlt := maxTicks.isLt
  obtain ⟨tick, hadd, hval⟩ := Build.add_ok b (x := t.tick) (y := 1#64)
    (show t.tick.toNat + 1 < 2 ^ 64 by omega)
  have hval : tick.toNat = t.tick.toNat + 1 := hval
  obtain ⟨fwd, hlisten, hfwd'⟩ := listen_lost hfwd hadd
  obtain ⟨back, hheed, hback'⟩ := heed_lost (b := b) (t := { t with fwd, tick }) hback
  unfold turn at hx
  rw [hlisten, ok_bind, hheed, ok_bind] at hx
  obtain ⟨y, hy, hx⟩ := bind_eq_ok.mp hx
  have hstart : Starving config { t with fwd, back, tick } t.tick.toNat := by
    cases h with
    | fresh hzero hnone hseq hsent => exact .fresh hzero hnone hseq hsent
    | waiting n hsome hcount hat hpast hsoon => exact .waiting n hsome hcount hat hpast hsoon
  obtain ⟨t', rfl, h', hbusy, htick, hfwd'', hsame⟩ :=
    transmit_starving hne hfull hfwd' hstart hval hy
  refine ⟨t', by rw [htick]; exact h', hbusy, hfwd'', by rw [hsame]; exact hback', ?_⟩
  dsimp only at hx
  split at hx
  · rename_i hend
    have hend : maxTicks.toNat ≤ t'.tick.toNat := hend.resolve_left fun hdone => hbusy hdone.1
    cases hx
    exact Or.inr ⟨hend, _, rfl⟩
  · rename_i hgo
    have hgo : t'.tick.toNat < maxTicks.toNat := not_le.mp fun hle => hgo (Or.inr hle)
    cases hx
    exact Or.inl ⟨hgo, rfl⟩

/-- If a run over channels that lose everything returns at all, it has sent the first chunk once in
every gap. -/
theorem run_starving {data : List U8} {c c' : Channel} {r : RunResult} (hne : data ≠ [])
    (hfull : config.maxRetries = BitVec.allOnes 32) (hlong : 2 ^ 32 * config.gap < maxTicks.toNat)
    (hfwd : Lost c) (hback : Lost c')
    (hrun : runStopAndWait b (channelMedium b) data c c' config maxTicks = .ok (r, t)) :
    2 ^ 32 < t.transmitted.count 0 := by
  have hne : config.chunks data ≠ [] := mt chunks_eq_nil.mp hne
  obtain ⟨s, hs, hend⟩ := loop_breaks hrun
  have hs := hs.keeps (I := fun s => Lost s.fwd ∧ Lost s.back ∧ Starving config s s.tick.toNat ∧
      s.tick.toNat ≤ maxTicks.toNat - 1)
    ⟨hfwd, hback, .fresh rfl rfl rfl rfl, Nat.zero_le _⟩ fun s s' hi hbody => by
    obtain ⟨s'', h', _, hfwd', hback', ⟨hlt, heq⟩ | ⟨_, r, heq⟩⟩ :=
      turn_starving hne hfull hi.1 hi.2.1 hi.2.2.1 hi.2.2.2 hbody
    · cases heq
      exact ⟨hfwd', hback', h', by omega⟩
    · cases heq
  obtain ⟨s', h', hbusy, _, _, ⟨_, heq⟩ | ⟨hlast, r', heq⟩⟩ :=
    turn_starving hne hfull hs.1 hs.2.1 hs.2.2.1 hs.2.2.2 hend
  · cases heq
  · cases heq
    cases h' with
    | fresh _ hnone => exact absurd hnone hbusy
    | waiting n hsome hcount hat hpast hsoon =>
      rw [hcount]
      have hlt : 2 ^ 32 * config.gap < (n + 1) * config.gap := by
        rw [Nat.add_mul]
        omega
      exact Nat.lt_of_mul_lt_mul_right hlt

/-! ## What the scheme promises -/

/-- Whatever two empty channels do, the run returns, delivers whole chunks from the front of the
data, all of them if it completes, and sends none more than `max_retries + 1` times. -/
def Correct (b : Build) (data : List U8) (config : ArqConfig) (maxTicks : U64) : Prop :=
  ∀ {κ : Type} {M : Medium κ} {Carries : κ → Set Frame → Prop} {fwd back : κ},
    Unreliable M (arqFrames (config.chunks data)) Carries → Carries fwd ∅ → Carries back ∅ →
    ∃ r s, runStopAndWait b M data fwd back config maxTicks = .ok (r, s) ∧
      r.delivered <+: data ∧ (∃ n, r.delivered = ((config.chunks data).take n).flatten) ∧
      (r.completed = true → r.delivered = data) ∧
      ∀ seq, s.transmitted.count seq ≤ config.maxRetries.toNat + 1

/-- **Stop-and-wait is correct just if its counter of retries cannot be full before the last
tick.** -/
theorem stop_and_wait_correct_iff {data : List U8}
    (hfew : (config.chunks data).length < 2 ^ 32 - 1) :
    Correct b data config maxTicks ↔
      data = [] ∨ config.maxRetries ≠ BitVec.allOnes 32 ∨
        maxTicks.toNat ≤ 2 ^ 32 * config.gap := by
  have hflat := flatten_chunks config data
  constructor
  · intro h
    by_contra hbad
    simp only [not_or, not_not, not_le] at hbad
    obtain ⟨hne, hfull, hlong⟩ := hbad
    obtain ⟨c, hlost⟩ : ∃ c, Lost c :=
      ⟨⟨{ CLEAN with loss := 1 }, ⟨[]⟩, ⟨0⟩, 0, [], [], 0, {}⟩, rfl, rfl⟩
    obtain ⟨r, s, hrun, _, _, _, hbounded⟩ := h (lost_unreliable (b := b)) hlost hlost
    have hmany := run_starving hne hfull hlong hlost hlost hrun
    have hcount := hbounded 0
    rw [hfull, BitVec.toNat_allOnes] at hcount
    omega
  · intro hspared κ M Carries fwd back hM hfwd hback
    have hspared : Spared (config.chunks data) config maxTicks := by
      rw [Spared, chunks_eq_nil]
      exact hspared
    obtain ⟨r, s, hrun, hp⟩ := run_returns (b := b) hM hfwd hback (by omega) hspared
    obtain ⟨n, hcut⟩ := hp.cut
    have hprefix : r.delivered <+: data := by
      have := (List.take_prefix n (config.chunks data)).flatten
      rwa [hflat, ← hcut] at this
    exact ⟨r, s, hrun, hprefix, ⟨n, hcut⟩, fun hc => (hp.complete hc).trans hflat, hp.bounded⟩

/-- The clean channel of the source. -/
theorem stop_and_wait_correct_iff_sample : ∃ c, Channel.withScript 1 CLEAN ⟨[]⟩ = .ok c ∧
    ∃ r s, runStopAndWait .checked (channelMedium .checked) [1, 2, 3] c c ⟨2, 4, 3⟩ 20 =
        .ok (r, s) ∧ (r.completed = true → r.delivered = [1, 2, 3]) ∧
      ∀ seq, s.transmitted.count seq ≤ 4 := by
  obtain ⟨c, h₀⟩ : ∃ c, Channel.withScript 1 CLEAN ⟨[]⟩ = .ok c :=
    ⟨_, if_pos (by decide +kernel)⟩
  have hfit : DelaysFit CLEAN ⟨[]⟩ := ⟨by decide, by decide, by simp⟩
  have hchunks : ArqConfig.chunks ⟨2, 4, 3⟩ [1, 2, 3] = [[1, 2], [3]] := by decide
  have hcorrect : Correct .checked [1, 2, 3] ⟨2, 4, 3⟩ 20 :=
    (stop_and_wait_correct_iff (by rw [hchunks]; decide)).mpr (Or.inr (Or.inl (by decide)))
  obtain ⟨r, s, hrun, _, _, hall, hbounded⟩ := hcorrect (channel_unreliable_for (b := .checked)
    (by rw [hchunks]; decide +kernel)) (channelCarries_none h₀ hfit) (channelCarries_none h₀ hfit)
  exact ⟨c, h₀, r, s, hrun, hall, hbounded⟩

/-- **Over channels that lose everything no run is correct** in which the counter of retries is
full too early: it does not return, or has sent the only chunk more often than it may. -/
theorem stop_and_wait_recounts : ∃ c, Channel.withScript 1 { CLEAN with loss := 1 } ⟨[]⟩ = .ok c ∧
    ∀ b : Build, ¬ ∃ r s, runStopAndWait b (channelMedium b) [0] c c
        ⟨1, 1, BitVec.allOnes 32⟩ (BitVec.ofNat 64 (2 ^ 32 + 1)) = .ok (r, s) ∧
      ∀ seq, s.transmitted.count seq ≤ (BitVec.allOnes 32).toNat + 1 := by
  obtain ⟨c, h₀, hlost⟩ : ∃ c, Channel.withScript 1 { CLEAN with loss := 1 } ⟨[]⟩ = .ok c ∧
      Lost c := ⟨_, if_pos (by decide +kernel), rfl, rfl⟩
  refine ⟨c, h₀, fun b => ?_⟩
  rintro ⟨r, s, hrun, hbounded⟩
  have hmany := run_starving (by decide) rfl (by decide +kernel) hlost hlost hrun
  have hcount := hbounded 0
  rw [BitVec.toNat_allOnes] at hcount
  omega

end StopAndWait

end Distrans.Workload
