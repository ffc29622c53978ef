import Distrans.Workload.Unreliable

/-!
# Go-back-N

Runs of `run_go_back_n` over unreliable channels.

* `GoBackN.Keeps` — the invariant: the chunks between `base` and `next_seq` are in the window, and
  the receiver's next chunk is among them or behind them; `turn_keeps` — a turn of the loop keeps it.
* `Point` — the states of a run between any two of its steps.
* `go_back_n_safe` — **at every point of a run over unreliable channels the counters are in order
  and the first `expected` chunks are delivered; a run that completes has delivered the data.**
-/

set_option autoImplicit false

namespace Distrans.Workload.GoBackN

open Machine

variable {κ : Type} {b : Build} {M : Medium κ} {chunks : List (List U8)} {config : ArqConfig}
  {window : Nat} {maxTicks : U64} {Carries : κ → Set Frame → Prop}

/-! ## The invariant -/

structure Keeps (Carries : κ → Set Frame → Prop) (chunks : List (List U8)) (config : ArqConfig)
    (window : Nat) (s : GoBackN κ) : Prop where
  flying : ∃ out acks, Carries s.fwd out ∧ Carries s.back acks ∧
    Flying chunks s.nextSeq.toNat s.base.toNat s.receiver out acks
  window : s.nextSeq.toNat ≤ s.base.toNat + window
  retries : s.retries.toNat ≤ config.maxRetries.toNat

/-- What the invariant says of the variables alone. -/
structure Ordered (chunks : List (List U8)) (window : Nat) (s : GoBackN κ) : Prop where
  base_le : s.base.toNat ≤ s.receiver.expected.toNat
  expected_le : s.receiver.expected.toNat ≤ s.nextSeq.toNat
  window : s.nextSeq.toNat ≤ s.base.toNat + window
  next_le : s.nextSeq.toNat ≤ chunks.length
  delivered : s.receiver.delivered = (chunks.take s.receiver.expected.toNat).flatten

variable {s : GoBackN κ}

theorem Keeps.ordered (h : Keeps Carries chunks config window s) : Ordered chunks window s := by
  obtain ⟨out, acks, _, _, hfly⟩ := h.flying
  exact ⟨hfly.base_le, hfly.expected_le, h.window, hfly.cut_le, hfly.delivered⟩

theorem start_keeps {fwd back : κ} (hfwd : Carries fwd ∅) (hback : Carries back ∅) :
    Keeps Carries chunks config window { fwd, back } :=
  ⟨⟨∅, ∅, hfwd, hback, .start⟩, Nat.zero_le _, Nat.zero_le _⟩

/-! ## What arrives -/

/-- The first of the datagrams that have arrived at the receiver. -/
theorem heard_keeps (hM : Unreliable M (arqFrames chunks) Carries) (hfew : chunks.length < 2 ^ 32)
    (h : Keeps Carries chunks config window s) {tick : U64} {fwd : κ} {ds : List (List U8)}
    (ds' : List (List U8)) (hadv : M.advance s.fwd tick = .ok (fwd, ds ++ ds')) :
    ∃ back receiver, ds.foldlM (receive b M) (s.back, s.receiver) = .ok (back, receiver) ∧
      Keeps Carries chunks config window { s with fwd, back, receiver, tick } := by
  obtain ⟨out, acks, hfwd, hback, hfly⟩ := h.flying
  obtain ⟨fwd', ds'', hadv', hfwd', hds⟩ := hM.advance tick hfwd
  rw [hadv] at hadv'
  cases hadv'
  obtain ⟨⟨back, receiver⟩, hfold, acks', hback', hfly'⟩ := foldlM_keeps (f := receive b M)
    (I := fun r => ∃ acks, Carries r.1 acks ∧
      Flying chunks s.nextSeq.toNat s.base.toNat r.2 out acks)
    (s := (s.back, s.receiver)) ⟨acks, hback, hfly⟩
    fun r d hd hr => receive_keeps hM hfew (hds d (List.mem_append_left _ hd)) hr
  exact ⟨back, receiver, hfold, ⟨out, acks', hfwd', hback', hfly'⟩, h.window, h.retries⟩

theorem listen_keeps (hM : Unreliable M (arqFrames chunks) Carries)
    (hfew : chunks.length < 2 ^ 32) (h : Keeps Carries chunks config window s) {tick : U64}
    (htick : b.add s.tick 1#64 = .ok tick) :
    ∃ s', s.listen b M = .ok s' ∧ Keeps Carries chunks config window s' ∧ s'.tick = tick := by
  obtain ⟨out, acks, hfwd, _⟩ := h.flying
  obtain ⟨fwd, ds, hadv, _⟩ := hM.advance tick hfwd
  obtain ⟨back, receiver, hfold, h'⟩ := heard_keeps (b := b) hM hfew h []
    (by rw [List.append_nil]; exact hadv)
  refine ⟨_, ?_, h', rfl⟩
  unfold listen hear
  rw [htick, ok_bind, hadv, ok_bind]
  dsimp only
  rw [hfold]
  rfl

/-- One datagram at the sender: any acknowledgement in flight may raise `base`. -/
theorem onAck_keeps {out acks : Set Frame} {d : List U8}
    (hacks : ∀ f, Frame.decode d = .ok (.ok f) → f ∈ acks)
    (hfly : Flying chunks s.nextSeq.toNat s.base.toNat s.receiver out acks)
    (hwindow : s.nextSeq.toNat ≤ s.base.toNat + window)
    (hretries : s.retries.toNat ≤ config.maxRetries.toNat) :
    ∃ base retries oldestSentAt, s.onAck d = .ok { s with base, retries, oldestSentAt } ∧
      Flying chunks s.nextSeq.toNat base.toNat s.receiver out acks ∧
      s.nextSeq.toNat ≤ base.toNat + window ∧ retries.toNat ≤ config.maxRetries.toNat := by
  have hsame : ∃ base retries oldestSentAt,
      Except.ok s = Except.ok (ε := Fault) { s with base, retries, oldestSentAt } ∧
      Flying chunks s.nextSeq.toNat base.toNat s.receiver out acks ∧
      s.nextSeq.toNat ≤ base.toNat + window ∧ retries.toNat ≤ config.maxRetries.toNat :=
    ⟨s.base, s.retries, s.oldestSentAt, rfl, hfly, hwindow, hretries⟩
  obtain ⟨r, hr⟩ := Frame.decode_total d
  unfold onAck
  rw [hr, ok_bind]
  cases r with
  | error e => exact hsame
  | ok f =>
    dsimp only
    split
    · rename_i hnew
      have hlt : s.base.toNat < f.sequence.toNat := hnew.2
      exact ⟨_, _, _, rfl, hfly.learn (hacks f hr) (by omega), by omega, Nat.zero_le _⟩
    · exact hsame

/-- The first of the datagrams that have arrived at the sender. -/
theorem heeded_keeps (hM : Unreliable M (arqFrames chunks) Carries)
    (h : Keeps Carries chunks config window s) {back : κ} {ds : List (List U8)}
    (ds' : List (List U8)) (hadv : M.advance s.back s.tick = .ok (back, ds ++ ds')) :
    ∃ s', ds.foldlM onAck { s with back } = .ok s' ∧ Keeps Carries chunks config window s' ∧
      s'.tick = s.tick := by
  obtain ⟨out, acks, hfwd, hback, hfly⟩ := h.flying
  obtain ⟨back', ds'', hadv', hback', hds⟩ := hM.advance s.tick hback
  rw [hadv] at hadv'
  cases hadv'
  obtain ⟨s', hfold, ⟨base, retries, oldestSentAt, rfl⟩, hfly', hwindow, hretries⟩ :=
    foldlM_keeps (f := onAck) (I := fun t =>
      (∃ base retries oldestSentAt, t = { s with back, base, retries, oldestSentAt }) ∧
      Flying chunks t.nextSeq.toNat t.base.toNat t.receiver out acks ∧
      t.nextSeq.toNat ≤ t.base.toNat + window ∧ t.retries.toNat ≤ config.maxRetries.toNat)
    (s := { s with back }) ⟨⟨_, _, _, rfl⟩, hfly, h.window, h.retries⟩
    fun t d hd ht => by
      obtain ⟨⟨base, retries, oldestSentAt, rfl⟩, hfly, hwindow, hretries⟩ := ht
      obtain ⟨base', retries', oldestSentAt', hack, ht'⟩ :=
        onAck_keeps (hds d (List.mem_append_left _ hd)) hfly hwindow hretries
      exact ⟨_, hack, ⟨base', retries', oldestSentAt', rfl⟩, ht'⟩
  exact ⟨_, hfold, ⟨⟨out, acks, hfwd, hback', hfly'⟩, hwindow, hretries⟩, rfl⟩

theorem heed_keeps (hM : Unreliable M (arqFrames chunks) Carries)
    (h : Keeps Carries chunks config window s) :
    ∃ s', s.heed M = .ok s' ∧ Keeps Carries chunks config window s' ∧ s'.tick = s.tick := by
  obtain ⟨out, acks, _, hback, _⟩ := h.flying
  obtain ⟨back, ds, hadv, _⟩ := hM.advance s.tick hback
  obtain ⟨s', hfold, h', htick⟩ := heeded_keeps hM h []
    (by rw [List.append_nil]; exact hadv)
  refine ⟨s', ?_, h', htick⟩
  unfold heed
  rw [hadv]
  exact hfold

/-! ## What is sent -/

/-- One turn of the `while` loop. -/
theorem sendNext_keeps (hM : Unreliable M (arqFrames chunks) Carries)
    (hfit : chunks.length + window < 2 ^ 32) {tick : U64}
    (h : Keeps Carries chunks config window s ∧ s.tick = tick) :
    Lap (sendNext b M chunks window)
      (fun s => Keeps Carries chunks config window s ∧ s.tick = tick)
      (fun s => chunks.length - s.nextSeq.toNat)
      (fun x => ∃ s', x = .ok s' ∧ Keeps Carries chunks config window s' ∧ s'.tick = tick) s := by
  obtain ⟨out, acks, hfwd, hback, hfly⟩ := h.1.flying
  have hbase := hfly.base_le
  have hexpected := hfly.expected_le
  have hcut := hfly.cut_le
  have hwindow : (BitVec.ofNat 32 window).toNat = window := by
    rw [BitVec.toNat_ofNat, Nat.mod_eq_of_lt (by omega)]
  obtain ⟨limit, hlimit, hval⟩ := Build.add_ok b (x := s.base) (y := BitVec.ofNat 32 window)
    (show _ < 2 ^ 32 by rw [hwindow]; omega)
  rw [hwindow] at hval
  by_cases hroom : s.nextSeq < limit ∧ s.nextSeq.toNat < chunks.length
  · obtain ⟨hlt, hmore⟩ := hroom
    have hlt' : s.nextSeq.toNat < limit.toNat := hlt
    have hchunk : chunks[s.nextSeq.toNat]? = some chunks[s.nextSeq.toNat] :=
      List.getElem?_eq_getElem hmore
    obtain ⟨fwd, hsend, hfwd'⟩ := hM.send hfwd (Or.inl ⟨s.nextSeq, _, hchunk, rfl⟩)
    obtain ⟨nextSeq, hadd, hnext⟩ := Build.add_ok b (x := s.nextSeq) (y := 1#32)
      (show s.nextSeq.toNat + 1 < 2 ^ 32 by omega)
    have hnext : nextSeq.toNat = s.nextSeq.toNat + 1 := hnext
    have hturn : sendNext b M chunks window s = .ok (.inl { s with
        fwd, nextSeq, oldestSentAt := s.oldestSentAt.or (some s.tick) }) := by
      unfold sendNext
      rw [hlimit, ok_bind, if_pos ⟨hlt, hmore⟩, index_ok hmore, ok_bind]
      exact bind_eq_ok.mpr ⟨fwd, hsend, bind_eq_ok.mpr ⟨nextSeq, hadd, rfl⟩⟩
    have hfly' : Flying chunks nextSeq.toNat s.base.toNat s.receiver
        (insert (segment s.nextSeq chunks[s.nextSeq.toNat]) out) acks := by
      rw [hnext]
      exact (hfly.cut_next hmore).send (Nat.lt_succ_self _) hchunk
    refine .goes hturn ⟨⟨⟨_, acks, hfwd', hback, hfly'⟩, ?_, h.1.retries⟩, h.2⟩ ?_
    · show nextSeq.toNat ≤ s.base.toNat + window
      omega
    · show chunks.length - nextSeq.toNat < chunks.length - s.nextSeq.toNat
      omega
  · have hturn : sendNext b M chunks window s = .ok (.inr s) := by
      unfold sendNext
      rw [hlimit, ok_bind, if_neg hroom]
    exact .breaks hturn ⟨s, rfl, h⟩

theorem sendWindow_keeps (hM : Unreliable M (arqFrames chunks) Carries)
    (hfit : chunks.length + window < 2 ^ 32) (h : Keeps Carries chunks config window s) :
    ∃ s', s.sendWindow b M chunks window = .ok s' ∧ Keeps Carries chunks config window s' ∧
      s'.tick = s.tick :=
  loop_ends (fun _ ht => sendNext_keeps hM hfit ht) ⟨h, rfl⟩
    (Nat.lt_succ_of_le (Nat.sub_le _ _))

/-- Every chunk of the window is there, and goes out once more. -/
theorem resend_keeps (hM : Unreliable M (arqFrames chunks) Carries)
    (h : Keeps Carries chunks config window s) :
    ∃ fwd, s.resend M chunks = .ok fwd ∧
      Keeps Carries chunks config window { s with fwd } := by
  obtain ⟨out, acks, hfwd, hback, hfly⟩ := h.flying
  have hcut := hfly.cut_le
  obtain ⟨fwd, hfold, out', hfwd', hfly'⟩ := foldlM_keeps
    (f := fun fwd seq => do
      let chunk ← index chunks seq
      M.send fwd (dataFrame (BitVec.ofNat 32 seq) chunk))
    (I := fun fwd => ∃ out, Carries fwd out ∧
      Flying chunks s.nextSeq.toNat s.base.toNat s.receiver out acks)
    (l := List.range' s.base.toNat (s.nextSeq.toNat - s.base.toNat)) (s := s.fwd)
    ⟨out, hfwd, hfly⟩ fun fwd seq hseq hi => by
      obtain ⟨out, hfwd, hfly⟩ := hi
      obtain ⟨_, hlt⟩ := List.mem_range'_1.mp hseq
      have hlt : seq < s.nextSeq.toNat := by omega
      have hval : (BitVec.ofNat 32 seq).toNat = seq := by
        rw [BitVec.toNat_ofNat, Nat.mod_eq_of_lt (by omega)]
      have hchunk : chunks[(BitVec.ofNat 32 seq).toNat]? = some chunks[seq] := by
        rw [hval]
        exact List.getElem?_eq_getElem (by omega)
      obtain ⟨fwd', hsend, hfwd'⟩ := hM.send hfwd (Or.inl ⟨BitVec.ofNat 32 seq, _, hchunk, rfl⟩)
      refine ⟨fwd', ?_, _, hfwd', hfly.send (by omega) hchunk⟩
      rw [index_ok (by omega), ok_bind]
      exact hsend
  exact ⟨fwd, hfold, ⟨out', acks, hfwd', hback, hfly'⟩, h.window, h.retries⟩

/-- The counter of retries is full, and the build checks it. -/
def Overflows (b : Build) (config : ArqConfig) : Prop :=
  b = .checked ∧ config.maxRetries = BitVec.allOnes 32

theorem retry {retries max : U32} (hle : retries.toNat ≤ max.toNat) :
    (∃ r, b.add retries 1#32 = .ok r) ∨
      b.add retries 1#32 = .error .overflow ∧ b = .checked ∧ max = BitVec.allOnes 32 := by
  by_cases hfull : b = .checked ∧ retries = BitVec.allOnes 32
  · obtain ⟨rfl, rfl⟩ := hfull
    have hmax := max.isLt
    rw [BitVec.toNat_allOnes] at hle
    refine Or.inr ⟨rfl, rfl, BitVec.eq_of_toNat_eq ?_⟩
    rw [BitVec.toNat_allOnes]
    omega
  · exact Or.inl (Build.add_one_returns fun hb hr => hfull ⟨hb, hr⟩)

/-- The timeout: nothing happens, the window goes out again, or the run gives up. -/
theorem timeout_keeps (hM : Unreliable M (arqFrames chunks) Carries)
    (h : Keeps Carries chunks config window s) :
    (∃ s', s.timeout b M chunks config = .ok (.inl s') ∧
      Keeps Carries chunks config window s' ∧ s'.tick = s.tick) ∨
    (∃ s', s.timeout b M chunks config = .ok (.inr (s'.result false, s')) ∧
      Ordered chunks window s') ∨
    s.timeout b M chunks config = .error .overflow ∧ Overflows b config := by
  unfold timeout
  cases holdest : s.oldestSentAt with
  | none => exact Or.inl ⟨s, rfl, h, rfl⟩
  | some sentAt =>
    dsimp only
    split
    · rcases retry (b := b) h.retries with ⟨retries, hadd⟩ | ⟨hadd, hfull⟩
      · rw [hadd, ok_bind]
        split
        · have hord := h.ordered
          exact Or.inr (Or.inl ⟨_, rfl,
            ⟨hord.base_le, hord.expected_le, hord.window, hord.next_le, hord.delivered⟩⟩)
        · rename_i hmore
          have hretries : Keeps Carries chunks config window { s with retries } :=
            ⟨h.flying, h.window, not_lt.mp hmore⟩
          obtain ⟨fwd, hresend, h'⟩ := resend_keeps hM hretries
          exact Or.inl ⟨_, bind_eq_ok.mpr ⟨fwd, hresend, rfl⟩, ⟨h'.flying, h'.window, h'.retries⟩,
            rfl⟩
      · rw [hadd]
        exact Or.inr (Or.inr ⟨rfl, hfull⟩)
    · exact Or.inl ⟨s, rfl, h, rfl⟩

/-! ## Runs -/

/-- How a run ends: with the chunks delivered that the receiver has counted, all of them if it
completes, or with the counter of retries out of its range. -/
def Ended (b : Build) (chunks : List (List U8)) (config : ArqConfig) (window : Nat)
    (x : Exec (RunResult × GoBackN κ)) : Prop :=
  (∃ r s, x = .ok (r, s) ∧ Ordered chunks window s ∧ r.delivered = s.receiver.delivered ∧
    (r.completed = true → r.delivered = chunks.flatten)) ∨
  x = .error .overflow ∧ Overflows b config

/-- The invariant at the head of the loop: there is a tick left. -/
structure Ready (Carries : κ → Set Frame → Prop) (chunks : List (List U8)) (config : ArqConfig)
    (window : Nat) (maxTicks : U64) (s : GoBackN κ) : Prop where
  keeps : Keeps Carries chunks config window s
  left : s.tick.toNat ≤ maxTicks.toNat - 1

/-- **A turn of the loop.** -/
theorem turn_keeps (hM : Unreliable M (arqFrames chunks) Carries)
    (hfit : chunks.length + window < 2 ^ 32) (h : Ready Carries chunks config window maxTicks s) :
    Lap (turn b M chunks config window maxTicks) (Ready Carries chunks config window maxTicks)
      (fun s => maxTicks.toNat - s.tick.toNat) (Ended b chunks config window) s := by
  have hlt := maxTicks.isLt
  have hleft := h.left
  obtain ⟨tick, hadd, hval⟩ := Build.add_ok b (x := s.tick) (y := 1#64)
    (show s.tick.toNat + 1 < 2 ^ 64 by omega)
  have hval : tick.toNat = s.tick.toNat + 1 := hval
  obtain ⟨s₁, hlisten, h₁, rfl⟩ := listen_keeps hM (by omega) h.keeps hadd
  obtain ⟨s₂, hheed, h₂, htick₂⟩ := heed_keeps hM h₁
  obtain ⟨s₃, hsend, h₃, htick₃⟩ := sendWindow_keeps (b := b) hM hfit h₂
  have hbody : turn b M chunks config window maxTicks s =
      (s₃.timeout b M chunks config >>= fun x => Sum.elim (fun s =>
        if s.base.toNat = chunks.length ∨ maxTicks ≤ s.tick then
          .ok (.inr (s.result (decide (s.base.toNat = chunks.length)), s))
        else .ok (.inl s)) (fun r => .ok (.inr r)) x) := by
    unfold turn
    rw [hlisten, ok_bind, hheed, ok_bind, hsend, ok_bind]
    congr 1
    funext x
    cases x <;> rfl
  rcases timeout_keeps (b := b) hM h₃ with ⟨s', htime, h', htick⟩ | ⟨s', htime, hord⟩ | ⟨htime, hfull⟩
  · rw [htime, ok_bind, Sum.elim_inl] at hbody
    rw [← htick₂, ← htick₃, ← htick] at hval
    split at hbody
    · refine .breaks hbody (Or.inl ⟨_, _, rfl, h'.ordered, rfl, fun hc => ?_⟩)
      obtain ⟨out, acks, _, _, hfly⟩ := h'.flying
      exact hfly.complete (of_decide_eq_true hc)
    · rename_i hgo
      have hgo : s'.tick.toNat < maxTicks.toNat := not_le.mp fun hle => hgo (Or.inr hle)
      exact .goes hbody ⟨h', by omega⟩ (by omega)
  · rw [htime, ok_bind, Sum.elim_inr] at hbody
    exact .breaks hbody (Or.inl ⟨_, _, rfl, hord, rfl, fun hc => Bool.noConfusion hc⟩)
  · rw [htime, error_bind] at hbody
    exact .faults hbody (Or.inr ⟨rfl, hfull⟩)

/-- The states of a run: at the head of the loop, after each datagram at the receiver and at the
sender, and after each chunk of the `while` loop.  The timeout changes no variable of these. -/
inductive Point (b : Build) (M : Medium κ) (chunks : List (List U8)) (config : ArqConfig)
    (window : Nat) (maxTicks : U64) (s₀ : GoBackN κ) : GoBackN κ → Prop
  | head {s : GoBackN κ} : Head (turn b M chunks config window maxTicks) s₀ s →
      Point b M chunks config window maxTicks s₀ s
  | heard {s : GoBackN κ} {tick : U64} {fwd back : κ} {receiver : Receiver}
      {ds ds' : List (List U8)} : Head (turn b M chunks config window maxTicks) s₀ s →
      b.add s.tick 1#64 = .ok tick → M.advance s.fwd tick = .ok (fwd, ds ++ ds') →
      ds.foldlM (receive b M) (s.back, s.receiver) = .ok (back, receiver) →
      Point b M chunks config window maxTicks s₀ { s with fwd, back, receiver, tick }
  | heeded {s s₁ s' : GoBackN κ} {back : κ} {ds ds' : List (List U8)} :
      Head (turn b M chunks config window maxTicks) s₀ s → s.listen b M = .ok s₁ →
      M.advance s₁.back s₁.tick = .ok (back, ds ++ ds') →
      ds.foldlM onAck { s₁ with back } = .ok s' →
      Point b M chunks config window maxTicks s₀ s'
  | sent {s s₁ s₂ s' : GoBackN κ} : Head (turn b M chunks config window maxTicks) s₀ s →
      s.listen b M = .ok s₁ → s₁.heed M = .ok s₂ → Head (sendNext b M chunks window) s₂ s' →
      Point b M chunks config window maxTicks s₀ s'

theorem heads_ready (hM : Unreliable M (arqFrames chunks) Carries)
    (hfit : chunks.length + window < 2 ^ 32) {fwd back : κ} (hfwd : Carries fwd ∅)
    (hback : Carries back ∅)
    (hs : Head (turn b M chunks config window maxTicks) { fwd, back } s) :
    Ready Carries chunks config window maxTicks s :=
  hs.keeps ⟨start_keeps hfwd hback, Nat.zero_le _⟩
    fun _ _ hi hbody => (turn_keeps hM hfit hi).keeps hbody

theorem point_keeps (hM : Unreliable M (arqFrames chunks) Carries)
    (hfit : chunks.length + window < 2 ^ 32) {fwd back : κ} (hfwd : Carries fwd ∅)
    (hback : Carries back ∅)
    (hs : Point b M chunks config window maxTicks { fwd, back } s) :
    Keeps Carries chunks config window s := by
  have hfew : chunks.length < 2 ^ 32 := by omega
  have hhead : ∀ s, Head (turn b M chunks config window maxTicks) { fwd, back } s →
      Keeps Carries chunks config window s :=
    fun s hs => (heads_ready hM hfit hfwd hback hs).keeps
  have hlisten : ∀ {s s₁ : GoBackN κ}, Keeps Carries chunks config window s →
      s.listen b M = .ok s₁ → Keeps Carries chunks config window s₁ := by
    intro s s₁ h hs
    obtain ⟨tick, htick, _⟩ := bind_eq_ok.mp hs
    obtain ⟨s', hs', h', _⟩ := listen_keeps hM hfew h htick
    rw [hs] at hs'
    cases hs'
    exact h'
  cases hs with
  | head hs => exact hhead _ hs
  | heard hs htick hadv hfold =>
    obtain ⟨back, receiver, hfold', h'⟩ := heard_keeps (b := b) hM hfew (hhead _ hs) _ hadv
    rw [hfold] at hfold'
    cases hfold'
    exact h'
  | heeded hs hl hadv hfold =>
    obtain ⟨s', hfold', h', _⟩ := heeded_keeps hM (hlisten (hhead _ hs) hl) _ hadv
    rw [hfold] at hfold'
    cases hfold'
    exact h'
  | sent hs hl hh hsend =>
    obtain ⟨s₂, hheed, h₂, _⟩ := heed_keeps hM (hlisten (hhead _ hs) hl)
    rw [hh] at hheed
    cases hheed
    exact (hsend.keeps ⟨h₂, rfl⟩ fun _ _ hi hbody =>
      (sendNext_keeps hM hfit hi).keeps hbody).1

/-- **Go-back-N over unreliable channels**: at every point of a run the counters are in order and
the chunks before `expected` are delivered, and the run returns, with all of the data if it
completes, unless a full counter of retries aborts it. -/
theorem go_back_n_safe (b : Build) {data : List U8} {fwd back : κ} (maxTicks : U64)
    (hM : Unreliable M (arqFrames (config.chunks data)) Carries) (hfwd : Carries fwd ∅)
    (hback : Carries back ∅) (hfit : (config.chunks data).length + window < 2 ^ 32) :
    (∀ s, Point b M (config.chunks data) config window maxTicks { fwd, back } s →
      Ordered (config.chunks data) window s) ∧
    ((∃ r s, runGoBackN b M data fwd back config window maxTicks = .ok (r, s) ∧
        Ordered (config.chunks data) window s ∧ r.delivered = s.receiver.delivered ∧
        (r.completed = true → r.delivered = data)) ∨
      runGoBackN b M data fwd back config window maxTicks = .error .overflow ∧
        Overflows b config) := by
  have hflat := flatten_chunks config data
  refine ⟨fun s hs => (point_keeps hM hfit hfwd hback hs).ordered, ?_⟩
  have hend : Ended b (config.chunks data) config window
      (runGoBackN b M data fwd back config window maxTicks) :=
    loop_ends (fun _ h => turn_keeps hM hfit h) ⟨start_keeps hfwd hback, Nat.zero_le _⟩
      (Nat.lt_succ_of_le (Nat.sub_le _ _))
  rcases hend with ⟨r, s, hrun, hord, hdel, hall⟩ | hfull
  · exact Or.inl ⟨r, s, hrun, hord, hdel, fun hc => (hall hc).trans hflat⟩
  · exact Or.inr hfull

/-- The clean channel of the source, and a window of two. -/
theorem go_back_n_safe_sample : ∃ c, Channel.withScript 1 CLEAN ⟨[]⟩ = .ok c ∧
    ∃ r s, runGoBackN .checked (channelMedium .checked) [1, 2, 3] c c ⟨2, 4, 3⟩ 2 20 =
      .ok (r, s) ∧ (r.completed = true → r.delivered = [1, 2, 3]) := by
  obtain ⟨c, h₀⟩ : ∃ c, Channel.withScript 1 CLEAN ⟨[]⟩ = .ok c :=
    ⟨_, if_pos (by decide +kernel)⟩
  have hfit : DelaysFit CLEAN ⟨[]⟩ := ⟨by decide, by decide, by simp⟩
  have hchunks : ArqConfig.chunks ⟨2, 4, 3⟩ [1, 2, 3] = [[1, 2], [3]] := by decide
  have hwindow : (ArqConfig.chunks ⟨2, 4, 3⟩ [1, 2, 3]).length + 2 < 2 ^ 32 := by
    rw [hchunks]
    decide
  have hempty := channelCarries_none h₀ hfit
  obtain ⟨_, ⟨r, s, hrun, _, _, hall⟩ | ⟨_, _, hfull⟩⟩ := go_back_n_safe .checked 20
    (channel_unreliable_for (b := .checked) (by rw [hchunks]; decide +kernel)) hempty hempty hwindow
  · exact ⟨c, h₀, r, s, hrun, hall⟩
  · exact absurd hfull (by decide)

end Distrans.Workload.GoBackN
