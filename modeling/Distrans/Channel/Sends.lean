import Distrans.Channel.Channel

/-!
# What a send does

* `send_emits` — what one send enqueues: nothing if it is dropped, else one or two datagrams, each
  a prefix of the payload with at most one bit flipped, none due before it is sent.
* `send_returns` — it returns when the delays fit.
* `send_alike` — what it enqueues depends on the profile, the script, the generator and the clock,
  not on what is in flight.
-/

set_option autoImplicit false

namespace Distrans

open Machine EventQueue

/-! ## What is emitted -/

/-- One bit flipped. -/
def flipBit (bytes : List U8) (i j : Nat) : List U8 := bytes.modify i (· ^^^ (1#8 <<< j))

/-- A prefix of the payload, with at most one bit flipped. -/
inductive Emitted (payload : List U8) : List U8 → Prop
  | intact (n : Nat) : Emitted payload (payload.take n)
  | flipped {i j : Nat} (n : Nat) : i < payload.length → j < 8 →
      Emitted payload ((flipBit payload i j).take n)

/-- Only the generator and the counters of injected faults have moved. -/
structure Draws (c c' : Channel) : Prop where
  profile : c'.profile = c.profile
  script : c'.script = c.script
  now : c'.now = c.now
  inFlight : c'.inFlight = c.inFlight
  payloads : c'.payloads = c.payloads
  nextDatagramIndex : c'.nextDatagramIndex = c.nextDatagramIndex
  sent : c'.stats.sent = c.stats.sent
  delivered : c'.stats.delivered = c.stats.delivered
  dropped : c'.stats.dropped = c.stats.dropped
  duplicated : c'.stats.duplicated = c.stats.duplicated

variable {b : Build} {c c' c₁ : Channel} {rules : List ScriptedFault} {payload bytes bytes' : List U8}

theorem Draws.trans (h : Draws c c₁) (h' : Draws c₁ c') : Draws c c' :=
  ⟨h'.profile.trans h.profile, h'.script.trans h.script, h'.now.trans h.now,
    h'.inFlight.trans h.inFlight, h'.payloads.trans h.payloads,
    h'.nextDatagramIndex.trans h.nextDatagramIndex, h'.sent.trans h.sent,
    h'.delivered.trans h.delivered, h'.dropped.trans h.dropped, h'.duplicated.trans h.duplicated⟩

theorem emitDelay_draws {d : U64} (h : c.emitDelay b rules = .ok (c', d)) : Draws c c' := by
  obtain ⟨⟨extra, rng⟩, _, h⟩ := bind_eq_ok.mp h
  cases h
  exact ⟨rfl, rfl, rfl, rfl, rfl, rfl, rfl, rfl, rfl, rfl⟩

theorem set_flipBit {x : U8} {i j : Nat} (h : index bytes i = .ok x) :
    i < bytes.length ∧ bytes.set i (x ^^^ (1#8 <<< j)) = flipBit bytes i j := by
  unfold index at h
  split at h
  · rename_i y hy
    cases h
    obtain ⟨hi, hx⟩ := List.getElem?_eq_some_iff.mp hy
    exact ⟨hi, by rw [flipBit, List.modify_eq_set_getElem?, hy]; rfl⟩
  · cases h

theorem emitCorrupt_emits (h : c.emitCorrupt rules bytes = .ok (c', bytes')) :
    Draws c c' ∧ (bytes' = bytes ∨
      ∃ i j, i < bytes.length ∧ j < 8 ∧ bytes' = flipBit bytes i j) := by
  unfold Channel.emitCorrupt at h
  dsimp only at h
  split at h
  · obtain ⟨⟨drawn, rng⟩, _, h⟩ := bind_eq_ok.mp h
    obtain ⟨⟨bit, rng'⟩, hbit, h⟩ := bind_eq_ok.mp h
    obtain ⟨x, hx, h⟩ := bind_eq_ok.mp h
    cases h
    obtain ⟨hi, hset⟩ := set_flipBit (j := bit.toNat) hx
    exact ⟨⟨rfl, rfl, rfl, rfl, rfl, rfl, rfl, rfl, rfl, rfl⟩,
      Or.inr ⟨_, _, hi, SplitMix64.below_lt hbit, hset⟩⟩
  · cases h
    exact ⟨⟨rfl, rfl, rfl, rfl, rfl, rfl, rfl, rfl, rfl, rfl⟩, Or.inl rfl⟩

theorem emitTruncate_emits (h : c.emitTruncate rules bytes = .ok (c', bytes')) :
    Draws c c' ∧ ∃ n, bytes' = bytes.take n := by
  have hall : bytes = bytes.take bytes.length := (List.take_length).symm
  unfold Channel.emitTruncate at h
  dsimp only at h
  split at h
  · obtain ⟨⟨drawn, rng⟩, _, h⟩ := bind_eq_ok.mp h
    dsimp only at h
    split at h
    · cases h
      exact ⟨⟨rfl, rfl, rfl, rfl, rfl, rfl, rfl, rfl, rfl, rfl⟩, _, rfl⟩
    · cases h
      exact ⟨⟨rfl, rfl, rfl, rfl, rfl, rfl, rfl, rfl, rfl, rfl⟩, _, hall⟩
  · cases h
    exact ⟨⟨rfl, rfl, rfl, rfl, rfl, rfl, rfl, rfl, rfl, rfl⟩, _, hall⟩

/-- One datagram: never due before it is sent. -/
theorem emitOne_emits {d : InFlight} (h : c.emitOne b payload rules = .ok (c', d)) :
    Draws c c' ∧ Emitted payload d.payload ∧ c.now ≤ d.arrives := by
  obtain ⟨⟨c₁, delay⟩, h₁, h⟩ := bind_eq_ok.mp h
  obtain ⟨⟨c₂, bytes₂⟩, h₂, h⟩ := bind_eq_ok.mp h
  obtain ⟨⟨c₃, bytes₃⟩, h₃, h⟩ := bind_eq_ok.mp h
  obtain ⟨total, _, h⟩ := bind_eq_ok.mp h
  cases h
  obtain ⟨hd₂, hflip⟩ := emitCorrupt_emits h₂
  obtain ⟨hd₃, n, hn⟩ := emitTruncate_emits h₃
  have hd := ((emitDelay_draws h₁).trans hd₂).trans hd₃
  refine ⟨hd, ?_, ?_⟩
  · show Emitted payload bytes₃
    rw [hn]
    rcases hflip with rfl | ⟨i, j, hi, hj, rfl⟩
    · exact .intact n
    · exact .flipped n hi hj
  · rw [← hd.now]
    exact Tick.le_advance _ _

/-- The queue and the clock are left alone. -/
structure Idle (c c' : Channel) : Prop where
  profile : c'.profile = c.profile
  script : c'.script = c.script
  now : c'.now = c.now
  inFlight : c'.inFlight = c.inFlight
  payloads : c'.payloads = c.payloads
  delivered : c'.stats.delivered = c.stats.delivered

/-- A send, as far as the queue is concerned: one datagram after the other is put into it. -/
inductive Enqueues (payload : List U8) : Channel → List InFlight → Channel → Prop
  | idle {c c' : Channel} : Idle c c' → Enqueues payload c [] c'
  | put {c c₁ c' : Channel} {ds : List InFlight} {d : InFlight} : Enqueues payload c ds c₁ →
      Emitted payload d.payload → c₁.now ≤ d.arrives → Idle (c₁.enqueue d).1 c' →
      Enqueues payload c (ds ++ [(c₁.enqueue d).2]) c'

theorem Enqueues.same {ds : List InFlight} (h : Enqueues payload c ds c') :
    c'.profile = c.profile ∧ c'.script = c.script ∧ c'.now = c.now ∧
      c'.stats.delivered = c.stats.delivered ∧ c'.inFlight.length = c.inFlight.length + ds.length := by
  induction h with
  | idle hi => exact ⟨hi.profile, hi.script, hi.now, hi.delivered, by rw [hi.inFlight]; rfl⟩
  | put _ _ _ hi ih =>
    obtain ⟨hp, hs, hn, hd, hl⟩ := ih
    refine ⟨hi.profile.trans hp, hi.script.trans hs, hi.now.trans hn, hi.delivered.trans hd, ?_⟩
    rw [hi.inFlight, List.length_append, Channel.enqueue, length_push, hl]
    simp only [List.length_singleton, Nat.add_assoc]

/-- Each datagram that is put into the queue is one of the payload's, and not due before. -/
theorem Enqueues.emitted {ds : List InFlight} (h : Enqueues payload c ds c') :
    ∀ d ∈ ds, Emitted payload d.payload ∧ c.now ≤ d.arrives := by
  induction h with
  | idle => intro d hd; cases hd
  | @put c₁ c' ds d he hem hle _ ih =>
    intro d' hd'
    rcases List.mem_append.mp hd' with hd' | hd'
    · exact ih d' hd'
    · rw [List.mem_singleton.mp hd']
      exact ⟨hem, by rw [← he.same.2.2.1]; exact hle⟩

/-- How the counters tell what became of a send. -/
inductive Counted (s s' : FaultStats) (n : Nat) : Prop
  | dropped : n = 0 → s'.sent = s.sent + 1 → s'.dropped = s.dropped + 1 →
      s'.duplicated = s.duplicated → Counted s s' n
  | sent : n = 1 → s'.sent = s.sent + 1 → s'.dropped = s.dropped →
      s'.duplicated = s.duplicated → Counted s s' n
  | duplicated : n = 2 → s'.sent = s.sent + 1 → s'.dropped = s.dropped →
      s'.duplicated = s.duplicated + 1 → Counted s s' n

/-- **What a send does**: no datagram if it is dropped, one or two otherwise. -/
theorem send_emits {ds : List InFlight} (h : c.send b payload = .ok (c', ds)) :
    Enqueues payload c ds c' ∧ Counted c.stats c'.stats ds.length ∧
      c'.nextDatagramIndex = c.nextDatagramIndex + 1 := by
  unfold Channel.send at h
  dsimp only at h
  split at h
  · cases h
    exact ⟨.idle ⟨rfl, rfl, rfl, rfl, rfl, rfl⟩, .dropped rfl rfl rfl rfl, rfl⟩
  · obtain ⟨⟨c₁, base⟩, h₁, h⟩ := bind_eq_ok.mp h
    obtain ⟨hd₁, hem₁, hle₁⟩ := emitOne_emits h₁
    have hidle₁ : Idle c c₁ := ⟨hd₁.profile, hd₁.script, hd₁.now, hd₁.inFlight, hd₁.payloads,
      hd₁.delivered⟩
    have hput : ∀ {c₂ : Channel}, Idle (c₁.enqueue base).1 c₂ →
        Enqueues payload c [(c₁.enqueue base).2] c₂ := fun hi =>
      .put (.idle hidle₁) hem₁ (by rw [hd₁.now]; exact hle₁) hi
    dsimp only at h
    split at h
    · obtain ⟨⟨c₂, dup⟩, h₂, h⟩ := bind_eq_ok.mp h
      obtain ⟨hd₂, hem₂, hle₂⟩ := emitOne_emits h₂
      cases h
      have hidle₂ : Idle (c₁.enqueue base).1 c₂ := ⟨hd₂.profile, hd₂.script, hd₂.now, hd₂.inFlight,
        hd₂.payloads, hd₂.delivered⟩
      refine ⟨.put (hput hidle₂) hem₂ (by rw [hd₂.now]; exact hle₂) ⟨rfl, rfl, rfl, rfl, rfl, rfl⟩,
        .duplicated rfl (hd₂.sent.trans hd₁.sent) (hd₂.dropped.trans hd₁.dropped) ?_, ?_⟩
      · show c₂.stats.duplicated = _
        rw [hd₂.duplicated]
        show c₁.stats.duplicated + 1 = _
        rw [hd₁.duplicated]
      · exact hd₂.nextDatagramIndex.trans hd₁.nextDatagramIndex
    · cases h
      exact ⟨hput ⟨rfl, rfl, rfl, rfl, rfl, rfl⟩, .sent rfl hd₁.sent hd₁.dropped hd₁.duplicated,
        hd₁.nextDatagramIndex⟩

/-! ## Sends return -/

/-- No sum of delays overflows. -/
structure DelaysFit (profile : FaultProfile) (script : Script) : Prop where
  drawn : profile.reorderMaxDelay.toNat + 1 < 2 ^ 64
  total : profile.baseDelay.toNat + profile.reorderMaxDelay.toNat < 2 ^ 64
  scripted : ∀ r ∈ script.rules, ∀ d ∈ r.2.delay?, profile.baseDelay.toNat + d.toNat < 2 ^ 64

theorem emitDelay_returns (hf : DelaysFit c.profile c.script) (i : Nat) :
    ∃ c' d, c.emitDelay b (c.script.forIndex i) = .ok (c', d) ∧
      c.profile.baseDelay.toNat + d.toNat < 2 ^ 64 := by
  unfold Channel.emitDelay
  split
  · rename_i d hd
    obtain ⟨r, hr, hd⟩ := List.exists_of_findSome?_eq_some hd
    obtain ⟨rule, hrule, rfl⟩ := List.mem_map.mp hr
    exact ⟨_, d, rfl, hf.scripted rule (List.mem_of_mem_filter hrule) d hd⟩
  · split
    · obtain ⟨n, hn, hval⟩ := Build.add_ok b (x := c.profile.reorderMaxDelay) (y := 1#64) hf.drawn
      have hone : (1#64).toNat = 1 := rfl
      have hpos : n ≠ 0 := by
        intro h0
        have hzero : (0 : U64).toNat = 0 := rfl
        rw [h0, hone, hzero] at hval
        omega
      obtain ⟨x, rng, hx, hlt⟩ := c.rng.below_ok hpos
      rw [hn, ok_bind, hx, ok_bind]
      refine ⟨_, x, rfl, ?_⟩
      have := hf.total
      omega
    · exact ⟨_, 0, rfl, by
        have hzero : (0 : U64).toNat = 0 := rfl
        have := hf.total
        rw [hzero]
        omega⟩

theorem length_ne_zero (hlen : bytes.length < 2 ^ 64) (hne : bytes ≠ []) :
    BitVec.ofNat 64 bytes.length ≠ 0 := by
  intro h
  have := congrArg BitVec.toNat h
  rw [BitVec.toNat_ofNat, Nat.mod_eq_of_lt hlen] at this
  exact hne (List.eq_nil_of_length_eq_zero this)

theorem emitCorrupt_returns (hlen : bytes.length < 2 ^ 64) (rules : List ScriptedFault) :
    ∃ r, c.emitCorrupt rules bytes = .ok r := by
  unfold Channel.emitCorrupt
  dsimp only
  split
  · rename_i hs
    refine bind_returns ?_ fun drawn _ => ?_
    · split
      · exact ⟨_, rfl⟩
      · obtain ⟨x, rng, hx, _⟩ := SplitMix64.below_ok _ (length_ne_zero hlen hs.2)
        exact bind_returns ⟨_, hx⟩ fun _ _ => ⟨_, rfl⟩
    · obtain ⟨bit, rng, hbit, _⟩ := drawn.2.below_ok (show (8 : U64) ≠ 0 by decide)
      refine bind_returns ⟨_, hbit⟩ fun _ _ => ?_
      have hpos : 0 < bytes.length := List.length_pos_iff.mpr hs.2
      exact bind_returns ⟨_, index_ok (Nat.mod_lt _ hpos)⟩ fun _ _ => ⟨_, rfl⟩
  · exact ⟨_, rfl⟩

theorem emitTruncate_returns (hlen : bytes.length < 2 ^ 64) (rules : List ScriptedFault) :
    ∃ r, c.emitTruncate rules bytes = .ok r := by
  unfold Channel.emitTruncate
  dsimp only
  split
  · refine bind_returns ?_ fun drawn _ => ?_
    · split
      · exact ⟨_, rfl⟩
      · split
        · exact ⟨_, rfl⟩
        · rename_i hne
          obtain ⟨x, rng, hx, _⟩ := SplitMix64.below_ok _ (length_ne_zero hlen hne)
          exact bind_returns ⟨_, hx⟩ fun _ _ => ⟨_, rfl⟩
    · split <;> exact ⟨_, rfl⟩
  · exact ⟨_, rfl⟩

theorem emitOne_returns (hf : DelaysFit c.profile c.script) (hlen : payload.length < 2 ^ 64)
    (i : Nat) : ∃ r, c.emitOne b payload (c.script.forIndex i) = .ok r := by
  obtain ⟨c₁, d, h₁, hd⟩ := emitDelay_returns (b := b) hf i
  refine bind_returns ⟨_, h₁⟩ fun r₁ hr₁ => ?_
  rw [h₁] at hr₁
  cases hr₁
  refine bind_returns (emitCorrupt_returns hlen _) fun r₂ hr₂ => ?_
  obtain ⟨hd₂, hflip⟩ := emitCorrupt_emits hr₂
  have hlen₂ : r₂.2.length < 2 ^ 64 := by
    rcases hflip with heq | ⟨i, j, _, _, heq⟩
    · rw [heq]; exact hlen
    · rw [heq, flipBit, List.length_modify]; exact hlen
  refine bind_returns (emitTruncate_returns hlen₂ _) fun r₃ hr₃ => ?_
  obtain ⟨hd₃, _⟩ := emitTruncate_emits hr₃
  have hprofile : r₃.1.profile = c.profile :=
    ((emitDelay_draws h₁).trans (hd₂.trans hd₃)).profile
  obtain ⟨total, ht, _⟩ := Build.add_ok b hd
  refine bind_returns ⟨total, ?_⟩ fun _ _ => ⟨_, rfl⟩
  rw [hprofile]
  exact ht

/-- **A send returns** when its delays fit. -/
theorem send_returns (hf : DelaysFit c.profile c.script) (hlen : payload.length < 2 ^ 64) :
    ∃ r, c.send b payload = .ok r := by
  unfold Channel.send
  dsimp only
  split
  · exact ⟨_, rfl⟩
  · refine bind_returns (emitOne_returns (by exact hf) hlen _) fun r₁ h₁ => ?_
    have hd₁ := (emitOne_emits h₁).1
    split
    · have hf₁ : DelaysFit r₁.1.profile r₁.1.script := by rw [hd₁.profile, hd₁.script]; exact hf
      have hret := emitOne_returns (b := b) (c := { (r₁.1.enqueue r₁.2).1 with
        rng := ((r₁.1.enqueue r₁.2).1.rng.orChance (decide (.duplicate ∈
          c.script.forIndex c.nextDatagramIndex)) (r₁.1.enqueue r₁.2).1.profile.duplication).2
        stats := { (r₁.1.enqueue r₁.2).1.stats with
          duplicated := (r₁.1.enqueue r₁.2).1.stats.duplicated + 1 } }) hf₁ hlen c.nextDatagramIndex
      have hscript : (r₁.1.enqueue r₁.2).1.script = c.script := hd₁.script
      rw [hscript] at hret
      exact bind_returns hret fun _ _ => ⟨_, rfl⟩
    · exact ⟨_, rfl⟩

/-! ## Sends do not depend on what is in flight -/

/-- What the faults of later sends depend on, and where their datagrams go. -/
structure Alike (c c' : Channel) : Prop where
  profile : c'.profile = c.profile
  script : c'.script = c.script
  rng : c'.rng = c.rng
  nextDatagramIndex : c'.nextDatagramIndex = c.nextDatagramIndex
  places : c'.payloads.length = c.payloads.length

theorem Alike.refl (c : Channel) : Alike c c := ⟨rfl, rfl, rfl, rfl, rfl⟩

theorem Alike.fields {e : Channel} (h : Alike c e) : ∃ now inFlight payloads stats,
    payloads.length = c.payloads.length ∧ e = { c with now, inFlight, payloads, stats } := by
  obtain ⟨profile, script, rng, now, inFlight, payloads, index, stats⟩ := e
  obtain ⟨h₁, h₂, h₃, h₄, h₅⟩ := h
  simp only at h₁ h₂ h₃ h₄ h₅
  subst h₁ h₂ h₃ h₄
  exact ⟨now, inFlight, payloads, stats, h₅, rfl⟩

variable {e e' : Channel}

theorem emitDelay_alike (ha : Alike c e) {d : U64} (h : c.emitDelay b rules = .ok (c', d)) :
    ∃ e', e.emitDelay b rules = .ok (e', d) ∧ Alike c' e' := by
  obtain ⟨_, _, _, _, hlen, rfl⟩ := ha.fields
  obtain ⟨⟨extra, rng⟩, hx, h⟩ := bind_eq_ok.mp h
  cases h
  exact ⟨_, bind_eq_ok.mpr ⟨_, hx, rfl⟩, ⟨rfl, rfl, rfl, rfl, hlen⟩⟩

theorem emitCorrupt_alike (ha : Alike c e) (h : c.emitCorrupt rules bytes = .ok (c', bytes')) :
    ∃ e', e.emitCorrupt rules bytes = .ok (e', bytes') ∧ Alike c' e' := by
  obtain ⟨_, _, _, _, hlen, rfl⟩ := ha.fields
  unfold Channel.emitCorrupt at h ⊢
  dsimp only at h ⊢
  split at h
  · rename_i hs
    obtain ⟨⟨drawn, rng⟩, h₁, h⟩ := bind_eq_ok.mp h
    obtain ⟨⟨bit, rng'⟩, h₂, h⟩ := bind_eq_ok.mp h
    obtain ⟨x, h₃, h⟩ := bind_eq_ok.mp h
    cases h
    rw [if_pos hs]
    exact ⟨_, bind_eq_ok.mpr ⟨_, h₁, bind_eq_ok.mpr ⟨_, h₂, bind_eq_ok.mpr ⟨_, h₃, rfl⟩⟩⟩,
      ⟨rfl, rfl, rfl, rfl, hlen⟩⟩
  · rename_i hs
    cases h
    rw [if_neg hs]
    exact ⟨_, rfl, ⟨rfl, rfl, rfl, rfl, hlen⟩⟩

theorem emitTruncate_alike (ha : Alike c e) (h : c.emitTruncate rules bytes = .ok (c', bytes')) :
    ∃ e', e.emitTruncate rules bytes = .ok (e', bytes') ∧ Alike c' e' := by
  obtain ⟨_, _, _, _, hlen, rfl⟩ := ha.fields
  unfold Channel.emitTruncate at h ⊢
  dsimp only at h ⊢
  split at h
  · rename_i hs
    obtain ⟨⟨drawn, rng⟩, h₁, h⟩ := bind_eq_ok.mp h
    rw [if_pos hs, h₁, ok_bind]
    dsimp only at h ⊢
    split at h
    · rename_i hlt
      cases h
      rw [if_pos hlt]
      exact ⟨_, rfl, ⟨rfl, rfl, rfl, rfl, hlen⟩⟩
    · rename_i hlt
      cases h
      rw [if_neg hlt]
      exact ⟨_, rfl, ⟨rfl, rfl, rfl, rfl, hlen⟩⟩
  · rename_i hs
    cases h
    rw [if_neg hs]
    exact ⟨_, rfl, ⟨rfl, rfl, rfl, rfl, hlen⟩⟩

theorem emitOne_alike (ha : Alike c e) (hnow : e.now = c.now) {d : InFlight}
    (h : c.emitOne b payload rules = .ok (c', d)) :
    ∃ e', e.emitOne b payload rules = .ok (e', d) ∧ Alike c' e' ∧ e'.now = c'.now := by
  have hem := (emitOne_emits h).1.now
  obtain ⟨⟨c₁, delay⟩, h₁, h⟩ := bind_eq_ok.mp h
  obtain ⟨⟨c₂, bytes₂⟩, h₂, h⟩ := bind_eq_ok.mp h
  obtain ⟨⟨c₃, bytes₃⟩, h₃, h⟩ := bind_eq_ok.mp h
  obtain ⟨total, h₄, h⟩ := bind_eq_ok.mp h
  cases h
  obtain ⟨e₁, he₁, ha₁⟩ := emitDelay_alike ha h₁
  obtain ⟨e₂, he₂, ha₂⟩ := emitCorrupt_alike ha₁ h₂
  obtain ⟨e₃, he₃, ha₃⟩ := emitTruncate_alike ha₂ h₃
  have h₄' : b.add e₃.profile.baseDelay delay = .ok total := by rw [ha₃.profile]; exact h₄
  have he : e.emitOne b payload rules = .ok (e₃, ⟨Tick.advance e₃.now total, 0, bytes₃⟩) :=
    bind_eq_ok.mpr ⟨_, he₁, bind_eq_ok.mpr ⟨_, he₂, bind_eq_ok.mpr ⟨_, he₃,
      bind_eq_ok.mpr ⟨_, h₄', rfl⟩⟩⟩⟩
  have hn := ((emitOne_emits he).1.now.trans hnow).trans hem.symm
  rw [hn] at he
  exact ⟨e₃, he, ha₃, hn⟩

/-- Emitted and put into the queue. -/
theorem put_alike (ha : Alike c e) (hnow : e.now = c.now) {d : InFlight}
    (h : c.emitOne b payload rules = .ok (c', d)) :
    ∃ e', e.emitOne b payload rules = .ok (e', d) ∧ Alike (c'.enqueue d).1 (e'.enqueue d).1 ∧
      (e'.enqueue d).1.now = (c'.enqueue d).1.now ∧ (e'.enqueue d).2 = (c'.enqueue d).2 := by
  obtain ⟨e', he, ha', hn⟩ := emitOne_alike ha hnow h
  obtain ⟨_, _, _, _, hlen, rfl⟩ := ha'.fields
  refine ⟨_, he, ⟨rfl, rfl, rfl, rfl, ?_⟩, hn, ?_⟩
  · simp only [Channel.enqueue, List.length_append, hlen]
  · simp only [Channel.enqueue, hlen]

/-- **What a send enqueues** does not depend on what is in flight. -/
theorem send_alike (ha : Alike c e) (hnow : e.now = c.now) {ds : List InFlight}
    (h : c.send b payload = .ok (c', ds)) :
    ∃ e', e.send b payload = .ok (e', ds) ∧ Alike c' e' := by
  obtain ⟨now, inFlight, payloads, stats, hlen, rfl⟩ := ha.fields
  have hnow' : now = c.now := hnow
  subst hnow'
  unfold Channel.send at h ⊢
  dsimp only at h ⊢
  generalize c.rng.orChance (decide (.drop ∈ c.script.forIndex c.nextDatagramIndex))
    c.profile.loss = dropped at h ⊢
  obtain ⟨dropped, rng⟩ := dropped
  dsimp only at h ⊢
  by_cases hdrop : dropped = true
  · rw [if_pos hdrop] at h ⊢
    cases h
    exact ⟨_, rfl, ⟨rfl, rfl, rfl, rfl, hlen⟩⟩
  · rw [if_neg hdrop] at h ⊢
    obtain ⟨⟨c₁, base⟩, h₁, h⟩ := bind_eq_ok.mp h
    obtain ⟨e₁, he₁, ha₁, hn₁, hbase⟩ := put_alike (e := { c with
      rng, inFlight, payloads, nextDatagramIndex := c.nextDatagramIndex + 1
      stats := { stats with sent := stats.sent + 1 } })
      (by exact ⟨rfl, rfl, rfl, rfl, hlen⟩) (by rfl) h₁
    rw [he₁, ok_bind]
    dsimp only at h ⊢
    generalize (c₁.enqueue base).1 = c₂ at h ha₁ hn₁
    generalize (e₁.enqueue base).1 = e₂ at ha₁ hn₁ ⊢
    rw [hbase]
    obtain ⟨now₂, inFlight₂, payloads₂, stats₂, hlen₂, rfl⟩ := ha₁.fields
    have hn₂ : now₂ = c₂.now := hn₁
    subst hn₂
    dsimp only at h ⊢
    generalize c₂.rng.orChance (decide (.duplicate ∈ c.script.forIndex c.nextDatagramIndex))
      c₂.profile.duplication = duplicated at h ⊢
    obtain ⟨duplicated, rng'⟩ := duplicated
    dsimp only at h ⊢
    by_cases hdup : duplicated = true
    · rw [if_pos hdup] at h ⊢
      obtain ⟨⟨c₃, dup⟩, h₃, h⟩ := bind_eq_ok.mp h
      cases h
      obtain ⟨e₃, he₃, ha₃, _, hdup⟩ := put_alike (e := { c₂ with
        rng := rng', inFlight := inFlight₂, payloads := payloads₂
        stats := { stats₂ with duplicated := stats₂.duplicated + 1 } })
        (by exact ⟨rfl, rfl, rfl, rfl, hlen₂⟩) (by rfl) h₃
      refine ⟨(e₃.enqueue dup).1, bind_eq_ok.mpr ⟨_, he₃, ?_⟩, ha₃⟩
      dsimp only
      rw [hdup]
    · rw [if_neg hdup] at h ⊢
      cases h
      exact ⟨_, rfl, ⟨rfl, rfl, rfl, rfl, hlen₂⟩⟩

end Distrans
