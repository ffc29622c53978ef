import Distrans.Channel.Sends
import Mathlib.Tactic.Positivity

/-!
# What lies in a channel

The table of a channel holds what has been sent, spoiled by its faults.  A profile that does not
both corrupt and truncate (`Sound`) spoils a datagram in one way only.

* `send_table`, `advance_table` — what a send adds to the table, and that only what lies there is
  handed out.
-/

set_option autoImplicit false

namespace Distrans

open Machine

/-- No datagram is both corrupted and truncated. -/
def FaultProfile.Sound (p : FaultProfile) : Prop := p.corruption = 0 ∨ p.truncation = 0

instance decidableSoundProfile (p : FaultProfile) : Decidable p.Sound :=
  inferInstanceAs (Decidable (_ ∨ _))

/-- A prefix of the payload, or all of it with one bit flipped. -/
inductive Spoils (payload : List U8) : List U8 → Prop
  | cut (n : Nat) : Spoils payload (payload.take n)
  | flip {i j : Nat} : i < payload.length → j < 8 → Spoils payload (flipBit payload i j)

variable {b : Build} {c c' : Channel} {payload bytes bytes' : List U8}

theorem orChance_zero (r : SplitMix64) : (r.orChance false 0).1 = false := by
  rw [SplitMix64.orChance, if_neg Bool.false_ne_true, SplitMix64.chance]
  refine decide_eq_false (not_lt.mpr ?_)
  positivity

theorem emitCorrupt_never (h₀ : c.profile.corruption = 0)
    (h : c.emitCorrupt [] bytes = .ok (c', bytes')) : bytes' = bytes := by
  unfold Channel.emitCorrupt at h
  dsimp only at h
  split at h
  · rename_i hs
    rw [h₀] at hs
    exact absurd (hs.1.symm.trans (orChance_zero c.rng)) (by decide)
  · cases h
    rfl

theorem emitTruncate_never (h₀ : c.profile.truncation = 0)
    (h : c.emitTruncate [] bytes = .ok (c', bytes')) : bytes' = bytes := by
  unfold Channel.emitTruncate at h
  dsimp only at h
  split at h
  · rename_i hs
    rw [h₀] at hs
    exact absurd (hs.symm.trans (orChance_zero c.rng)) (by decide)
  · cases h
    rfl

/-- One datagram, spoiled in one way. -/
theorem emitOne_spoils {d : InFlight} (hp : c.profile.Sound)
    (h : c.emitOne b payload [] = .ok (c', d)) : Draws c c' ∧ Spoils payload d.payload := by
  have hdraws := (emitOne_emits h).1
  obtain ⟨⟨c₁, delay⟩, h₁, h⟩ := bind_eq_ok.mp h
  obtain ⟨⟨c₂, bytes₂⟩, h₂, h⟩ := bind_eq_ok.mp h
  obtain ⟨⟨c₃, bytes₃⟩, h₃, h⟩ := bind_eq_ok.mp h
  obtain ⟨total, _, h⟩ := bind_eq_ok.mp h
  cases h
  refine ⟨hdraws, ?_⟩
  show Spoils payload bytes₃
  have hd₁ := emitDelay_draws h₁
  obtain ⟨hd₂, hflip⟩ := emitCorrupt_emits h₂
  rcases hp with hp | hp
  · obtain rfl := emitCorrupt_never (by rw [hd₁.profile]; exact hp) h₂
    obtain ⟨_, n, rfl⟩ := emitTruncate_emits h₃
    exact .cut n
  · obtain rfl := emitTruncate_never (by rw [hd₂.profile, hd₁.profile]; exact hp) h₃
    rcases hflip with rfl | ⟨i, j, hi, hj, rfl⟩
    · have hwhole : Spoils bytes₃ (bytes₃.take bytes₃.length) := .cut bytes₃.length
      rwa [List.take_length] at hwhole
    · exact .flip hi hj

/-- The channel has no script, and does not both corrupt and truncate. -/
structure Channel.Sound (c : Channel) : Prop where
  profile : c.profile.Sound
  script : c.script = ⟨[]⟩

theorem Channel.Sound.withScript {seed : U64} {profile : FaultProfile} (hp : profile.Sound)
    (h : Channel.withScript seed profile ⟨[]⟩ = .ok c) : c.Sound ∧ c.payloads = [] := by
  unfold Channel.withScript at h
  split at h
  · cases h
    exact ⟨⟨hp, rfl⟩, rfl⟩
  · cases h

/-- **A send adds the payload to the table, spoiled in one way.** -/
theorem send_table {ds : List InFlight} (hs : c.Sound) (h : c.send b payload = .ok (c', ds)) :
    c'.Sound ∧ ∀ p ∈ c'.payloads, p ∈ c.payloads ∨ Spoils payload p := by
  obtain ⟨hprofile, hscript, _⟩ := (send_emits h).1.same
  refine ⟨⟨by rw [hprofile]; exact hs.profile, by rw [hscript]; exact hs.script⟩, ?_⟩
  have hrules : ∀ i, c.script.forIndex i = [] := fun i => by rw [hs.script]; rfl
  unfold Channel.send at h
  dsimp only at h
  rw [hrules] at h
  split at h
  · cases h
    exact fun p hp => Or.inl hp
  · obtain ⟨⟨c₁, base⟩, h₁, h⟩ := bind_eq_ok.mp h
    have hone := emitOne_spoils (by exact hs.profile) h₁
    obtain ⟨hd₁, hem₁⟩ := hone
    have htable₁ : ∀ p ∈ (c₁.enqueue base).1.payloads, p ∈ c.payloads ∨ Spoils payload p := by
      intro p hp
      rcases List.mem_append.mp hp with hp | hp
      · rw [hd₁.payloads] at hp
        exact Or.inl hp
      · rw [List.mem_singleton.mp hp]
        exact Or.inr hem₁
    dsimp only at h
    split at h
    · obtain ⟨⟨c₂, dup⟩, h₂, h⟩ := bind_eq_ok.mp h
      cases h
      have hprofile₁ : (c₁.enqueue base).1.profile = c.profile := hd₁.profile
      obtain ⟨hd₂, hem₂⟩ := emitOne_spoils (by
        show (c₁.enqueue base).1.profile.Sound
        rw [hprofile₁]
        exact hs.profile) h₂
      intro p hp
      rcases List.mem_append.mp hp with hp | hp
      · rw [hd₂.payloads] at hp
        exact htable₁ p hp
      · rw [List.mem_singleton.mp hp]
        exact Or.inr hem₂
    · cases h
      exact htable₁

theorem deliverLoop_table {now : Tick} : ∀ {q q' : List Slot} {payloads payloads' : List (List U8)}
    {n n' : Nat} {ready ready' : List (List U8)},
    Channel.deliverLoop now q payloads n ready = .ok (q', payloads', n', ready') →
    (∀ p ∈ payloads', p ∈ payloads ∨ p = []) ∧ ∀ d ∈ ready', d ∈ ready ∨ d ∈ payloads ∨ d = []
  | [], _, _, _, _, _, _, _, h => by
    cases h
    exact ⟨fun p hp => Or.inl hp, fun d hd => Or.inl hd⟩
  | s :: q, q', payloads, payloads', n, n', ready, ready', h => by
    rw [Channel.deliverLoop] at h
    split at h
    · cases h
      exact ⟨fun p hp => Or.inl hp, fun d hd => Or.inl hd⟩
    · obtain ⟨bytes, hbytes, h⟩ := bind_eq_ok.mp h
      obtain ⟨htable, hready⟩ := deliverLoop_table h
      have hset : ∀ p ∈ payloads.set s.id [], p ∈ payloads ∨ p = [] := fun p hp =>
        List.mem_or_eq_of_mem_set hp
      have hmem : bytes ∈ payloads := by
        unfold index at hbytes
        split at hbytes
        · rename_i hy
          cases hbytes
          exact List.mem_of_getElem? hy
        · cases hbytes
      refine ⟨fun p hp => (htable p hp).elim (hset p) Or.inr, fun d hd => ?_⟩
      rcases hready d hd with hd | hd | hd
      · rcases List.mem_append.mp hd with hd | hd
        · exact Or.inl hd
        · rw [List.mem_singleton.mp hd]
          exact Or.inr (Or.inl hmem)
      · exact Or.inr (hset d hd)
      · exact Or.inr (Or.inr hd)

/-- **Only what lies in the table is handed out.** -/
theorem advance_table {t : Tick} {ready : List (List U8)} (h : c.advance t = .ok (c', ready)) :
    c'.profile = c.profile ∧ c'.script = c.script ∧
      (∀ p ∈ c'.payloads, p ∈ c.payloads ∨ p = []) ∧ ∀ d ∈ ready, d ∈ c.payloads ∨ d = [] := by
  obtain ⟨⟨inFlight, payloads, delivered, ready'⟩, hloop, h⟩ := bind_eq_ok.mp h
  cases h
  obtain ⟨htable, hready⟩ := deliverLoop_table hloop
  exact ⟨rfl, rfl, htable, fun d hd => (hready d hd).resolve_left fun h => by cases h⟩

end Distrans
