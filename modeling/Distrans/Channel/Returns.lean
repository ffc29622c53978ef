import Distrans.Channel.Sends

/-!
# Channels that do not panic

A channel is in order while every slot of its heap has a place in the table of payloads, and while no
sum of its delays overflows.

* `Channel.Ordered.send`, `Channel.Ordered.advance` — **each call on a channel in order returns, and
  leaves it in order**.
-/

set_option autoImplicit false

namespace Distrans

open Machine EventQueue

variable {b : Build} {c c' : Channel} {payload : List U8}

/-- A channel in order. -/
structure Channel.Ordered (c : Channel) : Prop where
  delays : DelaysFit c.profile c.script
  placed : ∀ s ∈ c.inFlight, s.id < c.payloads.length

namespace Channel.Ordered

/-- A fresh channel without a script. -/
theorem fresh (seed : U64) {profile : FaultProfile} (hvalid : profile.validate)
    (hdelays : DelaysFit profile ⟨[]⟩) :
    ∃ c, Channel.withScript seed profile ⟨[]⟩ = .ok c ∧ c.Ordered := by
  rw [Channel.withScript, if_pos hvalid]
  exact ⟨_, rfl, hdelays, fun s hs => by cases hs⟩

theorem placed_of_enqueues {ds : List InFlight} (h : Enqueues payload c ds c')
    (hc : ∀ s ∈ c.inFlight, s.id < c.payloads.length) :
    ∀ s ∈ c'.inFlight, s.id < c'.payloads.length := by
  induction h with
  | idle hi =>
    rw [hi.inFlight, hi.payloads]
    exact hc
  | put _ _ _ hi ih =>
    rw [hi.inFlight, hi.payloads]
    intro s hs
    rw [Channel.enqueue, List.length_append, List.length_singleton]
    rcases mem_push.mp hs with rfl | hs
    · exact Nat.lt_succ_self _
    · exact Nat.lt_succ_of_lt (ih s hs)

theorem sent (h : c.Ordered) {ds : List InFlight} (hr : c.send b payload = .ok (c', ds)) :
    c'.Ordered := by
  obtain ⟨henq, _⟩ := send_emits hr
  obtain ⟨hprofile, hscript, _⟩ := henq.same
  refine ⟨?_, placed_of_enqueues henq h.placed⟩
  rw [hprofile, hscript]
  exact h.delays

/-- **A send returns.** -/
theorem send (h : c.Ordered) (b : Build) (hlen : payload.length < 2 ^ 64) :
    ∃ r, c.send b payload = .ok r ∧ r.1.Ordered := by
  obtain ⟨⟨c', ds⟩, hr⟩ := send_returns (b := b) h.delays hlen
  exact ⟨_, hr, h.sent hr⟩

/-- The loop takes slots off the heap, and empties their places. -/
theorem deliverLoop (now : Tick) : ∀ {q : List Slot} {payloads : List (List U8)} (n : Nat)
    (ready : List (List U8)), (∀ s ∈ q, s.id < payloads.length) →
    ∃ q' payloads' n' ready',
      Channel.deliverLoop now q payloads n ready = .ok (q', payloads', n', ready') ∧
      ∀ s ∈ q', s.id < payloads'.length
  | [], payloads, n, ready, h => ⟨[], payloads, n, ready, rfl, h⟩
  | s :: q, payloads, n, ready, h => by
    rw [Channel.deliverLoop]
    split
    · exact ⟨_, _, _, _, rfl, h⟩
    · have hs := h s List.mem_cons_self
      rw [index_ok hs, ok_bind]
      refine deliverLoop now (n + 1) _ fun s' hs' => ?_
      rw [List.length_set]
      exact h s' (List.mem_cons_of_mem _ hs')

/-- **So does a delivery.** -/
theorem advance (h : c.Ordered) (now : Tick) : ∃ r, c.advance now = .ok r ∧ r.1.Ordered := by
  obtain ⟨q, payloads, n, ready, hloop, hplaced⟩ :=
    deliverLoop (if c.now < now then now else c.now) c.stats.delivered [] h.placed
  refine ⟨_, bind_eq_ok.mpr ⟨_, hloop, rfl⟩, h.delays, hplaced⟩

end Channel.Ordered

end Distrans
