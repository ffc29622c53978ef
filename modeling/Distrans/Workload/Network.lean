import Distrans.Channel.Integrity
import Distrans.Channel.Sound
import Distrans.Rpc.Stack
import Distrans.Transport.Frames
import Distrans.Workload.Chaos

/-!
# Channels as a network

What comes out of a channel that does not both corrupt and truncate has been put in by the sender,
or carries nothing: this is the network that the theorems on connections assume.

* `Carried` — what lies in a channel has been emitted by an endpoint, or is noise.
* `Carried.sendAll`, `Carried.advance` — **it stays so, and what is delivered is such**.
-/

set_option autoImplicit false

namespace Distrans

open Machine

/-- A spoiled frame carries nothing. -/
theorem spoils_noise {n : Nat} {d d' : Datagram} (hd : Framed n d) (hn : 42 + n < 2 ^ 32)
    (h : Spoils d d') : d' = d ∨ d'.Noise := by
  obtain ⟨f, hlen, rfl⟩ := hd
  have hrejected : ∀ {err : DecodeError}, Frame.decode d' = .ok (.error err) → d'.Noise := by
    intro err herr g hdr app hc
    have := hc.frame
    rw [herr] at this
    cases this
  cases h with
  | cut m =>
    rcases Nat.lt_or_ge m f.encode.length with hm | hm
    · have hrest : f.encode.drop m ≠ [] := by
        intro hnil
        have := congrArg List.length hnil
        rw [List.length_drop, List.length_nil] at this
        omega
      obtain ⟨err, herr⟩ := Frame.decode_cut_short (by omega) hrest
        (List.take_append_drop m f.encode)
      exact Or.inr (hrejected herr)
    · exact Or.inl (List.take_of_length_le hm)
  | flip hi hj =>
    obtain ⟨err, herr⟩ := flip_detected hi hj
    exact Or.inr (hrejected herr)

theorem noise_nil : Datagram.Noise [] := by
  intro f hdr app hc
  have hshort : Frame.decode [] = .ok (.error (.tooShort 0)) := rfl
  have := hc.frame
  rw [hshort] at this
  cases this

namespace Workload

variable {b : Build} {n : Nat} {X Y : Endpoint} {c c' : Channel} {out : List Datagram}

/-- What lies in the channel has been emitted by `X`, or is noise. -/
structure Carried (X : Endpoint) (c : Channel) : Prop where
  sound : c.Sound
  table : ∀ d ∈ c.payloads, d ∈ X.emitted ∨ Datagram.Noise d

namespace Carried

theorem fresh {seed : U64} {profile : FaultProfile} (hp : profile.Sound)
    (h : Channel.withScript seed profile ⟨[]⟩ = .ok c) : Carried X c := by
  obtain ⟨hs, hnil⟩ := Channel.Sound.withScript hp h
  refine ⟨hs, fun d hd => ?_⟩
  rw [hnil] at hd
  cases hd

/-- More has been emitted. -/
theorem mono (h : Carried X c) (hmore : Y.emitted = X.emitted ++ out) : Carried Y c := by
  refine ⟨h.sound, fun d hd => (h.table d hd).imp_left fun hd => ?_⟩
  rw [hmore]
  exact List.mem_append_left _ hd

/-- What the endpoint has emitted is sent. -/
theorem sendAll (hn : 42 + n < 2 ^ 32) (hX : ∀ d ∈ X.emitted, Framed n d) :
    ∀ {out : List Datagram} {c c' : Channel}, Carried X c → (∀ d ∈ out, d ∈ X.emitted) →
    Workload.sendAll b c out = .ok c' → Carried X c'
  | [], _, _, h, _, hr => by
    cases hr
    exact h
  | d :: out, c, c', h, hout, hr => by
    rw [Workload.sendAll, List.foldlM_cons] at hr
    obtain ⟨c₁, hone, hr⟩ := bind_eq_ok.mp hr
    obtain ⟨⟨c₂, ds⟩, hsend, hone⟩ := bind_eq_ok.mp hone
    cases hone
    obtain ⟨hs, htable⟩ := send_table h.sound hsend
    have hd := hout d List.mem_cons_self
    refine sendAll hn hX ⟨hs, fun p hp => ?_⟩ (fun d hd => hout d (List.mem_cons_of_mem _ hd)) hr
    rcases htable p hp with hp | hp
    · exact h.table p hp
    · rcases spoils_noise (hX d hd) hn hp with rfl | hnoise
      · exact Or.inl hd
      · exact Or.inr hnoise

/-- **What is delivered has been emitted, or is noise.** -/
theorem advance {t : Tick} {ds : List Datagram} (h : Carried X c)
    (hr : c.advance t = .ok (c', ds)) : Carried X c' ∧ ∀ d ∈ ds, d ∈ X.emitted ∨ Datagram.Noise d := by
  obtain ⟨hprofile, hscript, htable, hready⟩ := advance_table hr
  have hall : ∀ d, d ∈ c.payloads ∨ d = [] → d ∈ X.emitted ∨ Datagram.Noise d := by
    rintro d (hd | rfl)
    · exact h.table d hd
    · exact Or.inr noise_nil
  exact ⟨⟨⟨by rw [hprofile]; exact h.sound.profile, by rw [hscript]; exact h.sound.script⟩,
    fun d hd => hall d (htable d hd)⟩, fun d hd => hall d (hready d hd)⟩

end Carried

end Workload

end Distrans
