import Distrans.Channel.Delivery
import Distrans.Channel.Integrity
import Distrans.Lib.SelectiveRepeat
import Distrans.Workload.Baselines

/-!
# Unreliable channels

What the two schemes may rely on, and what they keep in spite of it.

* `Unreliable` — a medium that drops, repeats, delays and reorders as it likes, and damages what it
  likes as long as `decode` rejects it: it hands out no frame that was not sent.
* `channel_unreliable` — **the channel of the source is one**, for frames without a collision;
  `lost_unreliable` — so is one that loses everything, for any frames.
* `Flying` — the invariant of both schemes, over everything in flight: selective repeat with
  cumulative acknowledgements (`SelRep.cumulative`), and what its tiles are in the data.
* `hear_keeps` — the receiver keeps it.
-/

set_option autoImplicit false

namespace Distrans.Workload

open Machine

/-- The frames of a run. -/
def arqFrames (chunks : List (List U8)) : Set Frame :=
  {f | (∃ seq chunk, chunks[seq.toNat]? = some chunk ∧ f = segment seq chunk) ∨
    ∃ n, f = acknowledgement n}

variable {κ : Type} {b : Build} {M : Medium κ} {chunks : List (List U8)}

/-- The calls return, and a channel that carries the frames `S` hands out no other frame.  `S` is
never smaller than it was: a frame may come late, and more than once. -/
structure Unreliable (M : Medium κ) (frames : Set Frame) (Carries : κ → Set Frame → Prop) :
    Prop where
  send : ∀ {k : κ} {S : Set Frame} {f : Frame}, Carries k S → f ∈ frames →
    ∃ k', M.send k f.encode = .ok k' ∧ Carries k' (insert f S)
  advance : ∀ {k : κ} {S : Set Frame} (now : Tick), Carries k S →
    ∃ k' datagrams, M.advance k now = .ok (k', datagrams) ∧ Carries k' S ∧
      ∀ d ∈ datagrams, ∀ f, Frame.decode d = .ok (.ok f) → f ∈ S

/-! ## The channel of the source -/

/-- Whatever was enqueued in the channel decodes to one of the frames, or to none. -/
def ChannelCarries (c : Channel) (S : Set Frame) : Prop :=
  DelaysFit c.profile c.script ∧ ∃ enqueued order pending, Good c enqueued order pending ∧
    ∀ d ∈ enqueued, ∀ f, Frame.decode d.payload = .ok (.ok f) → f ∈ S

theorem channelCarries_none {seed : U64} {profile : FaultProfile} {script : Script} {c : Channel}
    (h : Channel.withScript seed profile script = .ok c) (hf : DelaysFit profile script) :
    ChannelCarries c ∅ := by
  have hgood := (withScript_kept h).good
  unfold Channel.withScript at h
  split at h
  · cases h
    exact ⟨hf, _, _, _, hgood, fun d hd => absurd hd List.not_mem_nil⟩
  · cases h

/-- **The channel of the source is unreliable in this sense and no other**, collisions apart. -/
theorem channel_unreliable {frames : Set Frame} (hlen : ∀ f ∈ frames, f.payload.length < 2 ^ 32)
    (hcol : ∀ f ∈ frames, ∀ m, ¬ Collides f m) :
    Unreliable (channelMedium b) frames ChannelCarries where
  send := by
    rintro c S f ⟨hfit, enqueued, order, pending, hgood, hS⟩ hf
    have hsize : f.encode.length < 2 ^ 64 := by
      have := hlen f hf
      rw [Frame.encode_length]
      simp only [MIN_FRAME_LEN, HEADER_LEN, CRC_LEN]
      omega
    obtain ⟨⟨c', ds⟩, hsend⟩ := send_returns (b := b) hfit hsize
    have henq := (send_emits hsend).1
    obtain ⟨hprofile, hscript, _⟩ := henq.same
    obtain ⟨pending', hgood'⟩ := hgood.enqueues henq
    refine ⟨c', bind_eq_ok.mpr ⟨_, hsend, rfl⟩, by rw [hprofile, hscript]; exact hfit,
      _, _, _, hgood', fun d hd g hg => ?_⟩
    rcases List.mem_append.mp hd with hd | hd
    · exact Set.mem_insert_of_mem _ (hS d hd g hg)
    · rcases frames_intact_or_rejected (hlen f hf) hsend d hd with h | ⟨e, h⟩ | ⟨m, h, _⟩
      · rw [h] at hg
        cases hg
        exact Set.mem_insert f S
      · rw [h] at hg
        cases hg
      · exact absurd h (hcol f hf m)
  advance := by
    rintro c S now ⟨hfit, enqueued, order, pending, hgood, hS⟩
    have hnow : c.now ≤ if c.now < now then now else c.now := by
      split
      · rename_i hlt; exact le_of_lt hlt
      · exact le_refl _
    have hready : Good { c with now := if c.now < now then now else c.now } enqueued order pending :=
      ⟨hgood.queued, hgood.heap, hgood.table, fun d hd => (hgood.arrived d hd).trans hnow,
        hgood.seqs, hgood.delivered⟩
    obtain ⟨c', gone, rest, hc, hgood', _, halike, _⟩ := hready.deliverReady
    refine ⟨c', _, hc, ⟨by rw [halike.profile, halike.script]; exact hfit, _, _, _, hgood', hS⟩,
      fun d hd f hf => ?_⟩
    obtain ⟨x, hx, rfl⟩ := List.mem_map.mp hd
    have hmem : x ∈ enqueued := hgood'.queued.perm.mem_iff.mp
      (List.mem_append_left _ (List.mem_append_right _ hx))
    exact hS x hmem f hf

/-- So it is for the frames of a run if no chunk collides; an acknowledgement never does. -/
theorem channel_unreliable_for (h : ∀ i, (hi : i < chunks.length) → chunks[i].length < 2 ^ 32 ∧
      ∀ m < chunks[i].length, ¬ Collides (segment (BitVec.ofNat 32 i) chunks[i]) m) :
    Unreliable (channelMedium b) (arqFrames chunks) ChannelCarries := by
  have hchunk : ∀ {seq : U32} {chunk : List U8}, chunks[seq.toNat]? = some chunk →
      chunk.length < 2 ^ 32 ∧ ∀ m < chunk.length, ¬ Collides (segment seq chunk) m := by
    intro seq chunk hseq
    obtain ⟨hlt, rfl⟩ := List.getElem?_eq_some_iff.mp hseq
    have := h seq.toNat hlt
    rwa [BitVec.ofNat_toNat, BitVec.setWidth_eq] at this
  refine channel_unreliable ?_ ?_
  · rintro f (⟨seq, chunk, hseq, rfl⟩ | ⟨n, rfl⟩)
    · exact (hchunk hseq).1
    · exact Nat.two_pow_pos 32
  · rintro f (⟨seq, chunk, hseq, rfl⟩ | ⟨n, rfl⟩) m hc
    · exact (hchunk hseq).2 m hc.short hc
    · exact Nat.not_lt_zero m hc.short

/-! ## A channel that loses everything -/

theorem chance_one (r : SplitMix64) : (r.chance 1).1 = true := by
  have hlt : (r.nextU64.1 >>> 11).toNat < 2 ^ 53 := by
    rw [BitVec.toNat_ushiftRight, Nat.shiftRight_eq_div_pow, Nat.div_lt_iff_lt_mul (by decide)]
    exact r.nextU64.1.isLt
  refine decide_eq_true ?_
  rw [div_lt_one (by positivity)]
  exact_mod_cast hlt

structure Lost (c : Channel) : Prop where
  loss : c.profile.loss = 1
  inFlight : c.inFlight = []

theorem Lost.send {c : Channel} (h : Lost c) (datagram : List U8) :
    ∃ c', (channelMedium b).send c datagram = .ok c' ∧ Lost c' := by
  have hdrop : ∀ forced (r : SplitMix64), (r.orChance forced c.profile.loss).1 = true := by
    intro forced r
    rw [h.loss, SplitMix64.orChance]
    split
    · rfl
    · exact chance_one r
  have hsend : ∃ c', c.send b datagram = .ok (c', []) ∧ Lost c' := by
    unfold Channel.send
    dsimp only
    rw [if_pos (hdrop _ _)]
    exact ⟨_, rfl, h.loss, h.inFlight⟩
  obtain ⟨c', hsend, hlost⟩ := hsend
  exact ⟨c', bind_eq_ok.mpr ⟨_, hsend, rfl⟩, hlost⟩

theorem Lost.advance {c : Channel} (h : Lost c) (now : Tick) :
    ∃ c', (channelMedium b).advance c now = .ok (c', []) ∧ Lost c' := by
  refine ⟨{ c with now := if c.now < now then now else c.now }, ?_, h.loss, h.inFlight⟩
  show Channel.deliverReady _ = _
  rw [Channel.deliverReady]
  show (Channel.deliverLoop _ c.inFlight c.payloads _ [] >>= _) = _
  rw [h.inFlight]
  rfl

theorem lost_unreliable {frames : Set Frame} :
    Unreliable (channelMedium b) frames fun c _ => Lost c where
  send := fun h _ => h.send _
  advance := fun now h => by
    obtain ⟨c', hadv, hlost⟩ := h.advance (b := b) now
    exact ⟨c', [], hadv, hlost, fun d hd => absurd hd List.not_mem_nil⟩

/-! ## What is in flight -/

/-- Of the chunks, `cut` have been sent and the sender keeps them from `base` on; `out` and `acks`
are the frames in flight, there and back. -/
structure Flying (chunks : List (List U8)) (cut base : Nat) (receiver : Receiver)
    (out acks : Set Frame) : Prop where
  points : ∃ points, (SelRep.cumulative cut base receiver.expected.toNat points).Inv ∧
    ∀ f ∈ acks, f.sequence.toNat ∈ points
  cut_le : cut ≤ chunks.length
  delivered : receiver.delivered = (chunks.take receiver.expected.toNat).flatten
  sent : ∀ f ∈ out, f.sequence.toNat < cut ∧ chunks[f.sequence.toNat]? = some f.payload

namespace Flying

variable {cut base : Nat} {receiver : Receiver} {out acks : Set Frame}

theorem start : Flying chunks 0 0 {} ∅ ∅ where
  points := ⟨{0}, SelRep.Inv.cumulative_init, fun f hf => absurd hf (Set.notMem_empty f)⟩
  cut_le := Nat.zero_le _
  delivered := rfl
  sent := fun f hf => absurd hf (Set.notMem_empty f)

theorem base_le (h : Flying chunks cut base receiver out acks) : base ≤ receiver.expected.toNat := by
  obtain ⟨points, hinv, _⟩ := h.points
  exact hinv.base_le

theorem expected_le (h : Flying chunks cut base receiver out acks) :
    receiver.expected.toNat ≤ cut := by
  obtain ⟨points, hinv, _⟩ := h.points
  exact hinv.next_le

/-- When the sender has nothing left to keep, the receiver has it all. -/
theorem complete (h : Flying chunks cut base receiver out acks) (hbase : base = chunks.length) :
    receiver.delivered = chunks.flatten := by
  have := h.base_le
  rw [h.delivered, List.take_of_length_le (by omega)]

theorem cut_next (h : Flying chunks cut base receiver out acks) (hlt : cut < chunks.length) :
    Flying chunks (cut + 1) base receiver out acks := by
  obtain ⟨points, hinv, hpoints⟩ := h.points
  exact ⟨⟨points, hinv.cumulative_cut, hpoints⟩, hlt, h.delivered,
    fun f hf => ⟨Nat.lt_succ_of_lt (h.sent f hf).1, (h.sent f hf).2⟩⟩

/-- A chunk that was cut is sent, or sent again. -/
theorem send (h : Flying chunks cut base receiver out acks) {seq : U32} {chunk : List U8}
    (hlt : seq.toNat < cut) (hchunk : chunks[seq.toNat]? = some chunk) :
    Flying chunks cut base receiver (insert (segment seq chunk) out) acks := by
  refine ⟨h.points, h.cut_le, h.delivered, ?_⟩
  rintro f (rfl | hf)
  · exact ⟨hlt, hchunk⟩
  · exact h.sent f hf

theorem learn (h : Flying chunks cut base receiver out acks) {f : Frame} (hf : f ∈ acks)
    (hle : base ≤ f.sequence.toNat) : Flying chunks cut f.sequence.toNat receiver out acks := by
  obtain ⟨points, hinv, hpoints⟩ := h.points
  exact ⟨⟨points, hinv.cumulative_learn (hpoints f hf) hle, hpoints⟩, h.cut_le, h.delivered, h.sent⟩

/-- The frame in order is taken. -/
theorem accept (h : Flying chunks cut base receiver out acks) {f : Frame} (hf : f ∈ out)
    (hseq : f.sequence = receiver.expected) {expected : U32}
    (hnext : expected.toNat = receiver.expected.toNat + 1) :
    Flying chunks cut base ⟨expected, receiver.delivered ++ f.payload⟩ out acks := by
  obtain ⟨points, hinv, hpoints⟩ := h.points
  obtain ⟨hlt, hchunk⟩ := h.sent f hf
  rw [hseq] at hlt hchunk
  refine ⟨⟨points, ?_, hpoints⟩, h.cut_le, ?_, h.sent⟩
  · show (SelRep.cumulative cut base expected.toNat points).Inv
    rw [hnext]
    exact hinv.cumulative_accept hlt
  · show receiver.delivered ++ f.payload = (chunks.take expected.toNat).flatten
    rw [hnext, List.take_add_one, hchunk, List.flatten_append, h.delivered]
    simp

theorem report (h : Flying chunks cut base receiver out acks) :
    Flying chunks cut base receiver out (insert (acknowledgement receiver.expected) acks) := by
  obtain ⟨points, hinv, hpoints⟩ := h.points
  refine ⟨⟨_, hinv.cumulative_report, ?_⟩, h.cut_le, h.delivered, h.sent⟩
  rintro f (rfl | hf)
  · exact Set.mem_insert _ _
  · exact Set.mem_insert_of_mem _ (hpoints f hf)

end Flying

/-! ## The receiver -/

variable {Carries : κ → Set Frame → Prop} {cut base : Nat} {receiver : Receiver}
  {out acks : Set Frame}

/-- One datagram at the receiver. -/
theorem receive_keeps (hM : Unreliable M (arqFrames chunks) Carries) (hfew : chunks.length < 2 ^ 32)
    {s : κ × Receiver} {d : List U8} (hout : ∀ f, Frame.decode d = .ok (.ok f) → f ∈ out)
    (h : ∃ acks, Carries s.1 acks ∧ Flying chunks cut base s.2 out acks) :
    ∃ s', receive b M s d = .ok s' ∧
      ∃ acks, Carries s'.1 acks ∧ Flying chunks cut base s'.2 out acks := by
  obtain ⟨acks, hback, hfly⟩ := h
  -- whatever the receiver's variables are then, they are reported
  have hreply : ∀ receiver : Receiver, Flying chunks cut base receiver out acks →
      ∃ s', (M.send s.1 (ackFrame receiver.expected) >>= fun back =>
        .ok (back, receiver)) = Except.ok s' ∧
        ∃ acks, Carries s'.1 acks ∧ Flying chunks cut base s'.2 out acks := by
    intro receiver hr
    obtain ⟨back, hsend, hcarries⟩ := hM.send hback (Or.inr ⟨receiver.expected, rfl⟩)
    exact ⟨_, bind_eq_ok.mpr ⟨back, hsend, rfl⟩, _, hcarries, hr.report⟩
  obtain ⟨r, hr⟩ := Frame.decode_total d
  unfold receive
  rw [hr, ok_bind]
  cases r with
  | error e => exact ⟨s, rfl, acks, hback, hfly⟩
  | ok f =>
    have hf := hout f hr
    dsimp only
    by_cases hseq : f.sequence = s.2.expected
    · have hlt := (hfly.sent f hf).1
      have hcut := hfly.cut_le
      rw [hseq] at hlt
      obtain ⟨expected, hadd, hnext⟩ := Build.add_ok b (x := s.2.expected) (y := 1#32)
        (show s.2.expected.toNat + 1 < 2 ^ 32 by omega)
      rw [if_pos hseq, hadd, ok_bind, ok_bind]
      exact hreply _ (hfly.accept hf hseq hnext)
    · rw [if_neg hseq, ok_bind]
      exact hreply _ hfly

/-- Everything that arrives at the receiver. -/
theorem hear_keeps (hM : Unreliable M (arqFrames chunks) Carries) (hfew : chunks.length < 2 ^ 32)
    {fwd back : κ} (now : Tick) (hfwd : Carries fwd out) (hback : Carries back acks)
    (h : Flying chunks cut base receiver out acks) :
    ∃ fwd' back' receiver', hear b M now fwd back receiver = .ok (fwd', back', receiver') ∧
      ∃ acks, Carries fwd' out ∧ Carries back' acks ∧ Flying chunks cut base receiver' out acks := by
  obtain ⟨fwd', ds, hadv, hfwd', hds⟩ := hM.advance now hfwd
  obtain ⟨⟨back', receiver'⟩, hfold, acks', hback', h'⟩ := foldlM_keeps (f := receive b M)
    (I := fun s => ∃ acks, Carries s.1 acks ∧ Flying chunks cut base s.2 out acks)
    (s := (back, receiver)) ⟨acks, hback, h⟩ fun s d hd hs => receive_keeps hM hfew (hds d hd) hs
  refine ⟨fwd', back', receiver', ?_, acks', hfwd', hback', h'⟩
  unfold hear
  rw [hadv, ok_bind]
  show (ds.foldlM (receive b M) (back, receiver) >>= _) = _
  rw [hfold, ok_bind]

end Distrans.Workload
