import Distrans.Channel.Sends
import Distrans.Frame.Detection
import Mathlib.NumberTheory.LucasLehmer

/-!
# Frames through the channel

What `decode` makes of the datagrams that come of an encoded frame.  A datagram with one bit
flipped fails the checksum, one that is cut short fails the length check; but a flip in the length
field can make it declare just the length the datagram is then cut to, and the last four bytes
that are left, of the payload mostly, are taken for the checksum.

* `two_flips_detected` — **two flipped bits are detected**, wherever they lie.
* `frames_intact_or_rejected` — **the original frame or an error, unless these bytes happen to be
  the checksum of the shortened frame** (`Collides`).
* `frames_collide` — a frame of which they are.
-/

set_option autoImplicit false

namespace Distrans

open Machine

/-! ## One flipped bit -/

theorem flipBit_length (a : List U8) (i j : Nat) : (flipBit a i j).length = a.length :=
  List.length_modify _ _ _

/-- The pattern of one flipped bit. -/
def flipPattern (n i j : Nat) : List U8 := (List.replicate n 0#8).set i (1#8 <<< j)

theorem flipBit_eq : ∀ {bytes : List U8} {i : Nat} (j : Nat),
    flipBit bytes i j = corrupt bytes (flipPattern bytes.length i j)
  | [], i, _ => by rw [flipBit, List.modify_nil]; rfl
  | x :: bytes, 0, j => by
    have hzero : List.zipWith (· ^^^ ·) bytes (List.replicate bytes.length 0#8) = bytes := by
      induction bytes with
      | nil => rfl
      | cons y ys ih => rw [List.length_cons, List.replicate_succ, List.zipWith_cons_cons, ih,
          BitVec.xor_zero]
    show (x ^^^ 1#8 <<< j) :: bytes = (x ^^^ 1#8 <<< j) ::
      List.zipWith (· ^^^ ·) bytes (List.replicate bytes.length 0#8)
    rw [hzero]
  | x :: bytes, i + 1, j => by
    show x :: flipBit bytes i j = (x ^^^ 0#8) :: corrupt bytes (flipPattern bytes.length i j)
    rw [flipBit_eq j, BitVec.xor_zero]

theorem bits_replicate (n : Nat) : true ∉ Lfsr.bits (List.replicate n 0#8) := by
  intro h
  obtain ⟨x, hx, hne⟩ := Lfsr.mem_bits.mp h
  exact hne (List.eq_of_mem_replicate hx)

/-- The bits of the pattern: one one, and `8 * i + j` zeros before it. -/
theorem bits_flipPattern {j : Nat} (hj : j < 8) : ∀ {n i : Nat}, i < n →
    ∃ as bs, Lfsr.bits (flipPattern n i j) = as ++ true :: bs ∧ true ∉ as ∧ true ∉ bs ∧
      as.length = 8 * i + j
  | 0, _, h => by omega
  | n + 1, 0, _ => by
    have hbyte : ∀ j < 8, Lfsr.bitsOf (1#8 <<< j) =
        List.replicate j false ++ true :: List.replicate (7 - j) false := by decide
    refine ⟨List.replicate j false, List.replicate (7 - j) false ++
      Lfsr.bits (List.replicate n 0#8), ?_, by simp, ?_, by simp⟩
    · show Lfsr.bits ((1#8 <<< j) :: List.replicate n 0#8) = _
      rw [Lfsr.bits_cons, hbyte j hj, List.append_assoc, List.cons_append]
    · rw [List.mem_append, not_or]
      exact ⟨by simp, bits_replicate n⟩
  | n + 1, i + 1, h => by
    obtain ⟨as, bs, hbits, ha, hb, hlen⟩ := bits_flipPattern hj (n := n) (i := i) (by omega)
    refine ⟨Lfsr.bitsOf 0#8 ++ as, bs, ?_, ?_, hb, ?_⟩
    · show Lfsr.bits (0#8 :: flipPattern n i j) = _
      rw [Lfsr.bits_cons, hbits, List.append_assoc]
    · rw [List.mem_append, Lfsr.mem_bitsOf, not_or]
      exact ⟨fun h => h rfl, ha⟩
    · rw [List.length_append, Lfsr.length_bitsOf, hlen]
      omega

theorem count_flipPattern {n i j : Nat} (hi : i < n) (hj : j < 8) :
    (Lfsr.bits (flipPattern n i j)).count true = 1 := by
  obtain ⟨as, bs, hbits, ha, hb, _⟩ := bits_flipPattern hj hi
  rw [hbits, List.count_append, List.count_cons_self, List.count_eq_zero.mpr ha,
    List.count_eq_zero.mpr hb]

/-- **One flipped bit** is detected. -/
theorem flip_detected {f : Frame} {i j : Nat} (hi : i < f.encode.length) (hj : j < 8) :
    ∃ err, Frame.decode (flipBit f.encode i j) = .ok (.error err) := by
  rw [flipBit_eq]
  refine corrupt_detected (by simp [flipPattern]) (odd_trace ?_)
  rw [OddWeight, count_flipPattern hi hj]

/-! ## Two flipped bits -/

/-- **The polynomial has the period of a Mersenne prime.** -/
theorem minimalPeriod_POLY : Function.minimalPeriod (Lfsr.shift POLY) 1#32 = 2 ^ 31 - 1 := by
  have hprime : (2 ^ 31 - 1).Prime := lucas_lehmer_sufficiency 31 (by norm_num) (by norm_num)
  have hpow : (Lfsr.shift POLY)^[2 ^ 31] 1#32 = Lfsr.shift POLY 1#32 := by
    rw [Lfsr.iterate_two_pow Lfsr.additive_shift]
    decide +kernel
  exact Lfsr.minimalPeriod_one (by decide) hprime hpow (by decide)

/-- Corrupted twice is corrupted once, with both patterns. -/
theorem corrupt_corrupt : ∀ (d e e' : List U8),
    corrupt (corrupt d e) e' = corrupt d (List.zipWith (· ^^^ ·) e e')
  | [], _, _ => rfl
  | _ :: _, [], _ => rfl
  | _ :: _, _ :: _, [] => rfl
  | x :: d, y :: e, z :: e' =>
    congrArg₂ List.cons (BitVec.xor_assoc x y z) (corrupt_corrupt d e e')

/-- Flips at two places leave different traces. -/
theorem flip_traces_ne {n i j i' j' : Nat} (hn : 8 * n < 2 ^ 31 - 1) (hi : i < n) (hj : j < 8)
    (hi' : i' < n) (hj' : j' < 8) (hne : 8 * i + j ≠ 8 * i' + j') :
    Lfsr.run POLY 0#32 (Lfsr.bits (flipPattern n i j)) ≠
      Lfsr.run POLY 0#32 (Lfsr.bits (flipPattern n i' j')) := by
  obtain ⟨as, bs, hbits, ha, hb, hlen⟩ := bits_flipPattern hj hi
  obtain ⟨as', bs', hbits', ha', hb', hlen'⟩ := bits_flipPattern hj' hi'
  have hall : (as ++ true :: bs).length = 8 * n := by
    rw [← hbits, Lfsr.length_bits, flipPattern, List.length_set, List.length_replicate]
  have hall' : (as' ++ true :: bs').length = 8 * n := by
    rw [← hbits', Lfsr.length_bits, flipPattern, List.length_set, List.length_replicate]
  rw [List.length_append, List.length_cons] at hall hall'
  rw [hbits, hbits']
  apply Lfsr.run_pair_ne ha hb ha' hb'
  · rw [minimalPeriod_POLY]
    omega
  · rw [minimalPeriod_POLY]
    omega
  · omega

/-- **Every two flipped bits are detected**, in an encoding of less than `2 ^ 31 - 1` bits. -/
theorem two_flips_detected {f : Frame} {i j : Nat} (hlen : 8 * f.encode.length < 2 ^ 31 - 1)
    (hi : i < 8 * f.encode.length) (hj : j < 8 * f.encode.length) (hne : i ≠ j) :
    ∃ err, Frame.decode (flipBit (flipBit f.encode (i / 8) (i % 8)) (j / 8) (j % 8)) =
      .ok (.error err) := by
  have hi8 : i % 8 < 8 := Nat.mod_lt _ (by decide)
  have hj8 : j % 8 < 8 := Nat.mod_lt _ (by decide)
  have hplen : ∀ i j, (flipPattern f.encode.length i j).length = f.encode.length := by
    intro i j
    rw [flipPattern, List.length_set, List.length_replicate]
  -- one pattern of both flips
  have hboth : flipBit (flipBit f.encode (i / 8) (i % 8)) (j / 8) (j % 8) =
      corrupt f.encode (List.zipWith (· ^^^ ·) (flipPattern f.encode.length (i / 8) (i % 8))
        (flipPattern f.encode.length (j / 8) (j % 8))) := by
    rw [flipBit_eq (j % 8), flipBit_length, flipBit_eq (i % 8), corrupt_corrupt]
  rw [hboth]
  apply corrupt_detected
  · rw [List.length_zipWith, hplen, hplen, Nat.min_self]
  · have hbits : (Lfsr.bits (flipPattern f.encode.length (i / 8) (i % 8))).length =
        (Lfsr.bits (flipPattern f.encode.length (j / 8) (j % 8))).length := by
      rw [Lfsr.length_bits, Lfsr.length_bits, hplen, hplen]
    rw [Lfsr.bits_xor (by rw [hplen, hplen]), ← BitVec.xor_self (x := 0#32), Lfsr.run_xor hbits]
    intro hz
    exact flip_traces_ne hlen (by omega) hi8 (by omega) hj8 (by omega)
      (BitVec.xor_eq_zero_iff.mp hz)

/-- The first bit of the frame, and the last of its checksum. -/
theorem two_flips_detected_sample : ∃ err, Frame.decode (flipBit (flipBit
    (Frame.encode ⟨1, 5, 2, [10, 20, 30]⟩) 0 0) 18 7) = .ok (.error err) :=
  two_flips_detected (f := ⟨1, 5, 2, [10, 20, 30]⟩) (i := 0) (j := 151) (by decide) (by decide)
    (by decide) (by decide)

theorem testBit_ofLe_cons (x : U8) (bs : List U8) (k : Nat) :
    (ofLe (x :: bs)).testBit k = if k < 8 then x.toNat.testBit k else (ofLe bs).testBit (k - 8) := by
  have hsum : ofLe (x :: bs) = 2 ^ 8 * ofLe bs + x.toNat := by simp only [ofLe]; omega
  rw [hsum, Nat.testBit_two_pow_mul_add _ x.isLt]

/-- One flipped bit of an encoded number. -/
theorem ofLe_flipBit {j : Nat} (hj : j < 8) : ∀ {bs : List U8} {i : Nat}, i < bs.length →
    ofLe (flipBit bs i j) = ofLe bs ^^^ 2 ^ (8 * i + j)
  | [], _, h => by simp at h
  | x :: bs, 0, _ => by
    have hx : (x ^^^ 1#8 <<< j).toNat = x.toNat ^^^ 2 ^ j := by
      rw [BitVec.toNat_xor, BitVec.toNat_shiftLeft, Nat.shiftLeft_eq]
      have : 2 ^ j < 2 ^ 8 := Nat.pow_lt_pow_right (by decide) hj
      rw [show (1#8).toNat = 1 from rfl, Nat.one_mul, Nat.mod_eq_of_lt this]
    show ofLe ((x ^^^ 1#8 <<< j) :: bs) = ofLe (x :: bs) ^^^ 2 ^ (8 * 0 + j)
    apply Nat.eq_of_testBit_eq
    intro k
    rw [testBit_ofLe_cons, Nat.testBit_xor, testBit_ofLe_cons, hx, Nat.testBit_xor,
      Nat.testBit_two_pow, Nat.testBit_two_pow]
    by_cases hk : k < 8
    · simp [hk]
    · have hne : ¬ j = k := by omega
      simp [hk, hne]
  | x :: bs, i + 1, h => by
    have ih : ofLe (flipBit bs i j) = ofLe bs ^^^ 2 ^ (8 * i + j) :=
      ofLe_flipBit hj (by simpa using h)
    show ofLe (x :: flipBit bs i j) = ofLe (x :: bs) ^^^ 2 ^ (8 * (i + 1) + j)
    apply Nat.eq_of_testBit_eq
    intro k
    rw [testBit_ofLe_cons, Nat.testBit_xor, testBit_ofLe_cons, ih, Nat.testBit_xor,
      Nat.testBit_two_pow, Nat.testBit_two_pow]
    by_cases hk : k < 8
    · have hne : ¬ 8 * (i + 1) + j = k := by omega
      simp [hk, hne]
    · have hiff : 8 * i + j = k - 8 ↔ 8 * (i + 1) + j = k := by omega
      simp [hk, hiff]

/-! ## A flip in the length field and a cut -/

/-- The frame with its payload cut short. -/
def Frame.cut (f : Frame) (m : Nat) : Frame := { f with payload := f.payload.take m }

/-- One flip makes the length field declare `m` bytes, and the four bytes behind the first `m` of
the payload are the checksum of the frame that is left. -/
structure Collides (f : Frame) (m : Nat) : Prop where
  short : m < f.payload.length
  declared : ∃ k < 32, m = f.payload.length ^^^ 2 ^ k
  trailer : (f.encode.drop (HEADER_LEN + m)).take CRC_LEN = toLe 4 (crc32c (f.cut m).body)

instance decidableCollides (f : Frame) (m : Nat) : Decidable (Collides f m) :=
  decidable_of_iff (m < f.payload.length ∧ (∃ k < 32, m = f.payload.length ^^^ 2 ^ k) ∧
      (f.encode.drop (HEADER_LEN + m)).take CRC_LEN = toLe 4 (crc32c (f.cut m).body))
    ⟨fun h => ⟨h.1, h.2.1, h.2.2⟩, fun h => ⟨h.short, h.declared, h.trailer⟩⟩

/-- The header before the length field. -/
def Frame.head (f : Frame) : List U8 := [VERSION, f.frameType] ++ toLe 4 f.sequence ++ toLe 2 f.flags

theorem encode_split (f : Frame) : f.encode = f.head ++ (toLe 4 (BitVec.ofNat 32 f.payload.length) ++
    (f.payload ++ toLe 4 (crc32c f.body))) := by
  simp only [Frame.encode, Frame.body, Frame.head, List.append_assoc]

theorem head_length (f : Frame) : f.head.length = 8 := by simp [Frame.head]

theorem head_inj {f g : Frame} (h : f.head = g.head) :
    f.frameType = g.frameType ∧ f.sequence = g.sequence ∧ f.flags = g.flags := by
  obtain ⟨h, hflags⟩ := List.append_inj h (by simp)
  obtain ⟨h, hseq⟩ := List.append_inj h (by simp)
  injection h with _ h
  injection h with htype
  exact ⟨htype, toLe_inj hseq, toLe_inj hflags⟩

theorem flipBit_append_left {a b : List U8} {i : Nat} (j : Nat) (h : i < a.length) :
    flipBit (a ++ b) i j = flipBit a i j ++ b := by
  apply List.ext_getElem?
  intro k
  simp only [flipBit, List.getElem?_modify, List.getElem?_append, List.length_modify]
  split <;> grind

theorem flipBit_append_right {a b : List U8} {i : Nat} (j : Nat) (h : a.length ≤ i) :
    flipBit (a ++ b) i j = a ++ flipBit b (i - a.length) j := by
  apply List.ext_getElem?
  intro k
  simp only [flipBit, List.getElem?_modify, List.getElem?_append]
  split <;> grind

variable {f g : Frame} {i j n : Nat}

/-- The length field of a cut encoding tells where it was cut, unless a flip has hit it. -/
theorem flip_cut_field (hf : f.payload.length < 2 ^ 32) (hg : g.payload.length < f.payload.length)
    {t : List U8} (h : flipBit f.encode i j = g.encode ++ t) : 8 ≤ i ∧ i < 12 := by
  have hne : toLe 4 (BitVec.ofNat 32 f.payload.length) ≠
      toLe 4 (BitVec.ofNat 32 g.payload.length) := by
    intro heq
    have := congrArg BitVec.toNat (toLe_inj heq)
    rw [BitVec.toNat_ofNat, BitVec.toNat_ofNat, Nat.mod_eq_of_lt hf, Nat.mod_eq_of_lt (by omega)]
      at this
    omega
  rw [encode_split, encode_split, List.append_assoc, List.append_assoc] at h
  by_cases h8 : i < 8
  · rw [flipBit_append_left _ (by rw [head_length]; exact h8)] at h
    obtain ⟨_, h⟩ := List.append_inj h (by rw [flipBit_length, head_length, head_length])
    exact absurd (List.append_inj h (by simp)).1 hne
  · refine ⟨by omega, ?_⟩
    by_contra h12
    rw [flipBit_append_right _ (by rw [head_length]; omega), head_length,
      flipBit_append_right _ (by rw [toLe_length]; omega)] at h
    obtain ⟨_, h⟩ := List.append_inj h (by rw [head_length, head_length])
    exact hne (List.append_inj h (by simp)).1

/-- **A flipped and cut encoding that is accepted has collided.** -/
theorem flip_cut_collides (hf : f.payload.length < 2 ^ 32) (hj : j < 8)
    (hg : g.payload.length < f.payload.length) {t : List U8}
    (h : flipBit f.encode i j = g.encode ++ t) :
    Collides f g.payload.length ∧ g = f.cut g.payload.length := by
  obtain ⟨h8, h12⟩ := flip_cut_field hf hg h
  have hcat := h
  rw [encode_split f, encode_split g, List.append_assoc, List.append_assoc,
    flipBit_append_right _ (by rw [head_length]; exact h8), head_length,
    flipBit_append_left _ (by rw [toLe_length]; omega)] at hcat
  obtain ⟨hhead, hcat⟩ := List.append_inj hcat (by rw [head_length, head_length])
  obtain ⟨hfield, hcat⟩ := List.append_inj hcat (by rw [flipBit_length, toLe_length, toLe_length])
  obtain ⟨htype, hseq, hflags⟩ := head_inj hhead
  have hpay : g.payload = f.payload.take g.payload.length := by
    have := congrArg (List.take g.payload.length) hcat
    rw [List.take_append_of_le_length (Nat.le_of_lt hg), List.append_assoc, List.take_left'
      rfl] at this
    exact this.symm
  have hcut : g = f.cut g.payload.length := by
    cases g
    simp only [Frame.cut, Frame.mk.injEq]
    exact ⟨htype.symm, hseq.symm, hflags.symm, hpay⟩
  refine ⟨⟨hg, ⟨8 * (i - 8) + j, by omega, ?_⟩, ?_⟩, hcut⟩
  · have := congrArg ofLe hfield
    rw [ofLe_flipBit hj (by rw [toLe_length]; omega), ofLe_toLe, ofLe_toLe, BitVec.toNat_ofNat,
      BitVec.toNat_ofNat, Nat.mod_eq_of_lt hf, Nat.mod_eq_of_lt (by omega)] at this
    exact this.symm
  · have hdrop : f.encode.drop (HEADER_LEN + g.payload.length) =
        (f.payload ++ toLe 4 (crc32c f.body)).drop g.payload.length := by
      rw [encode_split, ← List.append_assoc, ← List.drop_drop, List.drop_left']
      simp [Frame.head, HEADER_LEN]
    rw [hdrop, hcat, List.append_assoc, List.drop_left' rfl, List.take_left' (by simp [CRC_LEN]),
      ← hcut]

/-- **A collision is accepted**: one flip and one cut leave the encoding of the shortened frame. -/
theorem collides_encode {m : Nat} (hf : f.payload.length < 2 ^ 32) (h : Collides f m) :
    ∃ i j, i < f.encode.length ∧ j < 8 ∧
      (flipBit f.encode i j).take (MIN_FRAME_LEN + m) = (f.cut m).encode := by
  obtain ⟨k, hk, hm⟩ := h.declared
  have hcutlen : (f.cut m).payload.length = m := by
    rw [Frame.cut, List.length_take, Nat.min_eq_left (Nat.le_of_lt h.short)]
  have hm32 : m < 2 ^ 32 := lt_trans h.short hf
  have hfield : flipBit (toLe 4 (BitVec.ofNat 32 f.payload.length)) (k / 8) (k % 8) =
      toLe 4 (BitVec.ofNat 32 m) := by
    apply ofLe_inj
    · rw [flipBit_length, toLe_length, toLe_length]
    · rw [ofLe_flipBit (Nat.mod_lt _ (by decide)) (by rw [toLe_length]; omega), ofLe_toLe, ofLe_toLe,
        BitVec.toNat_ofNat, BitVec.toNat_ofNat, Nat.mod_eq_of_lt hf, Nat.mod_eq_of_lt hm32,
        Nat.div_add_mod, hm]
  have htrailer := h.trailer
  rw [encode_split, ← List.append_assoc, ← List.drop_drop,
    List.drop_left' (by simp [Frame.head, HEADER_LEN])] at htrailer
  refine ⟨8 + k / 8, k % 8, ?_, Nat.mod_lt _ (by decide), ?_⟩
  · rw [Frame.encode_length]
    simp only [MIN_FRAME_LEN, HEADER_LEN, CRC_LEN]
    omega
  · have hstart : MIN_FRAME_LEN + m =
        (f.head ++ toLe 4 (BitVec.ofNat 32 m)).length + (m + CRC_LEN) := by
      rw [List.length_append, head_length, toLe_length]
      simp only [MIN_FRAME_LEN, HEADER_LEN]
      omega
    rw [encode_split, flipBit_append_right _ (by rw [head_length]; omega), head_length,
      Nat.add_sub_cancel_left, flipBit_append_left _ (by rw [toLe_length]; omega), hfield,
      encode_split (f.cut m), hcutlen, ← htrailer, ← List.append_assoc, hstart,
      List.take_length_add_append, List.take_add,
      List.take_append_of_le_length (Nat.le_of_lt h.short)]
    exact List.append_assoc _ _ _

/-- What `decode` makes of a datagram that comes of an encoding. -/
theorem decode_emitted {d : List U8} (hf : f.payload.length < 2 ^ 32) (h : Emitted f.encode d) :
    Frame.decode d = .ok (.ok f) ∨ (∃ e, Frame.decode d = .ok (.error e)) ∨
      ∃ m, Collides f m ∧ Frame.decode d = .ok (.ok (f.cut m)) := by
  cases h with
  | intact n =>
    rcases Nat.lt_or_ge n f.encode.length with hn | hn
    · refine Or.inr (Or.inl (Frame.decode_cut_short hf ?_ (List.take_append_drop n f.encode)))
      intro hnil
      have := congrArg List.length hnil
      rw [List.length_drop, List.length_nil] at this
      omega
    · rw [List.take_of_length_le hn]
      exact Or.inl (Frame.decode_encode hf)
  | @flipped i j n hi hj =>
    rcases Nat.lt_or_ge n f.encode.length with hn | hn
    · obtain ⟨r, hr⟩ := Frame.decode_total ((flipBit f.encode i j).take n)
      cases r with
      | error e => exact Or.inr (Or.inl ⟨e, hr⟩)
      | ok g =>
        have henc := Frame.encode_of_decode hr
        have hsplit : flipBit f.encode i j = g.encode ++ (flipBit f.encode i j).drop n := by
          rw [henc, List.take_append_drop]
        have hlen := congrArg List.length henc
        rw [List.length_take, flipBit_length, Frame.encode_length] at hlen
        rw [Frame.encode_length] at hn
        obtain ⟨hcol, hcut⟩ := flip_cut_collides hf hj (by rw [Frame.encode_length] at hlen; omega)
          hsplit
        exact Or.inr (Or.inr ⟨_, hcol, by rw [← hcut]; exact hr⟩)
    · rw [List.take_of_length_le (by rw [flipBit_length]; exact hn)]
      exact Or.inr (Or.inl (flip_detected hi hj))

/-- **Frames through the channel are intact or rejected, collisions apart.** -/
theorem frames_intact_or_rejected {b : Build} {c c' : Channel} {ds : List InFlight}
    (hf : f.payload.length < 2 ^ 32) (h : c.send b f.encode = .ok (c', ds)) :
    ∀ d ∈ ds, Frame.decode d.payload = .ok (.ok f) ∨
      (∃ e, Frame.decode d.payload = .ok (.error e)) ∨
      ∃ m, Collides f m ∧ Frame.decode d.payload = .ok (.ok (f.cut m)) := by
  intro d hd
  exact decode_emitted hf ((send_emits h).1.emitted d hd).1

/-- The checksum of the empty frame, and four more bytes. -/
def collidingFrame : Frame := ⟨1, 0, 0, [172, 150, 96, 141, 0, 0, 0, 0]⟩

/-- A flip in the lowest byte of the length field, then a cut to the shortest frame. -/
def lengthCut : Script := ⟨[(0, .corrupt 8), (0, .truncate 16)]⟩

theorem collidingFrame_sends : ∃ (c c' : Channel) (d : InFlight),
    Channel.withScript 0 CLEAN lengthCut = .ok c ∧
    c.send .checked collidingFrame.encode = .ok (c', [d]) ∧
    d.payload = (Frame.mk 1 0 0 []).encode := by
  obtain ⟨c, h₀⟩ : ∃ c, Channel.withScript 0 CLEAN lengthCut = .ok c :=
    ⟨_, if_pos (by decide +kernel)⟩
  have hsend : (c.send .checked collidingFrame.encode).map Prod.snd =
      .ok [⟨1, 0, (Frame.mk 1 0 0 []).encode⟩] := by
    cases h₀
    decide +kernel
  cases hc : c.send .checked collidingFrame.encode with
  | error e =>
    rw [hc] at hsend
    cases hsend
  | ok r =>
    obtain ⟨c', ds⟩ := r
    rw [hc] at hsend
    cases hsend
    exact ⟨c, c', _, h₀, hc, rfl⟩

/-- **A datagram of the channel that decodes to another frame.** -/
theorem frames_collide : ∃ (c c' : Channel) (d : InFlight),
    Channel.withScript 0 CLEAN lengthCut = .ok c ∧
    c.send .checked collidingFrame.encode = .ok (c', [d]) ∧
    Frame.decode d.payload = .ok (.ok ⟨1, 0, 0, []⟩) ∧ collidingFrame ≠ ⟨1, 0, 0, []⟩ := by
  obtain ⟨c, c', d, h₀, hc, hd⟩ := collidingFrame_sends
  exact ⟨c, c', d, h₀, hc, by rw [hd]; exact Frame.decode_encode (by decide), by decide⟩

theorem frames_intact_or_rejected_sample : ∃ (c c' : Channel) (d : InFlight),
    c.send .checked collidingFrame.encode = .ok (c', [d]) ∧
    (Frame.decode d.payload = .ok (.ok collidingFrame) ∨
      (∃ e, Frame.decode d.payload = .ok (.error e)) ∨
      ∃ m, Collides collidingFrame m ∧ Frame.decode d.payload = .ok (.ok (collidingFrame.cut m))) := by
  obtain ⟨c, c', d, _, hc, _⟩ := collidingFrame_sends
  exact ⟨c, c', d, hc, frames_intact_or_rejected (by decide) hc d (List.mem_singleton.mpr rfl)⟩

end Distrans
