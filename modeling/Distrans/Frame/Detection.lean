import Distrans.Lib.Lfsr
import Distrans.Frame.Canonical

/-!
# What the checksum detects

`crc32c` is the run of a shift register over the bits of its input, least significant bit of each
byte first (`foldl_crcByte`), and the little-endian trailer continues the message in that order:
whatever the frame, the register ends in one and the same word (`encode_residue`).  So an error
pattern goes undetected only if the register, from zero, ends in zero on it (`trace_of_decode`).

* `flips_detected` — **patterns of odd weight and bursts of up to 32 bits are detected**, wherever
  they lie.
-/

set_option autoImplicit false

namespace Distrans

open Machine

/-! ## The checksum as a shift register -/

theorem crcBit_eq (c : U32) : crcBit c = Lfsr.shift POLY c := by
  have hlow : c &&& 1#32 ≠ 0#32 ↔ c.getLsbD 0 = true := by
    rw [BitVec.and_one_eq_setWidth_ofBool_getLsbD]
    cases c.getLsbD 0 <;> decide
  unfold crcBit Lfsr.shift
  by_cases h : c.getLsbD 0 = true
  · rw [if_pos (hlow.mpr h), if_pos h]
  · rw [if_neg (mt hlow.mp h), if_neg h]

theorem crcByte_eq (c : U32) (byte : U8) : crcByte c byte = Lfsr.run POLY c (Lfsr.bitsOf byte) := by
  have hbit : crcBit = Lfsr.shift POLY := funext crcBit_eq
  rw [crcByte, hbit, Lfsr.run_bitsOf (by decide)]

theorem foldl_crcByte : ∀ (data : List U8) (c : U32),
    data.foldl crcByte c = Lfsr.run POLY c (Lfsr.bits data)
  | [], _ => rfl
  | byte :: data, c => by
    rw [List.foldl_cons, crcByte_eq, foldl_crcByte data, Lfsr.bits_cons, Lfsr.run_append]

/-- The bits of a byte string are those of the number it encodes. -/
theorem getD_bits : ∀ (bs : List U8) (i : Nat),
    (Lfsr.bits bs).getD i false = (ofLe bs).testBit i
  | [], i => by simp [ofLe]
  | b :: bs, i => by
    have hsum : ofLe (b :: bs) = 2 ^ 8 * ofLe bs + b.toNat := by simp only [ofLe]; omega
    rw [hsum, Nat.testBit_two_pow_mul_add _ b.isLt, Lfsr.bits_cons, List.getD_eq_getElem?_getD]
    by_cases h : i < 8
    · rw [if_pos h, List.getElem?_append_left (by rw [Lfsr.length_bitsOf]; exact h),
        ← List.getD_eq_getElem?_getD, Lfsr.getD_bitsOf]
      rfl
    · rw [if_neg h, List.getElem?_append_right (by rw [Lfsr.length_bitsOf]; omega),
        Lfsr.length_bitsOf, ← List.getD_eq_getElem?_getD, getD_bits bs]

theorem pack_toLe (x : U32) : Lfsr.pack 32 (Lfsr.bits (toLe 4 x)) = x := by
  apply BitVec.eq_of_getLsbD_eq
  intro i hi
  have hx : x.toNat < 256 ^ 4 := x.isLt
  rw [Lfsr.getLsbD_pack, getD_bits, toLe, ofLe_leBytes 4 _ hx]
  simp only [hi, decide_true, Bool.true_and]
  rfl

/-- Where the register ends over a frame and its trailer. -/
def RESIDUE : U32 := (Lfsr.shift POLY)^[32] (BitVec.allOnes 32)

/-- **Over every encoding the register ends in the residue.** -/
theorem encode_residue (f : Frame) :
    Lfsr.run POLY 0xFFFFFFFF#32 (Lfsr.bits f.encode) = RESIDUE := by
  have hlen : (Lfsr.bits (toLe 4 (crc32c f.body))).length = 32 := by
    rw [Lfsr.length_bits, toLe_length]
  rw [Frame.encode, Lfsr.bits_append, Lfsr.run_append, Lfsr.run_eq_iterate (Nat.le_of_eq hlen),
    hlen, pack_toLe, crc32c, foldl_crcByte, RESIDUE]
  congr 1
  rw [← BitVec.xor_allOnes, ← BitVec.xor_assoc, BitVec.xor_self, BitVec.zero_xor]

/-! ## Error patterns -/

/-- A datagram with the bits of `e` flipped. -/
def corrupt (d e : List U8) : List U8 := List.zipWith (· ^^^ ·) d e

/-- An odd number of bits is flipped. -/
def OddWeight (e : List U8) : Prop := (Lfsr.bits e).count true % 2 = 1

instance decidableOddWeight (e : List U8) : Decidable (OddWeight e) :=
  inferInstanceAs (Decidable (_ = _))

/-- **A corrupted encoding that is accepted leaves no trace in the register.** -/
theorem trace_of_decode {f g : Frame} {e : List U8} (hlen : e.length = f.encode.length)
    (h : Frame.decode (corrupt f.encode e) = .ok (.ok g)) :
    Lfsr.run POLY 0#32 (Lfsr.bits e) = 0#32 := by
  have hg : g.encode = corrupt f.encode e := Frame.encode_of_decode h
  have hbits : (Lfsr.bits f.encode).length = (Lfsr.bits e).length := by
    rw [Lfsr.length_bits, Lfsr.length_bits, hlen]
  have hsplit : Lfsr.run POLY 0xFFFFFFFF#32 (Lfsr.bits (corrupt f.encode e)) =
      Lfsr.run POLY 0xFFFFFFFF#32 (Lfsr.bits f.encode) ^^^ Lfsr.run POLY 0#32 (Lfsr.bits e) := by
    rw [corrupt, Lfsr.bits_xor hlen.symm, ← Lfsr.run_xor hbits, BitVec.xor_zero]
  rw [← hg, encode_residue, encode_residue] at hsplit
  calc Lfsr.run POLY 0#32 (Lfsr.bits e)
      = RESIDUE ^^^ (RESIDUE ^^^ Lfsr.run POLY 0#32 (Lfsr.bits e)) := by
        rw [← BitVec.xor_assoc, BitVec.xor_self, BitVec.zero_xor]
    _ = 0#32 := by rw [← hsplit, BitVec.xor_self]

/-- A pattern that leaves a trace is detected. -/
theorem corrupt_detected {f : Frame} {e : List U8} (hlen : e.length = f.encode.length)
    (he : Lfsr.run POLY 0#32 (Lfsr.bits e) ≠ 0#32) :
    ∃ err, Frame.decode (corrupt f.encode e) = .ok (.error err) := by
  obtain ⟨r, hr⟩ := Frame.decode_total (corrupt f.encode e)
  cases r with
  | error err => exact ⟨err, hr⟩
  | ok g => exact absurd (trace_of_decode hlen hr) he

theorem odd_trace {e : List U8} (he : OddWeight e) : Lfsr.run POLY 0#32 (Lfsr.bits e) ≠ 0#32 :=
  Lfsr.run_ne_zero_of_odd (by decide) (by decide) he

/-- **Odd-weight errors and bursts of up to 32 bits are detected.** -/
theorem flips_detected {f : Frame} {e : List U8} (hlen : e.length = f.encode.length)
    (hne : ∃ x ∈ e, x ≠ 0) (he : OddWeight e ∨ Lfsr.Burst 32 (Lfsr.bits e)) :
    ∃ err, Frame.decode (corrupt f.encode e) = .ok (.error err) := by
  apply corrupt_detected hlen
  rcases he with hodd | hburst
  · exact odd_trace hodd
  · exact Lfsr.run_ne_zero_of_burst (by decide) (Lfsr.mem_bits.mpr hne) hburst

/-- One flip in the length field; a burst over the end of the payload and the trailer. -/
theorem flips_detected_sample :
    (∃ err, Frame.decode (corrupt (Frame.encode ⟨1, 5, 2, [10, 20, 30]⟩)
      [0, 0, 0, 0, 0, 0, 0, 0, 4, 0, 0, 0, 0, 0, 0, 0, 0, 0, 0]) = .ok (.error err)) ∧
    ∃ err, Frame.decode (corrupt (Frame.encode ⟨1, 5, 2, [10, 20, 30]⟩)
      [0, 0, 0, 0, 0, 0, 0, 0, 0, 0, 0, 0, 0, 0, 0x80, 3, 0, 0, 0]) = .ok (.error err) := by
  refine ⟨flips_detected (by decide) (by decide) (Or.inl (by decide)),
    flips_detected (by decide) (by decide) (Or.inr ⟨119, fun i hi => ?_⟩)⟩
  have hbits : ∀ i < 152, (Lfsr.bits ([0, 0, 0, 0, 0, 0, 0, 0, 0, 0, 0, 0, 0, 0, 0x80, 3, 0, 0,
      0] : List U8))[i]? = some true → 119 ≤ i ∧ i < 119 + 32 := by decide +kernel
  refine hbits i ?_ hi
  obtain ⟨hlt, _⟩ := List.getElem?_eq_some_iff.mp hi
  simpa using hlt

end Distrans
