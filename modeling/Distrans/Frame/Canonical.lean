import Distrans.Frame.Codec

/-!
# The frame format is canonical

`decode` accepts nothing but encodings: each accepted datagram is the encoding of the frame it is
decoded to (`encode_of_decode`), and no encoding is the beginning of a longer one
(`encode_append_eq`), since the length field says where the frame ends.
-/

set_option autoImplicit false

namespace Distrans.Frame

open Machine

variable {d t : List U8} {f g : Frame}

/-- What `decode` has read when it accepts. -/
structure Reads (d : List U8) (f : Frame) : Prop where
  version : index d 0 = .ok VERSION
  frameType : index d 1 = .ok f.frameType
  sequence : readLe 32 d 2 6 = .ok f.sequence
  flags : readLe 16 d 6 8 = .ok f.flags
  declaredLen : readLe 32 d 8 12 = .ok (BitVec.ofNat 32 f.payload.length)
  payload : slice d HEADER_LEN (HEADER_LEN + f.payload.length) = .ok f.payload
  crc : ∃ covered, slice d 0 (HEADER_LEN + f.payload.length) = .ok covered ∧
    readLe 32 d (HEADER_LEN + f.payload.length) (HEADER_LEN + f.payload.length + CRC_LEN) =
      .ok (crc32c covered)
  length : d.length = HEADER_LEN + f.payload.length + CRC_LEN

theorem reads_of_decode (h : decode d = .ok (.ok f)) : Reads d f := by
  unfold decode at h
  split at h
  · cases h
  · rename_i hlen
    obtain ⟨version, hversion, h⟩ := bind_eq_ok.mp h
    split at h
    · cases h
    · rename_i hv
      obtain ⟨frameType, htype, h⟩ := bind_eq_ok.mp h
      obtain ⟨sequence, hseq, h⟩ := bind_eq_ok.mp h
      obtain ⟨flags, hflags, h⟩ := bind_eq_ok.mp h
      obtain ⟨declaredLen, hdeclared, h⟩ := bind_eq_ok.mp h
      dsimp only at h
      split at h
      · cases h
      · rename_i hmatch
        obtain ⟨claimed, hclaimed, h⟩ := bind_eq_ok.mp h
        obtain ⟨covered, hcovered, h⟩ := bind_eq_ok.mp h
        split at h
        · cases h
        · rename_i hcrc
          obtain ⟨payload, hpayload, h⟩ := bind_eq_ok.mp h
          cases h
          have hv' : version = VERSION := by simpa using hv
          have hcrc' : crc32c covered = claimed := by simpa using hcrc
          have havail : declaredLen.toNat = d.length - HEADER_LEN - CRC_LEN := by simpa using hmatch
          have hpl : payload.length = d.length - HEADER_LEN - CRC_LEN := by
            rw [(slice_length hpayload).1]; omega
          subst hv' hcrc'
          refine ⟨hversion, htype, hseq, hflags, ?_, ?_, ⟨covered, ?_, ?_⟩, ?_⟩
          · simp only [hpl, ← havail, BitVec.ofNat_toNat, BitVec.setWidth_eq]
            exact hdeclared
          · simp only [hpl]; exact hpayload
          · simp only [hpl]; exact hcovered
          · simp only [hpl]; exact hclaimed
          · have hmin : 16 ≤ d.length := Nat.not_lt.mp hlen
            simp only [hpl, HEADER_LEN, CRC_LEN]
            omega

/-- **An accepted datagram is the encoding of what it is decoded to.** -/
theorem encode_of_decode (h : decode d = .ok (.ok f)) : f.encode = d := by
  have hr := reads_of_decode h
  obtain ⟨covered, hcovered, hclaimed⟩ := hr.crc
  -- the fields, each after the bytes before it
  have h1 := take_of_index hr.version
  have h2 := take_of_index hr.frameType
  have h6 := take_of_slice (slice_of_readLe (k := 4) hr.sequence)
  have h8 := take_of_slice (slice_of_readLe (k := 2) hr.flags)
  have h12 := take_of_slice (slice_of_readLe (k := 4) hr.declaredLen)
  have hpay := take_of_slice hr.payload
  have hbody : d.take (HEADER_LEN + f.payload.length) = f.body := by
    rw [hpay, HEADER_LEN, h12, h8, h6, h2, h1]
    rfl
  have hcov : covered = f.body := by
    have := take_of_slice hcovered
    rw [List.take_zero, List.nil_append] at this
    rw [← this, hbody]
  have hall := take_of_slice (slice_of_readLe (k := 4) hclaimed)
  rw [hbody, hcov, ← hr.length, List.take_length] at hall
  exact hall.symm

/-- **No encoding begins another one.** -/
theorem encode_append_eq (hf : f.payload.length < 2 ^ 32) (hg : g.payload.length < 2 ^ 32)
    (h : f.encode ++ t = g.encode) : t = [] := by
  obtain ⟨_, _, _, _, hdf⟩ := encode_fields f
  obtain ⟨_, _, _, _, hdg⟩ := encode_fields g
  have hlf := encode_length f
  have hlg := encode_length g
  rw [← h, readLe_append_left (by rw [hlf]; simp only [MIN_FRAME_LEN, HEADER_LEN, CRC_LEN]; omega),
    hdf] at hdg
  injection hdg with hlen
  have hsame : f.payload.length = g.payload.length := by
    have := congrArg BitVec.toNat hlen
    rwa [BitVec.toNat_ofNat, BitVec.toNat_ofNat, Nat.mod_eq_of_lt hf, Nat.mod_eq_of_lt hg] at this
  apply List.eq_nil_of_length_eq_zero
  have := congrArg List.length h
  rw [List.length_append] at this
  omega

/-- `decode` fails on a byte string that is not an encoding. -/
theorem decode_fails (h : ∀ g : Frame, g.payload.length < 2 ^ 32 → g.encode ≠ d) :
    ∃ e, decode d = .ok (.error e) := by
  obtain ⟨r, hr⟩ := decode_total d
  cases r with
  | error e => exact ⟨e, hr⟩
  | ok g => exact absurd (encode_of_decode hr) (h g (decode_length_lt hr))

/-- A datagram that is cut short is rejected. -/
theorem decode_cut_short (h : f.payload.length < 2 ^ 32) (ht : t ≠ []) (hd : d ++ t = f.encode) :
    ∃ e, decode d = .ok (.error e) := by
  apply decode_fails
  rintro g hg rfl
  exact ht (encode_append_eq hg h hd)

end Distrans.Frame
