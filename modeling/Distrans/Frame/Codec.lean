import Distrans.Frame.Crc32c

/-!
# The frame codec

`crates/frame/src/lib.rs`: a twelve-byte header (version, type, sequence number, flags, payload
length, all little-endian), the payload, and a CRC-32C trailer over everything before it.

`decode` reads the datagram through bounds-checked indexing, so that "it never panics" is a
theorem (`decode_total`) and not a convention.  `decode_encode` is the round trip of a frame
whose payload length fits its length field; `decode_encode_long` says what happens to a longer
one: the truncated length field makes `decode` reject it.
-/

set_option autoImplicit false

namespace Distrans

open Machine

def VERSION : U8 := 1#8
def HEADER_LEN : Nat := 12
def CRC_LEN : Nat := 4
def MIN_FRAME_LEN : Nat := HEADER_LEN + CRC_LEN

structure Frame where
  frameType : U8
  sequence : U32
  flags : U16
  payload : List U8
  deriving DecidableEq, Repr

inductive DecodeError where
  | tooShort (len : Nat)
  | unsupportedVersion (found : U8)
  | lengthMismatch (declared : U32) (available : Nat)
  | checksumMismatch (computed claimed : U32)
  deriving DecidableEq, Repr

namespace Frame

/-- Everything `encode` writes before the checksum. -/
def body (f : Frame) : List U8 :=
  [VERSION, f.frameType] ++ toLe 4 f.sequence ++ toLe 2 f.flags ++
    toLe 4 (BitVec.ofNat 32 f.payload.length) ++ f.payload

def encode (f : Frame) : List U8 := f.body ++ toLe 4 (crc32c f.body)

def decode (datagram : List U8) : Exec (Except DecodeError Frame) :=
  if datagram.length < MIN_FRAME_LEN then .ok (.error (.tooShort datagram.length)) else do
  let version ← index datagram 0
  if version ≠ VERSION then .ok (.error (.unsupportedVersion version)) else do
  let frameType ← index datagram 1
  let sequence ← readLe 32 datagram 2 6
  let flags ← readLe 16 datagram 6 8
  let declaredLen ← readLe 32 datagram 8 12
  let available := datagram.length - HEADER_LEN - CRC_LEN
  if declaredLen.toNat ≠ available then .ok (.error (.lengthMismatch declaredLen available)) else do
  let payloadEnd := HEADER_LEN + available
  let claimedCrc ← readLe 32 datagram payloadEnd (payloadEnd + CRC_LEN)
  let covered ← slice datagram 0 payloadEnd
  let computedCrc := crc32c covered
  if computedCrc ≠ claimedCrc then .ok (.error (.checksumMismatch computedCrc claimedCrc)) else do
  let payload ← slice datagram HEADER_LEN payloadEnd
  .ok (.ok { frameType, sequence, flags, payload })

/-! ## Layout -/

theorem body_length (f : Frame) : f.body.length = HEADER_LEN + f.payload.length := by
  simp [body, HEADER_LEN]; omega

theorem encode_length (f : Frame) : f.encode.length = MIN_FRAME_LEN + f.payload.length := by
  simp [encode, body_length, MIN_FRAME_LEN, CRC_LEN]; omega

/-- The header fields of an encoding, as `decode` reads them. -/
theorem encode_fields (f : Frame) :
    index f.encode 0 = .ok VERSION ∧ index f.encode 1 = .ok f.frameType ∧
    readLe 32 f.encode 2 6 = .ok f.sequence ∧ readLe 16 f.encode 6 8 = .ok f.flags ∧
    readLe 32 f.encode 8 12 = .ok (BitVec.ofNat 32 f.payload.length) := by
  have hcat : f.encode = [VERSION, f.frameType] ++ (toLe 4 f.sequence ++ (toLe 2 f.flags ++
      (toLe 4 (BitVec.ofNat 32 f.payload.length) ++ (f.payload ++ toLe 4 (crc32c f.body))))) := by
    simp only [encode, body, List.append_assoc]
  refine ⟨?_, ?_, ?_, ?_, ?_⟩
  · rw [hcat]; rfl
  · rw [hcat]; rfl
  · rw [hcat]
    exact readLe_append [VERSION, f.frameType] _ 4 f.sequence rfl rfl
  · rw [hcat, ← List.append_assoc]
    exact readLe_append ([VERSION, f.frameType] ++ toLe 4 f.sequence) _ 2 f.flags (by simp) rfl
  · rw [hcat, ← List.append_assoc, ← List.append_assoc]
    exact readLe_append ([VERSION, f.frameType] ++ toLe 4 f.sequence ++ toLe 2 f.flags) _ 4 _
      (by simp) rfl

/-- The payload stands between the header and the checksum. -/
theorem encode_payload (f : Frame) :
    slice f.encode HEADER_LEN (HEADER_LEN + f.payload.length) = .ok f.payload := by
  have hcat : f.encode = ([VERSION, f.frameType] ++ toLe 4 f.sequence ++ toLe 2 f.flags ++
      toLe 4 (BitVec.ofNat 32 f.payload.length)) ++ (f.payload ++ toLe 4 (crc32c f.body)) := by
    simp only [encode, body, List.append_assoc]
  rw [hcat]
  exact slice_append _ f.payload _ (by simp [HEADER_LEN]) (by simp [HEADER_LEN])

/-- A frame whose payload length fits the length field is read back. -/
theorem decode_encode {f : Frame} (h : f.payload.length < 2 ^ 32) :
    decode f.encode = .ok (.ok f) := by
  obtain ⟨h0, h1, h2, h6, h8⟩ := encode_fields f
  have hlen := encode_length f
  have hblen := body_length f
  have havail : f.encode.length - HEADER_LEN - CRC_LEN = f.payload.length := by
    rw [hlen]; simp only [MIN_FRAME_LEN]; omega
  have hdecl : (BitVec.ofNat 32 f.payload.length).toNat = f.payload.length := by
    rw [BitVec.toNat_ofNat, Nat.mod_eq_of_lt h]
  have hcrc : readLe 32 f.encode (HEADER_LEN + f.payload.length)
      (HEADER_LEN + f.payload.length + CRC_LEN) = .ok (crc32c f.body) := by
    have := readLe_append f.body [] 4 (crc32c f.body) hblen.symm
      (show HEADER_LEN + f.payload.length + CRC_LEN = _ from rfl)
    simpa [encode] using this
  have hbody : slice f.encode 0 (HEADER_LEN + f.payload.length) = .ok f.body :=
    slice_append [] f.body _ rfl (by simp [hblen])
  have hpay := encode_payload f
  unfold decode
  rw [if_neg (by omega)]
  simp only [h0, h1, h2, h6, h8, ok_bind, ne_eq, not_true_eq_false, if_false, havail, hdecl, hcrc,
    hbody, hpay]

/-- A longer payload does not survive: its length field is cut to 32 bits. -/
theorem decode_encode_long {f : Frame} (h : 2 ^ 32 ≤ f.payload.length) :
    ∃ e, decode f.encode = .ok (.error e) := by
  obtain ⟨h0, h1, h2, h6, h8⟩ := encode_fields f
  have hlen := encode_length f
  have havail : f.encode.length - HEADER_LEN - CRC_LEN = f.payload.length := by
    rw [hlen]; simp only [MIN_FRAME_LEN]; omega
  have hdecl : (BitVec.ofNat 32 f.payload.length).toNat ≠ f.payload.length := by
    have := (BitVec.ofNat 32 f.payload.length).isLt
    omega
  refine ⟨.lengthMismatch (BitVec.ofNat 32 f.payload.length) f.payload.length, ?_⟩
  unfold decode
  rw [if_neg (by omega)]
  simp only [h0, h1, h2, h6, h8, ok_bind, ne_eq, not_true_eq_false, if_false, havail, hdecl,
    not_false_eq_true, if_true]

/-- **`decode` indexes in bounds on every byte string.** -/
theorem decode_total (d : List U8) : ∃ r, decode d = .ok r := by
  unfold decode
  split
  · exact ⟨_, rfl⟩
  · rename_i hlen
    have hmin : 16 ≤ d.length := Nat.not_lt.mp hlen
    rw [index_ok (show 0 < d.length by omega), ok_bind]
    split
    · exact ⟨_, rfl⟩
    · rw [index_ok (show 1 < d.length by omega), ok_bind,
        readLe_ok (k := 4) (show 6 = 2 + 4 by rfl) (by omega), ok_bind,
        readLe_ok (k := 2) (show 8 = 6 + 2 by rfl) (by omega), ok_bind,
        readLe_ok (k := 4) (show 12 = 8 + 4 by rfl) (by omega), ok_bind]
      simp only
      split
      · exact ⟨_, rfl⟩
      · have hend : HEADER_LEN + (d.length - HEADER_LEN - CRC_LEN) + CRC_LEN = d.length := by
          simp only [HEADER_LEN, CRC_LEN]; omega
        rw [readLe_ok (j := HEADER_LEN + (d.length - HEADER_LEN - CRC_LEN) + CRC_LEN) (k := 4) rfl
          (Nat.le_of_eq hend), ok_bind, slice_ok (Nat.zero_le _) (by omega), ok_bind]
        split
        · exact ⟨_, rfl⟩
        · rw [slice_ok (by omega) (by omega), ok_bind]
          exact ⟨_, rfl⟩

/-- What is decoded fits its length field. -/
theorem decode_length_lt {d : List U8} {f : Frame} (h : decode d = .ok (.ok f)) :
    f.payload.length < 2 ^ 32 := by
  unfold decode at h
  split at h
  · cases h
  · rename_i hlen
    obtain ⟨version, _, h⟩ := bind_eq_ok.mp h
    split at h
    · cases h
    · obtain ⟨frameType, _, h⟩ := bind_eq_ok.mp h
      obtain ⟨sequence, _, h⟩ := bind_eq_ok.mp h
      obtain ⟨flags, _, h⟩ := bind_eq_ok.mp h
      obtain ⟨declaredLen, _, h⟩ := bind_eq_ok.mp h
      dsimp only at h
      split at h
      · cases h
      · rename_i hdecl
        obtain ⟨claimed, _, h⟩ := bind_eq_ok.mp h
        obtain ⟨covered, _, h⟩ := bind_eq_ok.mp h
        split at h
        · cases h
        · obtain ⟨payload, hp, h⟩ := bind_eq_ok.mp h
          cases h
          have := slice_length hp
          have hlt := declaredLen.isLt
          simp only at this ⊢
          omega

end Frame

end Distrans
