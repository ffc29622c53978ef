import Distrans.Lib.Machine

/-!
# The transport sub-header

`crates/transport/src/segment.rs`: the cumulative ack, the `fin_ack` byte, up to
`MAX_SACK_RANGES` selective-ack ranges and the advertised window, in front of the application
bytes of a frame's payload.

* `decode_total` — decoding indexes in bounds on every byte string.
* `header_round_trips` — **a header in front of any payload is read back**, with its range list cut
  to what was written, and a part of a header is rejected.
-/

set_option autoImplicit false

namespace Distrans

open Machine

def MAX_SACK_RANGES : Nat := 4
def FIXED_LEN : Nat := 10
def RANGE_LEN : Nat := 8

/-- An inclusive byte range; `stop` is the source's `end`. -/
structure SackRange where
  start : U32
  stop : U32
  deriving DecidableEq, Repr

structure SegmentHeader where
  ack : U32
  finAck : Bool
  window : U32
  sack : List SackRange
  deriving DecidableEq, Repr

def SackRange.encode (r : SackRange) : List U8 := toLe 4 r.start ++ toLe 4 r.stop

namespace SegmentHeader

def encode (h : SegmentHeader) : List U8 :=
  toLe 4 h.ack ++ [if h.finAck then 1#8 else 0#8] ++
    [BitVec.ofNat 8 (min h.sack.length MAX_SACK_RANGES)] ++ toLe 4 h.window ++
    ((h.sack.take MAX_SACK_RANGES).map SackRange.encode).flatten

/-- The loop `for _ in 0..count`, with its running offset. -/
def readRanges (data : List U8) : Nat → Nat → Exec (List SackRange)
  | 0, _ => .ok []
  | n + 1, offset => do
    let start ← readLe 32 data offset (offset + 4)
    let stop ← readLe 32 data (offset + 4) (offset + 8)
    let rest ← readRanges data n (offset + RANGE_LEN)
    .ok (⟨start, stop⟩ :: rest)

def decode (data : List U8) : Exec (Option (SegmentHeader × List U8)) :=
  if data.length < FIXED_LEN then .ok none else do
  let ack ← readLe 32 data 0 4
  let finAck ← index data 4
  let count ← index data 5
  let window ← readLe 32 data 6 10
  let rangesLen := count.toNat * RANGE_LEN
  if data.length < FIXED_LEN + rangesLen then .ok none else do
  let sack ← readRanges data count.toNat FIXED_LEN
  let rest ← slice data (FIXED_LEN + rangesLen) data.length
  .ok (some ({ ack, finAck := finAck != 0#8, window, sack }, rest))

/-! ## Decoding is total -/

theorem readRanges_total (data : List U8) : ∀ (n offset : Nat),
    offset + n * RANGE_LEN ≤ data.length → ∃ rs, readRanges data n offset = .ok rs
  | 0, _, _ => ⟨[], rfl⟩
  | n + 1, offset, h => by
    simp only [RANGE_LEN, Nat.succ_mul] at h
    obtain ⟨rs, hrs⟩ := readRanges_total data n (offset + RANGE_LEN) (by simp only [RANGE_LEN]; omega)
    simp only [readRanges, readLe_ok (k := 4) (show offset + 4 = offset + 4 from rfl)
      (show offset + 4 ≤ data.length by omega), ok_bind,
      readLe_ok (k := 4) (show offset + 8 = offset + 4 + 4 from rfl)
      (show offset + 8 ≤ data.length by omega), hrs]
    exact ⟨_, rfl⟩

/-- **Header decoding indexes in bounds on every byte string.** -/
theorem decode_total (d : List U8) : ∃ r, decode d = .ok r := by
  unfold decode
  split
  · exact ⟨_, rfl⟩
  · rename_i hlen
    have hmin : 10 ≤ d.length := Nat.not_lt.mp hlen
    rw [readLe_ok (k := 4) (show 4 = 0 + 4 from rfl) (by omega), ok_bind,
      index_ok (show 4 < d.length by omega), ok_bind, index_ok (show 5 < d.length by omega), ok_bind,
      readLe_ok (k := 4) (show 10 = 6 + 4 from rfl) (by omega), ok_bind]
    simp only
    split
    · exact ⟨_, rfl⟩
    · rename_i hrng
      obtain ⟨rs, hrs⟩ := readRanges_total d d[5].toNat FIXED_LEN (by omega)
      rw [hrs, ok_bind, slice_ok (by omega) (Nat.le_refl _), ok_bind]
      exact ⟨_, rfl⟩

/-- What follows the header is part of what was decoded. -/
theorem decode_length_le {d rest : List U8} {h : SegmentHeader}
    (hd : decode d = .ok (some (h, rest))) : rest.length ≤ d.length := by
  unfold decode at hd
  split at hd
  · cases hd
  · obtain ⟨ack, _, hd⟩ := bind_eq_ok.mp hd
    obtain ⟨finAck, _, hd⟩ := bind_eq_ok.mp hd
    obtain ⟨count, _, hd⟩ := bind_eq_ok.mp hd
    obtain ⟨window, _, hd⟩ := bind_eq_ok.mp hd
    dsimp only at hd
    split at hd
    · cases hd
    · obtain ⟨sack, _, hd⟩ := bind_eq_ok.mp hd
      obtain ⟨tail, ht, hd⟩ := bind_eq_ok.mp hd
      cases hd
      have := slice_length ht
      omega

/-! ## The round trip -/

theorem encode_ranges_length : ∀ rs : List SackRange,
    (rs.map SackRange.encode).flatten.length = rs.length * RANGE_LEN
  | [] => rfl
  | r :: rs => by
    simp only [List.map_cons, List.flatten_cons, List.length_append, encode_ranges_length rs,
      SackRange.encode, toLe_length, List.length_cons, RANGE_LEN]
    omega

/-- Reading a run of ranges back from where it was written. -/
theorem readRanges_append (t : List U8) : ∀ (rs : List SackRange) (p : List U8) {offset : Nat},
    offset = p.length →
    readRanges (p ++ ((rs.map SackRange.encode).flatten ++ t)) rs.length offset = .ok rs
  | [], _, _, _ => rfl
  | r :: rs, p, offset, ho => by
    have hcat : p ++ (((r :: rs).map SackRange.encode).flatten ++ t) =
        (p ++ SackRange.encode r) ++ ((rs.map SackRange.encode).flatten ++ t) := by
      simp [List.append_assoc]
    have hlen : (p ++ SackRange.encode r).length = offset + RANGE_LEN := by
      simp [SackRange.encode, RANGE_LEN, ho]
    have h1 : readLe 32 (p ++ (((r :: rs).map SackRange.encode).flatten ++ t)) offset (offset + 4) =
        .ok r.start := by
      have := readLe_append p (toLe 4 r.stop ++ ((rs.map SackRange.encode).flatten ++ t)) 4 r.start
        ho (show offset + 4 = offset + 4 from rfl)
      simpa [SackRange.encode, List.append_assoc] using this
    have h2 : readLe 32 (p ++ (((r :: rs).map SackRange.encode).flatten ++ t)) (offset + 4)
        (offset + 8) = .ok r.stop := by
      have := readLe_append (p ++ toLe 4 r.start) ((rs.map SackRange.encode).flatten ++ t) 4 r.stop
        (show offset + 4 = _ by simp [ho]) (show offset + 8 = offset + 4 + 4 from rfl)
      simpa [SackRange.encode, List.append_assoc] using this
    simp only [List.length_cons, readRanges, h1, h2, ok_bind]
    rw [hcat, readRanges_append t rs _ hlen.symm, ok_bind]

theorem encode_length (h : SegmentHeader) :
    h.encode.length = FIXED_LEN + (h.sack.take MAX_SACK_RANGES).length * RANGE_LEN := by
  simp only [encode, List.length_append, encode_ranges_length, toLe_length, List.length_cons,
    List.length_nil, FIXED_LEN]

theorem encode_length_le (h : SegmentHeader) : h.encode.length ≤ 42 := by
  rw [encode_length, List.length_take]
  simp only [MAX_SACK_RANGES, FIXED_LEN, RANGE_LEN]
  omega

/-- A header in front of any payload is read back, with the ranges that were written. -/
theorem decode_encode_append (h : SegmentHeader) (p : List U8) :
    decode (h.encode ++ p) = .ok (some ({ h with sack := h.sack.take MAX_SACK_RANGES }, p)) := by
  obtain ⟨rs, hrs⟩ : ∃ rs, rs = h.sack.take MAX_SACK_RANGES := ⟨_, rfl⟩
  have hcount : min h.sack.length MAX_SACK_RANGES = rs.length := by
    rw [hrs, List.length_take, Nat.min_comm]
  have hle : rs.length ≤ 4 := by rw [← hcount]; exact Nat.min_le_right _ _
  have hcnt : (BitVec.ofNat 8 rs.length).toNat = rs.length := by
    rw [BitVec.toNat_ofNat]; omega
  have hcat : h.encode ++ p = toLe 4 h.ack ++ ([if h.finAck then 1#8 else 0#8] ++
      ([BitVec.ofNat 8 rs.length] ++ (toLe 4 h.window ++
        ((rs.map SackRange.encode).flatten ++ p)))) := by
    simp only [encode, hcount, ← hrs, List.append_assoc]
  have hlen : (h.encode ++ p).length = FIXED_LEN + rs.length * RANGE_LEN + p.length := by
    rw [List.length_append, encode_length, ← hrs]
  have hack : readLe 32 (h.encode ++ p) 0 4 = .ok h.ack := by
    rw [hcat]; exact readLe_append [] _ 4 h.ack rfl rfl
  have hfin : index (h.encode ++ p) 4 = .ok (if h.finAck then 1#8 else 0#8) := by
    rw [hcat]; exact index_append (toLe 4 h.ack) _ _ (by simp)
  have hcnt5 : index (h.encode ++ p) 5 = .ok (BitVec.ofNat 8 rs.length) := by
    rw [hcat, ← List.append_assoc]
    exact index_append (toLe 4 h.ack ++ [if h.finAck then 1#8 else 0#8]) _ _ (by simp)
  have hwin : readLe 32 (h.encode ++ p) 6 10 = .ok h.window := by
    rw [hcat, ← List.append_assoc, ← List.append_assoc]
    exact readLe_append (toLe 4 h.ack ++ [if h.finAck then 1#8 else 0#8] ++
      [BitVec.ofNat 8 rs.length]) _ 4 h.window (by simp) rfl
  have hpre : (toLe 4 h.ack ++ [if h.finAck then 1#8 else 0#8] ++ [BitVec.ofNat 8 rs.length] ++
      toLe 4 h.window).length = FIXED_LEN := by simp [FIXED_LEN]
  have hranges : readRanges (h.encode ++ p) rs.length FIXED_LEN = .ok rs := by
    have := readRanges_append p rs (toLe 4 h.ack ++ [if h.finAck then 1#8 else 0#8] ++
      [BitVec.ofNat 8 rs.length] ++ toLe 4 h.window) hpre.symm
    rw [hcat]
    simpa only [List.append_assoc] using this
  have hrest : slice (h.encode ++ p) (FIXED_LEN + rs.length * RANGE_LEN) (h.encode ++ p).length =
      .ok p := by
    have := slice_append h.encode p [] (i := FIXED_LEN + rs.length * RANGE_LEN)
      (j := (h.encode ++ p).length) (by rw [encode_length, ← hrs]) (by rw [List.length_append])
    simpa using this
  have hflag : ((if h.finAck then 1#8 else 0#8) != 0#8) = h.finAck := by
    cases h.finAck <;> rfl
  unfold decode
  rw [if_neg (by omega), hack, ok_bind, hfin, ok_bind, hcnt5, ok_bind, hwin, ok_bind]
  simp only [hcnt]
  rw [if_neg (by omega), hranges, ok_bind, hrest, ok_bind, hflag, hrs]

/-! ## A header that is cut short -/

theorem readRanges_append_left {d t : List U8} : ∀ {n offset : Nat},
    offset + n * RANGE_LEN ≤ d.length → readRanges (d ++ t) n offset = readRanges d n offset
  | 0, _, _ => rfl
  | n + 1, offset, h => by
    simp only [RANGE_LEN, Nat.succ_mul] at h
    have hrest : readRanges (d ++ t) n (offset + RANGE_LEN) = readRanges d n (offset + RANGE_LEN) :=
      readRanges_append_left (by simp only [RANGE_LEN]; omega)
    rw [readRanges, readRanges, readLe_append_left (by omega), readLe_append_left (by omega), hrest]

/-- **A header says where it ends**: what follows is left for the application. -/
theorem decode_append {d rest : List U8} {h : SegmentHeader} (hd : decode d = .ok (some (h, rest)))
    (t : List U8) : decode (d ++ t) = .ok (some (h, rest ++ t)) := by
  unfold decode at hd ⊢
  split at hd
  · cases hd
  · rename_i hlen
    have hmin : 10 ≤ d.length := Nat.not_lt.mp hlen
    have hlong : d.length ≤ (d ++ t).length := by rw [List.length_append]; omega
    rw [if_neg (by omega), readLe_append_left (by omega), readLe_append_left (by omega),
      index_append_left (by omega), index_append_left (by omega)]
    obtain ⟨ack, hack, hd⟩ := bind_eq_ok.mp hd
    obtain ⟨finAck, hfin, hd⟩ := bind_eq_ok.mp hd
    obtain ⟨count, hcount, hd⟩ := bind_eq_ok.mp hd
    obtain ⟨window, hwindow, hd⟩ := bind_eq_ok.mp hd
    rw [hack, ok_bind, hfin, ok_bind, hcount, ok_bind, hwindow, ok_bind]
    dsimp only at hd ⊢
    split at hd
    · cases hd
    · rename_i hrng
      obtain ⟨sack, hsack, hd⟩ := bind_eq_ok.mp hd
      obtain ⟨tail, htail, hd⟩ := bind_eq_ok.mp hd
      cases hd
      have hseam : slice (d ++ t) (FIXED_LEN + count.toNat * RANGE_LEN) (d ++ t).length =
          .ok (rest ++ t) := by
        rw [slice_ok (by omega) (Nat.le_refl _), List.take_length,
          List.drop_append_of_le_length (by omega)]
        rw [slice_ok (by omega) (Nat.le_refl _), List.take_length] at htail
        cases htail
        rfl
      rw [if_neg (by omega), readRanges_append_left (by omega), hsack, ok_bind, hseam, ok_bind]

/-- **The header round-trips in front of any payload, and no part of it is taken for a header.** -/
theorem header_round_trips (h : SegmentHeader) :
    (∀ p : List U8, decode (h.encode ++ p) =
      .ok (some ({ h with sack := h.sack.take MAX_SACK_RANGES }, p))) ∧
    ∀ d : List U8, d <+: h.encode → d ≠ h.encode → decode d = .ok none := by
  refine ⟨decode_encode_append h, ?_⟩
  rintro d ⟨t, ht⟩ hne
  obtain ⟨r, hr⟩ := decode_total d
  cases r with
  | none => exact hr
  | some r =>
    have hall := decode_encode_append h []
    rw [List.append_nil, ← ht, decode_append hr] at hall
    have hnil : r.2 ++ t = [] := congrArg (fun x => (x.map Prod.snd).getD []) (Except.ok.inj hall)
    have ht' : t = [] := (List.append_eq_nil_iff.mp hnil).2
    rw [ht', List.append_nil] at ht
    exact absurd ht hne

/-- Five ranges, of which four are written, before three bytes; the fixed part alone. -/
theorem header_round_trips_sample :
    decode (encode ⟨7, true, 64, [⟨9, 9⟩, ⟨11, 12⟩, ⟨20, 20⟩, ⟨30, 31⟩, ⟨40, 41⟩]⟩ ++ [1, 2, 3]) =
      .ok (some (⟨7, true, 64, [⟨9, 9⟩, ⟨11, 12⟩, ⟨20, 20⟩, ⟨30, 31⟩]⟩, [1, 2, 3])) ∧
    decode ((encode ⟨7, true, 64, [⟨9, 9⟩, ⟨11, 12⟩]⟩).take 10) = .ok none :=
  ⟨(header_round_trips ⟨7, true, 64, [⟨9, 9⟩, ⟨11, 12⟩, ⟨20, 20⟩, ⟨30, 31⟩, ⟨40, 41⟩]⟩).1 [1, 2, 3],
    (header_round_trips ⟨7, true, 64, [⟨9, 9⟩, ⟨11, 12⟩]⟩).2 _ (List.take_prefix _ _) (by decide)⟩

end SegmentHeader

end Distrans
