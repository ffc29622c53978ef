import Distrans.Transport.Segment

/-!
# The documented layout of the sub-header

The module comment of `segment.rs` says what a header looks like (`Layout`): a `fin_ack` byte of 0
or 1, at most `MAX_SACK_RANGES` ranges, each from its start to its end, in ascending order, none
overlapping another, all beyond the cumulative ack.

* `decode_eq` — what `decode` computes, on every byte string: it looks at lengths alone
  (`Complete`).
* `layout_exact` — **`decode` accepts exactly the documented layout, and what it accepts is encoded
  again as it was, on a byte string that is incomplete or keeps to the layout** (`InLayout`);
* `layout_not_exact` — on any other it does not.
-/

set_option autoImplicit false

namespace Distrans.SegmentHeader

open Machine

variable {d rest : List U8} {h : SegmentHeader} {ack : U32} {rs : List SackRange}

/-! ## The layout -/

/-- The ranges of a header with the cumulative ack `ack`. -/
structure Ordered (ack : U32) (rs : List SackRange) : Prop where
  le : ∀ r ∈ rs, r.start ≤ r.stop
  ascending : rs.Pairwise fun r r' => r.stop < r'.start
  beyond : ∀ r ∈ rs, ack < r.start

theorem ordered_iff : Ordered ack rs ↔ (∀ r ∈ rs, r.start ≤ r.stop) ∧
    (rs.Pairwise fun r r' => r.stop < r'.start) ∧ ∀ r ∈ rs, ack < r.start :=
  ⟨fun ⟨h₁, h₂, h₃⟩ => ⟨h₁, h₂, h₃⟩, fun ⟨h₁, h₂, h₃⟩ => ⟨h₁, h₂, h₃⟩⟩

instance decidableOrdered (ack : U32) (rs : List SackRange) : Decidable (Ordered ack rs) :=
  decidable_of_iff _ ordered_iff.symm

/-- `d` is the header `h` in the documented layout, and then `rest`. -/
structure Layout (d : List U8) (h : SegmentHeader) (rest : List U8) : Prop where
  bytes : ∃ finAck : U8, finAck = (if h.finAck then 1 else 0) ∧
    d = toLe 4 h.ack ++ [finAck] ++ [BitVec.ofNat 8 h.sack.length] ++ toLe 4 h.window ++
      (h.sack.map SackRange.encode).flatten ++ rest
  count : h.sack.length ≤ MAX_SACK_RANGES
  ranges : Ordered h.ack h.sack

/-- `decode` accepts of `d` exactly what is laid out as documented, and that is encoded as it was. -/
def Exact (d : List U8) : Prop :=
  (∀ h rest, decode d = .ok (some (h, rest)) ↔ Layout d h rest) ∧
    ∀ h rest, decode d = .ok (some (h, rest)) → h.encode ++ rest = d

/-! ## The fields at their offsets -/

def byteAt (d : List U8) (i : Nat) : U8 := d.getD i 0

def wordAt (d : List U8) (i : Nat) : U32 := BitVec.ofNat 32 (ofLe ((d.take (i + 4)).drop i))

/-- `n` ranges from `offset` on. -/
def rangesAt (d : List U8) : Nat → Nat → List SackRange
  | 0, _ => []
  | n + 1, offset => ⟨wordAt d offset, wordAt d (offset + 4)⟩ :: rangesAt d n (offset + RANGE_LEN)

/-- How many bytes the header at the front of `d` says it has. -/
def declaredLen (d : List U8) : Nat := FIXED_LEN + (byteAt d 5).toNat * RANGE_LEN

/-- The fixed part and all declared ranges are there. -/
def Complete (d : List U8) : Prop := FIXED_LEN ≤ d.length ∧ declaredLen d ≤ d.length

instance decidableComplete (d : List U8) : Decidable (Complete d) := inferInstanceAs (Decidable (_ ∧ _))

/-- The header at the front of `d`, whatever its bytes mean. -/
def headerAt (d : List U8) : SegmentHeader where
  ack := wordAt d 0
  finAck := byteAt d 4 != 0
  window := wordAt d 6
  sack := rangesAt d (byteAt d 5).toNat FIXED_LEN

/-- The bytes at the front of `d` are those of a documented header. -/
def InLayout (d : List U8) : Prop :=
  (byteAt d 4 = 0 ∨ byteAt d 4 = 1) ∧ (byteAt d 5).toNat ≤ MAX_SACK_RANGES ∧
    Ordered (wordAt d 0) (rangesAt d (byteAt d 5).toNat FIXED_LEN)

instance decidableInLayout (d : List U8) : Decidable (InLayout d) :=
  inferInstanceAs (Decidable (_ ∧ _ ∧ _))

@[simp] theorem rangesAt_length (d : List U8) : ∀ n offset, (rangesAt d n offset).length = n
  | 0, _ => rfl
  | n + 1, offset => by rw [rangesAt, List.length_cons, rangesAt_length d n]

theorem readLe_word {i : Nat} (hi : i + 4 ≤ d.length) : readLe 32 d i (i + 4) = .ok (wordAt d i) :=
  readLe_ok (k := 4) rfl hi

theorem index_byte {i : Nat} (hi : i < d.length) : index d i = .ok (byteAt d i) := by
  simp [index_ok hi, byteAt, hi]

theorem readRanges_eq : ∀ {n offset : Nat}, offset + n * RANGE_LEN ≤ d.length →
    readRanges d n offset = .ok (rangesAt d n offset)
  | 0, _, _ => rfl
  | n + 1, offset, hlen => by
    simp only [RANGE_LEN, Nat.succ_mul] at hlen
    have hrest : readRanges d n (offset + RANGE_LEN) = .ok (rangesAt d n (offset + RANGE_LEN)) :=
      readRanges_eq (by simp only [RANGE_LEN]; omega)
    rw [readRanges, readLe_word (by omega), ok_bind, readLe_word (i := offset + 4) (by omega), ok_bind,
      hrest]
    rfl

/-- **What `decode` computes.** -/
theorem decode_eq (d : List U8) :
    decode d = .ok (if Complete d then some (headerAt d, d.drop (declaredLen d)) else none) := by
  unfold decode
  by_cases hfix : FIXED_LEN ≤ d.length
  · have hlen : 10 ≤ d.length := hfix
    rw [if_neg (Nat.not_lt.mpr hfix), readLe_word (by omega), ok_bind, index_byte (by omega), ok_bind,
      index_byte (by omega), ok_bind, readLe_word (i := 6) (by omega), ok_bind]
    dsimp only
    by_cases hall : declaredLen d ≤ d.length
    · have hall' : FIXED_LEN + (byteAt d 5).toNat * RANGE_LEN ≤ d.length := hall
      rw [if_neg (Nat.not_lt.mpr hall'), readRanges_eq hall', ok_bind, slice_ok hall' (Nat.le_refl _),
        ok_bind, List.take_length, if_pos (show Complete d from ⟨hfix, hall⟩)]
      rfl
    · have hshort : d.length < FIXED_LEN + (byteAt d 5).toNat * RANGE_LEN := Nat.not_le.mp hall
      rw [if_pos hshort, if_neg (fun hc : Complete d => hall hc.2)]
  · rw [if_pos (Nat.not_le.mp hfix), if_neg (fun hc : Complete d => hfix hc.1)]

/-! ## The bytes of a complete header -/

theorem take_word {i : Nat} (hi : i + 4 ≤ d.length) :
    d.take (i + 4) = d.take i ++ toLe 4 (wordAt d i) :=
  take_of_slice (slice_of_readLe (k := 4) (readLe_word hi))

theorem take_ranges : ∀ {n offset : Nat}, offset + n * RANGE_LEN ≤ d.length →
    d.take (offset + n * RANGE_LEN) =
      d.take offset ++ ((rangesAt d n offset).map SackRange.encode).flatten
  | 0, offset, _ => by simp [rangesAt]
  | n + 1, offset, hlen => by
    simp only [RANGE_LEN, Nat.succ_mul] at hlen
    have hrest := take_ranges (n := n)
      (show offset + RANGE_LEN + n * RANGE_LEN ≤ d.length by simp only [RANGE_LEN]; omega)
    have hsame : offset + (n + 1) * RANGE_LEN = offset + RANGE_LEN + n * RANGE_LEN := by
      simp only [RANGE_LEN]; omega
    have hrange : d.take (offset + RANGE_LEN) =
        d.take offset ++ SackRange.encode ⟨wordAt d offset, wordAt d (offset + 4)⟩ := by
      rw [RANGE_LEN, show offset + 8 = offset + 4 + 4 from rfl, take_word (by omega),
        take_word (by omega), List.append_assoc]
      rfl
    rw [hsame, hrest, hrange, rangesAt, List.map_cons, List.flatten_cons, List.append_assoc]

/-- A complete header is the bytes of its fields. -/
theorem Complete.bytes (hc : Complete d) :
    d = toLe 4 (wordAt d 0) ++ [byteAt d 4] ++ [byteAt d 5] ++ toLe 4 (wordAt d 6) ++
      ((rangesAt d (byteAt d 5).toNat FIXED_LEN).map SackRange.encode).flatten ++
        d.drop (declaredLen d) := by
  obtain ⟨hfix, hall⟩ := hc
  have hlen : 10 ≤ d.length := hfix
  have h4 : d.take 4 = toLe 4 (wordAt d 0) := take_word (d := d) (i := 0) (by omega)
  have h5 := take_of_index (index_byte (d := d) (i := 4) (by omega))
  have h6 := take_of_index (index_byte (d := d) (i := 5) (by omega))
  have h10 := take_word (d := d) (i := 6) (by omega)
  have hranges := take_ranges hall
  have hfixed : d.take FIXED_LEN =
      toLe 4 (wordAt d 0) ++ [byteAt d 4] ++ [byteAt d 5] ++ toLe 4 (wordAt d 6) := by
    rw [FIXED_LEN, h10, h6, h5, h4]
  rw [← hfixed, ← hranges]
  exact (List.take_append_drop (declaredLen d) d).symm

/-! ## What the decoder makes of the layout -/

/-- The layout is what `encode` writes. -/
theorem Layout.encode_eq (hl : Layout d h rest) : h.encode ++ rest = d := by
  obtain ⟨finAck, hfin, hd⟩ := hl.bytes
  rw [hd, hfin, encode, List.take_of_length_le hl.count, Nat.min_eq_left hl.count]
  rfl

theorem Layout.decode (hl : Layout d h rest) : decode d = .ok (some (h, rest)) := by
  rw [← hl.encode_eq, decode_encode_append, List.take_of_length_le hl.count]

theorem decode_some (hd : decode d = .ok (some (h, rest))) :
    Complete d ∧ h = headerAt d ∧ rest = d.drop (declaredLen d) := by
  rw [decode_eq] at hd
  split at hd
  · rename_i hc
    cases hd
    exact ⟨hc, rfl, rfl⟩
  · cases hd

/-- A complete header in the layout. -/
theorem InLayout.layout (hl : InLayout d) (hc : Complete d) :
    Layout d (headerAt d) (d.drop (declaredLen d)) := by
  obtain ⟨hfin, hcount, hord⟩ := hl
  have hlen : (headerAt d).sack.length = (byteAt d 5).toNat := rangesAt_length d _ _
  refine ⟨⟨byteAt d 4, ?_, ?_⟩, by rw [hlen]; exact hcount, hord⟩
  · rcases hfin with h0 | h1
    · rw [headerAt, h0]; rfl
    · rw [headerAt, h1]; rfl
  · rw [hlen, BitVec.ofNat_toNat, BitVec.setWidth_eq]
    exact hc.bytes

/-- What is laid out as documented is complete and keeps to the layout. -/
theorem Layout.inLayout (hl : Layout d h rest) : Complete d ∧ InLayout d := by
  obtain ⟨hc, rfl, _⟩ := decode_some hl.decode
  have hcount := hl.count
  rw [show (headerAt d).sack.length = (byteAt d 5).toNat from rangesAt_length d _ _] at hcount
  refine ⟨hc, ?_, hcount, hl.ranges⟩
  obtain ⟨finAck, hfin, hd⟩ := hl.bytes
  have hlen : 10 ≤ d.length := hc.1
  have hbyte := index_byte (d := d) (i := 4) (by omega)
  have hread : index d 4 = .ok finAck := by
    rw [hd]
    simp only [List.append_assoc]
    exact index_append (toLe 4 (headerAt d).ack) _ _ (by simp)
  rw [hbyte] at hread
  cases hread
  split at hfin
  · exact Or.inr hfin
  · exact Or.inl hfin

/-! ## The layout and the decoder -/

/-- **`decode` accepts exactly the documented layout** of a byte string that is too short for what
    it declares or keeps to that layout, and of no other. -/
theorem layout_exact (d : List U8) : Exact d ↔ (Complete d → InLayout d) := by
  constructor
  · intro hex hc
    have hd : decode d = .ok (some (headerAt d, d.drop (declaredLen d))) := by
      rw [decode_eq, if_pos hc]
    exact ((hex.1 _ _).mp hd).inLayout.2
  · intro hin
    have hlay : ∀ h rest, decode d = .ok (some (h, rest)) → Layout d h rest := by
      intro h rest hd
      obtain ⟨hc, rfl, rfl⟩ := decode_some hd
      exact (hin hc).layout hc
    exact ⟨fun h rest => ⟨hlay h rest, fun hl => hl.decode⟩, fun h rest hd => (hlay h rest hd).encode_eq⟩

/-- **Bytes that break the layout are accepted**: a `fin_ack` of 2, which is encoded as 1; five
    ranges, of which four are encoded; a range that ends before it starts; two that overlap; one
    that is acknowledged already. -/
theorem layout_not_exact :
    ¬ Exact [0, 0, 0, 0, 2, 0, 0, 0, 0, 0] ∧
    ¬ Exact ([0, 0, 0, 0, 0, 5, 0, 0, 0, 0] ++
      ([⟨1, 1⟩, ⟨3, 3⟩, ⟨5, 5⟩, ⟨7, 7⟩, ⟨9, 9⟩].map SackRange.encode).flatten) ∧
    ∀ rs ∈ [[⟨2, 1⟩], [⟨1, 3⟩, ⟨2, 4⟩], [⟨0, 0⟩]], ¬ Exact (encode ⟨0, false, 64, rs⟩) := by
  refine ⟨fun hex => ?_, fun hex => ?_, fun rs hrs hex => ?_⟩
  · exact absurd (hex.2 ⟨0, true, 0, []⟩ [] (by decide)) (by decide)
  · have hlay := (hex.1 ⟨0, false, 0, [⟨1, 1⟩, ⟨3, 3⟩, ⟨5, 5⟩, ⟨7, 7⟩, ⟨9, 9⟩]⟩ []).mp (by decide)
    exact absurd hlay.count (by decide)
  · have hdec := decode_encode_append ⟨0, false, 64, rs⟩ []
    rw [List.append_nil] at hdec
    have hord := ((hex.1 _ _).mp hdec).ranges
    revert hord
    simp only [List.mem_cons, List.not_mem_nil, or_false] at hrs
    rcases hrs with rfl | rfl | rfl <;> decide

end Distrans.SegmentHeader
