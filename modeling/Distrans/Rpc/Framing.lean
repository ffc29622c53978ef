import Distrans.Lib.Machine
import Distrans.Lib.Splitter

/-!
# Length-prefixed frames over a byte stream

`crates/rpc/src/framing.rs`: messages travel as a four-byte little-endian length and that many
bytes.  `FrameReader` collects the stream as it arrives and hands out the whole frames.

* `framing_exact` — **the reader hands out exactly the payloads that are complete**, however the
  stream is cut and whenever it is drained.
-/

set_option autoImplicit false

namespace Distrans

open Machine

def LEN_PREFIX : Nat := 4

/-- One length-prefixed frame; the length is cut to 32 bits. -/
def frame (payload : List U8) : List U8 :=
  toLe 4 (BitVec.ofNat 32 payload.length) ++ payload

structure FrameReader where
  buf : List U8
  deriving DecidableEq, Repr

namespace FrameReader

def new : FrameReader := ⟨[]⟩

def feed (r : FrameReader) (bytes : List U8) : FrameReader := ⟨r.buf ++ bytes⟩

/-- One round of the loop of `drain_frames`: the first frame of the buffer, if it is whole. -/
def nextFrame (buf : List U8) : Option (List U8 × List U8) :=
  if buf.length < LEN_PREFIX then none else
  let len := ofLe (buf.take LEN_PREFIX)
  if buf.length < LEN_PREFIX + len then none else
  let buf := buf.drop LEN_PREFIX
  some (buf.take len, buf.drop len)

theorem nextFrame_shrinks {xs rest m : List U8} (h : nextFrame xs = some (m, rest)) :
    rest.length < xs.length := by
  unfold nextFrame at h
  split at h
  · cases h
  · rename_i hlen
    dsimp only at h
    split at h
    · cases h
    · cases h
      simp only [LEN_PREFIX] at hlen
      simp only [LEN_PREFIX, List.length_drop]
      omega

theorem nextFrame_stable {xs rest m : List U8} (ys : List U8)
    (h : nextFrame xs = some (m, rest)) : nextFrame (xs ++ ys) = some (m, rest ++ ys) := by
  unfold nextFrame at h ⊢
  split at h
  · cases h
  · rename_i hlen
    dsimp only at h
    split at h
    · cases h
    · rename_i hwhole
      cases h
      have htake : (xs ++ ys).take LEN_PREFIX = xs.take LEN_PREFIX :=
        List.take_append_of_le_length (by omega)
      have hdrop : (xs ++ ys).drop LEN_PREFIX = xs.drop LEN_PREFIX ++ ys :=
        List.drop_append_of_le_length (by omega)
      have hrest : ofLe (xs.take LEN_PREFIX) ≤ (xs.drop LEN_PREFIX).length := by
        rw [List.length_drop]; omega
      rw [if_neg (by rw [List.length_append]; omega), htake]
      dsimp only
      rw [if_neg (by rw [List.length_append]; omega), hdrop, List.take_append_of_le_length hrest,
        List.drop_append_of_le_length hrest]

/-- The loop of `drain_frames` takes off frame after frame. -/
def frames : Splitter U8 (List U8) := ⟨nextFrame, nextFrame_shrinks, nextFrame_stable⟩

@[simp] theorem frames_next : frames.next = nextFrame := rfl

def drainFrames (r : FrameReader) : List (List U8) × FrameReader :=
  let (out, buf) := frames.split r.buf
  (out, ⟨buf⟩)

end FrameReader

/-- A frame is read back if its length fits the length field. -/
theorem frame_encodes {p : List U8} (h : p.length < 2 ^ 32) : FrameReader.frames.Encodes frame p := by
  have hlen : ofLe ((frame p).take LEN_PREFIX) = p.length := by
    rw [frame, List.take_left' (show _ = LEN_PREFIX from toLe_length 4 _), ofLe_toLe,
      BitVec.toNat_ofNat, Nat.mod_eq_of_lt h]
  have hdrop : (frame p).drop LEN_PREFIX = p := List.drop_left' (toLe_length 4 _)
  have hall : (frame p).length = LEN_PREFIX + p.length := by
    rw [frame, List.length_append, toLe_length, LEN_PREFIX]
  rw [Splitter.Encodes, FrameReader.frames_next, FrameReader.nextFrame]
  rw [if_neg (by omega), hlen]
  dsimp only
  rw [if_neg (by omega), hdrop, List.take_length, List.drop_length]

/-- The messages that have come in, decoded, are the first of those that were encoded. -/
theorem decoded_first {α : Type} {enc : α → List U8} {dec : List U8 → Option α} {as : List α}
    {bytes : List U8} (hdec : ∀ a, dec (enc a) = some a) (hlen : ∀ a ∈ as, (enc a).length < 2 ^ 32)
    (h : bytes <+: as.flatMap fun a => frame (enc a)) :
    (FrameReader.frames.split bytes).1.filterMap dec <+: as := by
  have henc : ∀ m ∈ as.map enc, FrameReader.frames.Encodes frame m := by
    intro m hm
    obtain ⟨a, ha, rfl⟩ := List.mem_map.mp hm
    exact frame_encodes (hlen a ha)
  have hsplit : (FrameReader.frames.split (as.flatMap fun a => frame (enc a))).1 = as.map enc := by
    rw [← List.flatMap_map, Splitter.split_flatMap henc]
  have hall : (as.map enc).filterMap dec = as := by
    rw [List.filterMap_map, show dec ∘ enc = some from funext hdec, List.filterMap_some]
  have := (FrameReader.frames.split_mono h).filterMap dec
  rwa [hsplit, hall] at this

/-! ## A reader in use -/

/-- What is done with a reader. -/
inductive ReaderOp where
  | feed (bytes : List U8)
  | drain
  deriving DecidableEq, Repr

/-- A reader, everything it has handed out, and everything it was fed. -/
structure Session where
  reader : FrameReader
  out : List (List U8)
  fed : List U8
  deriving DecidableEq, Repr

namespace Session

def op (s : Session) : ReaderOp → Session
  | .feed bytes => { s with reader := s.reader.feed bytes, fed := s.fed ++ bytes }
  | .drain =>
    let (out, reader) := s.reader.drainFrames
    { s with reader, out := s.out ++ out }

/-- A session of a new reader. -/
def run (ops : List ReaderOp) : Session := ops.foldl op ⟨.new, [], []⟩

theorem run_append (ops : List ReaderOp) (o : ReaderOp) : run (ops ++ [o]) = (run ops).op o := by
  simp [run]

/-- What has come out and what comes out of the buffer is what comes out of all that was fed. -/
structure Reads (s : Session) : Prop where
  out : s.out ++ (FrameReader.frames.split s.reader.buf).1 = (FrameReader.frames.split s.fed).1
  rest : (FrameReader.frames.split s.reader.buf).2 = (FrameReader.frames.split s.fed).2

theorem Reads.op {s : Session} (h : s.Reads) (o : ReaderOp) : (s.op o).Reads := by
  cases o with
  | feed bytes =>
    have hsplit := FrameReader.frames.split_append s.reader.buf bytes
    have hfed := FrameReader.frames.split_append s.fed bytes
    rw [h.rest] at hsplit
    constructor
    · show s.out ++ (FrameReader.frames.split (s.reader.buf ++ bytes)).1 = _
      rw [hsplit, ← List.append_assoc, h.out]
      exact (congrArg Prod.fst hfed).symm
    · show (FrameReader.frames.split (s.reader.buf ++ bytes)).2 = _
      rw [hsplit]
      exact (congrArg Prod.snd hfed).symm
  | drain =>
    have hidem := FrameReader.frames.split_idem s.reader.buf
    constructor
    · show s.out ++ (FrameReader.frames.split s.reader.buf).1 ++
        (FrameReader.frames.split (FrameReader.frames.split s.reader.buf).2).1 = _
      rw [hidem, List.append_nil, h.out]
      rfl
    · show (FrameReader.frames.split (FrameReader.frames.split s.reader.buf).2).2 = _
      rw [hidem]
      exact h.rest

theorem run_reads (ops : List ReaderOp) : (run ops).Reads := by
  induction ops using List.reverseRecOn with
  | nil => exact ⟨by rw [run]; rfl, rfl⟩
  | append_singleton ops o ih => rw [run_append]; exact ih.op o

/-- After a drain the buffer is what could not be split. -/
theorem run_drain (ops : List ReaderOp) :
    (run (ops ++ [.drain])).out = (FrameReader.frames.split (run ops).fed).1 ∧
    (run (ops ++ [.drain])).reader.buf = (FrameReader.frames.split (run ops).fed).2 := by
  have h := run_reads ops
  rw [run_append]
  exact ⟨h.out, h.rest⟩

end Session

/-- **Framing is exact under any chunking.** -/
theorem framing_exact {ps : List (List U8)} (hps : ∀ p ∈ ps, p.length < 2 ^ 32)
    {ops : List ReaderOp} (hfed : (Session.run ops).fed <+: ps.flatMap frame) :
    (Session.run ops).out <+: ps ∧
    ((Session.run (ops ++ [.drain])).out <+: ps ∧
      (∀ i < ps.length, i < (Session.run (ops ++ [.drain])).out.length ↔
        ((ps.take (i + 1)).flatMap frame).length ≤ (Session.run ops).fed.length) ∧
      (Session.run ops).fed = (Session.run (ops ++ [.drain])).out.flatMap frame ++
        (Session.run (ops ++ [.drain])).reader.buf) ∧
    ((Session.run ops).fed = ps.flatMap frame →
      (Session.run (ops ++ [.drain])).out = ps ∧ (Session.run (ops ++ [.drain])).reader.buf = []) := by
  have henc : ∀ p ∈ ps, FrameReader.frames.Encodes frame p := fun p hp => frame_encodes (hps p hp)
  obtain ⟨k, hk, hout, hsplit, hfit⟩ := Splitter.split_cut henc hfed
  obtain ⟨hdrained, hbuf⟩ := Session.run_drain ops
  have hlen : (ps.take k).length = k := by rw [List.length_take, Nat.min_eq_left hk]
  rw [hdrained, hbuf]
  refine ⟨?_, ⟨?_, ?_, ?_⟩, ?_⟩
  · have hreads := (Session.run_reads ops).out
    rw [hout] at hreads
    exact (List.prefix_append _ _).trans (hreads ▸ List.take_prefix k ps)
  · rw [hout]; exact List.take_prefix k ps
  · intro i hi
    rw [hout, hlen, hfit (i + 1) hi]
    exact Iff.rfl
  · rw [hout]; exact hsplit
  · intro hall
    rw [hall, Splitter.split_flatMap henc]
    exact ⟨rfl, rfl⟩

/-- Two frames, cut inside the second length field. -/
theorem framing_exact_sample :
    (Session.run [.feed [1, 0, 0, 0, 7, 2, 0], .drain, .feed [0, 0, 5]]).out <+: [[7], [5, 6]] := by
  have hps : ∀ p ∈ ([[7], [5, 6]] : List (List U8)), p.length < 2 ^ 32 := by decide
  have hfed : (Session.run [.feed [1, 0, 0, 0, 7, 2, 0], .drain, .feed [0, 0, 5]]).fed <+:
      ([[7], [5, 6]] : List (List U8)).flatMap frame := ⟨[6], rfl⟩
  exact (framing_exact hps hfed).1

end Distrans
