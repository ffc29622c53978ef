import Distrans.Transport.Accepts
import Distrans.Transport.Guarantees

/-!
# Reassembly

The receive side on its own: positioned data reach `deliver_data` in any order, any number of
times and overlapping in any way, and the application reads now and then (`Endpoint.intake`).

* `InSlices` — what arbitrary slices of one stream leave behind;
* `Gathers` — the receiver of a stream cut into tiles is the receiver of selective repeat, and has
  exactly the tiles that have arrived.
* `reassembly_exact` — **the in-order stream is the prefix of the stream up to `expected_seq`; for
  tiles, `expected_seq` is the end of the longest run of tiles received, the buffer holds the
  others, and all three depend on the set of tiles alone.**
-/

set_option autoImplicit false

namespace Distrans

open Machine OrdMap Tiling

variable {b : Build} {c c' : Connection} {S : List U8} {e e' : Endpoint}

/-- Positioned data arrive, or, at `none`, the application reads. -/
def Endpoint.intake (b : Build) : List (Option (Nat × List U8)) → Endpoint → Exec Endpoint
  | [], e => .ok e
  | none :: ops, e => do
    let e ← e.call b .recv
    intake b ops e
  | some (seq, data) :: ops, e => do
    let c ← e.conn.deliverData b (BitVec.ofNat 32 seq) data
    intake b ops (e.move c)

/-! ## Arbitrary slices -/

/-- `data` lies in the stream `S` at the position `seq`. -/
def Slice (S : List U8) (seq : Nat) (data : List U8) : Prop :=
  data = (S.drop seq).take data.length ∧ seq + data.length ≤ S.length

/-- A prefix goes on with the slice at its end. -/
theorem Slice.append {seq : Nat} {data : List U8} (h : Slice S seq data) :
    S.take seq ++ data = S.take (seq + data.length) := by
  rw [List.take_add, ← h.1]

/-- The end of a slice is a slice. -/
theorem Slice.drop {seq k : Nat} {data : List U8} (h : Slice S seq data) (hk : k ≤ data.length) :
    Slice S (seq + k) (data.drop k) := by
  refine ⟨?_, ?_⟩
  · have hd := congrArg (List.drop k) h.1
    rw [List.drop_take, List.drop_drop] at hd
    rw [List.length_drop]
    exact hd
  · have := h.2
    rw [List.length_drop]
    omega

/-- The receiver has a prefix of `S` in order and slices of `S` in its buffer. -/
structure InSlices (S : List U8) (e : Endpoint) : Prop where
  le : e.conn.expectedSeq.toNat ≤ S.length
  stream : e.inOrder = S.take e.conn.expectedSeq.toNat
  buffer : ∀ p ∈ e.conn.recvBuffer.entries, Slice S p.1.toNat p.2

theorem InSlices.drain (hS : S.length < 2 ^ 32) : ∀ {fuel : Nat} {c c' : Connection},
    InSlices S (e.move c) → c.drainLoop b fuel = .ok c' → InSlices S (e.move c')
  | 0, _, _, _, h => by cases h
  | fuel + 1, c, c', hi, h => by
    rcases drainLoop_cases h with rfl | ⟨v, expectedSeq, hmem, hseq, h⟩
    · exact hi
    · refine InSlices.drain hS ?_ h
      have hv : Slice S c.expectedSeq.toNat v := hi.buffer _ hmem
      have hlen := hv.2
      have hnext : expectedSeq.toNat = c.expectedSeq.toNat + v.length := by
        rw [Build.add_toNat hseq (by rw [len32_toNat (by omega)]; omega), len32_toNat (by omega)]
      refine ⟨by show expectedSeq.toNat ≤ _; omega, ?_, fun p hp => ?_⟩
      · have hstream : e.received ++ c.delivered = S.take c.expectedSeq.toNat := hi.stream
        show e.received ++ (c.delivered ++ v) = S.take expectedSeq.toNat
        rw [← List.append_assoc, hstream, hv.append, hnext]
      · exact hi.buffer p (mem_erase.mp hp).1

theorem InSlices.deliver (hS : S.length < 2 ^ 32) (hi : InSlices S e) {seq : Nat} {data : List U8}
    (hs : Slice S seq data) (h : e.conn.deliverData b (BitVec.ofNat 32 seq) data = .ok c') :
    InSlices S (e.move c') := by
  have hlen := hs.2
  have hseq : (BitVec.ofNat 32 seq).toNat = seq := by rw [BitVec.toNat_ofNat]; omega
  have hlen32 := len32_toNat (Nat.lt_of_le_of_lt (Nat.le_add_left _ _) (Nat.lt_of_le_of_lt hlen hS))
  have hend : ∀ {stop : U32}, b.add (BitVec.ofNat 32 seq) (len32 data) = .ok stop →
      stop.toNat = seq + data.length := by
    intro stop hstop
    rw [Build.add_toNat hstop (by rw [hseq, hlen32]; omega), hseq, hlen32]
  cases deliverData_branch h with
  | empty => exact hi
  | old => exact ⟨hi.le, hi.stream, hi.buffer⟩
  | @next stop skip fresh _ _ hstop hnew hcov hskip hfresh hdrain =>
    -- the slice goes on where the stream ends, after what is old of it
    have hstop' := hend hstop
    have hnew' : e.conn.expectedSeq.toNat < stop.toNat := hnew
    have hcov' : seq ≤ e.conn.expectedSeq.toNat := by rw [← hseq]; exact hcov
    have hskip' : skip.toNat = e.conn.expectedSeq.toNat - seq := by
      rw [Build.sub_toNat hskip hcov, hseq]
    have hdrop : fresh = data.drop skip.toNat := by
      rw [slice_ok (by omega) (Nat.le_refl _)] at hfresh
      cases hfresh
      rw [List.take_length]
    have hfr := hs.drop (k := skip.toNat) (by omega)
    rw [← hdrop, show seq + skip.toNat = e.conn.expectedSeq.toNat by omega] at hfr
    have hlast : e.conn.expectedSeq.toNat + fresh.length = stop.toNat := by
      rw [hdrop, List.length_drop]; omega
    refine InSlices.drain hS (e := e) ?_ hdrain
    refine ⟨by show stop.toNat ≤ _; omega, ?_, hi.buffer⟩
    have hstream : e.received ++ e.conn.delivered = S.take e.conn.expectedSeq.toNat := hi.stream
    show e.received ++ (e.conn.delivered ++ fresh) = S.take stop.toNat
    rw [← List.append_assoc, hstream, hfr.append, hlast]
  | early =>
    refine ⟨hi.le, hi.stream, fun p hp => ?_⟩
    rcases mem_insert.mp hp with rfl | ⟨hp, _⟩
    · show Slice S (BitVec.ofNat 32 seq).toNat data
      rw [hseq]; exact hs
    · exact hi.buffer p hp

theorem InSlices.ends (hS : S.length < 2 ^ 32) (hi : InSlices S e) : EndsFit b e.conn := by
  intro _ p hp
  have := (hi.buffer p hp).2
  omega

/-- Reading moves bytes within the in-order stream. -/
theorem call_recv_order (h : e.call b .recv = .ok e') : e'.inOrder = e.inOrder ∧
    e'.conn.expectedSeq = e.conn.expectedSeq ∧ e'.conn.recvBuffer = e.conn.recvBuffer := by
  cases h
  refine ⟨?_, rfl, rfl⟩
  show (e.received ++ e.conn.delivered) ++ [] = e.received ++ e.conn.delivered
  rw [List.append_nil]

theorem InSlices.recv (hi : InSlices S e) (h : e.call b .recv = .ok e') : InSlices S e' := by
  obtain ⟨h1, h2, h3⟩ := call_recv_order h
  exact ⟨by rw [h2]; exact hi.le, by rw [h1, h2]; exact hi.stream, by rw [h3]; exact hi.buffer⟩

/-- Slices of one stream are always taken in. -/
theorem intake_slices (hS : S.length < 2 ^ 32) : ∀ {ops : List (Option (Nat × List U8))} {e : Endpoint},
    (∀ p, some p ∈ ops → Slice S p.1 p.2) → InSlices S e →
    ∃ e', e.intake b ops = .ok e' ∧ InSlices S e'
  | [], e, _, hi => ⟨e, rfl, hi⟩
  | none :: ops, e, hops, hi => by
    obtain ⟨e₁, hr⟩ : ∃ e₁, e.call b .recv = .ok e₁ := ⟨_, rfl⟩
    obtain ⟨e', he', hi'⟩ := intake_slices hS (fun p hp => hops p (List.mem_cons_of_mem _ hp))
      (hi.recv hr)
    exact ⟨e', by simp only [Endpoint.intake, hr, ok_bind, he'], hi'⟩
  | some (seq, data) :: ops, e, hops, hi => by
    have hs : Slice S seq data := hops (seq, data) List.mem_cons_self
    have hlen := hs.2
    have hseq : (BitVec.ofNat 32 seq).toNat = seq := by rw [BitVec.toNat_ofNat]; omega
    have hfit : b = .checked → data ≠ [] → (BitVec.ofNat 32 seq).toNat + data.length < 2 ^ 32 :=
      fun _ _ => by rw [hseq]; omega
    obtain ⟨c, hc⟩ := deliverData_returns (hi.ends hS) (show data.length < 2 ^ 32 by omega) hfit
    obtain ⟨e', he', hi'⟩ := intake_slices hS (fun p hp => hops p (List.mem_cons_of_mem _ hp))
      (hi.deliver hS hs hc)
    exact ⟨e', by simp only [Endpoint.intake, hc, ok_bind, he'], hi'⟩

/-! ## Tiles of one partition -/

section Tiles

variable {cs : List (List U8)} {M M' : Set Nat}

/-- Tile `m` of the stream cut into `cs`, under its position. -/
def tile (cs : List (List U8)) (m : Nat) : Nat × List U8 := (pos cs m, cs.getD m [])

/-- The receiver runs selective repeat and has exactly the tiles `M`. -/
def Gathers (cs : List (List U8)) (M : Set Nat) (e : Endpoint) : Prop :=
  ∃ s : SelRep, s.Inv ∧ s.cut = cs.length ∧ RecvRep cs s e ∧ ∀ k, s.Has k ↔ k ∈ M

theorem Gathers.deliver (hne : ∀ c ∈ cs, c ≠ []) (hfit : cs.flatten.length < 2 ^ 32)
    (h : Gathers cs M e) {m : Nat} (hm : m < cs.length)
    (hr : e.conn.deliverData b (BitVec.ofNat 32 (tile cs m).1) (tile cs m).2 = .ok c') :
    Gathers cs (insert m M) (e.move c') := by
  obtain ⟨s, hi, hcut, hrep, hhas⟩ := h
  have hpos : ∀ i, pos cs i < 2 ^ 32 := fun i => Nat.lt_of_le_of_lt (pos_le_total cs i) hfit
  have hpiece : cs[m]? = some (tile cs m).2 := by simp [tile, hm]
  have hseq : (BitVec.ofNat 32 (tile cs m).1).toNat = pos cs m := by
    rw [BitVec.toNat_ofNat]
    exact Nat.mod_eq_of_lt (hpos m)
  obtain ⟨n, held, hacc, hrep'⟩ := hrep.deliver hi hcut hne hpos hpiece hseq hr
  refine ⟨_, hacc.inv hi (by rw [hcut]; exact hm), hcut, hrep', fun k => ?_⟩
  show k < n ∨ k ∈ held ↔ _
  rw [hacc.has_iff, hhas, Set.mem_insert_iff, or_comm]

theorem Gathers.recv (h : Gathers cs M e) (hr : e.call b .recv = .ok e') : Gathers cs M e' := by
  obtain ⟨s, hi, hcut, hrep, hhas⟩ := h
  obtain ⟨h1, h2, h3⟩ := call_recv_order hr
  exact ⟨s, hi, hcut, ⟨by rw [h2]; exact hrep.expectedSeq, h1.trans hrep.stream,
    by rw [h3]; exact hrep.buffer⟩, hhas⟩

theorem Gathers.ends (hfit : cs.flatten.length < 2 ^ 32) (h : Gathers cs M e) : EndsFit b e.conn := by
  obtain ⟨s, _, _, hrep, _⟩ := h
  intro _ p hp
  obtain ⟨m, _, hm, hk⟩ := (hrep.buffer p).mp hp
  have hend := pos_succ_of_getElem? hm
  have := pos_le_total cs (m + 1)
  omega

/-- Tiles are always taken in. -/
theorem intake_tiles (hne : ∀ c ∈ cs, c ≠ []) (hfit : cs.flatten.length < 2 ^ 32) :
    ∀ {ops : List (Option Nat)} {M : Set Nat} {e : Endpoint}, (∀ m, some m ∈ ops → m < cs.length) →
    Gathers cs M e → ∃ e', e.intake b (ops.map (Option.map (tile cs))) = .ok e' ∧
      Gathers cs (M ∪ {m | some m ∈ ops}) e'
  | [], M, e, _, h => ⟨e, rfl, by simpa using h⟩
  | none :: ops, M, e, hops, h => by
    obtain ⟨e₁, hr⟩ : ∃ e₁, e.call b .recv = .ok e₁ := ⟨_, rfl⟩
    obtain ⟨e', he', h'⟩ := intake_tiles hne hfit (fun m hm => hops m (List.mem_cons_of_mem _ hm))
      (h.recv hr)
    refine ⟨e', ?_, by simpa using h'⟩
    simp only [List.map_cons, Option.map_none, Endpoint.intake, hr, ok_bind, he']
  | some m :: ops, M, e, hops, h => by
    have hm : m < cs.length := hops m List.mem_cons_self
    have hend : pos cs m + (tile cs m).2.length ≤ cs.flatten.length := by
      have hpiece : cs[m]? = some (tile cs m).2 := by simp [tile, hm]
      rw [← pos_succ_of_getElem? hpiece]
      exact pos_le_total cs (m + 1)
    have hseq : (BitVec.ofNat 32 (tile cs m).1).toNat = pos cs m := by
      rw [BitVec.toNat_ofNat]
      exact Nat.mod_eq_of_lt (Nat.lt_of_le_of_lt (pos_le_total cs m) hfit)
    have hend : b = .checked → (tile cs m).2 ≠ [] →
        (BitVec.ofNat 32 (tile cs m).1).toNat + (tile cs m).2.length < 2 ^ 32 :=
      fun _ _ => by rw [hseq]; omega
    obtain ⟨c, hc⟩ := deliverData_returns (h.ends hfit) (show (tile cs m).2.length < 2 ^ 32 by omega) hend
    obtain ⟨e', he', h'⟩ := intake_tiles hne hfit (fun k hk => hops k (List.mem_cons_of_mem _ hk))
      (h.deliver hne hfit hm hc)
    refine ⟨e', ?_, ?_⟩
    · simp only [List.map_cons, Option.map_some, Endpoint.intake, hc, ok_bind, he']
    · have hset : insert m M ∪ {k | some k ∈ ops} = M ∪ {k | some k ∈ some m :: ops} := by
        ext k
        simp only [Set.mem_union, Set.mem_insert_iff, Set.mem_ofPred_eq, List.mem_cons,
          Option.some.injEq]
        tauto
      rw [← hset]
      exact h'

/-- A receiver that has got exactly the tiles `M`, the first `N` of them without a gap. -/
structure Gathered (cs : List (List U8)) (M : Set Nat) (N : Nat) (e : Endpoint) : Prop where
  run : ∀ i < N, i ∈ M
  stops : N ∉ M
  expectedSeq : e.conn.expectedSeq.toNat = pos cs N
  stream : e.inOrder = cs.flatten.take (pos cs N)
  buffer : ∀ p, p ∈ e.conn.recvBuffer.entries ↔
    ∃ m ∈ M, N < m ∧ cs[m]? = some p.2 ∧ p.1.toNat = pos cs m
  above : ∀ p ∈ e.conn.recvBuffer.entries, e.conn.expectedSeq < p.1

theorem Gathers.gathered (hne : ∀ c ∈ cs, c ≠ []) (h : Gathers cs M e) : ∃ N, Gathered cs M N e := by
  obtain ⟨s, hi, hcut, hrep, hhas⟩ := h
  have hheld : ∀ m, m ∈ s.held ↔ m ∈ M ∧ s.next < m := by
    intro m
    rw [← hhas]
    constructor
    · exact fun hm => ⟨Or.inr hm, hi.held_gt m hm⟩
    · rintro ⟨hm | hm, hlt⟩
      · omega
      · exact hm
  refine ⟨s.next, fun i hlt => (hhas i).mp (Or.inl hlt), fun hm => hi.next_not_has ((hhas _).mpr hm),
    hrep.expectedSeq, ?_, fun p => ?_, fun p hp => ?_⟩
  · rw [← flatten_take]
    exact hrep.stream
  · rw [hrep.buffer]
    constructor
    · rintro ⟨m, hm, hrest⟩
      exact ⟨m, ((hheld m).mp hm).1, ((hheld m).mp hm).2, hrest⟩
    · rintro ⟨m, hm, hlt, hrest⟩
      exact ⟨m, (hheld m).mpr ⟨hm, hlt⟩, hrest⟩
  · obtain ⟨m, hm, hv, hk⟩ := (hrep.buffer p).mp hp
    have hlt := pos_lt hne (hi.held_gt m hm) (Nat.le_of_lt (lt_of_getElem? hv))
    rw [← hrep.expectedSeq, ← hk] at hlt
    exact hlt

/-- The set of tiles determines what the receiver holds. -/
theorem Gathered.unique {N N' : Nat} (h : Gathered cs M N e) (h' : Gathered cs M N' e') :
    e.inOrder = e'.inOrder ∧ e.conn.expectedSeq = e'.conn.expectedSeq ∧
      e.conn.recvBuffer = e'.conn.recvBuffer := by
  have hN : N = N' := by
    rcases Nat.lt_trichotomy N N' with hlt | heq | hlt
    · exact absurd (h'.run N hlt) h.stops
    · exact heq
    · exact absurd (h.run N' hlt) h'.stops
  subst hN
  refine ⟨h.stream.trans h'.stream.symm, BitVec.eq_of_toNat_eq (h.expectedSeq.trans h'.expectedSeq.symm),
    OrdMap.ext_mem fun p => ?_⟩
  rw [h.buffer, h'.buffer]

end Tiles

/-! ## From a fresh connection -/

/-- Nothing has been received yet. -/
structure Connection.Unread (c : Connection) : Prop where
  expectedSeq : c.expectedSeq = 0
  recvBuffer : c.recvBuffer.entries = []
  delivered : c.delivered = []

theorem blank_unread {cfg : Config} {t : Tick} {st : State} (h : Connection.blank b cfg t st = .ok c) :
    c.Unread := by
  obtain ⟨w, _, h⟩ := bind_eq_ok.mp h
  cases h
  exact ⟨rfl, rfl, rfl⟩

theorem Connection.Unread.slices (h : c.Unread) (S : List U8) : InSlices S (Endpoint.fresh c []) := by
  have hz : (Endpoint.fresh c []).conn.expectedSeq.toNat = 0 := by
    show c.expectedSeq.toNat = 0
    rw [h.expectedSeq]; rfl
  refine ⟨by rw [hz]; exact Nat.zero_le _, ?_, fun p hp => ?_⟩
  · rw [hz]
    show [] ++ c.delivered = []
    rw [h.delivered]; rfl
  · rw [show (Endpoint.fresh c []).conn.recvBuffer.entries = [] from h.recvBuffer] at hp
    cases hp

theorem Connection.Unread.gathers (h : c.Unread) (cs : List (List U8)) :
    Gathers cs ∅ (Endpoint.fresh c []) := by
  refine ⟨{ SelRep.init with cut := cs.length }, { SelRep.Inv.init with
    next_le := Nat.zero_le _, held_lt := fun m hm => absurd hm (Set.notMem_empty m) }, rfl,
    ⟨?_, ?_, fun p => ?_⟩, fun k => ?_⟩
  · show c.expectedSeq.toNat = 0
    rw [h.expectedSeq]; rfl
  · show [] ++ c.delivered = []
    rw [h.delivered]; rfl
  · rw [show (Endpoint.fresh c []).conn.recvBuffer.entries = [] from h.recvBuffer]
    constructor
    · intro hp; cases hp
    · rintro ⟨m, hm, _⟩
      exact absurd hm (Set.notMem_empty m)
  · constructor
    · rintro (hk | hk)
      · exact absurd hk (Nat.not_lt_zero k)
      · exact hk
    · exact Or.inr

/-- **Reassembly is exact and order-blind.** -/
theorem reassembly_exact (h : c.Unread) (hS : S.length < 2 ^ 32) :
    (∀ ops, (∀ p, some p ∈ ops → Slice S p.1 p.2) →
      ∃ e, (Endpoint.fresh c []).intake b ops = .ok e ∧
        e.inOrder = S.take e.conn.expectedSeq.toNat ∧ e.conn.expectedSeq.toNat ≤ S.length) ∧
    ∀ cs : List (List U8), cs.flatten = S → (∀ c ∈ cs, c ≠ []) →
      (∀ ops : List (Option Nat), (∀ m, some m ∈ ops → m < cs.length) →
        ∃ e N, (Endpoint.fresh c []).intake b (ops.map (Option.map (tile cs))) = .ok e ∧
          Gathered cs {m | some m ∈ ops} N e) ∧
      ∀ ops ops' : List (Option Nat), (∀ m, some m ∈ ops → m < cs.length) →
        (∀ m, some m ∈ ops ↔ some m ∈ ops') → ∀ e e', (Endpoint.fresh c []).intake b (ops.map (Option.map (tile cs))) = .ok e →
          (Endpoint.fresh c []).intake b (ops'.map (Option.map (tile cs))) = .ok e' →
          e.inOrder = e'.inOrder ∧ e.conn.expectedSeq = e'.conn.expectedSeq ∧
            e.conn.recvBuffer = e'.conn.recvBuffer := by
  refine ⟨fun ops hops => ?_, fun cs hcs hne => ?_⟩
  · obtain ⟨e, he, hi⟩ := intake_slices (b := b) hS hops (h.slices S)
    exact ⟨e, he, hi.stream, hi.le⟩
  · subst hcs
    have hgather : ∀ ops : List (Option Nat), (∀ m, some m ∈ ops → m < cs.length) →
        ∃ e N, (Endpoint.fresh c []).intake b (ops.map (Option.map (tile cs))) = .ok e ∧
          Gathered cs {m | some m ∈ ops} N e := by
      intro ops hops
      obtain ⟨e, he, hg⟩ := intake_tiles (b := b) hne hS hops (h.gathers cs)
      rw [Set.empty_union] at hg
      obtain ⟨N, hN⟩ := hg.gathered hne
      exact ⟨e, N, he, hN⟩
    refine ⟨hgather, fun ops ops' hops hsame e e' he he' => ?_⟩
    obtain ⟨e₁, N, h₁, hg⟩ := hgather ops hops
    obtain ⟨e₂, N', h₂, hg'⟩ := hgather ops' fun m hm => hops m ((hsame m).mpr hm)
    rw [he] at h₁
    rw [he'] at h₂
    cases h₁
    cases h₂
    rw [show {m | some m ∈ ops'} = {m | some m ∈ ops} from Set.ext fun m => (hsame m).symm] at hg'
    exact hg.unique hg'

/-- Three tiles; the last one arrives first and twice, the middle one never. -/
theorem reassembly_exact_sample : ∃ c, Connection.listen .checked sampleConfig 0 = .ok c ∧
    ∃ e N, (Endpoint.fresh c []).intake .checked
        ([some 2, none, some 0, some 2].map (Option.map (tile [[1, 2], [3], [4, 5]]))) = .ok e ∧
      Gathered [[1, 2], [3], [4, 5]] {m | some m ∈ [some 2, none, some 0, some 2]} N e := by
  have hret : (fault? (Connection.listen .checked sampleConfig 0)).isNone = true := by decide
  obtain ⟨c, hc⟩ := ok_of_fault? hret
  obtain ⟨_, htiles⟩ := reassembly_exact (b := .checked) (blank_unread hc)
    (S := [1, 2, 3, 4, 5]) (by decide)
  refine ⟨c, hc, (htiles [[1, 2], [3], [4, 5]] rfl (by decide)).1 _ fun m hm => ?_⟩
  have hm' : m = 2 ∨ m = 0 ∨ m = 2 := by simpa using hm
  show m < 3
  omega

end Distrans
