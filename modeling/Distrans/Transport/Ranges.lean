import Distrans.Lib.Runs
import Distrans.Transport.FlowRun
import Distrans.Transport.Layout
import Distrans.Transport.Reassembly

/-!
# Reported ranges

`current_sack_ranges` joins the entries of the reorder buffer that follow one another without a
gap (`sackRuns_runs`).  Where the entries do not overlap (`Apart`), these are the maximal runs of
buffered bytes (`Apart.reports`):

* `sack_ranges_exact` — **a receiver of tiles reports the first runs of what it has buffered**;
* `reach_layout` — every header that either side of a pair builds is laid out as documented, so
  that the peer reads exactly what was written.
-/

set_option autoImplicit false

namespace Distrans

open Machine OrdMap Tiling Runs

variable {b : Build} {c : Connection} {e : Endpoint} {cs : List (List U8)} {s : SelRep} {X Y : Endpoint}

/-- The positions of the first and the last byte of a range. -/
def SackRange.span (r : SackRange) : Nat × Nat := (r.start.toNat, r.stop.toNat)

/-- The positions of the first and the last byte of an entry of the reorder buffer. -/
def entrySpan (e : U32 × List U8) : Nat × Nat := (e.1.toNat, e.1.toNat + e.2.length - 1)

/-- The positions of the bytes in the reorder buffer. -/
def Connection.buffered (c : Connection) : Set Nat :=
  {n | ∃ e ∈ c.recvBuffer.entries, e.1.toNat ≤ n ∧ n < e.1.toNat + e.2.length}

/-- Buffered bytes beyond the next expected one. -/
def Connection.beyond (c : Connection) : Set Nat := {n | n ∈ c.buffered ∧ c.expectedSeq.toNat < n}

/-! ## The loops -/

/-- An entry that fits the sequence space. -/
def EntryFits (e : U32 × List U8) : Prop := e.2 ≠ [] ∧ e.1.toNat + e.2.length < 2 ^ 32

/-- The last byte of an entry, as both loops compute it. -/
theorem entry_stop {start past stop : U32} {data : List U8} (hfit : EntryFits (start, data))
    (hpast : b.add start (len32 data) = .ok past) (hstop : b.sub past 1#32 = .ok stop) :
    stop.toNat = start.toNat + data.length - 1 ∧ stop.toNat + 1 < 2 ^ 32 := by
  obtain ⟨hne, hend⟩ : data ≠ [] ∧ start.toNat + data.length < 2 ^ 32 := hfit
  have hpos := List.length_pos_iff.mpr hne
  have hlen : (len32 data).toNat = data.length := len32_toNat (by omega)
  have hp := Build.add_toNat hpast (by omega)
  have hs := Build.sub_toNat hstop (show (1#32).toNat ≤ past.toNat by simp; omega)
  simp only [BitVec.toNat_ofNat] at hs
  omega

/-- The inner loop joins the entries that follow the run without a gap. -/
theorem extendRun_runs : ∀ {es rest : List (U32 × List U8)} {stop stop' : U32},
    (∀ e ∈ es, EntryFits e) → stop.toNat + 1 < 2 ^ 32 →
    Connection.extendRun b stop es = .ok (stop', rest) →
    (∀ start, coalesce ((start, stop.toNat) :: es.map entrySpan) =
      (start, stop'.toNat) :: coalesce (rest.map entrySpan)) ∧ ∀ e ∈ rest, e ∈ es
  | [], _, _, _, _, _, h => by
    cases h
    exact ⟨fun _ => rfl, fun e he => he⟩
  | (next, data) :: es, rest, stop, stop', hes, hfits, h => by
    simp only [Connection.extendRun] at h
    obtain ⟨following, hfol, h⟩ := bind_eq_ok.mp h
    have hfollowing : following.toNat = stop.toNat + 1 := by
      rw [Build.add_toNat hfol (by simpa using hfits)]; rfl
    split at h
    · rename_i heq
      obtain ⟨past, hpast, h⟩ := bind_eq_ok.mp h
      obtain ⟨stop₁, hstop₁, h⟩ := bind_eq_ok.mp h
      obtain ⟨hlast, hfits₁⟩ := entry_stop (hes _ List.mem_cons_self) hpast hstop₁
      obtain ⟨hjoin, hsub⟩ := extendRun_runs (fun e he => hes e (List.mem_cons_of_mem _ he)) hfits₁ h
      refine ⟨fun start => ?_, fun e he => List.mem_cons_of_mem _ (hsub e he)⟩
      have hspan : entrySpan (next, data) = (stop.toNat + 1, stop₁.toNat) := by
        rw [entrySpan, hlast, ← hfollowing, heq]
      rw [← hjoin start, List.map_cons, hspan]
      exact join_join start stop.toNat stop₁.toNat _
    · rename_i hne
      cases h
      refine ⟨fun start => ?_, fun e he => he⟩
      exact join_gap (r := (start, stop.toNat))
        (fun heq => hne (BitVec.eq_of_toNat_eq (heq.trans hfollowing.symm))) _ _

/-- **Both loops together** make the runs of the entries, as many as are asked for. -/
theorem sackRuns_runs : ∀ {n : Nat} {es : List (U32 × List U8)} {ranges : List SackRange},
    (∀ e ∈ es, EntryFits e) → Connection.sackRuns b n es = .ok ranges →
    ranges.map SackRange.span = (coalesce (es.map entrySpan)).take n
  | 0, _, _, _, h => by cases h; rfl
  | n + 1, [], _, _, h => by cases h; rfl
  | n + 1, (start, data) :: es, ranges, hes, h => by
    simp only [Connection.sackRuns] at h
    obtain ⟨past, hpast, h⟩ := bind_eq_ok.mp h
    obtain ⟨stop, hstop, h⟩ := bind_eq_ok.mp h
    obtain ⟨⟨stop', rest⟩, hrun, h⟩ := bind_eq_ok.mp h
    obtain ⟨more, hmore, h⟩ := bind_eq_ok.mp h
    cases h
    obtain ⟨hlast, hfits⟩ := entry_stop (hes _ List.mem_cons_self) hpast hstop
    have htail : ∀ e ∈ es, EntryFits e := fun e he => hes e (List.mem_cons_of_mem _ he)
    obtain ⟨hjoin, hsub⟩ := extendRun_runs htail hfits hrun
    have hspan : entrySpan (start, data) = (start.toNat, stop.toNat) := by rw [entrySpan, hlast]
    rw [List.map_cons, List.map_cons, hspan, hjoin, List.take_succ_cons,
      sackRuns_runs (fun e he => htail e (hsub e he)) hmore]
    rfl

/-! ## Entries that do not overlap -/

/-- The reorder buffer holds bytes beyond the next expected one, none of them twice. -/
structure Apart (c : Connection) : Prop where
  fits : ∀ e ∈ c.recvBuffer.entries, EntryFits e
  apart : c.recvBuffer.entries.Pairwise fun e e' => e.1.toNat + e.2.length ≤ e'.1.toNat
  above : ∀ e ∈ c.recvBuffer.entries, c.expectedSeq < e.1

/-- A receiver that represents a selective repeat state keeps its entries apart. -/
theorem RecvRep.apart (hrep : RecvRep cs s Y) (hi : s.Inv) (hne : ∀ c ∈ cs, c ≠ [])
    (hfit : cs.flatten.length < 2 ^ 32) : Apart Y.conn where
  fits := fun e he => by
    obtain ⟨m, _, hm, hk⟩ := (hrep.buffer e).mp he
    have hend := Piece.end_le ⟨m, hm, hk⟩
    exact ⟨hne _ (List.mem_of_getElem? hm), by omega⟩
  apart := by
    have hsort : Y.conn.recvBuffer.entries.Pairwise fun e e' => e.1 < e'.1 :=
      List.pairwise_map.mp Y.conn.recvBuffer.sorted
    refine hsort.imp_of_mem fun {e e'} he he' hlt => ?_
    obtain ⟨m, _, hm, hk⟩ := (hrep.buffer e).mp he
    obtain ⟨m', _, hm', hk'⟩ := (hrep.buffer e').mp he'
    have hlt' : e.1.toNat < e'.1.toNat := hlt
    have hdisj := Piece.disjoint ⟨m, hm, hk⟩ ⟨m', hm', hk'⟩ (Nat.ne_of_lt hlt')
    omega
  above := fun e he => by
    obtain ⟨m, hm, hv, hk⟩ := (hrep.buffer e).mp he
    have hlt := pos_lt hne (hi.held_gt m hm) (Nat.le_of_lt (lt_of_getElem? hv))
    rw [← hrep.expectedSeq, ← hk] at hlt
    exact hlt

theorem Apart.spans (h : Apart c) : (∀ r ∈ c.recvBuffer.entries.map entrySpan, r.1 ≤ r.2) ∧
    (c.recvBuffer.entries.map entrySpan).Pairwise fun r r' => r.2 < r'.1 := by
  refine ⟨fun r hr => ?_, List.pairwise_map.mpr ?_⟩
  · obtain ⟨e, he, rfl⟩ := List.mem_map.mp hr
    have hpos := List.length_pos_iff.mpr (h.fits e he).1
    simp only [entrySpan]
    omega
  · refine h.apart.imp_of_mem fun {e e'} he _ hle => ?_
    have hpos := List.length_pos_iff.mpr (h.fits e he).1
    simp only [entrySpan]
    omega

/-- The spans of the entries cover the buffered bytes. -/
theorem Apart.covered (h : Apart c) : covered (c.recvBuffer.entries.map entrySpan) = c.beyond := by
  ext n
  constructor
  · rintro ⟨r, hr, hlo, hhi⟩
    obtain ⟨e, he, rfl⟩ := List.mem_map.mp hr
    have hpos := List.length_pos_iff.mpr (h.fits e he).1
    have habove : c.expectedSeq.toNat < e.1.toNat := h.above e he
    simp only [entrySpan] at hlo hhi
    exact ⟨⟨e, he, hlo, by omega⟩, by omega⟩
  · rintro ⟨⟨e, he, hlo, hhi⟩, _⟩
    exact ⟨entrySpan e, List.mem_map_of_mem he, hlo, by simp only [entrySpan]; omega⟩

/-! ## What is reported -/

/-- `ranges` are the first runs of the buffered bytes. -/
structure Reports (c : Connection) (ranges : List SackRange) : Prop where
  runs : ∃ rs : List (Nat × Nat), (∀ r, r ∈ rs ↔ MaximalRun c.beyond r) ∧
    (rs.Pairwise fun r r' => r.2 < r'.1) ∧ ranges.map SackRange.span = rs.take MAX_SACK_RANGES
  le : ∀ r ∈ ranges, r.start ≤ r.stop
  above : ∀ r ∈ ranges, c.expectedSeq < r.start
  buffered : ∀ r ∈ ranges, ∀ n, r.start.toNat ≤ n → n ≤ r.stop.toNat → n ∈ c.buffered
  missing : ranges.Pairwise fun r r' => ∃ n, r.stop.toNat < n ∧ n < r'.start.toNat ∧ n ∉ c.buffered

/-- **Entries that do not overlap are reported by their maximal runs.** -/
theorem Apart.reports (h : Apart c) (b : Build) :
    ∃ ranges, c.currentSackRanges b = .ok ranges ∧ Reports c ranges := by
  obtain ⟨ranges, hr⟩ : ∃ ranges, c.currentSackRanges b = .ok ranges := sackRuns_returns b h.fits
  obtain ⟨hle, hord⟩ := h.spans
  have htake : ranges.map SackRange.span =
      (coalesce (c.recvBuffer.entries.map entrySpan)).take MAX_SACK_RANGES := sackRuns_runs h.fits hr
  have hsep := (coalesce_spec hle hord).1
  have hmax : ∀ r, r ∈ coalesce (c.recvBuffer.entries.map entrySpan) ↔ MaximalRun c.beyond r := fun r => by
    rw [← h.covered]
    exact mem_coalesce hle hord
  have hmem : ∀ r ∈ ranges, MaximalRun c.beyond r.span := fun r hr =>
    (hmax _).mp (List.mem_of_mem_take (htake ▸ List.mem_map_of_mem hr))
  have hspans : (ranges.map SackRange.span).Pairwise fun r r' => r.2 + 1 < r'.1 := by
    rw [htake]
    exact hsep.gaps.sublist (List.take_sublist _ _)
  have hgaps := List.pairwise_map.mp hspans
  refine ⟨ranges, hr, ⟨_, hmax, hsep.gaps.imp fun hlt => by omega, htake⟩, fun r hr => (hmem r hr).le,
    fun r hr => ?_, fun r hr n hlo hhi => ((hmem r hr).subset ⟨hlo, hhi⟩).1, ?_⟩
  · exact ((hmem r hr).subset (Set.left_mem_Icc.mpr (hmem r hr).le)).2
  · -- the byte after a run is missing, and the next run starts later
    refine hgaps.imp_of_mem fun {r r'} hr _ hlt => ⟨r.span.2 + 1, Nat.lt_succ_self _, hlt, fun hn => ?_⟩
    have hstart := ((hmem r hr).subset (Set.left_mem_Icc.mpr (hmem r hr).le)).2
    have hrun := (hmem r hr).le
    exact (hmem r hr).after ⟨hn, by omega⟩

/-- **Reported ranges are the maximal runs of what is buffered**, for a receiver of tiles in any
    order, with repetitions and reads in between. -/
theorem sack_ranges_exact (h : c.Unread) (hne : ∀ t ∈ cs, t ≠ []) (hfit : cs.flatten.length < 2 ^ 32)
    {ops : List (Option Nat)} (hops : ∀ m, some m ∈ ops → m < cs.length) :
    ∃ e ranges, (Endpoint.fresh c []).intake b (ops.map (Option.map (tile cs))) = .ok e ∧
      e.conn.currentSackRanges b = .ok ranges ∧ Reports e.conn ranges := by
  obtain ⟨e, he, hg⟩ := intake_tiles (b := b) hne hfit hops (h.gathers cs)
  obtain ⟨s, hi, _, hrep, _⟩ := hg
  obtain ⟨ranges, hr, hrep⟩ := (hrep.apart hi hne hfit).reports b
  exact ⟨e, ranges, he, hr, hrep⟩

/-- Of six tiles the receiver gets the last two, the first and the third, and then has two runs. -/
theorem sack_ranges_exact_sample : ∃ c, Connection.listen .checked sampleConfig 0 = .ok c ∧
    ∃ e ranges, (Endpoint.fresh c []).intake .checked
        ([some 5, some 0, none, some 4, some 2, some 5].map
          (Option.map (tile [[1, 2], [3], [4, 5], [6], [7], [8, 9]]))) = .ok e ∧
      e.conn.currentSackRanges .checked = .ok ranges ∧ Reports e.conn ranges := by
  have hret : (fault? (Connection.listen .checked sampleConfig 0)).isNone = true := by decide
  obtain ⟨c, hc⟩ := ok_of_fault? hret
  refine ⟨c, hc, sack_ranges_exact (blank_unread hc) (by decide) (by decide) fun m hm => ?_⟩
  simp only [List.mem_cons, Option.some.injEq, reduceCtorEq, List.not_mem_nil, or_false, false_or] at hm
  show m < 6
  omega

/-! ## Headers in the documented layout -/

/-- The header a connection builds is laid out as documented. -/
theorem Apart.layout (h : Apart c) {finAck : Bool} {hdr : SegmentHeader}
    (hr : c.header b finAck = .ok hdr) (data : List U8) :
    SegmentHeader.Layout (hdr.encode ++ data) hdr data := by
  obtain ⟨window, _, hr⟩ := bind_eq_ok.mp hr
  obtain ⟨sack, hsack, hr⟩ := bind_eq_ok.mp hr
  cases hr
  obtain ⟨ranges, hranges, hrep⟩ := h.reports b
  rw [hsack] at hranges
  cases hranges
  obtain ⟨rs, _, _, htake⟩ := hrep.runs
  have hcount : sack.length ≤ MAX_SACK_RANGES := by
    rw [← List.length_map SackRange.span, htake]
    exact List.length_take_le _ _
  refine ⟨⟨_, rfl, ?_⟩, hcount, hrep.le, hrep.missing.imp ?_, hrep.above⟩
  · rw [SegmentHeader.encode, List.take_of_length_le hcount, Nat.min_eq_left hcount]
    rfl
  · rintro r r' ⟨n, hlo, hhi, _⟩
    exact Nat.lt_trans hlo hhi

/-- The receiver of a flow keeps its entries apart. -/
theorem Flow.apart (h : Flow cs s X Y) : Apart Y.conn :=
  h.recv.apart h.inv h.send.nonempty (Nat.lt_of_le_of_lt h.send.length_le h.send.fits)

/-- **Each side of a pair builds headers that the other side decodes exactly.** -/
theorem reach_layout {ccfg scfg : Config} (hseg : 1 ≤ ccfg.segmentSize) (hseg' : 1 ≤ scfg.segmentSize)
    {p : Pair} (hp : Pair.Reach b ccfg scfg p) (hfits : p.Fits) (t : Side) {finAck : Bool}
    {hdr : SegmentHeader} (hr : (p.get t).conn.header b finAck = .ok hdr) (data : List U8) :
    SegmentHeader.Layout (hdr.encode ++ data) hdr data ∧ SegmentHeader.Exact (hdr.encode ++ data) := by
  obtain ⟨_, _, _, _, _, hflow⟩ := reach_linked hseg hseg' hp hfits t
  have hlay := hflow.apart.layout hr data
  exact ⟨hlay, (SegmentHeader.layout_exact _).mpr fun _ => hlay.inLayout.2⟩

end Distrans
