import Distrans.Transport.Ledger
import Distrans.Transport.Robust

/-!
# Segmentation

A connection cuts what it is given to send into pieces, once; whatever is transmitted, at first
or again, is one of these pieces under its own position (`Cut`).

* `segmentation_stable` — **equal sequence numbers carry equal bytes, different ones bytes of
  disjoint ranges, and the bytes are those of the stream at the sequence number**, whatever the
  application does and whatever arrives.
-/

set_option autoImplicit false

namespace Distrans

open Machine OrdMap Tiling

variable {b : Build} {out : List Datagram}

/-- Sequence number and bytes of a frame that carries data. -/
def data? (d : Datagram) : Option (U32 × List U8) :=
  match wire? d with
  | some (seq, _, app) => if app.isEmpty then none else some (seq, app)
  | none => none

/-- A frame that decodes and has application bytes is such a frame. -/
theorem Carries.data {d : Datagram} {f : Frame} {h : SegmentHeader} {app : List U8}
    (hc : Carries d f h app) (hne : app ≠ []) : data? d = some (f.sequence, app) := by
  simp [data?, hc.wire, hne]

/-- The frame carries a piece of the stream, if anything. -/
def Fitting (cs : List (List U8)) (d : Datagram) : Prop :=
  ∀ seq data, data? d = some (seq, data) → Piece cs seq.toNat data

/-- The stream `sent` has been cut into `cs`, the queue apart; the buffer and the frames in `log`
    carry pieces. -/
structure Cut (cs : List (List U8)) (sent : List U8) (l : Ledger) (log : List Datagram) : Prop where
  nonempty : ∀ c ∈ cs, c ≠ []
  stream : sent = cs.flatten ++ l.sendQueue
  nextSeq : l.nextSeq.toNat = cs.flatten.length
  buffer : ∀ k seg, (k, seg) ∈ l.unacked.entries → Piece cs k.toNat seg.data
  frames : ∀ d ∈ log, Fitting cs d

variable {cs : List (List U8)} {sent : List U8} {l l' : Ledger} {log : List Datagram} {o : Connection}
  {a : Call}

/-! ## Deeds and the stream -/

/-- The frame carries a segment of the buffer, if anything. -/
def Repeats (l : Ledger) (d : Datagram) : Prop :=
  ∀ seq data, data? d = some (seq, data) → ∃ seg, (seq, seg) ∈ l.unacked.entries ∧ seg.data = data

/-- Of the buffer nothing has changed but marks and timers, or segments are gone. -/
def Lessens (l l' : Ledger) : Prop :=
  ∀ k seg, (k, seg) ∈ l'.unacked.entries → ∃ seg', (k, seg') ∈ l.unacked.entries ∧ seg'.data = seg.data

theorem Lessens.refl (l : Ledger) : Lessens l l := fun _ seg hm => ⟨seg, hm, rfl⟩

theorem repeats_of_wire {d : Datagram} {seq : U32} {flags : U16} (h : wire? d = some (seq, flags, [])) :
    Repeats l d := by
  intro seq' data hd
  simp [data?, h] at hd

theorem Hails.repeats {d : Datagram} (h : Hails d) : Repeats l d := by
  obtain ⟨seq, flags, hw, _⟩ := h
  exact repeats_of_wire hw

theorem Mute.repeats {d : Datagram} (h : Mute d) : Repeats l d := by
  obtain ⟨seq, flags, hw, _⟩ := h
  exact repeats_of_wire hw

theorem Sends.data_eq {d : Datagram} {seq seq' : U32} {data data' : List U8} (h : Sends d seq data)
    (hd : data? d = some (seq', data')) : seq' = seq ∧ data' = data := by
  simp only [data?, show wire? d = _ from h] at hd
  split at hd
  · cases hd
  · cases hd; exact ⟨rfl, rfl⟩

theorem Sends.data {d : Datagram} {seq : U32} {data : List U8} (h : Sends d seq data) (hne : data ≠ []) :
    data? d = some (seq, data) := by
  simp [data?, show wire? d = _ from h, hne]

theorem Sends.repeats {d : Datagram} {seq : U32} {seg : UnackedSegment} (h : Sends d seq seg.data)
    (hm : (seq, seg) ∈ l.unacked.entries) : Repeats l d := by
  intro seq' data hd
  obtain ⟨rfl, rfl⟩ := h.data_eq hd
  exact ⟨seg, hm, rfl⟩

/-- A sweep leaves the data of the buffer alone and emits nothing else. -/
theorem Resent.repeats {u : OrdMap U32 UnackedSegment} (h : Resent u out)
    (hu : l.unacked.mapM (fun _ seg => Connection.resend b l.now seg) = .ok u) :
    (∀ k seg, (k, seg) ∈ u.entries → ∃ seg', (k, seg') ∈ l.unacked.entries ∧ seg'.data = seg.data) ∧
      ∀ d ∈ out, Repeats l d := by
  have hsame : ∀ k seg, (k, seg) ∈ u.entries →
      ∃ seg', (k, seg') ∈ l.unacked.entries ∧ seg'.data = seg.data := by
    intro k seg hm
    obtain ⟨seg', hm', hr⟩ := (mapM_rel hu).mem hm
    exact ⟨seg', hm', (resend_again hr).data.1.symm⟩
  refine ⟨hsame, fun d hd => ?_⟩
  obtain ⟨i, hi, rfl⟩ := List.getElem_of_mem hd
  obtain ⟨hlen, hget⟩ := List.forall₂_iff_get.mp h
  obtain ⟨seg', hm', hdata⟩ := hsame _ _ (List.mem_of_mem_filter
    (List.get_mem (u.entries.filter fun e => !e.2.sacked) ⟨i, by rw [← hlen]; exact hi⟩))
  have hs := hget i hi (by rw [← hlen]; exact hi)
  rw [← hdata] at hs
  exact hs.repeats hm'

/-- What a deed does to the stream: nothing, and what it emits of it was in the buffer; or it cuts
    the next segment and emits that. -/
theorem Deed.stream (hd : Deed b o a l l' out) :
    (l'.sendQueue = l.sendQueue ∧ l'.nextSeq = l.nextSeq ∧ Lessens l l' ∧ ∀ d ∈ out, Repeats l d) ∨
    ∃ n d v, 0 < n ∧ n ≤ l.sendQueue.length ∧ n < 2 ^ 32 ∧
      b.add l.nextSeq (BitVec.ofNat 32 n) = .ok l'.nextSeq ∧ l'.sendQueue = l.sendQueue.drop n ∧
      l'.unacked = l.unacked.insert l.nextSeq v ∧ v.data = l.sendQueue.take n ∧ out = [d] ∧
      Sends d l.nextSeq (l.sendQueue.take n) := by
  cases hd with
  | mute hm => exact Or.inl ⟨rfl, rfl, .refl l, by simpa using hm.repeats⟩
  | greet _ hg | answer _ _ _ hg | retryHandshake _ _ _ _ _ hg =>
    exact Or.inl ⟨rfl, rfl, .refl l, by simpa using hg.repeats⟩
  | endHandshake | failHandshake | fin _ | failFin => exact Or.inl ⟨rfl, rfl, .refl l, by simp⟩
  | learn k =>
    refine Or.inl ⟨rfl, rfl, fun k' seg hm => ⟨seg, ?_, rfl⟩, by simp⟩
    have hm' : (k', seg) ∈ (l.unacked.eraseAll (l.unacked.below k)).entries := hm
    rw [entries_eraseAll_below] at hm'
    exact List.mem_of_mem_filter hm'
  | mark hu =>
    refine Or.inl ⟨rfl, rfl, fun k seg hm => ?_, by simp⟩
    obtain ⟨seg', hm', s, rfl⟩ := hu.mem hm
    exact ⟨seg', hm', rfl⟩
  | @fast k n seg rest u d _ _ hes _ hu hs =>
    have hmem : (k, seg) ∈ l.unacked.entries := by rw [hes]; exact List.mem_cons_self
    refine Or.inl ⟨rfl, rfl, fun k' seg' hm => ?_, by simpa using hs.repeats hmem⟩
    have hm' : (k', seg') ∈ u.entries := hm
    rw [hu] at hm'
    rcases List.mem_cons.mp hm' with heq | hm'
    · cases heq
      exact ⟨seg, hmem, rfl⟩
    · exact ⟨seg', by rw [hes]; exact List.mem_cons_of_mem _ hm', rfl⟩
  | @cut n nextSeq d hn _ hq hn32 hadd hs =>
    exact Or.inr ⟨n, d, _, hn, hq, hn32, hadd, rfl, rfl, rfl, rfl, hs⟩
  | @sweep u _ _ hu hr _ => exact Or.inl ⟨rfl, rfl, (hr.repeats hu).1, (hr.repeats hu).2⟩
  | @overrun u _ _ hu hr => exact Or.inl ⟨rfl, rfl, (fun k seg hm => by cases hm), (hr.repeats hu).2⟩

namespace Cut

/-- The pieces stay. -/
theorem keep (h : Cut cs sent l log) (hq : l'.sendQueue = l.sendQueue) (hn : l'.nextSeq = l.nextSeq)
    (hu : Lessens l l') (hout : ∀ d ∈ out, Repeats l d) : Cut cs sent l' (log ++ out) where
  nonempty := h.nonempty
  stream := by rw [hq]; exact h.stream
  nextSeq := by rw [hn]; exact h.nextSeq
  buffer := fun k seg hm => by
    obtain ⟨seg', hm', hd⟩ := hu k seg hm
    rw [← hd]
    exact h.buffer k seg' hm'
  frames := fun d hd seq data hdata => by
    rcases List.mem_append.mp hd with hd | hd
    · exact h.frames d hd seq data hdata
    · obtain ⟨seg, hm, rfl⟩ := hout d hd seq data hdata
      exact h.buffer seq seg hm

/-- One more piece, where the numbers do not wrap around. -/
theorem concat (h : Cut cs sent l log) {n : Nat} {d : Datagram} {v : UnackedSegment} (hn : 0 < n)
    (hq : n ≤ l.sendQueue.length) (hnext : l'.nextSeq.toNat = l.nextSeq.toNat + n)
    (hqueue : l'.sendQueue = l.sendQueue.drop n) (hu : l'.unacked = l.unacked.insert l.nextSeq v)
    (hv : v.data = l.sendQueue.take n) (hs : Sends d l.nextSeq (l.sendQueue.take n)) :
    Cut (cs ++ [l.sendQueue.take n]) sent l' (log ++ [d]) := by
  have htake : (l.sendQueue.take n).length = n := by rw [List.length_take]; omega
  have hlast : Piece (cs ++ [l.sendQueue.take n]) l.nextSeq.toNat (l.sendQueue.take n) := by
    rw [h.nextSeq]
    exact piece_last cs _
  refine ⟨?_, ?_, ?_, ?_, ?_⟩
  · intro c hc
    rcases List.mem_append.mp hc with hc | hc
    · exact h.nonempty c hc
    · rw [List.mem_singleton.mp hc, ← List.length_pos_iff, htake]
      exact hn
  · rw [hqueue, List.flatten_append, List.flatten_singleton, List.append_assoc, List.take_append_drop]
    exact h.stream
  · rw [List.flatten_append, List.flatten_singleton, List.length_append, htake, ← h.nextSeq]
    exact hnext
  · intro k seg hm
    rw [hu] at hm
    rcases mem_insert.mp hm with heq | ⟨hm, _⟩
    · cases heq
      rw [hv]
      exact hlast
    · exact (h.buffer k seg hm).concat _
  · intro d' hd' seq data hdata
    rcases List.mem_append.mp hd' with hd' | hd'
    · exact (h.frames d' hd' seq data hdata).concat _
    · rw [List.mem_singleton.mp hd'] at hdata
      obtain ⟨rfl, rfl⟩ := hs.data_eq hdata
      exact hlast

/-- Every deed keeps the pieces; a cut adds one. -/
theorem deed (h : Cut cs sent l log) (hsent : sent.length < 2 ^ 32) (hd : Deed b o a l l' out) :
    ∃ cs', Cut cs' sent l' (log ++ out) := by
  rcases hd.stream with ⟨hq, hn, hu, hout⟩ | ⟨n, d, v, hn, hq, hn32, hadd, hqueue, hu, hv, rfl, hs⟩
  · exact ⟨cs, h.keep hq hn hu hout⟩
  · have hlen := congrArg List.length h.stream
    rw [List.length_append] at hlen
    have hbase := h.nextSeq
    have hnext : l'.nextSeq.toNat = l.nextSeq.toNat + n :=
      add_length_toNat (Or.inr hsent) hn32 (by omega) hadd
    exact ⟨_, h.concat hn hq hnext hqueue hu hv hs⟩

/-- A call, on a connection that has been given `sent` so far. -/
theorem call {e e' : Endpoint} {a : Call} (h : Cut cs e.sent e.conn.ledger e.emitted)
    (hcuts : e.conn.ledger.Cuts) (hsent : e'.sent.length < 2 ^ 32) (hr : e.call b a = .ok e') :
    ∃ cs', Cut cs' e'.sent e'.conn.ledger e'.emitted := by
  obtain ⟨out, hd, hem, hs⟩ := call_deeds hcuts hr
  have hposted : Cut cs e'.sent (e.conn.posted a) e.emitted :=
    ⟨h.nonempty, by rw [hs, h.stream, List.append_assoc]; rfl, h.nextSeq, h.buffer, h.frames⟩
  rw [hem]
  exact hd.preserves (P := fun l log => ∃ cs, Cut cs e'.sent l log)
    (fun ⟨cs', h'⟩ hd' => h'.deed hsent hd') ⟨cs, hposted⟩

end Cut

/-! ## Runs -/

variable {cfg : Config} {e : Endpoint} {n : Nat}

theorem solo_steady (h : Solo b cfg e n) : Steady cfg e := by
  induction h with
  | connect h => exact (Born.client h).steady
  | listen h => exact (Born.server h).steady
  | step _ hr ih => exact ih.call hr

theorem Born.cut (h : Born b cfg e) : Cut [] e.sent e.conn.ledger e.emitted := by
  obtain ⟨hsent, t, hs, listening, hl, hem⟩ := h.ledger
  rw [hl, hsent]
  refine ⟨by simp, rfl, rfl, (fun _ _ hm => nomatch hm), fun d hd => ?_⟩
  rcases hem with ⟨_, hem⟩ | ⟨_, _, d', ⟨seq, flags, hw, _⟩, hem⟩
  · rw [hem] at hd
    cases hd
  · rw [hem] at hd
    intro seq' data hdata
    rw [List.mem_singleton.mp hd] at hdata
    simp [data?, hw] at hdata

theorem solo_cut (h : Solo b cfg e n) (hsent : e.sent.length < 2 ^ 32) :
    ∃ cs, Cut cs e.sent e.conn.ledger e.emitted := by
  induction h with
  | connect h => exact ⟨[], (Born.client h).cut⟩
  | listen h => exact ⟨[], (Born.server h).cut⟩
  | step h hr ih =>
    have hle := Endpoint.call_sent_le hr
    obtain ⟨cs, hcut⟩ := ih (by omega)
    exact hcut.call (solo_steady h).cuts hsent hr

/-- **Segmentation is stable.**  Whatever the application calls and whatever arrives, as long as
    fewer than `2 ^ 32` bytes are given to `send`: a frame with sequence number `s` that carries
    data carries the bytes of the stream from `s` on; two with one sequence number carry the same
    bytes, two with different ones bytes of disjoint ranges. -/
theorem segmentation_stable (h : Solo b cfg e n) (hsent : e.sent.length < 2 ^ 32) {d : Datagram}
    (hd : d ∈ e.emitted) {s : U32} {data : List U8} (hs : data? d = some (s, data)) :
    s.toNat + data.length ≤ e.sent.length ∧ data = (e.sent.drop s.toNat).take data.length ∧
      ∀ d' ∈ e.emitted, ∀ s' data', data? d' = some (s', data') →
        (s' = s → data' = data) ∧
        (s' ≠ s → s.toNat + data.length ≤ s'.toNat ∨ s'.toNat + data'.length ≤ s.toNat) := by
  obtain ⟨cs, hcut⟩ := solo_cut h hsent
  have hp := hcut.frames d hd s data hs
  have hend := hp.end_le
  have hlen := congrArg List.length hcut.stream
  rw [List.length_append] at hlen
  refine ⟨by omega, ?_, fun d' hd' s' data' hs' => ?_⟩
  · rw [hcut.stream, List.drop_append_of_le_length (by omega),
      List.take_append_of_le_length (by rw [List.length_drop]; omega), hp.slice]
  · have hp' := hcut.frames d' hd' s' data' hs'
    refine ⟨fun heq => ?_, fun hne => ?_⟩
    · subst heq
      exact hp'.unique hcut.nonempty hp
    · exact hp.disjoint hp' fun heq => hne (BitVec.eq_of_toNat_eq heq.symm)

/-- A client sends two segments; the second is acknowledged selectively, the timer fires and the
    first one is sent again. -/
theorem segmentation_stable_sample : ∃ e n d d', Solo .checked soloConfig e n ∧ d ∈ e.emitted ∧
    data? d = some (0, [1]) ∧ [1] = (e.sent.drop 0).take 1 ∧ d' ∈ e.emitted ∧
    data? d' = some (1, [2]) ∧ (e.emitted.filter fun d => data? d = some (0, [1])).length = 2 := by
  have hrun : Endpoint.plays .checked soloConfig
      (openedRun ++ [.onDatagram 4 (crafted 0 FLAG_ACK 0 [⟨1, 1⟩] []), .onTick 40])
      (fun e => decide (e.sent.length < 2 ^ 32 ∧
        (e.emitted.filter fun d => data? d = some (0, [1])).length = 2) &&
        e.emitted.any fun d => decide (data? d = some (1, [2]))) = true := by
    decide +kernel
  obtain ⟨e, he, ht⟩ := Endpoint.plays_solo hrun
  obtain ⟨h₁, h₂⟩ := Bool.and_eq_true_iff.mp ht
  obtain ⟨hsent, htwice⟩ := of_decide_eq_true h₁
  obtain ⟨d', hd', hs'⟩ := List.any_eq_true.mp h₂
  obtain ⟨d, hd⟩ := List.exists_mem_of_length_pos
    (show 0 < (e.emitted.filter fun d => data? d = some (0, [1])).length by omega)
  obtain ⟨hd, hs⟩ := List.mem_filter.mp hd
  have hs := of_decide_eq_true hs
  obtain ⟨_, hdata, _⟩ := segmentation_stable he hsent hd hs
  exact ⟨e, _, d, d', he, hd, hs, hdata, hd', of_decide_eq_true hs', htwice⟩

end Distrans
