import Distrans.Transport.Flow

/-!
# What a receiver holds and reports

The header that every emitted segment carries, in three parts.

* `RecvOk`, `RecvFits` — the receive side fits the sequence space; then a header can be built
  (`RecvFits.header`), and its window is what is left of the capacity.
* `Flow.header`, `Flow.advertised` — the header reports an acknowledgement of the protocol, and
  a window the receiver has room for.
* `Linked.emit` — emitting a segment with that header keeps both flows.
-/

set_option autoImplicit false

namespace Distrans

open Machine OrdMap Tiling

variable {cs : List (List U8)} {s : SelRep} {X Y : Endpoint} {c c' : Connection}

/-! ## What a receiver holds -/

structure RecvOk (c : Connection) : Prop where
  nonempty : ∀ e ∈ c.recvBuffer.entries, e.2 ≠ []
  ends : ∀ e ∈ c.recvBuffer.entries, e.1.toNat + e.2.length < 2 ^ 32
  held : (c.recvBuffer.entries.map fun e => e.2.length).sum + c.delivered.length < 2 ^ 32

theorem RecvOk.congr (h : RecvOk c) (hb : c'.recvBuffer = c.recvBuffer)
    (hd : c'.delivered = c.delivered) : RecvOk c' :=
  ⟨by rw [hb]; exact h.nonempty, by rw [hb]; exact h.ends, by rw [hb, hd]; exact h.held⟩

theorem len32_toNat {data : List U8} (h : data.length < 2 ^ 32) :
    (len32 data).toNat = data.length := by
  simp only [len32, BitVec.toNat_ofNat]; omega

/-- Lengths that fit together fit one by one. -/
theorem sum_len32 : ∀ {vs : List (List U8)}, (vs.map List.length).sum < 2 ^ 32 →
    ((vs.map len32).map BitVec.toNat).sum = (vs.map List.length).sum
  | [], _ => rfl
  | v :: vs, h => by
    simp only [List.map_cons, List.sum_cons] at h ⊢
    rw [len32_toNat (by omega), sum_len32 (by omega)]

/-- The bytes a side holds: the reorder buffer and what the application has not read. -/
def Connection.heldBytes (c : Connection) : Nat :=
  (c.recvBuffer.entries.map fun e => e.2.length).sum + c.delivered.length

theorem RecvOk.advertisedWindow (h : RecvOk c) (b : Build) :
    ∃ w, c.advertisedWindow b = .ok w ∧
      w.toNat = c.config.recvWindowCapacity.toNat - c.heldBytes := by
  have hheld := h.held
  have hvals : (c.recvBuffer.values.map List.length).sum =
      (c.recvBuffer.entries.map fun e => e.2.length).sum := by
    rw [OrdMap.values, List.map_map]; rfl
  have hsum : ((c.recvBuffer.values.map len32).map BitVec.toNat).sum =
      (c.recvBuffer.values.map List.length).sum := sum_len32 (by omega)
  obtain ⟨buffered, hb, hbn⟩ := b.sum_ok (show _ < 2 ^ 32 from by rw [hsum]; omega)
  have hd : (len32 c.delivered).toNat = c.delivered.length := len32_toNat (by omega)
  obtain ⟨held, hh, hhn⟩ := b.add_ok (x := buffered) (y := len32 c.delivered) (by omega)
  refine ⟨satSub c.config.recvWindowCapacity held, ?_, ?_⟩
  · simp only [Connection.advertisedWindow, hb, hh, ok_bind]
  · rw [satSub_toNat, hhn, hbn, hsum, hvals, hd]; rfl

/-- A run is extended without overflow. -/
theorem extendRun_returns (b : Build) : ∀ {es : List (U32 × List U8)} {stop : U32},
    (∀ e ∈ es, e.2 ≠ [] ∧ e.1.toNat + e.2.length < 2 ^ 32) → stop.toNat + 1 < 2 ^ 32 →
    ∃ r, Connection.extendRun b stop es = .ok r ∧ ∀ e ∈ r.2, e ∈ es
  | [], stop, _, _ => ⟨_, rfl, fun e he => he⟩
  | (start, data) :: es, stop, hes, hstop => by
    obtain ⟨following, hf, hfn⟩ := b.add_ok (x := stop) (y := 1#32) (by simpa using hstop)
    simp only [Connection.extendRun, hf, ok_bind]
    split
    · rename_i heq
      obtain ⟨hne, hend⟩ : data ≠ [] ∧ start.toNat + data.length < 2 ^ 32 :=
        hes _ List.mem_cons_self
      have hpos := List.length_pos_iff.mpr hne
      have hlen : (len32 data).toNat = data.length := len32_toNat (by omega)
      obtain ⟨past, hp, hpn⟩ := b.add_ok (x := start) (y := len32 data) (by omega)
      obtain ⟨stop', hs, hsn⟩ := b.sub_ok (x := past) (y := 1#32) (by simp; omega)
      simp at hsn
      obtain ⟨r, hr, hsub⟩ := extendRun_returns b
        (fun e he => hes e (List.mem_cons_of_mem _ he)) (show stop'.toNat + 1 < 2 ^ 32 by omega)
      simp only [hp, hs, hr, ok_bind]
      exact ⟨r, rfl, fun e he => List.mem_cons_of_mem _ (hsub e he)⟩
    · exact ⟨_, rfl, fun e he => he⟩

theorem sackRuns_returns (b : Build) : ∀ {n : Nat} {es : List (U32 × List U8)},
    (∀ e ∈ es, e.2 ≠ [] ∧ e.1.toNat + e.2.length < 2 ^ 32) →
    ∃ ranges, Connection.sackRuns b n es = .ok ranges
  | 0, _, _ => ⟨_, rfl⟩
  | n + 1, [], _ => ⟨_, rfl⟩
  | n + 1, (start, data) :: es, hes => by
    obtain ⟨hne, hend⟩ : data ≠ [] ∧ start.toNat + data.length < 2 ^ 32 := hes _ List.mem_cons_self
    have hpos := List.length_pos_iff.mpr hne
    have hlen : (len32 data).toNat = data.length := len32_toNat (by omega)
    obtain ⟨past, hp, hpn⟩ := b.add_ok (x := start) (y := len32 data) (by omega)
    obtain ⟨stop, hs, hsn⟩ := b.sub_ok (x := past) (y := 1#32) (by simp; omega)
    simp at hsn
    have htail : ∀ e ∈ es, e.2 ≠ [] ∧ e.1.toNat + e.2.length < 2 ^ 32 := fun e he =>
      hes e (List.mem_cons_of_mem _ he)
    obtain ⟨⟨stop', rest⟩, hr, hsub⟩ := extendRun_returns b htail
      (show stop.toNat + 1 < 2 ^ 32 by omega)
    obtain ⟨ranges, hrec⟩ : ∃ ranges, Connection.sackRuns b n rest = .ok ranges :=
      sackRuns_returns b fun e he => htail e (hsub e he)
    simp only [Connection.sackRuns, hp, hs, hr, hrec, ok_bind]
    exact ⟨_, rfl⟩

/-- **Every header can be built.** -/
theorem RecvOk.header (h : RecvOk c) (b : Build) (fa : Bool) : ∃ hdr, c.header b fa = .ok hdr := by
  obtain ⟨window, hw, _⟩ := h.advertisedWindow b
  obtain ⟨sack, hs⟩ : ∃ sack, c.currentSackRanges b = .ok sack :=
    sackRuns_returns b fun e he => ⟨h.nonempty e he, h.ends e he⟩
  simp only [Connection.header, hw, hs, ok_bind]
  exact ⟨_, rfl⟩

theorem extendRun_wraps : ∀ (es : List (U32 × List U8)) (stop : U32),
    ∃ r, Connection.extendRun .wrapping stop es = .ok r
  | [], stop => ⟨_, rfl⟩
  | (start, data) :: es, stop => by
    obtain ⟨following, hf⟩ : ∃ r, Build.wrapping.add stop 1#32 = .ok r := Build.wrapping_fit _ _
    obtain ⟨past, hp⟩ : ∃ r, Build.wrapping.add start (len32 data) = .ok r := Build.wrapping_fit _ _
    obtain ⟨stop', hs⟩ := Build.wrapping_sub past 1#32
    obtain ⟨r, hr⟩ := extendRun_wraps es stop'
    simp only [Connection.extendRun, hf, hp, hs, hr, ok_bind]
    split <;> exact ⟨_, rfl⟩

theorem sackRuns_wraps : ∀ (n : Nat) (es : List (U32 × List U8)),
    ∃ ranges, Connection.sackRuns .wrapping n es = .ok ranges
  | 0, _ => ⟨_, rfl⟩
  | n + 1, [] => ⟨_, rfl⟩
  | n + 1, (start, data) :: es => by
    obtain ⟨past, hp⟩ : ∃ r, Build.wrapping.add start (len32 data) = .ok r := Build.wrapping_fit _ _
    obtain ⟨stop, hs⟩ := Build.wrapping_sub past 1#32
    obtain ⟨⟨stop', rest⟩, hr⟩ := extendRun_wraps es stop
    obtain ⟨ranges, hrec⟩ := sackRuns_wraps n rest
    simp only [Connection.sackRuns, hp, hs, hr, hrec, ok_bind]
    exact ⟨_, rfl⟩

/-- What a header needs in the build `b`: without overflow checks, nothing. -/
def RecvFits (b : Build) (c : Connection) : Prop := b = .checked → RecvOk c

variable {b : Build}

theorem RecvFits.congr (h : RecvFits b c) (hb : c'.recvBuffer = c.recvBuffer)
    (hd : c'.delivered = c.delivered) : RecvFits b c' := fun hc => (h hc).congr hb hd

theorem RecvFits.header (h : RecvFits b c) (fa : Bool) : ∃ hdr, c.header b fa = .ok hdr := by
  cases b with
  | checked => exact (h rfl).header .checked fa
  | wrapping =>
    obtain ⟨buffered, hb⟩ := Build.wrapping_sum (c.recvBuffer.values.map len32)
    obtain ⟨held, hh⟩ : ∃ r, Build.wrapping.add buffered (len32 c.delivered) = .ok r :=
      Build.wrapping_fit _ _
    obtain ⟨sack, hs⟩ : ∃ sack, c.currentSackRanges .wrapping = .ok sack := sackRuns_wraps _ _
    simp only [Connection.header, Connection.advertisedWindow, hb, hh, hs, ok_bind]
    exact ⟨_, rfl⟩

theorem RecvFits.headerBytes (h : RecvFits b c) : ∃ bytes, c.headerBytes b = .ok bytes := by
  obtain ⟨hdr, hh⟩ := h.header false
  simp only [Connection.headerBytes, hh, ok_bind]
  exact ⟨_, rfl⟩

/-- Held pieces lie in order between the expected byte and the end of the stream. -/
theorem held_gapped : ∀ {es : List (U32 × List U8)} {i : Nat},
    (es.map (·.1)).Pairwise (· < ·) →
    (∀ e ∈ es, (∃ m, cs[m]? = some e.2 ∧ e.1.toNat = pos cs m) ∧ pos cs i ≤ e.1.toNat) →
    Gapped (pos cs i) (es.map fun e => (e.1.toNat, e.2)) cs.flatten.length
  | [], i, _, _ => pos_le_total cs i
  | (k, v) :: es, i, hsort, hes => by
    obtain ⟨⟨m, hv, hk⟩, hik⟩ := hes _ List.mem_cons_self
    refine ⟨hik, ?_⟩
    show Gapped (k.toNat + v.length) _ _
    rw [show k.toNat = pos cs m from hk, ← pos_succ_of_getElem? hv]
    refine held_gapped (tail_sorted hsort) fun e he => ?_
    obtain ⟨⟨m', hv', hk'⟩, _⟩ := hes e (List.mem_cons_of_mem _ he)
    refine ⟨⟨m', hv', hk'⟩, ?_⟩
    have hlt : k.toNat < e.1.toNat := key_lt_of_cons hsort he
    rw [show k.toNat = pos cs m from hk, hk'] at hlt
    rw [hk']
    refine pos_mono cs ?_
    by_contra hge
    have := pos_mono cs (show m' ≤ m by omega)
    omega

/-- What the receiver of a flow holds fits between what it has read and what has been sent. -/
theorem Flow.held_le (h : Flow cs s X Y) :
    Y.received.length + Y.conn.heldBytes ≤ X.conn.nextSeq.toNat := by
  have hg : Gapped (pos cs s.next) (Y.conn.recvBuffer.entries.map fun e => (e.1.toNat, e.2))
      cs.flatten.length := by
    refine held_gapped Y.conn.recvBuffer.sorted fun e he => ?_
    obtain ⟨m, hm, hv, hk⟩ := (h.recv.buffer e).mp he
    refine ⟨⟨m, hv, hk⟩, ?_⟩
    rw [hk]
    exact pos_mono cs (Nat.le_of_lt (h.inv.held_gt m hm))
  have hsum := hg.sum_le
  rw [List.map_map, ← h.send.nextSeq] at hsum
  have hstream := congrArg List.length h.recv.stream
  rw [List.length_append] at hstream
  have hpos : ((cs.take s.next).flatten).length = pos cs s.next := rfl
  simp only [Connection.heldBytes]
  have hcomp : (Y.conn.recvBuffer.entries.map fun e => e.2.length).sum =
      (Y.conn.recvBuffer.entries.map
        ((fun e : Nat × List U8 => e.2.length) ∘ fun e => (e.1.toNat, e.2))).sum := rfl
  omega

theorem Flow.recvOk (h : Flow cs s X Y) :
    RecvOk Y.conn where
  nonempty := fun e he => by
    obtain ⟨m, _, hv, _⟩ := (h.recv.buffer e).mp he
    exact h.send.nonempty _ (List.mem_of_getElem? hv)
  ends := fun e he => by
    obtain ⟨m, _, hv, hk⟩ := (h.recv.buffer e).mp he
    rw [hk, ← pos_succ_of_getElem? hv]
    exact h.send.pos_fits (m + 1)
  held := by
    have hle := h.held_le
    have hlt := X.conn.nextSeq.isLt
    simp only [Connection.heldBytes] at hle
    omega

/-! ## Headers report acknowledgements -/

/-- The word after the last byte of piece `k`. -/
theorem piece_end {b : Build} {start past : U32} {data : List U8} {m : Nat}
    (hfit : ∀ i, pos cs i < 2 ^ 32) (hm : cs[m]? = some data) (hs : start.toNat = pos cs m)
    (h : b.add start (len32 data) = .ok past) : past.toNat = pos cs (m + 1) := by
  have hp := pos_succ_of_getElem? hm
  have hf := hfit (m + 1)
  have hl : (len32 data).toNat = data.length := by
    simp only [len32, BitVec.toNat_ofNat]; omega
  rw [Build.add_toNat h (by omega)]
  omega

/-- The last byte of a piece that ends at boundary `m + 1`. -/
theorem last_byte {b : Build} {past stop : U32} {m : Nat} (hne : ∀ c ∈ cs, c ≠ [])
    (hm : m < cs.length) (hp : past.toNat = pos cs (m + 1)) (h : b.sub past 1#32 = .ok stop) :
    stop.toNat + 1 = pos cs (m + 1) := by
  have hlt := pos_lt hne (show m < m + 1 by omega) hm
  have hs := Build.sub_toNat h (show (1#32).toNat ≤ past.toNat by simp; omega)
  simp at hs
  omega

/-- The inner loop extends a run of held pieces by held pieces. -/
theorem extendRun_spec {b : Build} {held : Set Nat} (hne : ∀ c ∈ cs, c ≠ [])
    (hfit : ∀ i, pos cs i < 2 ^ 32) {i : Nat} :
    ∀ {es rest : List (U32 × List U8)} {stop stop' : U32} {k : Nat},
    (∀ e ∈ es, HeldTile cs held e) → i < k → k ≤ cs.length → stop.toNat + 1 = pos cs k →
    (∀ m, i ≤ m → m < k → m ∈ held) → Connection.extendRun b stop es = .ok (stop', rest) →
    (∃ k', i < k' ∧ k' ≤ cs.length ∧ stop'.toNat + 1 = pos cs k' ∧
      ∀ m, i ≤ m → m < k' → m ∈ held) ∧ ∀ e ∈ rest, HeldTile cs held e
  | [], _, _, _, k, hes, hik, hk, hstop, hrun, h => by
    cases h
    exact ⟨⟨k, hik, hk, hstop, hrun⟩, hes⟩
  | (start, data) :: es, rest, stop, stop', k, hes, hik, hk, hstop, hrun, h => by
    simp only [Connection.extendRun] at h
    obtain ⟨following, hfol, h⟩ := bind_eq_ok.mp h
    have hfol' : following.toNat = pos cs k := by
      have := hfit k
      rw [Build.add_toNat hfol (by simp; omega)]
      simpa using hstop
    split at h
    · rename_i heq
      obtain ⟨past, hpast, h⟩ := bind_eq_ok.mp h
      obtain ⟨stop₁, hstop₁, h⟩ := bind_eq_ok.mp h
      obtain ⟨m, hm, hdata, hpos⟩ := hes _ List.mem_cons_self
      have hmlt := lt_of_getElem? hdata
      have hmk : m = k := pos_inj hne (by omega) hk (by rw [← hpos, ← hfol', heq])
      subst hmk
      have hend := piece_end hfit hdata hpos hpast
      refine extendRun_spec hne hfit (fun e he => hes e (List.mem_cons_of_mem _ he))
        (show i < m + 1 by omega) hmlt (last_byte hne hmlt hend hstop₁) (fun j hij hj => ?_) h
      rcases Nat.lt_succ_iff_lt_or_eq.mp hj with hj | rfl
      · exact hrun j hij hj
      · exact hm
    · cases h
      exact ⟨⟨k, hik, hk, hstop, hrun⟩, hes⟩

/-- Every range of a header covers a run of held pieces. -/
theorem sackRuns_spec {b : Build} {held : Set Nat} (hne : ∀ c ∈ cs, c ≠ [])
    (hfit : ∀ i, pos cs i < 2 ^ 32) : ∀ {n : Nat} {es : List (U32 × List U8)}
    {ranges : List SackRange}, (∀ e ∈ es, HeldTile cs held e) →
    Connection.sackRuns b n es = .ok ranges → ∀ r ∈ ranges, SackOk cs held r
  | 0, _, _, _, h => by cases h; exact fun r hr => by cases hr
  | n + 1, [], _, _, h => by cases h; exact fun r hr => by cases hr
  | n + 1, (start, data) :: es, ranges, hes, h => by
    simp only [Connection.sackRuns] at h
    obtain ⟨past, hpast, h⟩ := bind_eq_ok.mp h
    obtain ⟨stop, hstop, h⟩ := bind_eq_ok.mp h
    obtain ⟨⟨stop', rest⟩, hext, h⟩ := bind_eq_ok.mp h
    obtain ⟨ranges', hrec, h⟩ := bind_eq_ok.mp h
    cases h
    obtain ⟨m, hm, hdata, hpos⟩ := hes _ List.mem_cons_self
    have hmlt := lt_of_getElem? hdata
    obtain ⟨⟨k, hk1, hk2, hk3, hk4⟩, hrest⟩ := extendRun_spec hne hfit (i := m) (k := m + 1)
      (fun e he => hes e (List.mem_cons_of_mem _ he)) (by omega) hmlt
      (last_byte hne hmlt (piece_end hfit hdata hpos hpast) hstop)
      (fun j hij hj => by rwa [show j = m by omega]) hext
    intro r hr
    rcases List.mem_cons.mp hr with rfl | hr
    · exact ⟨m, k, hk1, hk2, hpos, hk3, hk4⟩
    · exact sackRuns_spec hne hfit hrest hrec r hr

/-- The receiver's state of the moment becomes a reported acknowledgement. -/
theorem Flow.report (h : Flow cs s X Y) :
    Flow cs { s with acks := insert (s.next, s.held) s.acks } X Y := by
  have hsub : s.acks ⊆ insert (s.next, s.held) s.acks := Set.subset_insert _ _
  exact {
    inv := (SelRep.Step.report (fun _ hm => hm)).inv h.inv
    send := { h.send with
      sacked := fun k seg hm hs => (h.send.sacked k seg hm hs).mono hsub }
    recv := ⟨h.recv.expectedSeq, h.recv.stream, h.recv.buffer⟩
    fin := h.fin
    data := h.data
    acks := fun d hd f hh app hc =>
      ⟨(h.acks d hd f hh app hc).1.mono hsub, (h.acks d hd f hh app hc).2⟩
    windows := h.windows }

/-- A header built now reports it. -/
theorem Flow.header (h : Flow cs s X Y) {b : Build} {fa : Bool} {hdr : SegmentHeader}
    (hh : Y.conn.header b fa = .ok hdr) :
    HeaderOk cs { s with acks := insert (s.next, s.held) s.acks } hdr ∧ hdr.finAck = fa := by
  obtain ⟨window, _, hh⟩ := bind_eq_ok.mp hh
  obtain ⟨sack, hsack, hh⟩ := bind_eq_ok.mp hh
  cases hh
  exact ⟨⟨_, Set.mem_insert _ _, h.recv.expectedSeq, sackRuns_spec h.send.nonempty h.send.pos_fits
    (fun e he => (h.recv.buffer e).mp he) hsack⟩, rfl⟩

/-- Nor does it promise more room than there is. -/
theorem Flow.advertised (h : Flow cs s X Y) {b : Build} {fa : Bool} {hdr : SegmentHeader}
    (hh : Y.conn.header b fa = .ok hdr) : Advertised Y hdr := by
  obtain ⟨w, hw, hval⟩ := h.recvOk.advertisedWindow b
  obtain ⟨window, hwin, hh⟩ := bind_eq_ok.mp hh
  obtain ⟨sack, _, hh⟩ := bind_eq_ok.mp hh
  cases hh
  rw [hw] at hwin
  cases hwin
  have hstream := congrArg List.length h.recv.stream
  have hpos : ((cs.take s.next).flatten).length = pos cs s.next := rfl
  rw [List.length_append, hpos, ← h.recv.expectedSeq] at hstream
  simp only [Connection.heldBytes] at hval
  by_cases h0 : w = 0
  · exact Or.inl h0
  · have hne : w.toNat ≠ 0 := fun hz => h0 (BitVec.eq_of_toNat_eq hz)
    refine Or.inr ?_
    show Y.conn.expectedSeq.toNat + w.toNat ≤ _
    omega

/-! ## Emitting a segment -/

theorem Flow.emitSender (h : Flow cs s X Y) {d : Datagram}
    (hd : ∀ f hh app, Carries d f hh app →
      DataOk cs f.sequence app ∧ (f.flags &&& FLAG_FIN ≠ 0#16 → FinFact X Y)) :
    Flow cs s (X.emit [d]) Y where
  inv := h.inv
  send := ⟨h.send.nonempty, h.send.cut, h.send.stream, h.send.nextSeq, h.send.sendBase,
    h.send.tiles, h.send.sacked, h.send.fits, h.send.segment_pos⟩
  recv := h.recv
  fin := { h.fin with }
  data := fun d' hd' => by
    rcases List.mem_append.mp hd' with hd' | hd'
    · exact h.data d' hd'
    · rw [List.mem_singleton.mp hd']; exact hd
  acks := h.acks
  windows := h.windows

theorem Flow.emitReceiver (h : Flow cs s X Y) {d : Datagram}
    (hd : ∀ f hh app, Carries d f hh app → HeaderOk cs s hh ∧ (hh.finAck → FinFact X Y))
    (hw : ∀ f hh app, Carries d f hh app → Advertised Y hh) :
    Flow cs s X (Y.emit [d]) where
  inv := h.inv
  send := h.send
  recv := ⟨h.recv.expectedSeq, h.recv.stream, h.recv.buffer⟩
  fin := { h.fin with }
  data := h.data
  acks := fun d' hd' => by
    rcases List.mem_append.mp hd' with hd' | hd'
    · exact h.acks d' hd'
    · rw [List.mem_singleton.mp hd']; exact hd
  windows := fun d' hd' => by
    rcases List.mem_append.mp hd' with hd' | hd'
    · exact h.windows d' hd'
    · rw [List.mem_singleton.mp hd']; exact hw

/-- A segment with the connection's own header, whose data (if any) is a buffered segment, whose
    FIN is backed by a pending one and whose `fin_ack` by a FIN received. -/
theorem Linked.emit (h : Linked X Y) {b : Build} {fa : Bool} {hdr : SegmentHeader} {seq : U32}
    {flags : U16} {data : List U8} (hh : X.conn.header b fa = .ok hdr)
    (hfa : fa → X.conn.peerFinSeen)
    (hdata : data = [] ∨ ∃ seg, (seq, seg) ∈ X.conn.unacked.entries ∧ seg.data = data)
    (hfin : flags &&& FLAG_FIN ≠ 0#16 → X.conn.finPending.isSome) :
    Linked (X.emit [encodeFrame seq flags (hdr.encode ++ data)]) Y := by
  obtain ⟨cs, s, cs', s', h₁, h₂⟩ := h
  obtain ⟨hok, hfaeq⟩ := h₂.header hh
  refine ⟨cs, s, cs', _, h₁.emitSender fun f hh' app hc => ?_,
    h₂.report.emitReceiver (fun f hh' app hc => ?_) (fun f hh' app hc => ?_)⟩
  · obtain ⟨hseq, hflags, _, happ⟩ := carries_encodeFrame hc
    rw [hseq, hflags, happ]
    refine ⟨hdata.imp id ?_, fun hf => h₁.fin.pending (hfin hf)⟩
    rintro ⟨seg, hm, hseg⟩
    obtain ⟨m, _, hm, hp⟩ := h₁.send.mem_tile hm
    exact ⟨m, by rw [hm, hseg], hp⟩
  · obtain ⟨_, _, hh', _⟩ := carries_encodeFrame hc
    obtain ⟨a, ha, hack, hsack⟩ := hok
    rw [hh']
    refine ⟨⟨a, ha, hack, fun r hr => hsack r (List.mem_of_mem_take hr)⟩, fun hf => ?_⟩
    exact h₂.fin.seen (hfa (by rw [← hfaeq]; exact hf))
  · obtain ⟨_, _, hh', _⟩ := carries_encodeFrame hc
    rw [hh']
    have hadv := h₂.advertised hh
    exact hadv

end Distrans
