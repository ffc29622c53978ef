import Distrans.Lib.History
import Distrans.Transport.Admission
import Distrans.Transport.Effect
import Distrans.Transport.Segmentation

/-!
# The numbers of segments

`next_seq` counts the bytes that have been cut into segments as long as it does not wrap around.
Whether it does is decided where `try_send_more` starts: `Connection.ready` is how much the loop is
going to cut, `HasRoom` says that it fits.

* `trySendLoop_room` — with that room the loop ends below `2 ^ 32`, without it beyond.
* `Numbered`, `Numbered.call` — **a call with room gives each new segment a number above all
  earlier ones**.
-/

set_option autoImplicit false

namespace Distrans

open Machine OrdMap Tiling

variable {b : Build} {c c' : Connection} {out log : List Datagram} {cs : List (List U8)} {sent : List U8}
  {l l' : Ledger} {e e' : Endpoint} {o : Connection} {a : Call}

/-! ## Numbers in order -/

/-- What `d` carries has been sent among `pre`, or its number is above all in `pre`. -/
def Ascends (pre : List Datagram) (d : Datagram) : Prop :=
  ∀ seq data, data? d = some (seq, data) → (∃ d' ∈ pre, data? d' = some (seq, data)) ∨
    ∀ d' ∈ pre, ∀ seq' data', data? d' = some (seq', data') → seq' < seq

/-- The pieces `cs` are what has been sent, each new one under a number above all earlier ones. -/
structure Numbered (cs : List (List U8)) (sent : List U8) (l : Ledger) (log : List Datagram) : Prop
    extends Cut cs sent l log where
  emitted : ∀ (seq : U32) data, Piece cs seq.toNat data → ∃ d ∈ log, data? d = some (seq, data)
  ascending : Lawful Ascends log

/-- Every number in use lies below `next_seq`. -/
theorem Cut.lt_nextSeq (h : Cut cs sent l log) {seq : U32} {data : List U8} (hp : Piece cs seq.toNat data) :
    seq < l.nextSeq := by
  have hend := hp.end_le
  obtain ⟨m, hm, _⟩ := hp
  have hpos := List.length_pos_iff.mpr (h.nonempty _ (List.mem_of_getElem? hm))
  have hnext := h.nextSeq
  show seq.toNat < l.nextSeq.toNat
  omega

/-- The stream is what has been cut and what is queued. -/
theorem Cut.length_sent (h : Cut cs sent l log) : sent.length = l.nextSeq.toNat + l.sendQueue.length := by
  rw [h.stream, List.length_append, h.nextSeq]

/-- A deed that leaves the total below `2 ^ 32` keeps the numbers in order. -/
theorem Numbered.deed (h : Numbered cs sent l log) (hfit : sent.length - l'.sendQueue.length < 2 ^ 32)
    (hd : Deed b o a l l' out) : ∃ ds, Numbered (cs ++ ds) sent l' (log ++ out) := by
  rcases hd.stream with ⟨hq, hn, hu, hout⟩ | ⟨n, d, v, hn, hq, hn32, hadd, hqueue, hu, hv, rfl, hs⟩
  · refine ⟨[], ?_⟩
    rw [List.append_nil]
    refine ⟨h.toCut.keep hq hn hu hout, fun seq data hp => ?_,
      lawful_append h.ascending fun es₁ d es₂ hes seq data hdata => ?_⟩
    · obtain ⟨d, hd, hdata⟩ := h.emitted seq data hp
      exact ⟨d, List.mem_append_left _ hd, hdata⟩
    · -- the buffer holds pieces, and pieces have been sent
      obtain ⟨seg, hm, rfl⟩ := hout d (by rw [hes]; simp) seq data hdata
      obtain ⟨d', hd', hdata'⟩ := h.emitted seq seg.data (h.buffer seq seg hm)
      exact Or.inl ⟨d', List.mem_append_left _ hd', hdata'⟩
  · have hlen := h.toCut.length_sent
    rw [hqueue, List.length_drop] at hfit
    have hnext : l'.nextSeq.toNat = l.nextSeq.toNat + n := Build.add_ofNat_toNat hadd (by omega)
    have hne : l.sendQueue.take n ≠ [] := by
      rw [← List.length_pos_iff, List.length_take]; omega
    refine ⟨[l.sendQueue.take n], h.toCut.concat hn hq hnext hqueue hu hv hs, fun seq data hp => ?_,
      lawful_append h.ascending fun es₁ d₁ es₂ hes seq data hdata => ?_⟩
    · rcases hp.of_concat with hp | ⟨hseq, rfl⟩
      · obtain ⟨d', hd', hdata⟩ := h.emitted seq data hp
        exact ⟨d', List.mem_append_left _ hd', hdata⟩
      · have hnum : seq = l.nextSeq := BitVec.eq_of_toNat_eq (by rw [hseq, h.nextSeq])
        rw [hnum]
        exact ⟨d, by simp, hs.data hne⟩
    · obtain ⟨rfl, rfl⟩ : es₁ = [] ∧ d₁ = d := by
        cases es₁ with
        | nil => exact ⟨rfl, (List.cons.inj hes).1.symm⟩
        | cons x xs => simp at hes
      obtain ⟨rfl, rfl⟩ := hs.data_eq hdata
      rw [List.append_nil]
      exact Or.inr fun d' hd' seq' data' hdata' => h.toCut.lt_nextSeq (h.frames d' hd' seq' data' hdata')

theorem Deed.queue_le (hd : Deed b o a l l' out) : l'.sendQueue.length ≤ l.sendQueue.length := by
  rcases hd.stream with ⟨hq, _⟩ | ⟨n, d, v, _, _, _, _, hqueue, _⟩
  · rw [hq]
  · rw [hqueue, List.length_drop]; omega

theorem Numbered.deeds (h : Numbered cs sent l log) (hd : Deeds b o a l l' out)
    (hfit : sent.length - l'.sendQueue.length < 2 ^ 32) :
    ∃ ds, Numbered (cs ++ ds) sent l' (log ++ out) := by
  induction hd with
  | refl => exact ⟨[], by rw [List.append_nil, List.append_nil]; exact h⟩
  | tail _ hd ih =>
    have hle := hd.queue_le
    obtain ⟨ds, hds⟩ := ih (by omega)
    obtain ⟨ds', hds'⟩ := hds.deed hfit hd
    exact ⟨ds ++ ds', by rw [← List.append_assoc, ← List.append_assoc]; exact hds'⟩

/-! ## Room for what is going to be cut -/

/-- How many bytes `try_send_more` is going to cut. -/
def Connection.ready (c : Connection) : Nat := min c.sendQueue.length c.admissible

/-- They fit the sequence space. -/
def Connection.HasRoom (c : Connection) : Prop := c.nextSeq.toNat + c.ready < 2 ^ 32

/-- The bytes in flight are pieces below `next_seq`, none of them twice. -/
theorem Cut.inFlight_le (h : Cut cs sent c.ledger log) : c.inFlight ≤ c.nextSeq.toNat := by
  obtain ⟨es, hes⟩ : ∃ es, es = c.unacked.entries.map fun e => (e.1, e.2.data) := ⟨_, rfl⟩
  have hsort : (es.map (·.1)).Pairwise (· < ·) := by
    rw [hes, List.map_map]
    exact c.unacked.sorted
  have hpieces : ∀ e ∈ es, (∃ m, cs[m]? = some e.2 ∧ e.1.toNat = pos cs m) ∧ pos cs 0 ≤ e.1.toNat := by
    intro e he
    rw [hes] at he
    obtain ⟨e', he', rfl⟩ := List.mem_map.mp he
    exact ⟨h.buffer e'.1 e'.2 he', Nat.zero_le _⟩
  have hsum := (held_gapped hsort hpieces).sum_le
  have hflight : ((es.map fun e => (e.1.toNat, e.2)).map fun e => e.2.length).sum = c.inFlight := by
    rw [hes, List.map_map, List.map_map, Connection.inFlight, Connection.segments, List.map_map]
    rfl
  have hnext : c.nextSeq.toNat = cs.flatten.length := h.nextSeq
  omega

/-- The cap is what the window admits. -/
theorem Cut.cap_eq (h : Cut cs sent c.ledger log) {cap : U32} (hcap : c.admissionCap b = .ok cap) :
    cap.toNat = c.admissible := by
  obtain ⟨cap', hcap', hval⟩ :=
    admissionCap_returns (Nat.lt_of_le_of_lt h.inFlight_le c.nextSeq.isLt) b
  rw [hcap] at hcap'
  cases hcap'
  exact hval

/-- Cutting a chunk uses up room and readiness alike. -/
theorem Cut.ready_cut (h : Cut cs sent c.ledger log) {n : Nat} {d : Datagram} (hn : 0 < n)
    (hq : n ≤ c.sendQueue.length) (hle : n ≤ c.admissible) (hroom : c.nextSeq.toNat + n < 2 ^ 32)
    (hcut : c.cutSegment b n = .ok (c', d)) :
    c'.nextSeq.toNat = c.nextSeq.toNat + n ∧ c'.ready + n = c.ready := by
  obtain ⟨nextSeq, bytes, hadd, _, _, hc'⟩ := cutSegment_spec hcut
  have htake : (c.sendQueue.take n).length = n := by rw [List.length_take]; omega
  have hlast : (c.unacked.insert c.nextSeq ⟨c.sendQueue.take n, c.now, 0, false⟩).entries =
      c.unacked.entries ++ [(c.nextSeq, ⟨c.sendQueue.take n, c.now, 0, false⟩)] :=
    entries_insert_of_gt fun e he => h.lt_nextSeq (h.buffer e.1 e.2 he)
  have hflight : c'.inFlight = c.inFlight + n := by
    rw [hc']
    simp only [Connection.inFlight, Connection.segments, hlast, List.map_append, List.map_cons,
      List.map_nil, List.sum_append, List.sum_cons, List.sum_nil, htake, Nat.add_zero]
  have hwindow : c'.effectiveWindow = c.effectiveWindow := by rw [hc']; rfl
  have hqueue : c'.sendQueue.length = c.sendQueue.length - n := by rw [hc', List.length_drop]
  refine ⟨by rw [hc']; exact Build.add_ofNat_toNat hadd hroom, ?_⟩
  -- something is in flight now, so that the minimum of one byte no longer applies
  have hadm : c'.admissible + n = c.admissible := by
    have hnz : ¬ c'.inFlight = 0 := by omega
    rw [Connection.admissible, if_neg hnz, hwindow, hflight]
    rw [Connection.admissible] at hle ⊢
    split at hle <;> rename_i hz
    · rw [if_pos hz]; omega
    · rw [if_neg hz]; omega
  rw [Connection.ready, Connection.ready, hqueue]
  omega

/-- The loop stops when nothing is ready. -/
theorem Cut.ready_zero (h : Cut cs sent c.ledger log)
    (hstop : c.sendQueue = [] ∨ c.admissionCap b = .ok 0) : c.ready = 0 := by
  rcases hstop with hq | hcap
  · rw [Connection.ready, hq]; exact Nat.zero_min _
  · rw [Connection.ready, ← h.cap_eq hcap]
    exact Nat.min_zero _

/-- A chunk is the next piece. -/
theorem Cut.chunk (h : Cut cs sent c.ledger log) {n : Nat} {d : Datagram} (hn : 0 < n)
    (hq : n ≤ c.sendQueue.length) (hroom : c.nextSeq.toNat + n < 2 ^ 32)
    (hcut : c.cutSegment b n = .ok (c', d)) :
    Cut (cs ++ [c.sendQueue.take n]) sent c'.ledger (log ++ [d]) := by
  obtain ⟨nextSeq, bytes, hadd, hbytes, rfl, rfl⟩ := cutSegment_spec hcut
  exact h.concat hn hq (Build.add_ofNat_toNat hadd hroom) rfl rfl rfl (headerBytes_wire hbytes _ _ _)

theorem trySendLoop_queue_le {fuel : Nat} (h : c.trySendLoop b fuel = .ok (c', out)) :
    c'.sendQueue.length ≤ c.sendQueue.length := by
  refine trySendLoop_keeps (P := fun c' => c'.sendQueue.length ≤ c.sendQueue.length) ?_ h (Nat.le_refl _)
  intro c₁ c₂ n d hle _ _ hcut
  rw [cutSegment_queue hcut, List.length_drop]
  omega

/-- **The loop ends below `2 ^ 32` if there is room for what is ready, and beyond if not.** -/
theorem trySendLoop_room : ∀ {fuel : Nat} {c c' : Connection} {out log : List Datagram}
    {cs : List (List U8)}, Cut cs sent c.ledger log → 1 ≤ c.config.segmentSize →
    c.trySendLoop b fuel = .ok (c', out) → (c.HasRoom ↔ sent.length - c'.sendQueue.length < 2 ^ 32)
  | 0, _, _, _, _, _, _, _, h => by cases h
  | fuel + 1, c, c', out, log, cs, hcut, hseg, h => by
    have htotal : sent.length = c.nextSeq.toNat + c.sendQueue.length := hcut.length_sent
    have hnow := c.nextSeq.isLt
    rcases trySendLoop_cases hseg h with ⟨rfl, _, hstop⟩ |
      ⟨n, cap, c₁, d, out₁, hcap, hn, hq, hle, hns, hchunk, hrec, _⟩
    · rw [Connection.HasRoom, hcut.ready_zero hstop]
      omega
    · have hadm : n ≤ c.admissible := by
        rw [← hcut.cap_eq hcap]
        exact hle
      have hqueue₁ : c₁.sendQueue = c.sendQueue.drop n := cutSegment_queue hchunk
      by_cases hroom : c.nextSeq.toNat + n < 2 ^ 32
      · obtain ⟨hnext, hready⟩ := hcut.ready_cut hn hq hadm hroom hchunk
        have hmore := trySendLoop_room (hcut.chunk hn hq hroom hchunk)
          (by rw [(cutSegment_state hchunk).2]; exact hseg) hrec
        rw [← hmore, Connection.HasRoom, Connection.HasRoom, hnext, ← hready]
        omega
      · -- this chunk passes the end of the sequence space, and the rest of the loop takes nothing back
        have hle' := trySendLoop_queue_le hrec
        rw [hqueue₁, List.length_drop] at hle'
        have hready : n ≤ c.ready := Nat.le_min.mpr ⟨hq, hadm⟩
        rw [Connection.HasRoom]
        omega

/-- So does `drain_and_maybe_fin`. -/
theorem drainAndMaybeFin_room (hcut : Cut cs sent c.ledger log) (hseg : 1 ≤ c.config.segmentSize)
    (h : c.drainAndMaybeFin b = .ok (c', out)) :
    (c.isOpen → c.HasRoom) ↔ sent.length - c'.sendQueue.length < 2 ^ 32 := by
  obtain ⟨⟨c₁, out₁⟩, h₁, h⟩ := bind_eq_ok.mp h
  obtain ⟨⟨c₂, fin⟩, h₂, h⟩ := bind_eq_ok.mp h
  cases h
  have hqueue₂ : c₂.sendQueue = c₁.sendQueue := by cases maybeSendFin_branch h₂ <;> rfl
  have hqueue : c₂.checkFullyClosed.sendQueue = c₁.sendQueue := by
    rw [← hqueue₂]
    unfold Connection.checkFullyClosed
    split <;> rfl
  rw [hqueue]
  unfold Connection.trySendMore at h₁
  split at h₁
  · rename_i ho
    rw [← trySendLoop_room hcut hseg h₁]
    exact ⟨fun hr => hr ho, fun hr _ => hr⟩
  · rename_i ho
    cases h₁
    have htotal : sent.length = c.nextSeq.toNat + c.sendQueue.length := hcut.length_sent
    have hnow := c.nextSeq.isLt
    exact ⟨fun _ => by omega, fun _ ho' => absurd ho' ho⟩

/-- A chunk that fits is cut where a header can be built, and the header stays the same. -/
theorem chunk_returns {bytes : List U8} (hbytes : c.headerBytes b = .ok bytes) {n : Nat}
    (hroom : c.nextSeq.toNat + n < 2 ^ 32) :
    ∃ c' d, c.cutSegment b n = .ok (c', d) ∧ c'.headerBytes b = .ok bytes := by
  have hnat : (BitVec.ofNat 32 n).toNat = n := by rw [BitVec.toNat_ofNat]; omega
  obtain ⟨nextSeq, hadd, _⟩ := b.add_ok (x := c.nextSeq) (y := BitVec.ofNat 32 n) (by omega)
  have hsame : Connection.headerBytes b { c with sendQueue := c.sendQueue.drop n, nextSeq } = .ok bytes :=
    hbytes
  simp only [Connection.cutSegment, hadd, hsame, ok_bind]
  exact ⟨_, _, rfl, hbytes⟩

/-- With room, and where a header can be built, the loop returns. -/
theorem trySendLoop_returns_of_room {fuel : Nat} {bytes : List U8} (hcut : Cut cs sent c.ledger log)
    (hseg : 1 ≤ c.config.segmentSize) (hroom : c.HasRoom) (hbytes : c.headerBytes b = .ok bytes)
    (hf : c.sendQueue.length < fuel) : ∃ r, c.trySendLoop b fuel = .ok r := by
  refine trySendLoop_ends
    (P := fun c => (∃ cs log, Cut cs sent c.ledger log) ∧ c.HasRoom ∧ c.headerBytes b = .ok bytes)
    (fun {c} ⟨⟨cs, log, hcut⟩, _, _⟩ => ?_)
    (fun {c n cap} ⟨⟨cs, log, hcut⟩, hroom, hbytes⟩ hcap hn hq _ hle => ?_)
    ⟨⟨cs, log, hcut⟩, hroom, hbytes⟩ hseg hf
  · obtain ⟨cap, hcap, _⟩ :=
      admissionCap_returns (Nat.lt_of_le_of_lt hcut.inFlight_le c.nextSeq.isLt) b
    exact ⟨cap, hcap⟩
  · rw [hcut.cap_eq hcap] at hle
    have hready : n ≤ c.ready := Nat.le_min.mpr ⟨hq, hle⟩
    have hroom' : c.nextSeq.toNat + n < 2 ^ 32 :=
      Nat.lt_of_le_of_lt (Nat.add_le_add_left hready _) hroom
    obtain ⟨c₁, d, hchunk, hbytes₁⟩ := chunk_returns hbytes hroom'
    obtain ⟨hnext, hready₁⟩ := hcut.ready_cut hn hq hle hroom' hchunk
    refine ⟨c₁, d, hchunk, ⟨_, _, hcut.chunk hn hq hroom' hchunk⟩, ?_, hbytes₁⟩
    rw [Connection.HasRoom] at hroom ⊢
    omega

/-! ## Calls -/

/-- Neither queue nor `next_seq` changes. -/
def SameStream (c c' : Connection) : Prop := c'.sendQueue = c.sendQueue ∧ c'.nextSeq = c.nextSeq

theorem SameStream.trans {c₁ c₂ : Connection} (h : SameStream c c₁) (h' : SameStream c₁ c₂) : SameStream c c₂ :=
  ⟨h'.1.trans h.1, h'.2.trans h.2⟩

theorem tickHandshake_stream (h : c.tickHandshake b = .ok (c', out)) : SameStream c c' := by
  cases tickHandshake_branch h <;> exact ⟨rfl, rfl⟩

theorem tickData_stream (h : c.tickData b = .ok (c', out)) : SameStream c c' := by
  cases tickData_branch h <;> exact ⟨rfl, rfl⟩

theorem tickFin_stream (h : c.tickFin b = .ok (c', out)) : SameStream c c' := by
  cases tickFin_branch h <;> exact ⟨rfl, rfl⟩

/-- Up to `try_send_more` a call has queued what it was given, -/
theorem Drains.stream (hd : Drains b c a c') :
    c'.sendQueue = c.sendQueue ++ a.input ∧ c'.nextSeq = c.nextSeq := by
  cases hd with
  | send now data => exact ⟨rfl, rfl⟩
  | close now => exact ⟨(List.append_nil _).symm, rfl⟩
  | @tick now _ _ _ _ _ h₁ _ h₂ _ =>
    have hsame : SameStream (c.advance now) c' := (tickData_stream h₁).trans (tickFin_stream h₂)
    exact ⟨hsame.1.trans (List.append_nil _).symm, hsame.2⟩
  | @segment now d f h app c₁ c₂ c₃ out₁ resent isFin _ _ harm ho hap hdel _ =>
    obtain ⟨st, hs, r, rfl⟩ := handshakeArm_fields harm
    have hacked : SameStream c c₂ := by
      split at hap
      · exact ⟨(applyAck_acked hap).queue, (applyAck_acked hap).nextSeq⟩
      · cases hap; exact ⟨rfl, rfl⟩
    obtain ⟨buf, ex, st', del, rfl⟩ := (deliverData_delivers hdel).fields
    exact ⟨hacked.1.trans (List.append_nil _).symm, hacked.2⟩

/-- and what it has done is deeds. -/
theorem Drains.deeds (hd : Drains b c a c') :
    ∃ out, Deeds b c a (c.posted a) c'.ledger out := by
  have hposted : ∀ now, a.tick? = some now → a.input = [] → c.posted a = (c.advance now).ledger := by
    intro now ht hi
    simp only [Connection.posted, Connection.clock, ht, hi, List.append_nil]
    rfl
  cases hd with
  | send now data => exact ⟨[], .refl⟩
  | close now =>
    rw [hposted now rfl rfl]
    exact ⟨[], .refl⟩
  | @tick now c₁ _ out₁ out₂ _ h₁ _ h₂ _ =>
    rw [hposted now rfl rfl]
    have hdata : Deeds b c (.onTick now) (c.advance now).ledger c₁.ledger out₁ := tickData_deeds rfl h₁
    exact ⟨_, hdata.trans (tickFin_deeds h₂)⟩
  | @segment now d f h app c₁ c₂ c₃ out₁ resent isFin hcar _ harm ho hap hdel _ =>
    rw [hposted now rfl rfl]
    have hseg := hcar.segment?_eq now
    have hadm : c.admits (f.flags &&& FLAG_SYN != 0#16) (f.flags &&& FLAG_ACK != 0#16) = true :=
      handshakeArm_admits (c := { c.advance now with peerWindow := h.window }) harm ho
    have hgreet : Deeds b c (.onDatagram now d) (c.advance now).ledger c₁.ledger out₁ :=
      handshakeArm_deeds (c := { c.advance now with peerWindow := h.window })
        (fun hst hsyn => ⟨rfl, hst, _, hseg, hsyn⟩) harm
    have hacked : Deeds b c (.onDatagram now d) c₁.ledger c₂.ledger resent.toList := by
      split at hap
      · rename_i hack
        refine applyAck_deeds (fun hres => ?_) hap
        obtain ⟨st, hs, r, rfl⟩ := handshakeArm_fields harm
        exact ⟨rfl, h, ackOf_admitted hcar hack hadm, hres⟩
      · cases hap; exact .refl
    rw [← deliverData_ledger hdel] at hacked
    exact ⟨_, hgreet.trans hacked⟩

/-- A call that does not reach `try_send_more` takes nothing from the queue. -/
theorem call_drains (hr : e.call b a = .ok e') :
    (∃ c, Drains b e.conn a c) ∨ e'.conn.sendQueue = e.conn.sendQueue ++ a.input := by
  cases a with
  | send now data => exact Or.inl ⟨_, .send now data⟩
  | close now => exact Or.inl ⟨_, .close now⟩
  | recv =>
    cases hr
    exact Or.inr (List.append_nil _).symm
  | onTick now =>
    obtain ⟨⟨c', out⟩, hc, hr⟩ := bind_eq_ok.mp hr
    cases hr
    simp only [Call.input, List.append_nil, Endpoint.put_conn]
    cases onTick_branch hc with
    | handshake _ hc => exact Or.inr (tickHandshake_stream (c := e.conn.advance now) hc).1
    | opened ho hc =>
      obtain ⟨c₁, out₁, h₁, hc⟩ := tickOpen_parts hc
      rcases hc with ⟨_, rfl, _⟩ | ⟨hf₁, c₂, out₂, h₂, hc⟩
      · exact Or.inr (tickData_stream (c := e.conn.advance now) h₁).1
      · rcases hc with ⟨_, rfl, _⟩ | ⟨hf₂, out₃, _, _⟩
        · exact Or.inr ((tickData_stream (c := e.conn.advance now) h₁).trans (tickFin_stream h₂)).1
        · exact Or.inl ⟨_, .tick ho h₁ hf₁ h₂ hf₂⟩
    | rest => exact Or.inr rfl
  | onDatagram now d =>
    obtain ⟨⟨c', out⟩, hc, hr⟩ := bind_eq_ok.mp hr
    cases hr
    simp only [Call.input, List.append_nil, Endpoint.put_conn]
    rcases onDatagram_cases hc with ⟨rfl, _⟩ | ⟨f, h, app, hcar, hs⟩
    · exact Or.inr rfl
    · rcases onSegment_parts hs with ⟨_, st, hs', r, rfl⟩ | ⟨_, c₁, out₁, out₂, harm, ho, hblock, _⟩
      · exact Or.inr rfl
      · obtain ⟨c₂, resent, c₃, acks, out₄, hap, hdel, hans, _, _⟩ := openBlock_parts hblock
        refine Or.inl ⟨_, .segment hcar rfl harm ho hap hdel fun hplain => ?_⟩
        rw [if_neg (by rw [hplain]; exact Bool.false_ne_true)] at hans
        obtain ⟨ack, hack, _⟩ := hans
        exact ⟨ack, hack⟩

/-- Wherever the call reaches `try_send_more` in an open connection, there is room for what is
    going to be cut. -/
def Endpoint.Room (b : Build) (e : Endpoint) (a : Call) : Prop :=
  ∀ c, Drains b e.conn a c → c.isOpen → c.HasRoom

/-- There is room for all that is queued. -/
theorem room_of_fits (hfit : e.conn.nextSeq.toNat + (e.conn.sendQueue.length + a.input.length) < 2 ^ 32) :
    e.Room b a := by
  intro c hd _
  obtain ⟨hqueue, hnext⟩ := hd.stream
  have hready : c.ready ≤ c.sendQueue.length := Nat.min_le_left _ _
  rw [hqueue, List.length_append] at hready
  rw [Connection.HasRoom, hnext]
  omega

/-- What a call is given joins the queue. -/
theorem Numbered.posted (h : Numbered cs e.sent e.conn.ledger e.emitted) (a : Call) :
    Numbered cs (e.sent ++ a.input) (e.conn.posted a) e.emitted :=
  ⟨⟨h.nonempty, by rw [h.stream, List.append_assoc]; rfl, h.nextSeq, h.buffer, h.frames⟩, h.emitted,
    h.ascending⟩

/-- Where a call reaches `try_send_more` the numbers are still in order. -/
theorem Numbered.drains (h : Numbered cs e.sent e.conn.ledger e.emitted) (hd : Drains b e.conn a c) :
    ∃ ds log, Numbered (cs ++ ds) (e.sent ++ a.input) c.ledger log := by
  obtain ⟨out, hdeeds⟩ := hd.deeds
  have hfit : (e.sent ++ a.input).length - c.ledger.sendQueue.length < 2 ^ 32 := by
    have htotal := (h.posted a).toCut.length_sent
    have hqueue : c.ledger.sendQueue = (e.conn.posted a).sendQueue := hd.stream.1
    have hnow := (e.conn.posted a).nextSeq.isLt
    rw [hqueue]
    omega
  obtain ⟨ds, hds⟩ := (h.posted a).deeds hdeeds hfit
  exact ⟨ds, _, hds⟩

/-- **A call ends below `2 ^ 32` if it has room, and beyond if not.** -/
theorem Numbered.room_iff (h : Numbered cs e.sent e.conn.ledger e.emitted) (hcuts : e.conn.ledger.Cuts)
    (hseg : 1 ≤ e.conn.config.segmentSize) (hr : e.call b a = .ok e') :
    e.Room b a ↔ e'.sent.length - e'.conn.sendQueue.length < 2 ^ 32 := by
  obtain ⟨_, _, _, hsent⟩ := call_deeds hcuts hr
  have hevery : ∀ c, Drains b e.conn a c →
      ((c.isOpen → c.HasRoom) ↔ e'.sent.length - e'.conn.sendQueue.length < 2 ^ 32) := by
    intro c hd
    obtain ⟨ds, log, hnum⟩ := h.drains hd
    obtain ⟨out, hdrain⟩ := hd.call hr
    have hcfg : c.config = e.conn.config := (AdmitsAt.within hd).config
    rw [hsent]
    exact drainAndMaybeFin_room hnum.toCut (by rw [hcfg]; exact hseg) hdrain
  rcases call_drains hr with ⟨c, hd⟩ | hqueue
  · exact ⟨fun hroom => (hevery c hd).mp (hroom c hd), fun hlt c' hd' => (hevery c' hd').mpr hlt⟩
  · have htotal := (h.posted a).toCut.length_sent
    have hnow := (e.conn.posted a).nextSeq.isLt
    have hlt : e'.sent.length - e'.conn.sendQueue.length < 2 ^ 32 := by
      rw [hsent, hqueue]
      have hposted : (e.conn.posted a).sendQueue = e.conn.sendQueue ++ a.input := rfl
      rw [hposted] at htotal
      omega
    exact ⟨fun _ => hlt, fun _ c' hd' => (hevery c' hd').mpr hlt⟩

/-- **A call with room keeps the numbers in order.** -/
theorem Numbered.call (h : Numbered cs e.sent e.conn.ledger e.emitted) (hcuts : e.conn.ledger.Cuts)
    (hseg : 1 ≤ e.conn.config.segmentSize) (hroom : e.Room b a) (hr : e.call b a = .ok e') :
    ∃ ds, Numbered (cs ++ ds) e'.sent e'.conn.ledger e'.emitted := by
  obtain ⟨out, hdeeds, hem, hsent⟩ := call_deeds hcuts hr
  have hfit := (h.room_iff hcuts hseg hr).mp hroom
  rw [hsent] at hfit
  rw [hem, hsent]
  exact (h.posted a).deeds hdeeds hfit

/-- In a checked build a call that returns had room. -/
theorem Numbered.room_of_checked (h : Numbered cs e.sent e.conn.ledger e.emitted)
    (hcuts : e.conn.ledger.Cuts) (hseg : 1 ≤ e.conn.config.segmentSize) (hr : e.call .checked a = .ok e') :
    e.Room .checked a := by
  obtain ⟨out, hdeeds, _, hsent⟩ := call_deeds hcuts hr
  obtain ⟨cs', log, hcut⟩ : ∃ cs' log, Cut cs' (e.sent ++ a.input) e'.conn.ledger log := by
    refine hdeeds.keeps (P := fun l => ∃ cs' log, Cut cs' (e.sent ++ a.input) l log) ?_
      ⟨cs, e.emitted, (h.posted a).toCut⟩
    rintro l l' out ⟨cs', log, hcut⟩ hd
    rcases hd.stream with ⟨hq, hn, hu, hout⟩ | ⟨n, d, v, hn, hq, hn32, hadd, hqueue, hu, hv, rfl, hs⟩
    · exact ⟨cs', _, hcut.keep hq hn hu hout⟩
    · have hnat : (BitVec.ofNat 32 n).toNat = n := by rw [BitVec.toNat_ofNat]; omega
      have hnext := (Build.checked_add hadd).2
      rw [hnat] at hnext
      exact ⟨_, _, hcut.concat hn hq hnext hqueue hu hv hs⟩
  have htotal : e'.sent.length = e'.conn.nextSeq.toNat + e'.conn.sendQueue.length := by
    rw [hsent]
    exact hcut.length_sent
  have hnow := e'.conn.nextSeq.isLt
  exact (h.room_iff hcuts hseg hr).mpr (by omega)

/-- A connection without a history has not cut anything. -/
theorem Born.numbered {cfg : Config} (h : Born b cfg e) : Numbered [] e.sent e.conn.ledger e.emitted := by
  refine ⟨h.cut, fun seq data hp => ?_, ?_⟩
  · obtain ⟨m, hm, _⟩ := hp
    cases hm
  · obtain ⟨_, t, hs, listening, _, hem⟩ := h.ledger
    rcases hem with ⟨_, hem⟩ | ⟨_, _, d, hd, hem⟩
    · rw [hem]
      exact lawful_nil
    · rw [hem]
      intro pre d' hpre seq data hdata
      -- the only frame is a SYN
      have hd' : d' = d := List.mem_singleton.mp (hpre.subset (by simp))
      rw [hd'] at hdata
      obtain ⟨seq', flags, hw, _⟩ := hd
      simp [data?, hw] at hdata

end Distrans
