import Distrans.Lib.Journal
import Distrans.Transport.Ledger

/-!
# How often a segment has been transmitted

A journal of what a connection has emitted, with the tick of every frame.  `Tallied` — the
retransmission counter of a buffered segment is the number of its transmissions less one, and its
`sent_at` the tick of the last one, whatever deeds were done (`Tallied.deed`, `Tallied.call`).
-/

set_option autoImplicit false

namespace Distrans

open Machine OrdMap Journal

variable {b : Build} {o : Connection} {a : Call} {l l' : Ledger} {out : List Datagram} {N : Nat}

abbrev Log := List (Tick × Datagram)

variable {log : Log}

/-- When the segment at `k` was transmitted. -/
abbrev sentTimes (k : U32) (log : Log) : List Tick := times item? (.data k) log

theorem sentTimes_append (k : U32) (log log' : Log) :
    sentTimes k (log ++ log') = sentTimes k log ++ sentTimes k log' :=
  times_append item? (.data k) log log'

/-- A batch without a copy of the segment adds nothing. -/
theorem sentTimes_idle {k : U32} {t : Tick} (h : ∀ d ∈ out, item? d ≠ some (.data k)) :
    sentTimes k (log ++ stamp t out) = sentTimes k log := by
  rw [sentTimes_append, sentTimes, sentTimes, times_stamp_of_not_mem h, List.append_nil]

/-- `N` bytes have been given to send; `log` is what has been emitted. -/
structure Tallied (N : Nat) (l : Ledger) (log : Log) : Prop where
  total : l.nextSeq.toNat + l.sendQueue.length = N
  past : ∀ e ∈ log, e.1 ≤ l.now
  fresh : ∀ k, l.nextSeq ≤ k → sentTimes k log = []
  live : ∀ k seg, (k, seg) ∈ l.unacked.entries → k < l.nextSeq ∧ seg.data ≠ [] ∧
    (sentTimes k log).length = seg.retransmitCount.toNat + 1 ∧
    (sentTimes k log).getLast? = some seg.sentAt

/-! ## What is in a batch -/

theorem not_data_of_none {d : Datagram} (h : item? d = none) (k : U32) : item? d ≠ some (.data k) := by
  rw [h]; exact nofun

theorem not_data_of_handshake {d : Datagram} (h : item? d = some .handshake) (k : U32) :
    item? d ≠ some (.data k) := by
  rw [h]; exact nofun

/-- The copies of a segment among the frames of a sweep. -/
theorem Resent.copies {u : OrdMap U32 UnackedSegment} (h : Resent u out)
    (hne : ∀ k seg, (k, seg) ∈ u.entries → seg.data ≠ []) (t : Tick) (k : U32) :
    sentTimes k (stamp t out) =
      ((u.entries.filter fun e => !e.2.sacked).filter fun e => e.1 = k).map fun _ => t := by
  have hgo : ∀ {es : List (U32 × UnackedSegment)} {out : List Datagram},
      List.Forall₂ (fun d e => Sends d e.1 e.2.data) out es → (∀ e ∈ es, e.2.data ≠ []) →
      sentTimes k (stamp t out) = (es.filter fun e => e.1 = k).map fun _ => t := by
    intro es out hf hes
    induction hf with
    | nil => rfl
    | @cons d e out es hd _ ih =>
      have hitem := Sends.item hd (hes e List.mem_cons_self)
      have hrest := ih fun a ha => hes a (List.mem_cons_of_mem _ ha)
      rw [sentTimes, times_stamp] at hrest ⊢
      by_cases hk : e.1 = k
      · rw [List.filter_cons_of_pos (by simp [hitem, hk]), List.filter_cons_of_pos (by simp [hk]),
          List.map_cons, List.map_cons, hrest]
      · rw [List.filter_cons_of_neg (by simp [hitem, hk]), List.filter_cons_of_neg (by simp [hk]), hrest]
  exact hgo h fun e he => hne e.1 e.2 (List.mem_of_mem_filter he)

/-- A sweep sends an unmarked segment once more. -/
theorem Resent.once {u : OrdMap U32 UnackedSegment} (h : Resent u out)
    (hne : ∀ k seg, (k, seg) ∈ u.entries → seg.data ≠ []) (t : Tick) {k : U32} {seg : UnackedSegment}
    (hm : (k, seg) ∈ u.entries) :
    sentTimes k (stamp t out) = if seg.sacked then [] else [t] := by
  have hkey : ((u.entries.filter fun e => !e.2.sacked).filter fun e => e.1 = k) =
      if seg.sacked then [] else [(k, seg)] := by
    rw [List.filter_comm, filter_key hm]
    cases hs : seg.sacked <;> simp [hs]
  rw [h.copies hne, hkey]
  split <;> rfl

/-- and one that is not in the buffer not at all. -/
theorem Resent.never {u : OrdMap U32 UnackedSegment} (h : Resent u out)
    (hne : ∀ k seg, (k, seg) ∈ u.entries → seg.data ≠ []) (t : Tick) {k : U32}
    (hm : ∀ seg, (k, seg) ∉ u.entries) : sentTimes k (stamp t out) = [] := by
  rw [h.copies hne, List.map_eq_nil_iff, List.filter_eq_nil_iff]
  rintro ⟨k', seg⟩ he hk
  have hk' : k' = k := by simpa using hk
  subst hk'
  exact hm seg (List.mem_of_mem_filter he)

/-! ## One deed -/

/-- No retransmission counter can wrap around. -/
def Connection.Roomy (b : Build) (c : Connection) : Prop :=
  b = .checked ∨ ∀ e ∈ c.unacked.entries, e.2.retransmitCount ≠ BitVec.allOnes 32

theorem add_one_toNat {x n : U32} (h : b.add x 1#32 = .ok n)
    (hx : b = .checked ∨ x ≠ BitVec.allOnes 32) : n.toNat = x.toNat + 1 := by
  rcases hx with rfl | hx
  · exact (Build.checked_add h).2
  · have hlt := x.isLt
    have hne : x.toNat ≠ 2 ^ 32 - 1 := fun heq => hx (BitVec.eq_of_toNat_eq (by rw [heq]; rfl))
    exact Build.add_toNat h (by rw [show (1#32 : U32).toNat = 1 from rfl]; omega)

theorem Connection.Roomy.add {c : Connection} (h : c.Roomy b) {e : U32 × UnackedSegment}
    (he : e ∈ c.unacked.entries) {n : U32} (hn : b.add e.2.retransmitCount 1#32 = .ok n) :
    n.toNat = e.2.retransmitCount.toNat + 1 :=
  add_one_toNat hn (h.imp id fun h => h e he)

namespace Tallied

theorem past_append (h : Tallied N l log) {t : Tick} (ht : l.now ≤ t) :
    ∀ e ∈ log ++ stamp t out, e.1 ≤ t := by
  intro e he
  rcases List.mem_append.mp he with he | he
  · exact (h.past e he).trans ht
  · obtain ⟨d, _, rfl⟩ := List.mem_map.mp he
    exact le_refl _

theorem nonempty (h : Tallied N l log) (k : U32) (seg : UnackedSegment)
    (hm : (k, seg) ∈ l.unacked.entries) : seg.data ≠ [] := (h.live k seg hm).2.1

/-- Nothing is transmitted; segments may be marked or leave the buffer. -/
theorem keep (h : Tallied N l log) (htotal : l'.nextSeq.toNat + l'.sendQueue.length = N)
    (hnow : l'.now = l.now) (hn : l'.nextSeq = l.nextSeq)
    (hu : ∀ k seg, (k, seg) ∈ l'.unacked.entries → ∃ s, (k, { seg with sacked := s }) ∈ l.unacked.entries)
    (hout : ∀ d ∈ out, ∀ k, item? d ≠ some (.data k)) : Tallied N l' (log ++ stamp l.now out) := by
  have htimes : ∀ k, sentTimes k (log ++ stamp l.now out) = sentTimes k log := fun k =>
    sentTimes_idle fun d hd => hout d hd k
  refine ⟨htotal, ?_, fun k hk => ?_, fun k seg hm => ?_⟩
  · rw [hnow]
    exact h.past_append (le_refl _)
  · rw [htimes]
    exact h.fresh k (by rw [← hn]; exact hk)
  · obtain ⟨s, hm'⟩ := hu k seg hm
    obtain ⟨hlt, hne, hlen, hlast⟩ := h.live k _ hm'
    rw [htimes, hn]
    exact ⟨hlt, hne, hlen, hlast⟩

/-- Some segments are sent again: for each, either it is not among the frames and is unchanged,
    or it is there once and its counter and its tick say so. -/
theorem again (h : Tallied N l log) {u : OrdMap U32 UnackedSegment}
    (hu : ∀ k seg, (k, seg) ∈ u.entries → ∃ old, (k, old) ∈ l.unacked.entries ∧ seg.data = old.data ∧
      ((seg = old ∧ sentTimes k (stamp l.now out) = []) ∨
        (seg.retransmitCount.toNat = old.retransmitCount.toNat + 1 ∧ seg.sentAt = l.now ∧
          sentTimes k (stamp l.now out) = [l.now])))
    (hfresh : ∀ k, l.nextSeq ≤ k → sentTimes k (stamp l.now out) = []) (listening failed : Bool) :
    Tallied N { l with unacked := u, listening, failed } (log ++ stamp l.now out) := by
  refine ⟨h.total, h.past_append (le_refl _), fun k hk => ?_, fun k seg hm => ?_⟩
  · rw [sentTimes_append, h.fresh k hk, List.nil_append]
    exact hfresh k hk
  · obtain ⟨old, hm', hdata, hor⟩ := hu k seg hm
    obtain ⟨hlt, hne, hlen, hlast⟩ := h.live k old hm'
    refine ⟨hlt, by rw [hdata]; exact hne, ?_⟩
    rw [sentTimes_append]
    rcases hor with ⟨rfl, hnone⟩ | ⟨hcount, hat, honce⟩
    · rw [hnone, List.append_nil]
      exact ⟨hlen, hlast⟩
    · rw [honce, List.length_append, hlen, hcount, hat]
      exact ⟨rfl, by simp⟩

/-- The segment sent again by a fast retransmit. -/
theorem fast (h : Tallied N l log) (hroom : o.Roomy b) (hu₀ : l.unacked = o.unacked) {k n : U32}
    {seg : UnackedSegment} {rest : List (U32 × UnackedSegment)} {u : OrdMap U32 UnackedSegment}
    {d : Datagram} (hes : l.unacked.entries = (k, seg) :: rest)
    (hn : b.add seg.retransmitCount 1#32 = .ok n)
    (hu : u.entries = (k, { seg with retransmitCount := n, sentAt := l.now }) :: rest)
    (hs : Sends d k seg.data) : Tallied N { l with unacked := u } (log ++ stamp l.now [d]) := by
  have hmem : (k, seg) ∈ l.unacked.entries := by rw [hes]; exact List.mem_cons_self
  have hitem := hs.item (h.nonempty k seg hmem)
  have hother : ∀ k', k' ≠ k → sentTimes k' (stamp l.now [d]) = [] := fun k' hk => by
    refine times_stamp_of_not_mem fun d' hd' => ?_
    rw [List.mem_singleton.mp hd', hitem]
    intro heq
    cases heq
    exact hk rfl
  refine h.again (fun k' seg' hm => ?_) (fun k' hk' => hother k' ?_) l.listening l.failed
  · rw [hu] at hm
    rcases List.mem_cons.mp hm with heq | hm
    · cases heq
      exact ⟨seg, hmem, rfl, Or.inr ⟨hroom.add (hu₀ ▸ hmem) hn, rfl, times_stamp_single hitem⟩⟩
    · have hm' : (k', seg') ∈ l.unacked.entries := by rw [hes]; exact List.mem_cons_of_mem _ hm
      have hne : k' ≠ k := by
        have hsorted := l.unacked.sorted
        rw [hes] at hsorted
        exact (key_lt_of_cons hsorted hm).ne'
      exact ⟨seg', hm', rfl, Or.inl ⟨rfl, hother k' hne⟩⟩
  · rintro rfl
    exact absurd (h.live k' seg hmem).1 (not_lt.mpr hk')

/-- A sweep sends every unmarked segment once more. -/
theorem sweep (h : Tallied N l log) (hroom : o.Roomy b) (hu₀ : l.unacked = o.unacked)
    {u : OrdMap U32 UnackedSegment}
    (hu : l.unacked.mapM (fun _ seg => Connection.resend b l.now seg) = .ok u) (hr : Resent u out) :
    Tallied N { l with unacked := u } (log ++ stamp l.now out) ∧
      ∀ k, l.nextSeq ≤ k → sentTimes k (stamp l.now out) = [] := by
  have hdata : ∀ k seg, (k, seg) ∈ u.entries → ∃ old, (k, old) ∈ l.unacked.entries ∧
      Connection.resend b l.now old = .ok seg ∧ seg.data = old.data := fun k seg hm => by
    obtain ⟨old, hm', hold⟩ := (mapM_rel hu).mem hm
    exact ⟨old, hm', hold, (resend_again hold).data.1⟩
  have hne : ∀ k seg, (k, seg) ∈ u.entries → seg.data ≠ [] := fun k seg hm => by
    obtain ⟨old, hm', _, hd⟩ := hdata k seg hm
    rw [hd]
    exact h.nonempty k old hm'
  have hfresh : ∀ k, l.nextSeq ≤ k → sentTimes k (stamp l.now out) = [] := fun k hk => by
    refine hr.never hne _ fun seg hm => ?_
    obtain ⟨old, hm', _⟩ := hdata k seg hm
    exact absurd (h.live k old hm').1 (not_lt.mpr hk)
  refine ⟨h.again (fun k seg hm => ?_) hfresh l.listening l.failed, hfresh⟩
  obtain ⟨old, hm', hold, hd⟩ := hdata k seg hm
  refine ⟨old, hm', hd, ?_⟩
  have honce := hr.once hne l.now hm
  unfold Connection.resend at hold
  split at hold
  · rename_i hsacked
    cases hold
    rw [if_pos hsacked] at honce
    exact Or.inl ⟨rfl, honce⟩
  · rename_i hsacked
    obtain ⟨n, hn, hold⟩ := bind_eq_ok.mp hold
    cases hold
    rw [if_neg hsacked] at honce
    exact Or.inr ⟨hroom.add (e := (k, old)) (hu₀ ▸ hm') hn, rfl, honce⟩

/-- A new segment is transmitted for the first time. -/
theorem cut (h : Tallied N l log) (hN : b = .checked ∨ N < 2 ^ 32) {n : Nat} {nextSeq : U32}
    {d : Datagram} (hpos : 0 < n) (hq : n ≤ l.sendQueue.length) (hn32 : n < 2 ^ 32)
    (hadd : b.add l.nextSeq (BitVec.ofNat 32 n) = .ok nextSeq)
    (hs : Sends d l.nextSeq (l.sendQueue.take n)) :
    Tallied N { l with
      sendQueue := l.sendQueue.drop n, nextSeq
      unacked := l.unacked.insert l.nextSeq ⟨l.sendQueue.take n, l.now, 0, false⟩ }
      (log ++ stamp l.now [d]) := by
  have htotal := h.total
  have hnext : nextSeq.toNat = l.nextSeq.toNat + n := add_length_toNat hN hn32 (by omega) hadd
  have hlt : l.nextSeq < nextSeq := by
    have : l.nextSeq.toNat < nextSeq.toNat := by omega
    exact this
  have htake : l.sendQueue.take n ≠ [] := by
    rw [← List.length_pos_iff, List.length_take]
    omega
  have hitem := hs.item htake
  have hother : ∀ k, k ≠ l.nextSeq → sentTimes k (log ++ stamp l.now [d]) = sentTimes k log :=
      fun k hk => by
    refine sentTimes_idle fun d' hd' heq => ?_
    rw [List.mem_singleton.mp hd', hitem] at heq
    cases heq
    exact hk rfl
  refine ⟨?_, h.past_append (le_refl _), fun k hk => ?_, fun k seg hm => ?_⟩
  · show nextSeq.toNat + (l.sendQueue.drop n).length = N
    rw [hnext, List.length_drop]
    omega
  · have hk' : l.nextSeq < k := hlt.trans_le hk
    rw [hother k hk'.ne']
    exact h.fresh k hk'.le
  · rcases mem_insert.mp hm with heq | ⟨hm, hk⟩
    · cases heq
      have hfirst := times_first (h.fresh l.nextSeq (le_refl _)) hitem (t := l.now)
      exact ⟨hlt, htake, by rw [sentTimes, hfirst]; rfl, by rw [sentTimes, hfirst]; rfl⟩
    · obtain ⟨hlt', hne, hlen, hlast⟩ := h.live k seg hm
      rw [hother k hk]
      exact ⟨hlt'.trans hlt, hne, hlen, hlast⟩

/-- Every deed keeps the count. -/
theorem deed (h : Tallied N l log) (hN : b = .checked ∨ N < 2 ^ 32) (hroom : o.Roomy b)
    (hd : Deed b o a l l' out) : Tallied N l' (log ++ stamp l.now out) := by
  have hsame : ∀ k seg, (k, seg) ∈ l.unacked.entries →
      ∃ s, (k, { seg with sacked := s }) ∈ l.unacked.entries := fun k seg hm => ⟨seg.sacked, hm⟩
  cases hd with
  | mute hm =>
    exact h.keep h.total rfl rfl hsame (by simpa using not_data_of_none hm.item)
  | greet _ hg | answer _ _ _ hg | retryHandshake _ _ _ _ _ hg =>
    exact h.keep h.total rfl rfl hsame (by simpa using not_data_of_handshake hg.item)
  | endHandshake | failHandshake | fin _ | failFin => exact h.keep h.total rfl rfl hsame (by simp)
  | learn k =>
    refine h.keep h.total rfl rfl (fun k' seg hm => ⟨seg.sacked, ?_⟩) (by simp)
    have hm' : (k', seg) ∈ (l.unacked.eraseAll (l.unacked.below k)).entries := hm
    rw [entries_eraseAll_below] at hm'
    exact List.mem_of_mem_filter hm'
  | mark hu =>
    refine h.keep h.total rfl rfl (fun k seg hm => ?_) (by simp)
    obtain ⟨seg', hm', s, rfl⟩ := hu.mem hm
    exact ⟨seg'.sacked, hm'⟩
  | fast hu₀ _ hes hn hu hs => exact h.fast hroom hu₀ hes hn hu hs
  | cut hpos _ hq hn32 hadd hs => exact h.cut hN hpos hq hn32 hadd hs
  | sweep hu₀ hu hr _ => exact (h.sweep hroom hu₀ hu hr).1
  | overrun hu₀ hu hr =>
    have hfresh := (h.sweep hroom hu₀ hu hr).2
    exact h.again (u := OrdMap.empty) (fun k seg hm => nomatch hm) hfresh false true

/-- Any number of deeds, all at one tick. -/
theorem deeds (h : Tallied N l log) (hN : b = .checked ∨ N < 2 ^ 32) (hroom : o.Roomy b)
    (hd : Deeds b o a l l' out) : Tallied N l' (log ++ stamp l.now out) := by
  induction hd with
  | refl => rw [stamp_nil, List.append_nil]; exact h
  | tail hd hone ih =>
    rw [stamp_append, ← List.append_assoc, ← hd.now]
    rw [← hd.now] at ih
    exact ih.deed hN hroom hone

/-- A call gives more bytes to send and advances the clock. -/
theorem posted {e : Endpoint} (h : Tallied N e.conn.ledger log) (a : Call) :
    Tallied (N + a.input.length) (e.conn.posted a) log where
  total := by
    have htotal : e.conn.nextSeq.toNat + e.conn.sendQueue.length = N := h.total
    show e.conn.nextSeq.toNat + (e.conn.sendQueue ++ a.input).length = _
    rw [List.length_append]
    omega
  past := fun x hx => by
    refine (h.past x hx).trans ?_
    show e.conn.now ≤ e.conn.clock a
    unfold Connection.clock
    split
    · exact le_max_left _ _
    · exact le_refl _
  fresh := h.fresh
  live := h.live

end Tallied

/-- A connection without a history has sent no data. -/
theorem Born.quiet {cfg : Config} {e : Endpoint} (h : Born b cfg e) (t : Tick) (k : U32) :
    sentTimes k (stamp t e.emitted) = [] := by
  obtain ⟨_, _, _, _, _, hor⟩ := h.ledger
  refine times_stamp_of_not_mem fun d hd => ?_
  rcases hor with ⟨_, hem⟩ | ⟨_, _, d', hg, hem⟩
  · rw [hem] at hd
    cases hd
  · rw [hem] at hd
    rw [List.mem_singleton.mp hd]
    exact not_data_of_handshake hg.item k

theorem Born.tallied {cfg : Config} {e : Endpoint} (h : Born b cfg e) :
    Tallied e.sent.length e.conn.ledger (stamp e.conn.now e.emitted) := by
  obtain ⟨hsent, t, hs, listening, hl, _⟩ := h.ledger
  have hnow : e.conn.now = t := congrArg Ledger.now hl
  have hquiet := h.quiet t
  rw [hl, hsent, hnow]
  refine ⟨rfl, fun x hx => ?_, fun k _ => hquiet k, fun _ _ hm => (nomatch hm)⟩
  obtain ⟨d, _, rfl⟩ := List.mem_map.mp hx
  exact le_refl _

end Distrans
