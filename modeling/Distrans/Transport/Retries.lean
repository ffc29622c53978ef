import Distrans.Transport.Transmissions
import Distrans.Transport.Congestion

/-!
# The retry limit

* `retries_within` — **as long as no fast retransmit takes a segment that has no retry left, a
  connection that has not failed keeps every counter within `max_retries` and has transmitted no
  data segment more than `max_retries + 1` times.**
* `fast_retransmit_unlimited` — a fast retransmit does not look at the limit: after it, a counter
  is beyond `max_retries` and the connection goes on.
-/

set_option autoImplicit false

namespace Distrans

open Machine OrdMap Journal

variable {b : Build} {o : Connection} {a : Call} {l l' : Ledger} {out : List Datagram} {N : Nat} {log : Log}

/-- Every counter is within the limit. -/
structure Limited (l : Ledger) : Prop where
  data : l.failed = false → ∀ e ∈ l.unacked.entries, e.2.retransmitCount ≤ l.config.maxRetries
  handshake : ∀ h ∈ l.handshake, h.attempts ≤ max 1#32 l.config.maxRetries
  fin : ∀ f ∈ l.finPending, f.attempts ≤ max 1#32 l.config.maxRetries

/-- If the call brings the duplicate that triggers a fast retransmit, the oldest segment has a retry
    left. -/
def Connection.Spares (c : Connection) (a : Call) : Prop :=
  c.Repairs a → ∀ e ∈ c.unacked.entries.head?, e.2.retransmitCount < c.config.maxRetries

theorem Deed.failed (h : Deed b o a l l' out) (hf : l'.failed = false) : l.failed = false := by
  cases h with
  | failHandshake | overrun | failFin => cases hf
  | _ => exact hf

theorem Limited.deed (h : Limited l) (hspare : o.Spares a) (hcfg : l.config = o.config)
    (hd : Deed b o a l l' out) : Limited l' := by
  cases hd with
  | greet | retryHandshake _ _ _ _ hle =>
    refine ⟨h.data, fun p hp => ?_, h.fin⟩
    cases hp
    first | exact le_max_left _ _ | exact hle.trans (le_max_right _ _)
  | endHandshake => exact ⟨h.data, fun p hp => (nomatch hp), h.fin⟩
  | failHandshake => exact ⟨fun hf => (nomatch hf), fun p hp => (nomatch hp), h.fin⟩
  | learn k =>
    refine ⟨fun hf e he => h.data hf e ?_, h.handshake, h.fin⟩
    have he' : e ∈ (l.unacked.eraseAll (l.unacked.below k)).entries := he
    rw [entries_eraseAll_below] at he'
    exact List.mem_of_mem_filter he'
  | mark hu =>
    refine ⟨fun hf e he => ?_, h.handshake, h.fin⟩
    obtain ⟨v, hm, s, hv⟩ := hu.mem (show (e.1, e.2) ∈ _ from he)
    rw [hv]
    exact h.data hf _ hm
  | @fast k n seg rest u d hu₀ hrep hes hn hu _ =>
    refine ⟨fun hf e he => ?_, h.handshake, h.fin⟩
    have he' : e ∈ u.entries := he
    rw [hu] at he'
    rcases List.mem_cons.mp he' with rfl | he'
    · -- the counter that is raised was below the limit
      have hlt := hspare hrep (k, seg) (by rw [← hu₀, hes]; rfl)
      rw [← hcfg] at hlt
      have hlt' : seg.retransmitCount.toNat < l.config.maxRetries.toNat := hlt
      have hmax := l.config.maxRetries.isLt
      have hnat := Build.add_toNat hn (by rw [show (1#32 : U32).toNat = 1 from rfl]; omega)
      have hle : n.toNat ≤ l.config.maxRetries.toNat := by
        rw [hnat, show (1#32 : U32).toNat = 1 from rfl]
        omega
      exact hle
    · exact h.data hf e (by rw [hes]; exact List.mem_cons_of_mem _ he')
  | cut =>
    refine ⟨fun hf e he => ?_, h.handshake, h.fin⟩
    rcases mem_insert.mp he with rfl | ⟨he, _⟩
    · exact Nat.zero_le _
    · exact h.data hf e he
  | fin hf => exact ⟨h.data, h.handshake, hf⟩
  | @sweep u _ hu₀ hu hr hle =>
    refine ⟨fun hf e he => ?_, h.handshake, h.fin⟩
    by_cases hs : e.2.sacked = false
    · exact hle e he hs
    · -- a marked segment is left alone
      obtain ⟨v, hm, hv⟩ := (mapM_rel hu).mem (show (e.1, e.2) ∈ u.entries from he)
      have hmarked : v.sacked = true := by rw [← (resend_again hv).data.2]; simpa using hs
      rw [Connection.resend, if_pos hmarked] at hv
      cases hv
      exact h.data hf _ hm
  | overrun => exact ⟨fun hf => (nomatch hf), h.handshake, h.fin⟩
  | failFin => exact ⟨fun hf => (nomatch hf), h.handshake, fun p hp => (nomatch hp)⟩
  | _ => exact h

/-! ## Transmissions -/

theorem Sends.key {d : Datagram} {k k' : U32} {data : List U8} (h : Sends d k data)
    (hi : item? d = some (.data k')) : k = k' := by
  by_cases hne : data = []
  · subst hne
    simp [item?, show wire? d = _ from h] at hi
  · rw [h.item hne] at hi
    cases hi; rfl

/-- What is transmitted without a failure is in the buffer afterwards. -/
theorem Deed.transmits (h : Deed b o a l l' out) (hf : l'.failed = false) {d : Datagram} (hd : d ∈ out)
    {k : U32} (hi : item? d = some (.data k)) : ∃ seg, (k, seg) ∈ l'.unacked.entries := by
  cases h with
  | mute hm =>
    rw [List.mem_singleton.mp hd, hm.item] at hi
    cases hi
  | greet _ hg | answer _ _ _ hg | retryHandshake _ _ _ _ _ hg =>
    rw [List.mem_singleton.mp hd, hg.item] at hi
    cases hi
  | @fast k₀ n seg rest u _ _ _ _ _ hu hs =>
    rw [List.mem_singleton.mp hd] at hi
    rw [← hs.key hi]
    exact ⟨_, by rw [hu]; exact List.mem_cons_self⟩
  | cut _ _ _ _ _ hs =>
    rw [List.mem_singleton.mp hd] at hi
    rw [← hs.key hi]
    exact ⟨_, mem_insert.mpr (Or.inl rfl)⟩
  | sweep _ _ hr _ =>
    obtain ⟨i, hlt, rfl⟩ := List.getElem_of_mem hd
    obtain ⟨hlen, hget⟩ := List.forall₂_iff_get.mp hr
    rw [← (hget i hlt (by rw [← hlen]; exact hlt)).key hi]
    exact ⟨_, List.mem_of_mem_filter (List.get_mem _ _)⟩
  | overrun => cases hf
  | _ => cases hd

/-- What holds of the ledger while a call runs. -/
structure Sparing (N : Nat) (o : Connection) (l : Ledger) (log : Log) : Prop where
  limited : Limited l
  config : l.config = o.config
  tallied : l.failed = false → Tallied N l log
  bound : l.failed = false → ∀ k, (sentTimes k log).length ≤ l.config.maxRetries.toNat + 1

theorem Sparing.deed (h : Sparing N o l log) (hspare : o.Spares a) (hN : b = .checked ∨ N < 2 ^ 32)
    (hroom : o.Roomy b) (hd : Deed b o a l l' out) : Sparing N o l' (log ++ stamp l.now out) := by
  have hw := h.limited.deed hspare h.config hd
  have hcfg := hd.config.trans h.config
  refine ⟨hw, hcfg, fun hf => (h.tallied (hd.failed hf)).deed hN hroom hd, fun hf k => ?_⟩
  have htallied := (h.tallied (hd.failed hf)).deed hN hroom hd
  by_cases hk : ∃ d ∈ out, item? d = some (.data k)
  · obtain ⟨d, hmem, hi⟩ := hk
    obtain ⟨seg, hseg⟩ := hd.transmits hf hmem hi
    obtain ⟨_, _, hlen, _⟩ := htallied.live k seg hseg
    have hle : seg.retransmitCount.toNat ≤ l'.config.maxRetries.toNat := hw.data hf _ hseg
    omega
  · rw [sentTimes_idle fun d hd hi => hk ⟨d, hd, hi⟩, hd.config]
    exact h.bound (hd.failed hf) k

theorem Sparing.deeds (h : Sparing N o l log) (hspare : o.Spares a) (hN : b = .checked ∨ N < 2 ^ 32)
    (hroom : o.Roomy b) (hd : Deeds b o a l l' out) : Sparing N o l' (log ++ stamp l.now out) := by
  induction hd with
  | refl => rw [stamp_nil, List.append_nil]; exact h
  | tail hd hone ih =>
    rw [stamp_append, ← List.append_assoc, ← hd.now]
    rw [← hd.now] at ih
    exact ih.deed hspare hN hroom hone

theorem Limited.deeds (h : Limited l) (hspare : o.Spares a) (hcfg : l.config = o.config)
    (hd : Deeds b o a l l' out) : Limited l' := by
  induction hd with
  | refl => exact h
  | tail hd hone ih => exact ih.deed hspare (hd.config.trans hcfg) hone

theorem Deeds.failed (h : Deeds b o a l l' out) (hf : l'.failed = false) : l.failed = false := by
  induction h with
  | refl => exact hf
  | tail _ hone ih => exact ih (hone.failed hf)

/-! ## Runs -/

section

variable {ccfg scfg : Config} {p : Pair}

/-- Every step's fast retransmit, if there is one, takes a segment with a retry left. -/
abbrev Pair.Spares (p : Pair) (s : Side) (a : Call) : Prop := (p.get s).conn.Spares a

theorem Limited.posted {c : Connection} (h : Limited c.ledger) (a : Call) : Limited (c.posted a) :=
  ⟨h.data, h.handshake, h.fin⟩

theorem Limited.roomy {c : Connection} (h : Limited c.ledger) (hf : c.isFailed = false)
    (hmax : b = .checked ∨ c.config.maxRetries ≠ BitVec.allOnes 32) : c.Roomy b := by
  refine hmax.imp id fun hmax e he heq => hmax ?_
  have hle : e.2.retransmitCount.toNat ≤ c.config.maxRetries.toNat := h.data hf e he
  have hlt := c.config.maxRetries.isLt
  rw [heq, BitVec.toNat_allOnes] at hle
  exact BitVec.eq_of_toNat_eq (by rw [BitVec.toNat_allOnes]; omega)

/-- The frames of one side can be told apart by their sequence numbers, and its retry counters do
    not wrap around. -/
def Countable (b : Build) (cfg : Config) (e : Endpoint) : Prop :=
  b = .checked ∨ (e.sent.length < 2 ^ 32 ∧ cfg.maxRetries ≠ BitVec.allOnes 32)

/-- What holds of a side between two calls. -/
def Spared (b : Build) (cfg : Config) (e : Endpoint) : Prop :=
  Countable b cfg e → ∃ log : Log, log.map (·.2) = e.emitted ∧
    Sparing e.sent.length e.conn e.conn.ledger log

theorem Spared.call {cfg : Config} {e e' : Endpoint} (h : Spared b cfg e) (hk : Steady cfg e)
    (hw : Limited e.conn.ledger) (hspare : e.conn.Spares a) (hr : e.call b a = .ok e') :
    Spared b cfg e' := by
  intro hc
  have hle := Endpoint.call_sent_le hr
  obtain ⟨log, hlog, hs⟩ := h (hc.imp id fun hc => ⟨by omega, hc.2⟩)
  obtain ⟨out, hd, hem, hsent⟩ := call_deeds hk.cuts hr
  have hN : e'.sent.length = e.sent.length + a.input.length := by rw [hsent, List.length_append]
  refine ⟨log ++ stamp (e.conn.posted a).now out, by rw [List.map_append, map_stamp, hlog, hem], ?_⟩
  have hw' := (hw.posted a).deeds hspare rfl hd
  by_cases hf : e.conn.isFailed = false
  · have hposted : Sparing e'.sent.length e.conn (e.conn.posted a) log :=
      ⟨hw.posted a, rfl, fun hf => hN ▸ (hs.tallied hf).posted a, hs.bound⟩
    have hroom := hw.roomy hf (hc.imp id fun hc => by rw [hk.config]; exact hc.2)
    have hafter := hposted.deeds hspare (hc.imp id (·.1)) hroom hd
    exact ⟨hafter.limited, rfl, hafter.tallied, hafter.bound⟩
  · -- a failed connection stays so, and nothing is claimed of it
    have hdead : e'.conn.ledger.failed = false → False := fun hf' => hf (hd.failed hf')
    exact ⟨hw', rfl, fun hf' => (hdead hf').elim, fun hf' => (hdead hf').elim⟩

theorem Born.spared {cfg : Config} {e : Endpoint} (h : Born b cfg e) :
    Limited e.conn.ledger ∧ Spared b cfg e := by
  have hw : Limited e.conn.ledger := by
    obtain ⟨_, t, hs, listening, hl, hor⟩ := h.ledger
    rw [hl]
    refine ⟨fun _ e he => (nomatch he), fun p hp => ?_, fun f hf => (nomatch hf)⟩
    have hp' : hs = some p := hp
    rcases hor with ⟨hnone, _⟩ | ⟨_, hsome, _⟩
    · rw [hnone] at hp'
      cases hp'
    · rw [hsome] at hp'
      cases hp'
      exact le_max_left _ _
  refine ⟨hw, fun _ => ⟨stamp e.conn.now e.emitted, map_stamp _ _, hw, rfl, fun _ => h.tallied, ?_⟩⟩
  intro _ k
  rw [h.quiet]
  exact Nat.zero_le _

theorem reach_spared (h : Pair.ReachVia b ccfg scfg Pair.Spares p) (s : Side) :
    Steady (s.config ccfg scfg) (p.get s) ∧ Limited (p.get s).conn.ledger ∧
      Spared b (s.config ccfg scfg) (p.get s) := by
  refine reach_each (P := fun e => Steady (s.config ccfg scfg) e ∧ Limited e.conn.ledger ∧
    Spared b (s.config ccfg scfg) e) (fun e he => ⟨he.steady, he.spared⟩) ?_ h
  intro p a e ⟨hk, hw, hs⟩ hg hr
  obtain ⟨out, hd, _⟩ := call_deeds hk.cuts hr
  exact ⟨hk.call hr, (hw.posted a).deeds hg rfl hd, hs.call hk hw hg hr⟩

/-- **The retry limit.**  In every state of a run in which each fast retransmit takes a segment
    with a retry left, a side that has not failed has every counter within `max_retries`, and has
    transmitted no data segment more than `max_retries + 1` times, as long as sequence numbers and
    counters do not wrap around. -/
theorem retries_within (h : Pair.ReachVia b ccfg scfg Pair.Spares p) (s : Side)
    (hlive : (p.get s).conn.isFailed = false) :
    (∀ e ∈ (p.get s).conn.unacked.entries, e.2.retransmitCount ≤ (s.config ccfg scfg).maxRetries) ∧
    (∀ x ∈ (p.get s).conn.handshake, x.attempts ≤ max 1#32 (s.config ccfg scfg).maxRetries) ∧
    (∀ x ∈ (p.get s).conn.finPending, x.attempts ≤ max 1#32 (s.config ccfg scfg).maxRetries) ∧
    (Countable b (s.config ccfg scfg) (p.get s) → ∀ k : U32,
      ((p.get s).emitted.filter fun d => item? d = some (.data k)).length ≤
        (s.config ccfg scfg).maxRetries.toNat + 1) := by
  obtain ⟨hk, hw, hs⟩ := reach_spared h s
  rw [← hk.config]
  refine ⟨hw.data hlive, hw.handshake, hw.fin, fun hc k => ?_⟩
  rw [hk.config] at hc
  obtain ⟨log, hlog, hsparing⟩ := hs hc
  have hbound := hsparing.bound hlive k
  rw [sentTimes, length_times, hlog] at hbound
  exact hbound

end

/-! ## A segment that is lost again and again

The run of `one_loss_two_cuts`: the second of eight segments is lost, the other six are
acknowledged in order.  -/

instance decidableRepairs (c : Connection) (a : Call) : Decidable (c.Repairs a) :=
  inferInstanceAs (Decidable (∃ h ∈ c.ackOf a, _))

instance decidableSpares (c : Connection) (a : Call) : Decidable (c.Spares a) :=
  inferInstanceAs (Decidable (_ → ∀ e ∈ _, _))

/-- With three retries both fast retransmits are within the limit. -/
theorem retries_within_sample : ∃ p e, Pair.ReachVia .checked lossConfig lossConfig Pair.Spares p ∧
    p.client.conn.isFailed = false ∧ e ∈ p.client.conn.unacked.entries ∧ e.2.retransmitCount = 2 ∧
    (2 : U32) ≤ lossConfig.maxRetries ∧
    (p.client.emitted.filter fun d => item? d = some (.data 1)).length ≤ 3 + 1 := by
  have hrun : Pair.playsVia .checked lossConfig lossConfig
      (fun p s a => decide ((p.get s).conn.Spares a)) (beforeLoss ++ (.client, .deliver 6 1) :: afterLoss)
      (fun p => decide (p.client.conn.isFailed = false) && p.client.conn.unacked.entries.any fun e =>
        decide (e.2.retransmitCount = 2)) = true := by
    decide +kernel
  obtain ⟨p, hp, ht⟩ := Pair.playsVia_reach (G := Pair.Spares) (fun p s a h => of_decide_eq_true h) hrun
  obtain ⟨hlive, hany⟩ := Bool.and_eq_true_iff.mp ht
  obtain ⟨e, he, hcount⟩ := List.any_eq_true.mp hany
  have hcount := of_decide_eq_true hcount
  have hlive := of_decide_eq_true hlive
  obtain ⟨hdata, _, _, hsent⟩ := retries_within hp .client hlive
  have hle := hdata e he
  rw [hcount] at hle
  exact ⟨p, e, hp, hlive, he, hcount, hle, hsent (Or.inl rfl) 1⟩

/-- With one, the second takes the counter beyond the limit, and the connection goes on. -/
theorem fast_retransmit_unlimited : ∃ p, Pair.Reach .checked { lossConfig with maxRetries := 1 }
      { lossConfig with maxRetries := 1 } p ∧ p.client.conn.isFailed = false ∧
    ¬ (∀ e ∈ p.client.conn.unacked.entries, e.2.retransmitCount ≤ p.client.conn.config.maxRetries) ∧
    ¬ (p.client.emitted.filter fun d => item? d = some (.data 1)).length ≤
      p.client.conn.config.maxRetries.toNat + 1 := by
  have hrun : Pair.plays .checked { lossConfig with maxRetries := 1 } { lossConfig with maxRetries := 1 }
      (beforeLoss ++ (.client, .deliver 6 1) :: afterLoss) (fun p => decide
        (p.client.conn.isFailed = false ∧
          ¬ (∀ e ∈ p.client.conn.unacked.entries, e.2.retransmitCount ≤ p.client.conn.config.maxRetries) ∧
          ¬ (p.client.emitted.filter fun d => item? d = some (.data 1)).length ≤
            p.client.conn.config.maxRetries.toNat + 1)) = true := by
    decide +kernel
  obtain ⟨p, hp, ht⟩ := Pair.plays_reach hrun
  exact ⟨p, hp, of_decide_eq_true ht⟩

end Distrans
