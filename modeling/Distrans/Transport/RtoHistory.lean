import Distrans.Transport.Estimator

/-!
# The estimator over its history

Any sequence of samples and timeouts, from a new estimator (`RtoEstimator.play`).

* `play_returns_iff` — nothing overflows just if the samples are below the limit.
* `rto_in_bounds` — **the averages stay in the range of the samples, and the timeout between its
  bounds**.
* `rto_converges` — **on a steady path the timeout is the round trip and four ticks**, sooner or
  later and then for good.
-/

set_option autoImplicit false

namespace Distrans

open Machine Smoothing

/-- A call that changes the estimator. -/
inductive RtoEvent where
  | sample (measuredRtt : U64)
  | timeout
  deriving DecidableEq, Repr

/-- The timeouts since the last sample. -/
def timeoutsSince (evs : List RtoEvent) : Nat :=
  evs.foldl (fun k ev =>
    match ev with
    | .sample _ => 0
    | .timeout => k + 1) 0

theorem timeoutsSince_concat (evs : List RtoEvent) (ev : RtoEvent) :
    timeoutsSince (evs ++ [ev]) =
      match ev with
      | .sample _ => 0
      | .timeout => timeoutsSince evs + 1 := by
  rw [timeoutsSince, List.foldl_append]
  rfl

namespace RtoEstimator

variable {b : Build} {e e' : RtoEstimator} {m minRto maxRto : U64} {lo hi k : Nat}
  {evs evs' : List RtoEvent}

def event (b : Build) (e : RtoEstimator) : RtoEvent → Exec RtoEstimator
  | .sample m => e.onSample b m
  | .timeout => e.onTimeout b

def play (b : Build) (e : RtoEstimator) (evs : List RtoEvent) : Exec RtoEstimator :=
  evs.foldlM (event b) e

theorem play_append : e.play b (evs ++ evs') = e.play b evs >>= fun e => e.play b evs' :=
  List.foldlM_append

theorem play_cons {ev : RtoEvent} : e.play b (ev :: evs) = e.event b ev >>= fun e => e.play b evs :=
  List.foldlM_cons

theorem play_concat {ev : RtoEvent} (h : e.play b evs = .ok e') :
    e.play b (evs ++ [ev]) = e'.event b ev := by
  rw [play_append, h, ok_bind, play_cons]
  cases e'.event b ev <;> rfl

/-! ## Bounds -/

/-- The state after samples between `lo` and `hi`, and `k` timeouts since the last of them. -/
structure Ranged (minRto maxRto : U64) (lo hi k : Nat) (e : RtoEstimator) : Prop where
  minRto : e.minRto = minRto
  maxRto : e.maxRto = maxRto
  backoff : e.backoff.toNat = min (2 ^ k) 64
  track : ∀ t, e.track = some t → t.Within lo hi

theorem Ranged.new : (RtoEstimator.new minRto maxRto).Ranged minRto maxRto lo hi 0 where
  minRto := rfl
  maxRto := rfl
  backoff := rfl
  track := fun t ht => by cases ht

theorem Ranged.onSample (h : e.Ranged minRto maxRto lo hi k) (hhi : hi < RTT_LIMIT)
    (hlo : lo ≤ m.toNat) (hm : m.toNat ≤ hi) : ∃ e', e.onSample .checked m = .ok e' ∧
      e'.Ranged minRto maxRto lo hi 0 ∧ e'.track ≠ none := by
  obtain ⟨e', he'⟩ : ∃ e', e.onSample .checked m = .ok e' := by
    refine onSample_returns (fun _ t ht => ?_) fun _ => Nat.lt_of_le_of_lt hm hhi
    have hhigh := (h.track t ht).high
    have hrttvar := (h.track t ht).rttvar
    omega
  have htrack := (onSample_track he').1
  obtain ⟨srtt, rttvar, rfl⟩ := onSample_fields he'
  refine ⟨_, he', ⟨h.minRto, h.maxRto, rfl, ?_⟩, ?_⟩
  · intro t ht
    rw [htrack] at ht
    cases ht
    cases hold : e.track with
    | none => exact Track.Within.first hlo hm
    | some t => exact (h.track t hold).next hlo hm
  · rw [htrack]
    exact Option.some_ne_none _

theorem min_two_pow_succ (k : Nat) : min (2 * min (2 ^ k) 64) 64 = min (2 ^ (k + 1)) 64 := by
  rw [Nat.pow_succ]
  omega

theorem Ranged.onTimeout (h : e.Ranged minRto maxRto lo hi k) : ∃ e',
    (∀ b, e.onTimeout b = .ok e') ∧ e'.Ranged minRto maxRto lo hi (k + 1) ∧ e'.track = e.track := by
  obtain ⟨backoff, he, hn⟩ := onTimeout_eq (e := e) (by rw [h.backoff]; exact Nat.min_le_right _ _)
  rw [h.backoff, min_two_pow_succ] at hn
  exact ⟨_, he, ⟨h.minRto, h.maxRto, hn, h.track⟩, rfl⟩

/-- **Every history returns**, in every build with the same state. -/
theorem play_ranged (minRto maxRto : U64) (hhi : hi < RTT_LIMIT)
    (hs : ∀ m, .sample m ∈ evs → lo ≤ m.toNat ∧ m.toNat ≤ hi) :
    ∃ e, (∀ b, (new minRto maxRto).play b evs = .ok e) ∧
      e.Ranged minRto maxRto lo hi (timeoutsSince evs) ∧
      ((∃ m, .sample m ∈ evs) → e.track ≠ none) := by
  induction evs using List.reverseRecOn with
  | nil => exact ⟨_, fun _ => rfl, Ranged.new, fun ⟨_, hm⟩ => by cases hm⟩
  | append_singleton evs ev ih =>
    obtain ⟨e, he, hr, hsome⟩ := ih fun m hm => hs m (List.mem_append_left _ hm)
    cases ev with
    | sample m =>
      obtain ⟨hlo, hm⟩ := hs m (by simp)
      obtain ⟨e', he', hr', hsome'⟩ := hr.onSample hhi hlo hm
      refine ⟨e', fun b => ?_, ?_, fun _ => hsome'⟩
      · rw [play_concat (he b)]
        exact onSample_of_checked he' b
      · rw [timeoutsSince_concat]
        exact hr'
    | timeout =>
      obtain ⟨e', he', hr', htrack⟩ := hr.onTimeout
      refine ⟨e', fun b => ?_, ?_, fun ⟨m, hm⟩ => ?_⟩
      · rw [play_concat (he b)]
        exact he' b
      · rw [timeoutsSince_concat]
        exact hr'
      · rw [htrack]
        rw [List.mem_append] at hm
        exact hsome ⟨m, hm.resolve_right (by simp)⟩

theorem Ranged.estimate_le (h : e.Ranged minRto maxRto lo hi k) :
    e.estimate ≤ max minRto.toNat (5 * hi + 4) := by
  unfold estimate
  cases ht : e.track with
  | none =>
    show e.minRto.toNat ≤ _
    rw [h.minRto]
    omega
  | some t =>
    have hle := (h.track t ht).srtt_le
    have hv := (h.track t ht).rttvar
    show t.srtt / 8 + 4 * max (t.rttvar / 4) 1 ≤ _
    omega

theorem play_below (minRto maxRto : U64) (hs : ∀ m, .sample m ∈ evs → m.toNat < RTT_LIMIT) :
    ∃ e, (∀ b, (new minRto maxRto).play b evs = .ok e) ∧
      e.Ranged minRto maxRto 0 (RTT_LIMIT - 1) (timeoutsSince evs) := by
  obtain ⟨e, he, hr, _⟩ := play_ranged minRto maxRto (by decide) fun m hm =>
    ⟨Nat.zero_le _, Nat.le_sub_one_of_lt (hs m hm)⟩
  exact ⟨e, he, hr⟩

/-- What such a state arms a timer with. -/
theorem Ranged.current (h : e.Ranged minRto maxRto lo hi k) (hle : minRto ≤ maxRto)
    (hmax : maxRto.toNat ≤ 2 ^ 57) (hhi : hi < 2 ^ 60) :
    ∃ base rto, (∀ b, e.baseRto b = .ok base ∧ e.current b = .ok rto) ∧
      base.toNat = max minRto.toNat (min e.estimate maxRto.toNat) ∧
      rto.toNat = min (base.toNat * min (2 ^ k) 64) maxRto.toNat := by
  have hle' : minRto.toNat ≤ maxRto.toNat := hle
  have hest := h.estimate_le
  have hprod : e.maxRto.toNat * e.backoff.toNat < 2 ^ 64 := by
    have hback : e.backoff.toNat ≤ 64 := by
      rw [h.backoff]
      exact Nat.min_le_right _ _
    rw [h.maxRto]
    calc maxRto.toNat * e.backoff.toNat ≤ 2 ^ 57 * 64 := Nat.mul_le_mul hmax hback
      _ < 2 ^ 64 := by decide
  have hcur := current_eq (e := e) (by rw [h.minRto, h.maxRto]; exact hle) (by omega) hprod
  rw [h.minRto, h.maxRto, h.backoff] at hcur
  exact hcur

/-- **The timeout stays within its bounds, whatever the history**: no step overflows, and after
`k` timeouts it is the base value, `min (2 ^ k) 64` times, or the upper bound. -/
theorem rto_in_bounds {minRto maxRto : U64} {lo hi : Nat} {evs : List RtoEvent}
    (hle : minRto ≤ maxRto) (hmax : maxRto.toNat ≤ 2 ^ 57) (hhi : hi < 2 ^ 60)
    (hs : ∀ m, .sample m ∈ evs → lo ≤ m.toNat ∧ m.toNat ≤ hi) :
    ∃ e base rto, (∀ b, (new minRto maxRto).play b evs = .ok e ∧ e.baseRto b = .ok base ∧
        e.current b = .ok rto) ∧
      ((∃ m, .sample m ∈ evs) → ∃ srtt, e.srtt = some srtt ∧ lo ≤ srtt.toNat / 8 ∧
        srtt.toNat / 8 ≤ hi ∧ e.rttvar.toNat ≤ 4 * hi) ∧
      minRto ≤ base ∧ base ≤ maxRto ∧
      rto.toNat = min (base.toNat * min (2 ^ timeoutsSince evs) 64) maxRto.toNat ∧
      minRto ≤ rto ∧ rto ≤ maxRto ∧
      ∃ e' rto', (∀ b, e.onTimeout b = .ok e' ∧ e'.current b = .ok rto') ∧ rto ≤ rto' := by
  have hle' : minRto.toNat ≤ maxRto.toNat := hle
  obtain ⟨e, he, hr, hsome⟩ := play_ranged minRto maxRto
    (Nat.lt_trans hhi (by decide)) hs
  obtain ⟨base, rto, hcur, hbase, hrto⟩ := hr.current hle hmax hhi
  obtain ⟨e', he', hr', htrack⟩ := hr.onTimeout
  obtain ⟨base', rto', hcur', hbase', hrto'⟩ := hr'.current hle hmax hhi
  have hpos : 1 ≤ min (2 ^ timeoutsSince evs) 64 := by
    have : 1 ≤ 2 ^ timeoutsSince evs := Nat.one_le_two_pow
    omega
  have hmul : base.toNat * 1 ≤ base.toNat * min (2 ^ timeoutsSince evs) 64 :=
    Nat.mul_le_mul_left _ hpos
  refine ⟨e, base, rto, fun b => ⟨he b, hcur b⟩, ?_, ?_, ?_, hrto, ?_, ?_, e', rto',
    fun b => ⟨he' b, (hcur' b).2⟩, ?_⟩
  · intro hex
    cases hsr : e.srtt with
    | none => exact absurd (by rw [track, hsr, Option.map_none]) (hsome hex)
    | some srtt =>
      have ht := hr.track ⟨srtt.toNat, e.rttvar.toNat⟩ (by rw [track, hsr, Option.map_some])
      exact ⟨srtt, rfl, ht.low, ht.srtt_le, ht.rttvar⟩
  · show minRto.toNat ≤ base.toNat
    omega
  · show base.toNat ≤ maxRto.toNat
    omega
  · show minRto.toNat ≤ rto.toNat
    omega
  · show rto.toNat ≤ maxRto.toNat
    omega
  · show rto.toNat ≤ rto'.toNat
    have hsame : base'.toNat = base.toNat := by
      rw [hbase, hbase', estimate, estimate, htrack, hr.minRto, hr'.minRto]
    have hgrow : base.toNat * min (2 ^ timeoutsSince evs) 64 ≤
        base.toNat * min (2 ^ (timeoutsSince evs + 1)) 64 := by
      apply Nat.mul_le_mul_left
      rw [Nat.pow_succ]
      omega
    rw [hrto, hrto', hsame]
    omega

/-- Samples of both bounds, and a timeout before the first of them. -/
theorem rto_in_bounds_sample : ∃ e base rto, (∀ b, (new 10#64 200#64).play b
      [.timeout, .sample 1000#64, .sample 50#64, .timeout, .timeout] = .ok e ∧
      e.baseRto b = .ok base ∧ e.current b = .ok rto) ∧
    ((∃ m, RtoEvent.sample m ∈ [.timeout, .sample 1000#64, .sample 50#64, .timeout, .timeout]) →
      ∃ srtt, e.srtt = some srtt ∧ 50 ≤ srtt.toNat / 8 ∧ srtt.toNat / 8 ≤ 1000 ∧
        e.rttvar.toNat ≤ 4 * 1000) ∧
    10#64 ≤ base ∧ base ≤ 200#64 ∧
    rto.toNat = min (base.toNat * min (2 ^ timeoutsSince [.timeout, .sample 1000#64,
      .sample 50#64, .timeout, .timeout]) 64) (200#64).toNat ∧
    10#64 ≤ rto ∧ rto ≤ 200#64 ∧
    ∃ e' rto', (∀ b, e.onTimeout b = .ok e' ∧ e'.current b = .ok rto') ∧ rto ≤ rto' := by
  refine rto_in_bounds (by decide) (by decide) (by decide) fun m hm => ?_
  simp only [List.mem_cons, RtoEvent.sample.injEq, reduceCtorEq, List.not_mem_nil, false_or,
    or_false] at hm
  rcases hm with rfl | rfl <;> decide

/-! ## A steady path -/

/-- **What does not overflow**: the samples, eight times over. -/
theorem play_returns_iff : (∃ e, (new minRto maxRto).play .checked evs = .ok e) ↔
    ∀ m, .sample m ∈ evs → m.toNat < RTT_LIMIT := by
  constructor
  · rintro ⟨e, he⟩ m hm
    obtain ⟨before, after, rfl⟩ := List.append_of_mem hm
    rw [play_append] at he
    obtain ⟨e₁, _, he⟩ := bind_eq_ok.mp he
    obtain ⟨e₂, he, _⟩ := bind_eq_ok.mp (play_cons.symm.trans he)
    exact (onSample_track he).2
  · intro hs
    obtain ⟨e, he, _⟩ := play_below minRto maxRto hs
    exact ⟨e, he .checked⟩

theorem next_iterate_srtt (t : Track) (m : Nat) : ∀ n : Nat,
    ((Track.next · m)^[n] t).srtt = (smooth 8 · m)^[n] t.srtt
  | 0 => rfl
  | n + 1 => by
    rw [Function.iterate_succ_apply', Function.iterate_succ_apply', ← next_iterate_srtt t m n]
    rfl

/-- **Sampled with one value, the track settles**: first the round trip, then its deviation. -/
theorem track_settles (t : Track) (m : Nat) : ∃ N, ∀ n ≥ N,
    ((Track.next · m)^[n] t).srtt / 8 = m ∧ ((Track.next · m)^[n] t).rttvar / 4 = 0 := by
  have hsrtt : ∀ n ≥ offset 8 t.srtt m, ((Track.next · m)^[n] t).srtt / 8 = m := by
    intro n hn
    rw [next_iterate_srtt]
    exact smooth_settles (by decide) hn
  -- from then on the deviation only leaks away
  have hrttvar : ∀ j : Nat, ((Track.next · m)^[offset 8 t.srtt m + j] t).rttvar =
      (smooth 4 · 0)^[j] ((Track.next · m)^[offset 8 t.srtt m] t).rttvar := by
    intro j
    induction j with
    | zero => rfl
    | succ j ih =>
      have hstill := hsrtt (offset 8 t.srtt m + j) (Nat.le_add_right _ _)
      rw [← Nat.add_assoc, Function.iterate_succ_apply', Function.iterate_succ_apply', ← ih,
        Track.next, hstill, Nat.dist_self]
  refine ⟨offset 8 t.srtt m + offset 4 ((Track.next · m)^[offset 8 t.srtt m] t).rttvar 0,
    fun n hn => ⟨hsrtt n (by omega), ?_⟩⟩
  obtain ⟨j, rfl⟩ : ∃ j, n = offset 8 t.srtt m + j := ⟨n - offset 8 t.srtt m, by omega⟩
  rw [hrttvar]
  exact smooth_settles (by decide) (by omega)

theorem play_samples {t : Track} (ht : e.track = some t) : ∀ {n : Nat} {e' : RtoEstimator},
    e.play .checked (List.replicate n (.sample m)) = .ok e' →
    e'.track = some ((Track.next · m.toNat)^[n] t)
  | 0, _, h => by
    cases h
    exact ht
  | n + 1, e', h => by
    rw [List.replicate_succ'] at h
    obtain ⟨e₁, h₁, h⟩ := bind_eq_ok.mp (play_append.symm.trans h)
    obtain ⟨e₂, h₂, h⟩ := bind_eq_ok.mp (play_cons.symm.trans h)
    cases h
    rw [(onSample_track h₂).1, play_samples ht h₁, Function.iterate_succ_apply']
    rfl

theorem timeoutsSince_samples (n : Nat) :
    timeoutsSince (evs ++ List.replicate (n + 1) (.sample m)) = 0 := by
  rw [List.replicate_succ', ← List.append_assoc, timeoutsSince_concat]

/-- **On a steady path the timeout converges** to the round trip and four ticks, clamped: from
any history, and exactly. -/
theorem rto_converges {minRto maxRto m : U64} {evs : List RtoEvent} {e : RtoEstimator}
    (hle : minRto ≤ maxRto)
    (he : (new minRto maxRto).play .checked (evs ++ [.sample m]) = .ok e) :
    ∃ N, ∀ n ≥ N, ∃ e' rto, (∀ b, (new minRto maxRto).play b
        (evs ++ List.replicate n (.sample m)) = .ok e' ∧ e'.current b = .ok rto) ∧
      rto.toNat = max minRto.toNat (min (m.toNat + 4) maxRto.toNat) := by
  have hs : ∀ m', .sample m' ∈ evs ++ [.sample m] → m'.toNat < RTT_LIMIT :=
    play_returns_iff.mp ⟨e, he⟩
  have hm : m.toNat < RTT_LIMIT := hs m (by simp)
  obtain ⟨e₁, he₁, hsampled⟩ := bind_eq_ok.mp (play_append.symm.trans he)
  have htrack : ∃ t, e.track = some t := by
    obtain ⟨e₂, h₂, hsampled⟩ := bind_eq_ok.mp (play_cons.symm.trans hsampled)
    cases hsampled
    exact ⟨_, (onSample_track h₂).1⟩
  obtain ⟨t, ht⟩ := htrack
  obtain ⟨N, hN⟩ := track_settles t m.toNat
  refine ⟨N + 1, fun n hn => ?_⟩
  obtain ⟨n, rfl⟩ : ∃ n', n = n' + 1 := ⟨n - 1, by omega⟩
  have hsteady : ∀ m', .sample m' ∈ evs ++ List.replicate (n + 1) (.sample m) →
      m'.toNat < RTT_LIMIT := by
    intro m' hm'
    rw [List.mem_append, List.mem_replicate] at hm'
    refine hs m' ?_
    rw [List.mem_append, List.mem_singleton]
    exact hm'.imp_right And.right
  obtain ⟨e', he', hr⟩ := play_below minRto maxRto hsteady
  have htrack' : e'.track = some ((Track.next · m.toNat)^[n] t) := by
    apply play_samples ht
    have hplay := he' .checked
    rw [List.replicate_succ, ← List.singleton_append, ← List.append_assoc, play_append, he,
      ok_bind] at hplay
    exact hplay
  obtain ⟨hsrtt, hrttvar⟩ := hN n (by omega)
  have hest : e'.estimate = m.toNat + 4 := by
    rw [estimate, htrack']
    show _ / 8 + 4 * max (_ / 4) 1 = _
    rw [hsrtt, hrttvar]
    rfl
  have hback : e'.backoff.toNat = 1 := by
    rw [hr.backoff, timeoutsSince_samples]
    rfl
  have hmax := maxRto.isLt
  obtain ⟨base, rto, hcur, hbase, hrto⟩ := current_eq (e := e')
    (by rw [hr.minRto, hr.maxRto]; exact hle)
    (by rw [hest]; exact Nat.lt_trans (Nat.add_lt_add_right hm 4) (by decide))
    (by rw [hr.maxRto, hback, Nat.mul_one]; exact hmax)
  refine ⟨e', rto, fun b => ⟨he' b, (hcur b).2⟩, ?_⟩
  have hle' : minRto.toNat ≤ maxRto.toNat := hle
  rw [hest, hr.minRto, hr.maxRto] at hbase
  rw [hback, hr.maxRto] at hrto
  omega

/-- After a sample that is far off, and a timeout. -/
theorem rto_converges_sample : ∃ N, ∀ n ≥ N, ∃ e' rto, (∀ b, (new 10#64 500#64).play b
      ([.sample 3000#64, .timeout] ++ List.replicate n (.sample 100#64)) = .ok e' ∧
      e'.current b = .ok rto) ∧
    rto.toNat = max (10#64).toNat (min ((100#64).toNat + 4) (500#64).toNat) := by
  obtain ⟨e, he⟩ : ∃ e, (new 10#64 500#64).play .checked
      ([.sample 3000#64, .timeout] ++ [.sample 100#64]) = .ok e :=
    ok_of_fault? (by decide)
  exact rto_converges (by decide) he

end RtoEstimator

end Distrans
