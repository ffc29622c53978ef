import Distrans.Lib.Smoothing
import Distrans.Transport.Rto

/-!
# What the estimator computes

Where nothing overflows, `srtt` and `rttvar` are accumulators of a smoothing filter, of weights an
eighth and a quarter (`Track`), and a sample is a step of both.

* `onSample_track`, `onSample_of_checked` — what a sample does, in every build the same.
* `onSample_returns`, `onTimeout_eq`, `current_eq` — the calls return, and what they return.
-/

set_option autoImplicit false

namespace Distrans

open Machine Smoothing

/-- Below this, `measured_rtt * SCALE` fits. -/
def RTT_LIMIT : Nat := 2 ^ 61

/-- What the estimator holds once it has a sample, as exact numbers. -/
structure Track where
  srtt : Nat
  rttvar : Nat
  deriving DecidableEq, Repr

namespace Track

def first (m : Nat) : Track := ⟨8 * m, 4 * m⟩

def next (t : Track) (m : Nat) : Track :=
  ⟨smooth 8 t.srtt m, smooth 4 t.rttvar (Nat.dist m (t.srtt / 8))⟩

/-- A sample, the first one or a later one. -/
def advance : Option Track → Nat → Track
  | none, m => first m
  | some t, m => t.next m

/-- The estimate of the timeout. -/
def estimate (t : Track) : Nat := t.srtt / 8 + 4 * max (t.rttvar / 4) 1

/-- The samples lie between `lo` and `hi`. -/
structure Within (lo hi : Nat) (t : Track) : Prop where
  low : lo ≤ t.srtt / 8
  high : t.srtt ≤ 8 * hi
  rttvar : t.rttvar ≤ 4 * hi

variable {t : Track} {lo hi m : Nat}

theorem Within.first (hlo : lo ≤ m) (hhi : m ≤ hi) : (first m).Within lo hi := by
  refine ⟨?_, Nat.mul_le_mul_left 8 hhi, Nat.mul_le_mul_left 4 hhi⟩
  show lo ≤ 8 * m / 8
  omega

theorem dist_le {x y n : Nat} (hx : x ≤ n) (hy : y ≤ n) : Nat.dist x y ≤ n := by
  unfold Nat.dist
  omega

theorem Within.srtt_le (h : t.Within lo hi) : t.srtt / 8 ≤ hi := by
  have := h.high
  omega

theorem Within.next (h : t.Within lo hi) (hlo : lo ≤ m) (hhi : m ≤ hi) :
    (t.next m).Within lo hi where
  low := le_smooth_div (by decide) h.low hlo
  high := smooth_le (by decide) h.high hhi
  rttvar := smooth_le (by decide) h.rttvar (dist_le hhi h.srtt_le)

/-- Samples below a limit keep the accumulators below it, eight and four times over. -/
theorem advance_le {o : Option Track} {n : Nat}
    (ht : ∀ t, o = some t → t.srtt ≤ 8 * (n - 1) ∧ t.rttvar ≤ 4 * n) (hm : m < n) :
    (advance o m).srtt ≤ 8 * (n - 1) ∧ (advance o m).rttvar ≤ 4 * n := by
  have hm' : m ≤ n - 1 := Nat.le_sub_one_of_lt hm
  cases o with
  | none => exact ⟨Nat.mul_le_mul_left 8 hm', Nat.mul_le_mul_left 4 (Nat.le_of_lt hm)⟩
  | some t =>
    obtain ⟨hsrtt, hrttvar⟩ := ht t rfl
    have hdiv : t.srtt / 8 ≤ n := by omega
    exact ⟨smooth_le (by decide) hsrtt hm',
      smooth_le (by decide) hrttvar (dist_le (Nat.le_of_lt hm) hdiv)⟩

end Track

namespace RtoEstimator

variable {b : Build} {e e' : RtoEstimator} {m : U64}

def track (e : RtoEstimator) : Option Track := e.srtt.map fun srtt => ⟨srtt.toNat, e.rttvar.toNat⟩

theorem absDiff_toNat (x y : U64) : (absDiff x y).toNat = Nat.dist x.toNat y.toNat := by
  unfold absDiff Nat.dist
  split
  · rename_i h
    have : x.toNat < y.toNat := h
    rw [Build.toNat_sub_of_le (le_of_lt h)]
    omega
  · rename_i h
    have hle : y ≤ x := not_lt.mp h
    have : y.toNat ≤ x.toNat := hle
    rw [Build.toNat_sub_of_le hle]
    omega

/-- A sample sets the averages, and takes back the backoff. -/
theorem onSample_fields (h : e.onSample b m = .ok e') : ∃ srtt rttvar,
    e' = { e with backoff := 1, srtt := some srtt, rttvar } := by
  unfold onSample at h
  split at h
  · obtain ⟨scaled, _, h⟩ := bind_eq_ok.mp h
    obtain ⟨scaled', _, h⟩ := bind_eq_ok.mp h
    cases h
    exact ⟨_, _, rfl⟩
  · obtain ⟨kept, _, h⟩ := bind_eq_ok.mp h
    obtain ⟨step, _, h⟩ := bind_eq_ok.mp h
    obtain ⟨rttvar, _, h⟩ := bind_eq_ok.mp h
    obtain ⟨keptSrtt, _, h⟩ := bind_eq_ok.mp h
    obtain ⟨scaled, _, h⟩ := bind_eq_ok.mp h
    obtain ⟨srtt', _, h⟩ := bind_eq_ok.mp h
    cases h
    exact ⟨_, _, rfl⟩

/-- **What a sample does**, where nothing overflows. -/
theorem onSample_track (h : e.onSample .checked m = .ok e') :
    e'.track = some (Track.advance e.track m.toNat) ∧ m.toNat < RTT_LIMIT := by
  have h8 : SCALE.toNat = 8 := rfl
  unfold onSample at h
  split at h
  · rename_i hs
    obtain ⟨scaled, hscaled, h⟩ := bind_eq_ok.mp h
    obtain ⟨scaled', hscaled', h⟩ := bind_eq_ok.mp h
    cases h
    obtain ⟨hlt, hn⟩ := Build.checked_mul hscaled
    obtain ⟨_, hn'⟩ := Build.checked_mul hscaled'
    rw [h8] at hlt hn hn'
    have hv : (scaled' / 2#64).toNat = 4 * m.toNat := by
      rw [BitVec.toNat_udiv, hn']
      show m.toNat * 8 / 2 = _
      omega
    refine ⟨?_, ?_⟩
    · simp only [track, hs, Option.map_some, Option.map_none, hn, hv, Track.advance, Track.first,
        Nat.mul_comm]
    · simp only [RTT_LIMIT]
      omega
  · rename_i srtt hs
    obtain ⟨kept, hkept, h⟩ := bind_eq_ok.mp h
    obtain ⟨step, hstep, h⟩ := bind_eq_ok.mp h
    obtain ⟨rttvar, hrttvar, h⟩ := bind_eq_ok.mp h
    obtain ⟨keptSrtt, hkeptSrtt, h⟩ := bind_eq_ok.mp h
    obtain ⟨scaled, hscaled, h⟩ := bind_eq_ok.mp h
    obtain ⟨srtt', hsrtt', h⟩ := bind_eq_ok.mp h
    cases h
    obtain ⟨_, hkept⟩ := Build.checked_sub hkept
    obtain ⟨_, hstep⟩ := Build.checked_mul hstep
    obtain ⟨_, hrttvar⟩ := Build.checked_add hrttvar
    obtain ⟨_, hkeptSrtt⟩ := Build.checked_sub hkeptSrtt
    obtain ⟨hlt, hscaled⟩ := Build.checked_mul hscaled
    obtain ⟨_, hsrtt'⟩ := Build.checked_add hsrtt'
    rw [BitVec.toNat_udiv, show (4#64).toNat = 4 from rfl] at hkept hrttvar
    rw [absDiff_toNat, BitVec.toNat_udiv, h8, show (SCALE / 2#64).toNat = 4 from rfl] at hstep
    rw [BitVec.toNat_udiv, show (8#64).toNat = 8 from rfl] at hkeptSrtt hsrtt'
    rw [h8] at hlt hscaled
    -- the scale of the sample cancels against that of its weight
    rw [hkept, hstep, Nat.mul_div_cancel _ (by decide)] at hrttvar
    rw [hkeptSrtt, hscaled, Nat.mul_div_cancel _ (by decide)] at hsrtt'
    refine ⟨?_, ?_⟩
    · simp only [track, hs, Option.map_some, hsrtt', hrttvar, Track.advance, Track.next, smooth]
    · simp only [RTT_LIMIT]
      omega

/-- A sample that returns in the checked build does the same in every build. -/
theorem onSample_of_checked (h : e.onSample .checked m = .ok e') (b : Build) :
    e.onSample b m = .ok e' := by
  unfold onSample at h ⊢
  split at h
  · obtain ⟨scaled, hscaled, h⟩ := bind_eq_ok.mp h
    have hmul : b.mul m SCALE = .ok scaled := Build.fit_of_checked hscaled b
    simp only [hscaled, ok_bind] at h
    simp only [hmul, ok_bind]
    exact h
  · rename_i srtt _
    obtain ⟨kept, hkept, h⟩ := bind_eq_ok.mp h
    obtain ⟨step, hstep, h⟩ := bind_eq_ok.mp h
    obtain ⟨rttvar, hrttvar, h⟩ := bind_eq_ok.mp h
    obtain ⟨keptSrtt, hkeptSrtt, h⟩ := bind_eq_ok.mp h
    obtain ⟨scaled, hscaled, h⟩ := bind_eq_ok.mp h
    obtain ⟨srtt', hsrtt', h⟩ := bind_eq_ok.mp h
    have hmul : b.mul (absDiff m (srtt / SCALE)) (SCALE / 2#64) = .ok step :=
      Build.fit_of_checked hstep b
    have hadd : b.add kept (step / 4#64) = .ok rttvar := Build.fit_of_checked hrttvar b
    have hmul' : b.mul m SCALE = .ok scaled := Build.fit_of_checked hscaled b
    have hadd' : b.add keptSrtt (scaled / 8#64) = .ok srtt' := Build.fit_of_checked hsrtt' b
    simp only [Build.sub_of_checked hkept b, hmul, hadd, Build.sub_of_checked hkeptSrtt b, hmul',
      hadd', ok_bind]
    exact h

/-- A sample below the limit returns, if those before it were. -/
theorem onSample_returns (ht : b = .checked → ∀ t, e.track = some t →
      t.srtt ≤ 8 * (RTT_LIMIT - 1) ∧ t.rttvar ≤ 4 * RTT_LIMIT)
    (hm : b = .checked → m.toNat < RTT_LIMIT) : ∃ e', e.onSample b m = .ok e' := by
  have h8 : SCALE.toNat = 8 := rfl
  obtain ⟨scaled, hscaled⟩ : ∃ s, b.mul m SCALE = .ok s := by
    refine Build.fit_returns fun hb => ?_
    have := hm hb
    simp only [h8, RTT_LIMIT] at *
    omega
  unfold onSample
  split
  · simp only [hscaled, ok_bind]
    exact ⟨_, rfl⟩
  · rename_i srtt hsrtt
    have hhalf : (SCALE / 2#64).toNat = 4 := rfl
    have htrack : e.track = some ⟨srtt.toNat, e.rttvar.toNat⟩ := by rw [track, hsrtt, Option.map_some]
    have hs : b = .checked → srtt.toNat ≤ 8 * (RTT_LIMIT - 1) := fun hb => (ht hb _ htrack).1
    have hv : b = .checked → e.rttvar.toNat ≤ 4 * RTT_LIMIT := fun hb => (ht hb _ htrack).2
    have hdiff : b = .checked → (absDiff m (srtt / SCALE)).toNat < RTT_LIMIT := by
      intro hb
      have h1 := hm hb
      have h2 := hs hb
      rw [absDiff_toNat, BitVec.toNat_udiv, h8]
      simp only [Nat.dist, RTT_LIMIT] at *
      omega
    obtain ⟨kept, hk⟩ : ∃ k, b.sub e.rttvar (e.rttvar / 4#64) = .ok k :=
      Build.sub_returns fun _ => by rw [BitVec.toNat_udiv]; exact Nat.div_le_self _ _
    obtain ⟨step, hst⟩ : ∃ s, b.mul (absDiff m (srtt / SCALE)) (SCALE / 2#64) = .ok s := by
      refine Build.fit_returns fun hb => ?_
      have := hdiff hb
      simp only [hhalf, RTT_LIMIT] at *
      omega
    obtain ⟨rttvar, hv⟩ : ∃ v, b.add kept (step / 4#64) = .ok v := by
      refine Build.fit_returns fun hb => ?_
      have h1 := hv hb
      have h2 := hdiff hb
      subst hb
      obtain ⟨-, h3⟩ := Build.checked_sub hk
      obtain ⟨-, h4⟩ := Build.checked_mul hst
      rw [BitVec.toNat_udiv] at h3
      rw [BitVec.toNat_udiv, h4, hhalf]
      simp only [show (4#64).toNat = 4 from rfl, RTT_LIMIT] at *
      omega
    obtain ⟨keptSrtt, hks⟩ : ∃ k, b.sub srtt (srtt / 8#64) = .ok k :=
      Build.sub_returns fun _ => by rw [BitVec.toNat_udiv]; exact Nat.div_le_self _ _
    obtain ⟨srtt', hs'⟩ : ∃ s, b.add keptSrtt (scaled / 8#64) = .ok s := by
      refine Build.fit_returns fun hb => ?_
      have h1 := hs hb
      have h2 := hm hb
      subst hb
      obtain ⟨-, h3⟩ := Build.checked_sub hks
      obtain ⟨-, h4⟩ := Build.checked_mul hscaled
      rw [BitVec.toNat_udiv] at h3
      rw [BitVec.toNat_udiv, h4]
      simp only [h8, show (8#64).toNat = 8 from rfl, RTT_LIMIT] at *
      omega
    simp only [hk, hst, hv, hks, hscaled, hs', ok_bind]
    exact ⟨_, rfl⟩

theorem onTimeout_eq (h : e.backoff.toNat ≤ 64) : ∃ backoff : U32,
    (∀ b, e.onTimeout b = .ok { e with backoff }) ∧ backoff.toNat = min (2 * e.backoff.toNat) 64 := by
  have hfit : e.backoff.toNat * (2#32).toNat < 2 ^ 32 := by
    show e.backoff.toNat * 2 < 2 ^ 32
    omega
  refine ⟨min (BitVec.ofNat 32 (e.backoff.toNat * (2#32).toNat)) 64#32, fun b => ?_, ?_⟩
  · have hmul : b.mul e.backoff 2#32 = .ok _ := Build.fit_of_lt b hfit
    simp only [onTimeout, hmul, ok_bind]
  · rw [min_toNat, BitVec.toNat_ofNat, Nat.mod_eq_of_lt hfit]
    show min (e.backoff.toNat * 2) 64 = _
    rw [Nat.mul_comm]

/-! ## The timeout -/

/-- The estimate of `base_rto`, before it is clamped. -/
def estimate (e : RtoEstimator) : Nat :=
  match e.track with
  | some t => t.estimate
  | none => e.minRto.toNat

theorem clamp_eq {x lo hi : U64} (h : lo ≤ hi) : ∃ v, clamp x lo hi = .ok v ∧
    v.toNat = max lo.toNat (min x.toNat hi.toNat) := by
  have hle : lo.toNat ≤ hi.toNat := h
  unfold clamp
  rw [if_pos h]
  refine ⟨_, rfl, ?_⟩
  split
  · rename_i hlo
    have : x.toNat < lo.toNat := hlo
    omega
  · rename_i hlo
    have : ¬ x.toNat < lo.toNat := hlo
    split
    · rename_i hhi
      have : hi.toNat < x.toNat := hhi
      omega
    · rename_i hhi
      have : ¬ hi.toNat < x.toNat := hhi
      omega

theorem baseRto_eq (hle : e.minRto ≤ e.maxRto) (hfit : e.estimate < 2 ^ 64) :
    ∃ base, (∀ b, e.baseRto b = .ok base) ∧
      base.toNat = max e.minRto.toNat (min e.estimate e.maxRto.toNat) := by
  unfold estimate track at hfit ⊢
  unfold baseRto
  cases hs : e.srtt with
  | none =>
    obtain ⟨v, hv, hn⟩ := clamp_eq (x := e.minRto) hle
    exact ⟨v, fun _ => hv, hn⟩
  | some srtt =>
    rw [hs] at hfit
    simp only [Option.map_some, Track.estimate] at hfit ⊢
    have hmax : (max (e.rttvar / (SCALE / 2#64)) 1#64).toNat = max (e.rttvar.toNat / 4) 1 := by
      rw [max_toNat, BitVec.toNat_udiv]
      rfl
    have hfour : (4#64).toNat * (max (e.rttvar / (SCALE / 2#64)) 1#64).toNat < 2 ^ 64 := by
      rw [hmax]
      show 4 * max (e.rttvar.toNat / 4) 1 < 2 ^ 64
      omega
    have hmul : ∀ b : Build, b.mul 4#64 (max (e.rttvar / (SCALE / 2#64)) 1#64) = .ok _ :=
      fun b => Build.fit_of_lt b hfour
    have hsum : (srtt / SCALE).toNat + (BitVec.ofNat 64
        ((4#64).toNat * (max (e.rttvar / (SCALE / 2#64)) 1#64).toNat)).toNat =
        srtt.toNat / 8 + 4 * max (e.rttvar.toNat / 4) 1 := by
      rw [BitVec.toNat_ofNat, Nat.mod_eq_of_lt hfour, hmax, BitVec.toNat_udiv]
      rfl
    have hadd : ∀ b : Build, b.add (srtt / SCALE) (BitVec.ofNat 64
        ((4#64).toNat * (max (e.rttvar / (SCALE / 2#64)) 1#64).toNat)) = .ok _ :=
      fun b => Build.fit_of_lt b (by rw [hsum]; exact hfit)
    obtain ⟨v, hv, hn⟩ := clamp_eq (x := BitVec.ofNat 64 (srtt.toNat / 8 +
      4 * max (e.rttvar.toNat / 4) 1)) hle
    rw [BitVec.toNat_ofNat, Nat.mod_eq_of_lt hfit] at hn
    refine ⟨v, fun b => ?_, hn⟩
    simp only [hmul, hadd, hsum, ok_bind]
    exact hv

theorem current_eq (hle : e.minRto ≤ e.maxRto) (hfit : e.estimate < 2 ^ 64)
    (hmax : e.maxRto.toNat * e.backoff.toNat < 2 ^ 64) :
    ∃ base rto, (∀ b, e.baseRto b = .ok base ∧ e.current b = .ok rto) ∧
      base.toNat = max e.minRto.toNat (min e.estimate e.maxRto.toNat) ∧
      rto.toNat = min (base.toNat * e.backoff.toNat) e.maxRto.toNat := by
  obtain ⟨base, hbase, hn⟩ := baseRto_eq hle hfit
  have hle' : e.minRto.toNat ≤ e.maxRto.toNat := hle
  have hback : (e.backoff.setWidth 64).toNat = e.backoff.toNat := by
    have := e.backoff.isLt
    rw [BitVec.toNat_setWidth, Nat.mod_eq_of_lt (by omega)]
  have hprod : base.toNat * (e.backoff.setWidth 64).toNat < 2 ^ 64 := by
    rw [hback]
    refine Nat.lt_of_le_of_lt (Nat.mul_le_mul_right _ ?_) hmax
    omega
  refine ⟨base, min (BitVec.ofNat 64 (base.toNat * (e.backoff.setWidth 64).toNat)) e.maxRto,
    fun b => ⟨hbase b, ?_⟩, hn, ?_⟩
  · have hmul : b.mul base (e.backoff.setWidth 64) = .ok _ := Build.fit_of_lt b hprod
    simp only [current, hbase, hmul, ok_bind]
  · rw [min_toNat, BitVec.toNat_ofNat, Nat.mod_eq_of_lt hprod, hback]

end RtoEstimator

end Distrans
