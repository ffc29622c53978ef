import Distrans.Transport.RtoHistory

/-!
# The estimator against RFC 6298

The exact filter over the rationals (`Rfc`), and how far the fixed-point one is from it.  The
smoothed round trip is never off by more than a tick.  The deviation starts wrong: the first
sample `R` sets `rttvar` to `R * SCALE / 2`, that is, to `R` in the scale of the field, and not to
`R / 2`.  Of what it is off by, each later sample takes a quarter away (`Close.next`).

* `estimate_near_iff` — **at every sample of a run the estimate is within 32 ticks of the exact
  one just if the first sample is no more than 16**.
* `estimate_far` — after a first sample of 100 ticks it is 200 off.
-/

set_option autoImplicit false

namespace Distrans

open Machine Smoothing

/-- The state of RFC 6298: `SRTT` and `RTTVAR`. -/
structure Rfc where
  srtt : ℚ
  rttvar : ℚ

namespace Rfc

def first (r : ℚ) : Rfc := ⟨r, r / 2⟩

def next (s : Rfc) (r : ℚ) : Rfc :=
  ⟨7 / 8 * s.srtt + 1 / 8 * r, 3 / 4 * s.rttvar + 1 / 4 * |s.srtt - r|⟩

def rto (s : Rfc) : ℚ := s.srtt + 4 * s.rttvar

/-- After a first sample and later ones. -/
def after (first : U64) (rest : List U64) : Rfc :=
  rest.foldl (fun s r => s.next r.toNat) (Rfc.first first.toNat)

theorem after_concat (first : U64) (rest : List U64) (r : U64) :
    after first (rest ++ [r]) = (after first rest).next r.toNat := by
  rw [after, List.foldl_append]
  rfl

end Rfc

/-! ## Distances -/

theorem cast_dist (x y : Nat) : ((Nat.dist x y : Nat) : ℚ) = |(x : ℚ) - y| := by
  rcases Nat.le_total x y with h | h
  · have h' : (x : ℚ) ≤ y := by exact_mod_cast h
    rw [Nat.dist_eq_sub_of_le h, Nat.cast_sub h, abs_sub_comm, abs_of_nonneg (sub_nonneg.mpr h')]
  · have h' : (y : ℚ) ≤ x := by exact_mod_cast h
    rw [Nat.dist_eq_sub_of_le_right h, Nat.cast_sub h, abs_of_nonneg (sub_nonneg.mpr h')]

/-- How far the track is from the exact state, when the deviation started `d` off and has since
shrunk by the factor `p`. -/
structure Close (d p : ℚ) (t : Track) (s : Rfc) : Prop where
  srtt_ge : s.srtt ≤ (t.srtt : ℚ) / 8
  srtt_le : (t.srtt : ℚ) / 8 ≤ s.srtt + 7 / 8
  rttvar_ge : d * p - 7 / 8 ≤ (t.rttvar : ℚ) / 4 - s.rttvar
  rttvar_le : (t.rttvar : ℚ) / 4 - s.rttvar ≤ (d - 13 / 8) * p + 13 / 8

variable {d p : ℚ} {t : Track} {s : Rfc}

theorem Close.first (m : Nat) : Close ((m : ℚ) / 2) 1 (Track.first m) (Rfc.first m) := by
  constructor <;> simp only [Track.first, Rfc.first] <;> push_cast <;> linarith

/-- The value of `srtt`, rounded down, is off by less than a tick either way. -/
theorem Close.srtt_div (h : Close d p t s) : |((t.srtt / 8 : Nat) : ℚ) - s.srtt| ≤ 7 / 8 := by
  have hdiv := div_eq_sub (s := t.srtt) (k := 8) (by decide)
  have hmod := mod_div_le (s := t.srtt) (k := 8) (by decide)
  have hnonneg : (0 : ℚ) ≤ ((t.srtt % 8 : Nat) : ℚ) / 8 := by positivity
  have hge := h.srtt_ge
  have hle := h.srtt_le
  push_cast at hdiv hmod hnonneg ⊢
  rw [abs_le]
  constructor <;> linarith

/-- **A sample takes a quarter of the difference away**, and rounding adds no more than it may. -/
theorem Close.next (h : Close d p t s) (m : Nat) :
    Close d (p * (3 / 4)) (t.next m) (s.next m) := by
  have hsrtt := smooth_sub_ideal (s := t.srtt) (x := m) (k := 8) (by decide) s.srtt m
  have hideal : ideal 8 s.srtt m = (s.next m).srtt := by
    simp only [ideal, Rfc.next]
    push_cast
    ring
  have hrttvar := smooth_sub_ideal (s := t.rttvar) (x := Nat.dist m (t.srtt / 8)) (k := 4)
    (by decide) s.rttvar |s.srtt - m|
  have hideal' : ideal 4 s.rttvar |s.srtt - m| = (s.next m).rttvar := by
    simp only [ideal, Rfc.next]
    push_cast
    ring
  -- the deviations differ by no more than the round trips
  have hdev : |((Nat.dist m (t.srtt / 8) : Nat) : ℚ) - (|s.srtt - m|)| ≤ 7 / 8 := by
    rw [cast_dist, abs_sub_comm s.srtt]
    refine (abs_abs_sub_abs_le _ _).trans ?_
    rw [sub_sub_sub_cancel_left, abs_sub_comm]
    exact h.srtt_div
  obtain ⟨hdev_ge, hdev_le⟩ := abs_le.mp hdev
  have hmod := mod_div_le (s := t.srtt) (k := 8) (by decide)
  have hmod' := mod_div_le (s := t.rttvar) (k := 4) (by decide)
  have hnonneg : (0 : ℚ) ≤ ((t.srtt % 8 : Nat) : ℚ) := Nat.cast_nonneg _
  have hnonneg' : (0 : ℚ) ≤ ((t.rttvar % 4 : Nat) : ℚ) := Nat.cast_nonneg _
  have hge := h.srtt_ge
  have hle := h.srtt_le
  have hge' := h.rttvar_ge
  have hle' := h.rttvar_le
  rw [hideal] at hsrtt
  rw [hideal'] at hrttvar
  push_cast at hsrtt hrttvar hmod hmod' hnonneg hnonneg' hdev_ge hdev_le
  constructor
  · show (s.next m).srtt ≤ (smooth 8 t.srtt m : ℚ) / 8
    linarith
  · show (smooth 8 t.srtt m : ℚ) / 8 ≤ (s.next m).srtt + 7 / 8
    linarith
  · show d * (p * (3 / 4)) - 7 / 8 ≤
      (smooth 4 t.rttvar (Nat.dist m (t.srtt / 8)) : ℚ) / 4 - (s.next m).rttvar
    linarith
  · show (smooth 4 t.rttvar (Nat.dist m (t.srtt / 8)) : ℚ) / 4 - (s.next m).rttvar ≤
      (d - 13 / 8) * (p * (3 / 4)) + 13 / 8
    linarith

/-- The estimates, and with them the deviations four times over. -/
theorem Close.estimate (h : Close d p t s) : 4 * d * p - 59 / 8 ≤ (t.estimate : ℚ) - s.rto ∧
    (t.estimate : ℚ) - s.rto ≤ (4 * d - 13 / 2) * p + 91 / 8 := by
  obtain ⟨hsrtt_ge, hsrtt_le⟩ := abs_le.mp h.srtt_div
  have hdiv := div_eq_sub (s := t.rttvar) (k := 4) (by decide)
  have hmod := mod_div_le (s := t.rttvar) (k := 4) (by decide)
  have hnonneg : (0 : ℚ) ≤ ((t.rttvar % 4 : Nat) : ℚ) / 4 := by positivity
  have hfloor : ((t.rttvar / 4 : Nat) : ℚ) ≤ (max (t.rttvar / 4) 1 : Nat) := by
    exact_mod_cast Nat.le_max_left _ _
  have hceil : ((max (t.rttvar / 4) 1 : Nat) : ℚ) ≤ (t.rttvar / 4 : Nat) + 1 := by
    exact_mod_cast (by omega : max (t.rttvar / 4) 1 ≤ t.rttvar / 4 + 1)
  have hge := h.rttvar_ge
  have hle := h.rttvar_le
  have hest : (t.estimate : ℚ) = (t.srtt / 8 : Nat) + 4 * (max (t.rttvar / 4) 1 : Nat) := by
    rw [Track.estimate]
    push_cast
    rfl
  rw [hest, Rfc.rto]
  push_cast at hdiv hmod hnonneg hsrtt_ge hsrtt_le hfloor hceil ⊢
  constructor <;> linarith

/-! ## Over a run -/

namespace RtoEstimator

variable {minRto maxRto first : U64} {rest : List U64} {e : RtoEstimator}

theorem play_close : ∀ {rest : List U64} {e : RtoEstimator},
    (new minRto maxRto).play .checked ((first :: rest).map .sample) = .ok e →
    ∃ t, e.track = some t ∧
      Close ((first.toNat : ℚ) / 2) ((3 / 4) ^ rest.length) t (Rfc.after first rest) := by
  intro rest
  induction rest using List.reverseRecOn with
  | nil =>
    intro e h
    obtain ⟨e₁, h₁, h⟩ := bind_eq_ok.mp (play_cons.symm.trans h)
    cases h
    have hsample : (new minRto maxRto).onSample .checked first = .ok e := h₁
    refine ⟨_, (onSample_track hsample).1, ?_⟩
    rw [List.length_nil, pow_zero]
    exact Close.first first.toNat
  | append_singleton rest r ih =>
    intro e h
    rw [← List.cons_append, List.map_append] at h
    obtain ⟨e₁, h₁, h⟩ := bind_eq_ok.mp (play_append.symm.trans h)
    obtain ⟨e₂, h₂, h⟩ := bind_eq_ok.mp (play_cons.symm.trans h)
    cases h
    have hsample : e₁.onSample .checked r = .ok e := h₂
    obtain ⟨t, ht, hclose⟩ := ih h₁
    refine ⟨t.next r.toNat, ?_, ?_⟩
    · rw [(onSample_track hsample).1, ht]
      rfl
    · rw [Rfc.after_concat, List.length_append, List.length_singleton, pow_succ]
      exact hclose.next r.toNat

/-- After these samples the estimate is within 32 ticks of the exact one. -/
def Near (minRto maxRto first : U64) (rest : List U64) : Prop :=
  ∃ e, (∀ b, (new minRto maxRto).play b ((first :: rest).map .sample) = .ok e) ∧
    |(e.estimate : ℚ) - (Rfc.after first rest).rto| ≤ 32

/-- How far the estimate is off. -/
theorem play_estimate (minRto maxRto : U64) (hs : ∀ r ∈ first :: rest, r.toNat < RTT_LIMIT) :
    ∃ e, (∀ b, (new minRto maxRto).play b ((first :: rest).map .sample) = .ok e) ∧
      2 * first.toNat * (3 / 4 : ℚ) ^ rest.length - 59 / 8 ≤
        (e.estimate : ℚ) - (Rfc.after first rest).rto ∧
      (e.estimate : ℚ) - (Rfc.after first rest).rto ≤
        (2 * first.toNat - 13 / 2) * (3 / 4 : ℚ) ^ rest.length + 91 / 8 := by
  have hall : ∀ m, RtoEvent.sample m ∈ (first :: rest).map .sample → m.toNat < RTT_LIMIT := by
    intro m hm
    obtain ⟨r, hr, heq⟩ := List.mem_map.mp hm
    cases heq
    exact hs _ hr
  obtain ⟨e, he, _⟩ := play_below minRto maxRto hall
  obtain ⟨t, ht, hclose⟩ := play_close (he .checked)
  obtain ⟨hge, hle⟩ := hclose.estimate
  have hest : e.estimate = t.estimate := by rw [RtoEstimator.estimate, ht]
  refine ⟨e, he, ?_, ?_⟩
  · rw [hest]
    linarith
  · rw [hest]
    linarith

/-- The first sample alone: off by the sample twice over, and by four ticks at least. -/
theorem near_nil_iff (hs : first.toNat < RTT_LIMIT) :
    Near minRto maxRto first [] ↔ first.toNat ≤ 16 := by
  have hone : ∀ m, RtoEvent.sample m ∈ [.sample first] → m.toNat < RTT_LIMIT := by
    intro m hm
    cases List.mem_singleton.mp hm
    exact hs
  obtain ⟨e, he, _⟩ := play_below minRto maxRto hone
  have hsample : (new minRto maxRto).onSample .checked first = .ok e := by
    obtain ⟨e₁, h₁, h⟩ := bind_eq_ok.mp (play_cons.symm.trans (he .checked))
    cases h
    exact h₁
  have hest : e.estimate = first.toNat + 4 * max first.toNat 1 := by
    rw [RtoEstimator.estimate, (onSample_track hsample).1]
    show 8 * first.toNat / 8 + 4 * max (4 * first.toNat / 4) 1 = _
    rw [Nat.mul_div_cancel_left _ (by decide), Nat.mul_div_cancel_left _ (by decide)]
  have hrto : (Rfc.after first []).rto = 3 * first.toNat := by
    simp only [Rfc.after, List.foldl_nil, Rfc.first, Rfc.rto]
    ring
  have hoff : (e.estimate : ℚ) - (Rfc.after first []).rto =
      ((4 * max first.toNat 1 - 2 * first.toNat : Nat) : ℚ) := by
    have hle : 2 * first.toNat ≤ 4 * max first.toNat 1 := by omega
    rw [hest, hrto, Nat.cast_sub hle]
    push_cast
    ring
  have hnear : |(e.estimate : ℚ) - (Rfc.after first []).rto| ≤ 32 ↔ first.toNat ≤ 16 := by
    rw [hoff, Nat.abs_cast]
    constructor
    · intro h
      have : 4 * max first.toNat 1 - 2 * first.toNat ≤ 32 := by exact_mod_cast h
      omega
    · intro h
      exact_mod_cast (by omega : 4 * max first.toNat 1 - 2 * first.toNat ≤ 32)
  constructor
  · rintro ⟨e', he', hle⟩
    have hsame : e' = e := by
      have := (he' .checked).symm.trans (he .checked)
      injection this
    subst hsame
    exact hnear.mp hle
  · intro h
    exact ⟨e, he, hnear.mpr h⟩

/-- **Within 32 ticks at every sample of a run just if the first sample is at most 16.**  At a
single one, `n` samples after the first, it is enough that `2 * R * (3 / 4) ^ n` is at most 20, and
needed that it is at most 40. -/
theorem estimate_near_iff {minRto maxRto first : U64} {rest : List U64}
    (hs : ∀ r ∈ first :: rest, r.toNat < RTT_LIMIT) :
    ((∀ n, Near minRto maxRto first (rest.take n)) ↔ first.toNat ≤ 16) ∧
      (2 * first.toNat * (3 / 4 : ℚ) ^ rest.length ≤ 20 → Near minRto maxRto first rest) ∧
      (Near minRto maxRto first rest → 2 * first.toNat * (3 / 4 : ℚ) ^ rest.length ≤ 40) := by
  have hfirst : first.toNat < RTT_LIMIT := hs first List.mem_cons_self
  refine ⟨⟨fun h => (near_nil_iff hfirst).mp (h 0), fun h n => ?_⟩, fun h => ?_, ?_⟩
  · cases hrest : rest.take n with
    | nil => exact (near_nil_iff hfirst).mpr h
    | cons r rs =>
      have hs' : ∀ x ∈ first :: r :: rs, x.toNat < RTT_LIMIT := by
        intro x hx
        rw [← hrest] at hx
        rcases List.mem_cons.mp hx with rfl | hx
        · exact hfirst
        · exact hs x (List.mem_cons_of_mem _ (List.mem_of_mem_take hx))
      obtain ⟨e, he, hge, hle⟩ := play_estimate minRto maxRto hs'
      -- a quarter of what the first sample is off by is gone
      have hp : (0 : ℚ) ≤ (3 / 4) ^ (r :: rs).length := by positivity
      have hp' : (3 / 4 : ℚ) ^ (r :: rs).length ≤ 3 / 4 := by
        rw [List.length_cons, pow_succ]
        have : (3 / 4 : ℚ) ^ rs.length ≤ 1 := pow_le_one₀ (by norm_num) (by norm_num)
        linarith
      have hR : (first.toNat : ℚ) ≤ 16 := by exact_mod_cast h
      have hR' : (0 : ℚ) ≤ first.toNat := Nat.cast_nonneg _
      refine ⟨e, he, abs_le.mpr ⟨?_, ?_⟩⟩
      · have : 0 ≤ 2 * (first.toNat : ℚ) * (3 / 4) ^ (r :: rs).length := by positivity
        linarith
      · have : (2 * (first.toNat : ℚ) - 13 / 2) * (3 / 4) ^ (r :: rs).length ≤ 51 / 2 * (3 / 4) := by
          nlinarith
        linarith
  · obtain ⟨e, he, hge, hle⟩ := play_estimate minRto maxRto hs
    have hp : (0 : ℚ) ≤ (3 / 4) ^ rest.length := by positivity
    refine ⟨e, he, abs_le.mpr ⟨?_, ?_⟩⟩
    · have : 0 ≤ 2 * (first.toNat : ℚ) * (3 / 4) ^ rest.length := by positivity
      linarith
    · linarith
  · rintro ⟨e', he', hnear⟩
    obtain ⟨e, he, hge, hle⟩ := play_estimate minRto maxRto hs
    have hsame : e' = e := by
      have := (he' .checked).symm.trans (he .checked)
      injection this
    subst hsame
    have := (abs_le.mp hnear).2
    linarith

/-- A first sample of 16 ticks, and two that are far off. -/
theorem estimate_near_iff_sample :
    ((∀ n, Near 10#64 500#64 16#64 (List.take n [900#64, 3#64])) ↔ (16#64).toNat ≤ 16) ∧
      (2 * (16#64).toNat * (3 / 4 : ℚ) ^ [900#64, 3#64].length ≤ 20 →
        Near 10#64 500#64 16#64 [900#64, 3#64]) ∧
      (Near 10#64 500#64 16#64 [900#64, 3#64] →
        2 * (16#64).toNat * (3 / 4 : ℚ) ^ [900#64, 3#64].length ≤ 40) := by
  refine estimate_near_iff fun r hr => ?_
  simp only [List.mem_cons, List.not_mem_nil, or_false] at hr
  rcases hr with rfl | rfl | rfl <;> simp [RTT_LIMIT]

/-- **A first sample of 100 ticks**: the exact timeout is 300, the estimate 500. -/
theorem estimate_far : ¬ ∀ (minRto maxRto first : U64) (rest : List U64),
    (∀ r ∈ first :: rest, r.toNat < RTT_LIMIT) → Near minRto maxRto first rest := by
  intro h
  have hs : (100#64).toNat < RTT_LIMIT := by simp [RTT_LIMIT]
  have hnear := h 10#64 1000#64 100#64 [] fun r hr => by
    rw [List.mem_singleton.mp hr]
    exact hs
  have hle : (100#64).toNat ≤ 16 := (near_nil_iff hs).mp hnear
  exact absurd hle (by decide)

end RtoEstimator

end Distrans
