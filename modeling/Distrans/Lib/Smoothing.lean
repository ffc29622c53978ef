import Mathlib.Algebra.Order.Field.Basic
import Mathlib.Data.Nat.Dist
import Mathlib.Data.Rat.Cast.Order
import Mathlib.Tactic.FieldSimp
import Mathlib.Tactic.Linarith
import Mathlib.Tactic.Positivity
import Mathlib.Tactic.Ring

/-!
# Exponential smoothing in fixed point

An accumulator that holds `k` times an average: with each sample a `k`-th of it, rounded down,
leaks away and the sample comes in (`smooth`).  The value it stands for is the quotient by `k`.

* `le_smooth_div`, `smooth_le` — the value stays in the hull of the samples.
* `smooth_settles` — **fed with one value the accumulator arrives at it**, from anywhere: the
  distance to the values that stand for it falls with every sample (`offset_smooth`).
* `smooth_sub_ideal` — how far the exact filter is off after a step: what is rounded away, and
  the old distance scaled down.
-/

set_option autoImplicit false

namespace Smoothing

/-- A `k`-th of the accumulator leaks away, and the sample comes in. -/
def smooth (k s x : Nat) : Nat := s - s / k + x

/-- The exact filter, of the average itself. -/
def ideal (k : Nat) (avg x : ℚ) : ℚ := avg - avg / k + x / k

variable {k s x lo hi : Nat}

/-- The accumulator, by quotient and remainder: the leak is a quotient. -/
theorem smooth_eq (k s x : Nat) : smooth k s x + s / k = s + x := by
  have := Nat.div_le_self s k
  unfold smooth
  omega

/-! ## The hull -/

theorem le_smooth_div (hk : 0 < k) (hs : lo ≤ s / k) (hx : lo ≤ x) : lo ≤ smooth k s x / k := by
  have hstep := smooth_eq k s x
  have hdiv := Nat.div_add_mod s k
  rw [Nat.le_div_iff_mul_le hk]
  obtain ⟨j, rfl⟩ : ∃ j, k = j + 1 := ⟨k - 1, by omega⟩
  have hq : j * lo ≤ j * (s / (j + 1)) := Nat.mul_le_mul_left j hs
  calc lo * (j + 1) = j * lo + lo := by ring
    _ ≤ j * (s / (j + 1)) + x := Nat.add_le_add hq hx
    _ ≤ smooth (j + 1) s x := by
      rw [Nat.add_mul, Nat.one_mul] at hdiv
      omega

theorem smooth_le (hk : 0 < k) (hs : s ≤ k * hi) (hx : x ≤ hi) : smooth k s x ≤ k * hi := by
  have hstep := smooth_eq k s x
  have hdiv := Nat.div_add_mod s k
  have hmod := Nat.mod_lt s hk
  obtain ⟨j, rfl⟩ : ∃ j, k = j + 1 := ⟨k - 1, by omega⟩
  rw [Nat.add_mul, Nat.one_mul] at hdiv hs ⊢
  rcases Nat.lt_or_ge (s / (j + 1)) hi with hlt | hge
  · have hq : j * (s / (j + 1)) + j ≤ j * hi := by
      rw [← Nat.mul_succ]
      exact Nat.mul_le_mul_left j hlt
    omega
  · have hq : j * hi ≤ j * (s / (j + 1)) := Nat.mul_le_mul_left j hge
    omega

/-! ## One value, again and again -/

/-- How far the accumulator is from those that stand for `x`. -/
def offset (k s x : Nat) : Nat := (k * x - s) + (s - (k * x + (k - 1)))

theorem offset_eq_zero (hk : 0 < k) : offset k s x = 0 ↔ s / k = x := by
  have hdiv := Nat.div_add_mod s k
  have hmod := Nat.mod_lt s hk
  unfold offset
  constructor
  · intro h
    have hlo : x ≤ s / k := (Nat.le_div_iff_mul_le hk).mpr (by rw [Nat.mul_comm]; omega)
    have hhi : s / k < x + 1 := (Nat.div_lt_iff_lt_mul hk).mpr (by rw [Nat.add_mul, Nat.mul_comm]; omega)
    omega
  · intro h
    rw [h] at hdiv
    omega

/-- **A sample of `x` comes closer to `x`.** -/
theorem offset_smooth (hk : 0 < k) : offset k (smooth k s x) x ≤ offset k s x - 1 := by
  have hstep := smooth_eq k s x
  rcases Nat.lt_trichotomy (s / k) x with hlt | heq | hgt
  · -- from below: more comes in than leaks away
    have hs : s ≤ k * x := by
      have := (Nat.div_lt_iff_lt_mul hk).mp hlt
      rw [Nat.mul_comm] at this
      omega
    have hnew : smooth k s x ≤ k * x := smooth_le hk hs (Nat.le_refl x)
    unfold offset
    omega
  · have hsame : smooth k s x = s := by omega
    rw [hsame, (offset_eq_zero hk).mpr heq]
  · -- from above: more leaks away
    have hnew : x ≤ smooth k s x / k := le_smooth_div hk (Nat.le_of_lt hgt) (Nat.le_refl x)
    have hge : k * x ≤ smooth k s x := by
      rw [Nat.mul_comm]
      exact (Nat.le_div_iff_mul_le hk).mp hnew
    unfold offset
    omega

theorem offset_iterate (hk : 0 < k) : ∀ n : Nat,
    offset k ((smooth k · x)^[n] s) x ≤ offset k s x - n
  | 0 => Nat.le_refl _
  | n + 1 => by
    rw [Function.iterate_succ_apply']
    have hlast : offset k (smooth k ((smooth k · x)^[n] s) x) x ≤
        offset k ((smooth k · x)^[n] s) x - 1 := offset_smooth hk
    have hbefore := offset_iterate hk n
    omega

/-- **Fed with one value the accumulator arrives at it**, and stays. -/
theorem smooth_settles (hk : 0 < k) {n : Nat} (hn : offset k s x ≤ n) :
    (smooth k · x)^[n] s / k = x := by
  apply (offset_eq_zero hk).mp
  have := offset_iterate (s := s) (x := x) hk n
  omega

/-! ## The exact filter -/

/-- The distance to the exact filter after a step. -/
theorem smooth_sub_ideal (hk : 0 < k) (avg y : ℚ) :
    (smooth k s x : ℚ) / k - ideal k avg y =
      (1 - 1 / k) * ((s : ℚ) / k - avg) + ((s % k : Nat) : ℚ) / k ^ 2 + (x - y) / k := by
  have hk' : (k : ℚ) ≠ 0 := Nat.cast_ne_zero.mpr (Nat.pos_iff_ne_zero.mp hk)
  have hstep : (smooth k s x : ℚ) + (s / k : Nat) = s + x := by exact_mod_cast smooth_eq k s x
  have hdiv : (k : ℚ) * (s / k : Nat) + (s % k : Nat) = s := by exact_mod_cast Nat.div_add_mod s k
  have hnew : (smooth k s x : ℚ) = s + x - (s / k : Nat) := by linarith
  have hquot : ((s / k : Nat) : ℚ) = (s - (s % k : Nat)) / k := by
    rw [eq_div_iff hk']
    linarith
  rw [hnew, hquot, ideal]
  field_simp
  ring

/-- What is rounded away is less than one. -/
theorem mod_div_le (hk : 0 < k) : ((s % k : Nat) : ℚ) / k ≤ 1 - 1 / k := by
  have hk' : (0 : ℚ) < k := Nat.cast_pos.mpr hk
  have hmod : ((s % k : Nat) : ℚ) + 1 ≤ k := by exact_mod_cast Nat.mod_lt s hk
  rw [div_le_iff₀ hk', sub_mul, div_mul_cancel₀ _ hk'.ne', one_mul]
  linarith

/-- The value, and what is rounded away. -/
theorem div_eq_sub (hk : 0 < k) : ((s / k : Nat) : ℚ) = (s : ℚ) / k - ((s % k : Nat) : ℚ) / k := by
  have hk' : (k : ℚ) ≠ 0 := Nat.cast_ne_zero.mpr (Nat.pos_iff_ne_zero.mp hk)
  have hdiv : (k : ℚ) * (s / k : Nat) + (s % k : Nat) = s := by exact_mod_cast Nat.div_add_mod s k
  rw [← sub_div, eq_div_iff hk']
  linarith

end Smoothing
