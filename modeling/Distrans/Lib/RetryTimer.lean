import Mathlib.Algebra.Ring.Nat
import Mathlib.Tactic.Common

/-!
# Retry timers

A timer is armed at `sentAt`, looked at once per unit of time, and fires at the latest `period`
units after it was armed; each firing arms it again and raises a counter, and the firing that
takes the counter past `max` gives up.  `budget` bounds the number of looks until then.

* `budget_wait` — a look that does not fire uses up one unit.
* `budget_fire` — so does one that fires without giving up.
* `budget_le` — at most `(max + 1) * period` in all.
* `OnTime` — a timer that is armed again by each firing, `max` times in all, and looked at in every
  unit of time keeps to a schedule (`OnTime.wait`, `OnTime.fire`), which ends after `max * period`
  units (`OnTime.lt`).
-/

set_option autoImplicit false

namespace RetryTimer

/-- Firings until the counter passes `max`. -/
def left (max count : Nat) : Nat := Nat.max 1 (max + 1 - count)

/-- Looks until the timer gives up, at most. -/
def budget (period max count sentAt now : Nat) : Nat :=
  (left max count - 1) * period + Nat.max 1 (sentAt + period - now)

variable {period max count sentAt now : Nat}

theorem budget_pos : 0 < budget period max count sentAt now := by
  have : 1 ≤ Nat.max 1 (sentAt + period - now) := Nat.le_max_left _ _
  unfold budget
  omega

theorem budget_le (hp : 0 < period) (h : sentAt ≤ now) :
    budget period max count sentAt now ≤ (max + 1) * period := by
  have hleft : left max count - 1 ≤ max := by
    simp only [left, Nat.max_def]
    split <;> omega
  have hlast : Nat.max 1 (sentAt + period - now) ≤ period := Nat.max_le.mpr ⟨hp, by omega⟩
  calc budget period max count sentAt now
      ≤ max * period + period := Nat.add_le_add (Nat.mul_le_mul_right _ hleft) hlast
    _ = (max + 1) * period := by rw [Nat.succ_mul]

theorem budget_wait (h : now + 1 < sentAt + period) :
    budget period max count sentAt (now + 1) < budget period max count sentAt now := by
  have hlt : Nat.max 1 (sentAt + period - (now + 1)) < Nat.max 1 (sentAt + period - now) := by
    simp only [Nat.max_def]
    split <;> split <;> omega
  exact Nat.add_lt_add_left hlt _

theorem budget_fire (hp : 0 < period) (h : count + 1 ≤ max) :
    budget period max (count + 1) (now + 1) (now + 1) < budget period max count sentAt now := by
  have hleft : left max count = left max (count + 1) + 1 := by
    simp only [left, Nat.max_def]
    split <;> split <;> omega
  have hone : 1 ≤ left max (count + 1) := Nat.le_max_left _ _
  have hagain : Nat.max 1 (now + 1 + period - (now + 1)) = period := by
    rw [Nat.add_sub_cancel_left]; exact Nat.max_eq_right hp
  have hpos : 1 ≤ Nat.max 1 (sentAt + period - now) := Nat.le_max_left _ _
  have hmul : (left max (count + 1) - 1) * period + period = left max (count + 1) * period := by
    rw [← Nat.succ_mul]
    congr 1
    omega
  simp only [budget, hleft, hagain, Nat.add_sub_cancel]
  omega

/-! ## The schedule -/

/-- A timer armed at `start`, now for the `count`-th time, at `sentAt`, and last looked at `now`. -/
structure OnTime (period max start count sentAt now : Nat) : Prop where
  pos : 1 ≤ count
  count_le : count ≤ max
  start : sentAt ≤ start + (count - 1) * period
  armed : sentAt ≤ now
  running : now < sentAt + period

variable {start now' : Nat}

theorem OnTime.first (hp : 0 < period) (hm : 1 ≤ max) : OnTime period max start 1 start start :=
  ⟨Nat.le_refl 1, hm, by omega, Nat.le_refl _, by omega⟩

theorem OnTime.wait (h : OnTime period max start count sentAt now) (hnow : now ≤ now')
    (hr : now' < sentAt + period) : OnTime period max start count sentAt now' :=
  ⟨h.pos, h.count_le, h.start, Nat.le_trans h.armed hnow, hr⟩

theorem OnTime.fire (h : OnTime period max start count sentAt now) (hp : 0 < period)
    (hnow : now' ≤ now + 1) (hmax : count + 1 ≤ max) :
    OnTime period max start (count + 1) now' now' := by
  have hstep : (count + 1 - 1) * period = (count - 1) * period + period := by
    rw [← Nat.succ_mul]
    congr 1
    have := h.pos
    omega
  have hstart := h.start
  have hrun := h.running
  exact ⟨Nat.le_add_left _ _, hmax, by rw [hstep]; omega, Nat.le_refl _, by omega⟩

/-- **The schedule ends.** -/
theorem OnTime.lt (h : OnTime period max start count sentAt now) : now < start + max * period := by
  have hstart := h.start
  have hrun := h.running
  calc now < start + ((count - 1) * period + period) := by omega
    _ = start + (count - 1 + 1) * period := by rw [Nat.succ_mul]
    _ ≤ start + max * period := by
      have hle : count - 1 + 1 ≤ max := by
        have := h.pos
        have := h.count_le
        omega
      exact Nat.add_le_add_left (Nat.mul_le_mul_right _ hle) _

end RetryTimer
