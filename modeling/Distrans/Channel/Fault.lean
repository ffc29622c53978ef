import Mathlib.Algebra.Order.Field.Rat
import Distrans.Channel.Tick

/-!
# Seeded faults

`crates/channel/src/{rng,fault}.rs`: the generator every random fault is drawn from, and the two
descriptions of what the channel does to a datagram, a profile of probabilities and a script of
explicit faults.  A probability is a rational number, as every finite `f64` is one.
-/

set_option autoImplicit false

namespace Distrans

open Machine

/-! ## The generator -/

structure SplitMix64 where
  state : U64
  deriving DecidableEq, Repr

namespace SplitMix64

/-- The finalizer of `next_u64`. -/
def mix (z : U64) : U64 :=
  let z := (z ^^^ (z >>> 30)) * 0xBF58476D1CE4E5B9#64
  let z := (z ^^^ (z >>> 27)) * 0x94D049BB133111EB#64
  z ^^^ (z >>> 31)

def nextU64 (r : SplitMix64) : U64 × SplitMix64 :=
  let state := r.state + 0x9E3779B97F4A7C15#64
  (mix state, ⟨state⟩)

/-- True with probability `p`: the upper 53 bits of a draw, as a fraction, lie below it. -/
def chance (r : SplitMix64) (p : ℚ) : Bool × SplitMix64 :=
  let (x, r) := r.nextU64
  (decide (((x >>> 11).toNat : ℚ) / 2 ^ 53 < p), r)

/-- `forced || rng.chance(p)`: nothing is drawn for a forced outcome. -/
def orChance (r : SplitMix64) (forced : Bool) (p : ℚ) : Bool × SplitMix64 :=
  if forced then (true, r) else r.chance p

/-- Uniform in `0..n`, by multiply and shift; asserts that there is something to draw. -/
def below (r : SplitMix64) (n : U64) : Exec (U64 × SplitMix64) :=
  if n = 0 then .error .assertion else
  let (x, r) := r.nextU64
  .ok (BitVec.ofNat 64 (x.toNat * n.toNat / 2 ^ 64), r)

/-- The published reference stream. -/
example : (nextU64 ⟨0⟩).1 = 0xE220A8397B1DCDAF#64 ∧
    (nextU64 (nextU64 ⟨0⟩).2).1 = 0x6E789E6AA1B965F4#64 := by decide +kernel

theorem below_ok (r : SplitMix64) {n : U64} (hn : n ≠ 0) :
    ∃ x r', r.below n = .ok (x, r') ∧ x.toNat < n.toNat := by
  have hpos : 0 < n.toNat := by
    rcases Nat.eq_zero_or_pos n.toNat with h | h
    · exact absurd (BitVec.eq_of_toNat_eq h) hn
    · exact h
  unfold below
  rw [if_neg hn]
  obtain ⟨x, r'⟩ := r.nextU64
  have hlt : x.toNat * n.toNat / 2 ^ 64 < n.toNat := by
    rw [Nat.div_lt_iff_lt_mul (by decide), Nat.mul_comm n.toNat]
    exact Nat.mul_lt_mul_of_pos_right x.isLt hpos
  refine ⟨_, _, rfl, ?_⟩
  rw [BitVec.toNat_ofNat, Nat.mod_eq_of_lt (lt_trans hlt n.isLt)]
  exact hlt

theorem below_lt {r r' : SplitMix64} {n x : U64} (h : r.below n = .ok (x, r')) :
    x.toNat < n.toNat := by
  by_cases hn : n = 0
  · rw [below, if_pos hn] at h
    cases h
  · obtain ⟨x', r'', h', hlt⟩ := below_ok r hn
    rw [h] at h'
    cases h'
    exact hlt

end SplitMix64

/-! ## Profiles and scripts -/

structure FaultProfile where
  loss : ℚ
  duplication : ℚ
  /-- The extra delay is uniform up to this many ticks. -/
  reorderMaxDelay : U64
  corruption : ℚ
  truncation : ℚ
  baseDelay : U64

/-- Every probability is one. -/
def FaultProfile.validate (p : FaultProfile) : Bool :=
  [p.loss, p.duplication, p.corruption, p.truncation].all fun q => decide (0 ≤ q ∧ q ≤ 1)

/-- No faults, one tick of transit. -/
def CLEAN : FaultProfile where
  loss := 0
  duplication := 0
  reorderMaxDelay := 0
  corruption := 0
  truncation := 0
  baseDelay := 1

inductive ScriptedFault where
  | drop
  | duplicate
  | delay (by' : U64)
  | corrupt (byteOffset : Nat)
  | truncate (toLen : Nat)
  deriving DecidableEq, Repr

namespace ScriptedFault

def delay? : ScriptedFault → Option U64
  | .delay d => some d
  | _ => none

def corrupt? : ScriptedFault → Option Nat
  | .corrupt byteOffset => some byteOffset
  | _ => none

def truncate? : ScriptedFault → Option Nat
  | .truncate toLen => some toLen
  | _ => none

end ScriptedFault

/-- Which fault to apply to which datagram, by its index. -/
structure Script where
  rules : List (Nat × ScriptedFault)

def Script.forIndex (s : Script) (index : Nat) : List ScriptedFault :=
  (s.rules.filter fun r => r.1 = index).map (·.2)

structure FaultStats where
  sent : Nat := 0
  delivered : Nat := 0
  dropped : Nat := 0
  duplicated : Nat := 0
  reordered : Nat := 0
  corrupted : Nat := 0
  truncated : Nat := 0
  deriving DecidableEq, Repr

end Distrans
