import Distrans.Lib.Machine

/-!
# The retransmission timeout estimator

`crates/transport/src/rto.rs`: Jacobson/Karels estimation in fixed point, Karn's rule left to the
caller, and a shared exponential backoff.
-/

set_option autoImplicit false

namespace Distrans

open Machine

/-- Fixed-point scale of `srtt`. -/
def SCALE : U64 := 8#64

structure RtoEstimator where
  /-- Scaled by `SCALE`. -/
  srtt : Option U64
  /-- Scaled by `SCALE / 2`. -/
  rttvar : U64
  minRto : U64
  maxRto : U64
  /-- Multiplies the base value; doubled by a timeout, reset by a sample. -/
  backoff : U32
  deriving DecidableEq, Repr

namespace RtoEstimator

def new (minRto maxRto : U64) : RtoEstimator := ⟨none, 0, minRto, maxRto, 1⟩

/-- `u64::clamp`, which asserts its bounds are in order. -/
def clamp (x lo hi : U64) : Exec U64 :=
  if lo ≤ hi then .ok (if x < lo then lo else if hi < x then hi else x) else .error .clampOrder

def baseRto (b : Build) (e : RtoEstimator) : Exec U64 := do
  let estimate ← (match e.srtt with
    | some srtt => do
      let four ← b.mul 4#64 (max (e.rttvar / (SCALE / 2#64)) 1#64)
      b.add (srtt / SCALE) four
    | none => .ok e.minRto)
  clamp estimate e.minRto e.maxRto

def current (b : Build) (e : RtoEstimator) : Exec U64 := do
  let base ← e.baseRto b
  let product ← b.mul base (e.backoff.setWidth 64)
  .ok (min product e.maxRto)

def absDiff (x y : U64) : U64 := if x < y then y - x else x - y

def onSample (b : Build) (e : RtoEstimator) (measuredRtt : U64) : Exec RtoEstimator :=
  match e.srtt with
  | none => do
    let scaled ← b.mul measuredRtt SCALE
    let scaled' ← b.mul measuredRtt SCALE
    .ok { e with backoff := 1, srtt := some scaled, rttvar := scaled' / 2#64 }
  | some srtt => do
    let srttUnscaled := srtt / SCALE
    let diff := absDiff measuredRtt srttUnscaled
    let kept ← b.sub e.rttvar (e.rttvar / 4#64)
    let step ← b.mul diff (SCALE / 2#64)
    let rttvar ← b.add kept (step / 4#64)
    let keptSrtt ← b.sub srtt (srtt / 8#64)
    let scaled ← b.mul measuredRtt SCALE
    let srtt' ← b.add keptSrtt (scaled / 8#64)
    .ok { e with backoff := 1, srtt := some srtt', rttvar }

def onTimeout (b : Build) (e : RtoEstimator) : Exec RtoEstimator := do
  let doubled ← b.mul e.backoff 2#32
  .ok { e with backoff := min doubled 64#32 }

end RtoEstimator

end Distrans
