import Distrans.Lib.Machine

/-!
# Virtual time

`crates/channel/src/tick.rs`: the only clock anything here may consult.
-/

set_option autoImplicit false

namespace Distrans

open Machine

abbrev Tick := U64

namespace Tick

def advance (t : Tick) (n : U64) : Tick := satAdd t n

/-- Time saturates; it never goes back. -/
theorem le_advance (t : Tick) (n : U64) : t ≤ advance t n := by
  show t.toNat ≤ (satAdd t n).toNat
  have := t.isLt
  rw [satAdd_toNat]
  omega

end Tick

end Distrans
