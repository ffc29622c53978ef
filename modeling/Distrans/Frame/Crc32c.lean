import Distrans.Lib.Machine

/-!
# CRC-32C

`crates/frame/src/crc32c.rs`: the bit-at-a-time checksum over the bit-reflected Castagnoli
polynomial.
-/

set_option autoImplicit false

namespace Distrans

open Machine

/-- Reversed (bit-reflected) `0x1EDC6F41`. -/
def POLY : U32 := 0x82F63B78#32

/-- One round of the inner loop: shift right, and subtract the polynomial if a one fell out. -/
def crcBit (crc : U32) : U32 := if crc &&& 1#32 ≠ 0#32 then (crc >>> 1) ^^^ POLY else crc >>> 1

/-- One byte: exclusive or into the low bits, then eight rounds. -/
def crcByte (crc : U32) (byte : U8) : U32 := crcBit^[8] (crc ^^^ byte.setWidth 32)

def crc32c (data : List U8) : U32 := ~~~ (data.foldl crcByte 0xFFFFFFFF#32)

/-- The standard check value, for the text `123456789`. -/
example : crc32c [0x31, 0x32, 0x33, 0x34, 0x35, 0x36, 0x37, 0x38, 0x39] = 0xE3069283#32 := by
  decide +kernel

end Distrans
