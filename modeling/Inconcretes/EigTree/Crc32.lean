import Inconcretes.Lib.Pod
import Mathlib.Logic.Function.Basic

/-!
# CRC-32

`boost::crc_32_type` is the CRC-32 with the polynomial `0x04C11DB7`, input and output reflected, initial
remainder and final xor `0xFFFFFFFF`. It is computed here bit by bit with the reflected polynomial. The
tree is verified for any checksum; this one is for concrete inputs.
-/

namespace Achal

/-- One bit of the remainder. -/
def crcBit (crc : UInt32) : UInt32 :=
  if crc &&& 1 = 1 then (crc >>> 1) ^^^ 0xEDB88320 else crc >>> 1

/-- One byte of the input. -/
def crcByte (crc : UInt32) (b : UInt8) : UInt32 :=
  (List.range 8).foldl (fun crc _ => crcBit crc) (crc ^^^ b.toUInt32)

/-- `process_bytes` and `checksum` of a fresh `boost::crc_32_type`. -/
def crc32 (bs : List UInt8) : UInt32 := bs.foldl crcByte 0xFFFFFFFF ^^^ 0xFFFFFFFF

-- the check value of this CRC, of the digits 1 to 9
example : crc32 [0x31, 0x32, 0x33, 0x34, 0x35, 0x36, 0x37, 0x38, 0x39] = 0xCBF43926 := by
  decide +kernel

/-- One bit backwards: the top bit of the polynomial is set, so the top bit of the remainder tells which
branch was taken. -/
def uncrcBit (crc : UInt32) : UInt32 :=
  if crc &&& 0x80000000 = 0 then crc <<< 1 else ((crc ^^^ 0xEDB88320) <<< 1) ||| 1

/-- The byte whose CRC-32 is `crc`. -/
def uncrcByte (crc : UInt32) : UInt8 :=
  ((List.range 8).foldl (fun crc _ => uncrcBit crc) (crc ^^^ 0xFFFFFFFF) ^^^ 0xFFFFFFFF).toUInt8

/-- A single byte is determined by its CRC-32. -/
theorem crc32_byte_injective : Function.Injective fun b : UInt8 => crc32 (Pod.bytes b) := by
  have htable : ∀ n < 256, uncrcByte (crc32 [UInt8.ofNat n]) = UInt8.ofNat n := by decide +kernel
  refine Function.LeftInverse.injective (g := uncrcByte) fun b => ?_
  have hb := htable b.toNat b.toNat_lt
  rwa [UInt8.ofNat_toNat] at hb

end Achal
