import Mathlib.Logic.Function.Iterate

/-!
CRC-32 with the reversed IEEE polynomial, one bit at a time.  `update` takes the checksum of what came
before and the bytes that follow; the register is the complement of the checksum, so updates compose
(`update_append`) and the checksum of a concatenation is an update (`update_checksum`).
-/

namespace MmkvGo.Lib.Crc32

/-- The reversed IEEE polynomial. -/
def poly : UInt32 := 0xedb88320

/-- One bit of the division: shift, and subtract the polynomial when a bit fell out. -/
def bitStep (c : UInt32) : UInt32 := if c &&& 1 = 1 then (c >>> 1) ^^^ poly else c >>> 1

/-- One byte: eight bits of the register with the byte added to its low end. -/
def byteStep (c : UInt32) (b : UInt8) : UInt32 := bitStep^[8] (c ^^^ b.toUInt32)

/-- The checksum of `bs` appended to bytes with checksum `c`. -/
def update (c : UInt32) (bs : List UInt8) : UInt32 := ~~~(bs.foldl byteStep (~~~c))

/-- The checksum of `bs`. -/
def checksum (bs : List UInt8) : UInt32 := update 0 bs

@[simp] theorem update_nil (c : UInt32) : update c [] = c := by
  simp [update]

theorem update_append (c : UInt32) (a b : List UInt8) : update c (a ++ b) = update (update c a) b := by
  simp [update, List.foldl_append]

@[simp] theorem checksum_nil : checksum [] = 0 := update_nil 0

theorem update_checksum (a b : List UInt8) : update (checksum a) b = checksum (a ++ b) := by
  rw [checksum, checksum, update_append]

example : checksum [0x31, 0x32, 0x33, 0x34, 0x35, 0x36, 0x37, 0x38, 0x39] = 0xcbf43926 := by decide +kernel

end MmkvGo.Lib.Crc32
