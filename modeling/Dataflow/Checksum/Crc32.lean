import Dataflow.Bytes

/-!
# The checksum CRC-32

The remainder of a byte string under the polynomial `0x04C11DB7`, with bits taken least significant
first; the register starts full and is inverted at the end. This is the CRC-32 of ISO-HDLC.

* `Crc32.shift`: one bit of the division.
* `Crc32.feed`: one byte of it.
* `crc32`: the checksum of a byte string.
-/

namespace Dataflow

namespace Crc32

/-- The polynomial, its bits reversed. -/
def polynomial : UInt32 := 0xEDB88320

/-- Shift one bit out of the register, and subtract the polynomial if that bit was set. -/
def shift (register : UInt32) : UInt32 :=
  if register &&& 1 = 1 then (register >>> 1) ^^^ polynomial else register >>> 1

/-- Shift a number of bits out of the register. -/
def shifts : (count : Nat) → UInt32 → UInt32
  | 0, register => register
  | count + 1, register => shifts count (shift register)

/-- Take one byte into the register. -/
def feed (register : UInt32) (b : UInt8) : UInt32 := shifts 8 (register ^^^ b.toUInt32)

/-- The full register, before the first byte and against the last. -/
def full : UInt32 := 0xFFFFFFFF

end Crc32

def crc32 (bytes : Bytes) : UInt32 := bytes.foldl Crc32.feed Crc32.full ^^^ Crc32.full

end Dataflow
