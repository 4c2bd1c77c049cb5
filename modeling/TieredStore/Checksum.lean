import TieredStore.Bytes

/-!
# CRC-32

The reflected CRC-32 with polynomial `0xEDB88320`: the register starts at all
ones, takes in one byte at a time from its low end, and is inverted at the end.
-/

namespace TieredStore
namespace Checksum

/-- One division step: a set low bit is shifted out against the polynomial. -/
def shift (register : UInt32) : UInt32 :=
  if register &&& 1 = 1 then (register >>> 1) ^^^ 0xEDB88320 else register >>> 1

def absorb (register : UInt32) (byte : UInt8) : UInt32 :=
  let r := register ^^^ byte.toUInt32
  shift (shift (shift (shift (shift (shift (shift (shift r)))))))

def crc32 (bytes : Bytes) : UInt32 :=
  bytes.foldl absorb 0xFFFFFFFF ^^^ 0xFFFFFFFF

end Checksum
end TieredStore
