-- The cyclic checksum of an archive: 32 bits, computed from the lowest bit up.
import Stylometry.Bytes

namespace Stylometry.Gzip

/-- One bit of the division by the polynomial of the checksum. -/
def checksumBit (c : UInt32) : UInt32 :=
  if c &&& 1 = 1 then (c >>> 1) ^^^ 0xEDB88320 else c >>> 1

/-- Takes one byte into the checksum. -/
def checksumByte (c : UInt32) (b : UInt8) : UInt32 :=
  (List.range 8).foldl (fun c _ => checksumBit c) (c ^^^ b.toUInt32)

/-- The checksum of some bytes. -/
def checksum (bs : Bytes) : Nat := ((bs.foldl checksumByte 0xFFFFFFFF) ^^^ 0xFFFFFFFF).toNat

end Stylometry.Gzip
