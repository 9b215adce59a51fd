-- Bits of packed data. The bits of a byte come lowest first.
import Stylometry.Bytes

namespace Stylometry.Gzip

/-- What is left of packed data: the rest of the byte that is open, and the bytes after
it. -/
structure BitReader where
  bits : List Bool
  bytes : Bytes

namespace BitReader

/-- The bits of a byte, lowest first. -/
def bitsOf (b : UInt8) : List Bool := (List.range 8).map fun i => b.toNat.testBit i

/-- The number of bits that are left. -/
def size (r : BitReader) : Nat := r.bits.length + 8 * r.bytes.length

/-- The next bit. -/
def bit? (r : BitReader) : Option (Bool × BitReader) :=
  match r.bits with
  | b :: bits => some (b, { r with bits })
  | [] =>
    match r.bytes with
    | [] => none
    | byte :: bytes =>
      match bitsOf byte with
      | [] => none
      | b :: bits => some (b, ⟨bits, bytes⟩)

/-- The number in the next `n` bits, lowest first. -/
def nat? (r : BitReader) : Nat → Option (Nat × BitReader)
  | 0 => some (0, r)
  | n + 1 => do
    let (b, r) ← r.bit?
    let (rest, r) ← r.nat? n
    return (b.toNat + 2 * rest, r)

/-- The reader at the next byte. What is left of an open byte is passed over. -/
def align (r : BitReader) : BitReader := ⟨[], r.bytes⟩

end BitReader
end Stylometry.Gzip
