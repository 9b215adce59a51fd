-- Unpacking of data in blocks: stored bytes, or symbols of two prefix codes that stand for
-- bytes and for repetitions of earlier bytes.
import Stylometry.Gzip.Code

namespace Stylometry.Gzip

/-! ## Repetitions -/

/-- The smallest length and the number of extra bits for each symbol of a length, which
start at symbol 257. -/
def lengthTable : List (Nat × Nat) :=
  [(3, 0), (4, 0), (5, 0), (6, 0), (7, 0), (8, 0), (9, 0), (10, 0), (11, 1), (13, 1), (15, 1),
   (17, 1), (19, 2), (23, 2), (27, 2), (31, 2), (35, 3), (43, 3), (51, 3), (59, 3), (67, 4),
   (83, 4), (99, 4), (115, 4), (131, 5), (163, 5), (195, 5), (227, 5), (258, 0)]

/-- The smallest distance and the number of extra bits for each symbol of a distance. -/
def distanceTable : List (Nat × Nat) :=
  [(1, 0), (2, 0), (3, 0), (4, 0), (5, 1), (7, 1), (9, 2), (13, 2), (17, 3), (25, 3), (33, 4),
   (49, 4), (65, 5), (97, 5), (129, 6), (193, 6), (257, 7), (385, 7), (513, 8), (769, 8),
   (1025, 9), (1537, 9), (2049, 10), (3073, 10), (4097, 11), (6145, 11), (8193, 12),
   (12289, 12), (16385, 13), (24577, 13)]

/-- The number that a symbol stands for, with its extra bits. -/
def extended? (table : List (Nat × Nat)) (symbol : Nat) (r : BitReader) :
    Option (Nat × BitReader) := do
  let (low, bits) ← table[symbol]?
  let (extra, r) ← r.nat? bits
  return (low + extra, r)

/-- Repeats `length` bytes from `distance` bytes back. The bytes may run into what is
repeated. -/
def repeatBytes? (out : Array UInt8) (distance : Nat) : Nat → Option (Array UInt8)
  | 0 => some out
  | length + 1 =>
    if distance ≤ out.size then
      match out[out.size - distance]? with
      | some b => repeatBytes? (out.push b) distance length
      | none => none
    else none

/-! ## Codes of a block -/

/-- The codes of a block: for bytes and lengths, and for distances. -/
structure BlockCodes where
  literals : Code
  distances : Code

/-- The codes of a block that brings none. -/
def fixedCodes? : Option BlockCodes := do
  let literals ← Code.ofLengths? <|
    List.replicate 144 8 ++ List.replicate 112 9 ++ List.replicate 24 7 ++ List.replicate 8 8
  let distances ← Code.ofLengths? (List.replicate 32 5)
  return ⟨literals, distances⟩

/-- The order in which the lengths of the code for lengths are given. -/
def lengthOrder : List Nat :=
  [16, 17, 18, 0, 8, 7, 9, 6, 10, 5, 11, 4, 12, 3, 13, 2, 14, 1, 15]

/-- Reads `n` numbers of `bits` bits. -/
def nats? (bits : Nat) : Nat → BitReader → Option (List Nat × BitReader)
  | 0, r => some ([], r)
  | n + 1, r => do
    let (x, r) ← r.nat? bits
    let (xs, r) ← nats? bits n r
    return (x :: xs, r)

/-- Reads lengths until there are `count` of them. The lengths so far stand last first, and
each round gives one or more. -/
def readLengths? (code : Code) (count : Nat) :
    Nat → List Nat → BitReader → Option (List Nat × BitReader)
  | 0, _, _ => none
  | rounds + 1, lengths, r =>
    if lengths.length = count then some (lengths.reverse, r)
    else if count < lengths.length then none
    else do
      let (symbol, r) ← code.read? r
      if symbol < 16 then readLengths? code count rounds (symbol :: lengths) r
      else
        let (value, low, bits) ←
          match symbol, lengths with
          | 16, last :: _ => some (last, 3, 2)
          | 17, _ => some (0, 3, 3)
          | 18, _ => some (0, 11, 7)
          | _, _ => none
        let (extra, r) ← r.nat? bits
        readLengths? code count rounds (List.replicate (low + extra) value ++ lengths) r

/-- Reads the codes that a block brings with it. -/
def dynamicCodes? (r : BitReader) : Option (BlockCodes × BitReader) := do
  let (literals, r) ← r.nat? 5
  let (distances, r) ← r.nat? 5
  let (given, r) ← r.nat? 4
  if 29 < literals ∨ 29 < distances then none
  let (lengths, r) ← nats? 3 (given + 4) r
  let byOrder := lengthOrder.zip lengths
  let code ← Code.ofLengths? ((List.range 19).map fun s => (byOrder.lookup s).getD 0)
  let total := literals + 257 + (distances + 1)
  let (lengths, r) ← readLengths? code total (total + 1) [] r
  let literalCode ← Code.ofLengths? (lengths.take (literals + 257))
  let distanceCode ← Code.ofLengths? (lengths.drop (literals + 257))
  return (⟨literalCode, distanceCode⟩, r)

/-! ## Blocks -/

/-- Unpacks the symbols of a block up to its end. A round takes one symbol, and a symbol
takes a bit or more. -/
def readSymbols? (codes : BlockCodes) :
    Nat → Array UInt8 → BitReader → Option (Array UInt8 × BitReader)
  | 0, _, _ => none
  | rounds + 1, out, r => do
    let (symbol, r) ← codes.literals.read? r
    if symbol < 256 then readSymbols? codes rounds (out.push (UInt8.ofNat symbol)) r
    else if symbol = 256 then some (out, r)
    else
      let (length, r) ← extended? lengthTable (symbol - 257) r
      let (symbol, r) ← codes.distances.read? r
      let (distance, r) ← extended? distanceTable symbol r
      let out ← repeatBytes? out distance length
      readSymbols? codes rounds out r

/-- Reads the bytes of a block that is not packed. Their number is given twice, the second
time with all bits turned. -/
def readStored? (out : Array UInt8) (r : BitReader) : Option (Array UInt8 × BitReader) := do
  let (length, rest) ← Bytes.readNat? 2 r.align.bytes
  let (turned, rest) ← Bytes.readNat? 2 rest
  if length + turned ≠ 65535 then none
  let (content, rest) ← Bytes.takeExact? length rest
  return (out ++ content.toArray, ⟨[], rest⟩)

/-- Unpacks blocks up to the last one. A round takes one block. -/
def readBlocks? : Nat → Array UInt8 → BitReader → Option (Array UInt8 × BitReader)
  | 0, _, _ => none
  | rounds + 1, out, r => do
    let (last, r) ← r.bit?
    let (sort, r) ← r.nat? 2
    let (out, r) ←
      match sort with
      | 0 => readStored? out r
      | 1 => do readSymbols? (← fixedCodes?) (r.size + 1) out r
      | 2 => do
        let (codes, r) ← dynamicCodes? r
        readSymbols? codes (r.size + 1) out r
      | _ => none
    if last then some (out, r) else readBlocks? rounds out r

/-- The unpacked bytes, and the bytes after the packed ones. -/
def inflate? (bs : Bytes) : Option (Bytes × Bytes) :=
  let r : BitReader := ⟨[], bs⟩
  (readBlocks? (r.size + 1) #[] r).map fun (out, r) => (out.toList, r.bytes)

end Stylometry.Gzip
