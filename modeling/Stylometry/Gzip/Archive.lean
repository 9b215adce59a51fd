-- Archives of one file: packed bytes between a header and a trailer. An archive is read
-- whatever packing it uses. One way to write it is with stored blocks.
import Stylometry.Gzip.Checksum
import Stylometry.Gzip.Inflate

namespace Stylometry.Gzip

/-- The two bytes that an archive starts with. -/
def magic : Bytes := [0x1F, 0x8B]

/-- Whether the bytes start as an archive does. -/
def isArchive (bs : Bytes) : Bool := magic.isPrefixOf bs

/-! ## Reading -/

/-- What follows the next zero byte. -/
def afterZero? : Bytes → Option Bytes
  | [] => none
  | b :: bs => if b = 0 then some bs else afterZero? bs

/-- What follows the header. The flags tell which parts it has besides its ten bytes: an
extra field, a name, a comment and a checksum of its own. -/
def afterHeader? (bs : Bytes) : Option Bytes := do
  let (fixed, rest) ← Bytes.takeExact? 10 bs
  let flags := (fixed.getD 3 0).toNat
  if fixed.take 2 ≠ magic ∨ fixed.getD 2 0 ≠ 8 ∨ 32 ≤ flags then none
  let rest ←
    if flags.testBit 2 then do
      let (length, rest) ← Bytes.readNat? 2 rest
      pure (← Bytes.takeExact? length rest).2
    else some rest
  let rest ← if flags.testBit 3 then afterZero? rest else some rest
  let rest ← if flags.testBit 4 then afterZero? rest else some rest
  if flags.testBit 1 then do
    let (sum, after) ← Bytes.readNat? 2 rest
    let header := bs.take (bs.length - rest.length)
    if sum = checksum header % 65536 then some after else none
  else some rest

/-- The content of the first archive in the bytes. Its checksum and its length have to be
right. -/
def unpack? (bs : Bytes) : Option Bytes := do
  let packed ← afterHeader? bs
  let (content, rest) ← inflate? packed
  let (sum, rest) ← Bytes.readNat? 4 rest
  let (length, _) ← Bytes.readNat? 4 rest
  if sum = checksum content ∧ length = content.length % 2 ^ 32 then some content else none

/-! ## Writing -/

/-- A way to pack bytes. What it makes starts as an archive does, and the bytes are unpacked from
it again. -/
structure Packer where
  pack : Bytes → Bytes
  isArchive_pack : ∀ bs, isArchive (pack bs) = true
  unpack?_pack : ∀ bs, unpack? (pack bs) = some bs

/-! ## Stored blocks -/

/-- The longest content of a stored block. -/
def blockLimit : Nat := 65535

/-- A stored block. -/
def storedBlock (last : Bool) (content : Bytes) : Bytes :=
  (if last then 1 else 0) :: Bytes.ofNat 2 content.length ++
    Bytes.ofNat 2 (blockLimit - content.length) ++ content

/-- The bytes in stored blocks. -/
def storedBlocks (bs : Bytes) : Bytes :=
  if bs.length ≤ blockLimit then storedBlock true bs
  else storedBlock false (bs.take blockLimit) ++ storedBlocks (bs.drop blockLimit)
termination_by bs.length
decreasing_by simp [blockLimit] at *; omega

/-- The header of an archive without a name, a time and a comment. -/
def header : Bytes := magic ++ [8, 0, 0, 0, 0, 0, 0, 255]

/-- The archive of some bytes. -/
def pack (bs : Bytes) : Bytes :=
  header ++ storedBlocks bs ++ Bytes.ofNat 4 (checksum bs) ++ Bytes.ofNat 4 (bs.length % 2 ^ 32)

end Stylometry.Gzip
