-- Encodings of texts in bytes. A source is read as UTF-8 if it is that, and otherwise by
-- its byte order mark, or as windows-1252 when it has none.
import Stylometry.Bytes
import Stylometry.Text.Basic

namespace Stylometry.Encoding

/-- What stands for bytes that encode nothing. -/
def replacement : Char := '\uFFFD'

/-- The mark that may stand in front of a text. -/
def byteOrderMark : Char := '\uFEFF'

/-- The text without one byte order mark in front. -/
def stripMark : Text → Text
  | [] => []
  | c :: t => if c = byteOrderMark then t else c :: t

/-! ## UTF-8 -/

/-- What a first byte announces: the smallest and the largest second byte, and the number
of bytes after that one. A byte below 128 is a character by itself. -/
def continuation? (first : Nat) : Option (Nat × Nat × Nat) :=
  if 0xC2 ≤ first && first ≤ 0xDF then some (0x80, 0xBF, 0)
  else if first = 0xE0 then some (0xA0, 0xBF, 1)
  else if first = 0xED then some (0x80, 0x9F, 1)
  else if 0xE1 ≤ first && first ≤ 0xEF then some (0x80, 0xBF, 1)
  else if first = 0xF0 then some (0x90, 0xBF, 2)
  else if 0xF1 ≤ first && first ≤ 0xF3 then some (0x80, 0xBF, 2)
  else if first = 0xF4 then some (0x80, 0x8F, 2)
  else none

/-- The payload of a first byte with the given number of bytes after the second one. -/
def firstBits (first more : Nat) : Nat :=
  match more with
  | 0 => first % 32
  | 1 => first % 16
  | _ => first % 8

/-- The characters of bytes, where each longest part that begins a character and does not
complete it becomes one replacement. `pending` holds the bits of the open character, the
range of its next byte and the number of bytes after that one. -/
def utf8From (pending : Option (Nat × Nat × Nat × Nat)) : Bytes → Text
  | [] => if pending.isSome then [replacement] else []
  | b :: bs =>
    let first : Text :=
      if b.toNat < 0x80 then Char.ofNat b.toNat :: utf8From none bs
      else
        match continuation? b.toNat with
        | some (low, high, more) => utf8From (some (firstBits b.toNat more, low, high, more)) bs
        | none => replacement :: utf8From none bs
    match pending with
    | none => first
    | some (bits, low, high, more) =>
      if low ≤ b.toNat && b.toNat ≤ high then
        let bits := bits * 64 + b.toNat % 64
        match more with
        | 0 => Char.ofNat bits :: utf8From none bs
        | more + 1 => utf8From (some (bits, 0x80, 0xBF, more)) bs
      else replacement :: first

/-- The characters of bytes in UTF-8, with replacements where they are none. -/
def utf8 (bs : Bytes) : Text := utf8From none bs

/-! ## UTF-16 -/

/-- The units of sixteen bits, and whether one byte is left over. -/
def units (highFirst : Bool) : Bytes → List Nat × Bool
  | [] => ([], false)
  | [_] => ([], true)
  | a :: b :: bs =>
    let (rest, odd) := units highFirst bs
    let unit := if highFirst then a.toNat * 256 + b.toNat else b.toNat * 256 + a.toNat
    (unit :: rest, odd)

/-- The first unit of a pair. -/
def isLead (unit : Nat) : Bool := 0xD800 ≤ unit && unit < 0xDC00

/-- The second unit of a pair. -/
def isTrail (unit : Nat) : Bool := 0xDC00 ≤ unit && unit < 0xE000

/-- The numbers of characters leave out those of halves of pairs. -/
theorem toNat_cases (c : Char) : c.toNat < 0xD800 ∨ 0xDFFF < c.toNat ∧ c.toNat < 0x110000 :=
  c.valid

theorem not_half (c : Char) : isLead c.toNat = false ∧ isTrail c.toNat = false := by
  have hvalid := toNat_cases c
  simp only [isLead, isTrail, Bool.and_eq_false_iff, decide_eq_false_iff_not]
  omega

/-- The character of a pair of units. -/
def pair (lead trail : Nat) : Char :=
  Char.ofNat (0x10000 + (lead - 0xD800) * 0x400 + (trail - 0xDC00))

/-- The characters of units. A unit of a pair that stands alone is a replacement, and so is
what the end cuts off. `lead` is the open first unit of a pair. -/
def ofUnits (odd : Bool) (lead : Option Nat) : List Nat → Text
  | [] => if odd || lead.isSome then [replacement] else []
  | unit :: rest =>
    let alone : Text :=
      if isLead unit then ofUnits odd (some unit) rest
      else if isTrail unit then replacement :: ofUnits odd none rest
      else Char.ofNat unit :: ofUnits odd none rest
    match lead with
    | none => alone
    | some first =>
      if isTrail unit then pair first unit :: ofUnits odd none rest else replacement :: alone

/-- The characters of bytes in UTF-16, with replacements where they are none. -/
def utf16 (highFirst : Bool) (bs : Bytes) : Text :=
  let (us, odd) := units highFirst bs
  ofUnits odd none us

/-! ## One byte for each character -/

/-- The characters of the bytes from 128 to 159 in windows-1252. -/
def westernHigh : List Nat :=
  [0x20AC, 0x0081, 0x201A, 0x0192, 0x201E, 0x2026, 0x2020, 0x2021, 0x02C6, 0x2030, 0x0160,
   0x2039, 0x0152, 0x008D, 0x017D, 0x008F, 0x0090, 0x2018, 0x2019, 0x201C, 0x201D, 0x2022,
   0x2013, 0x2014, 0x02DC, 0x2122, 0x0161, 0x203A, 0x0153, 0x009D, 0x017E, 0x0178]

/-- The character of a byte in windows-1252. -/
def westernChar (b : UInt8) : Char :=
  let n := b.toNat
  if 0x80 ≤ n && n < 0xA0 then Char.ofNat (westernHigh.getD (n - 0x80) n) else Char.ofNat n

/-- The characters of bytes in windows-1252. -/
def western (bs : Bytes) : Text := bs.map westernChar

/-! ## Sources -/

/-- The text of bytes that are not all UTF-8, by their byte order mark. -/
def sniffed : Bytes → Text
  | 0xEF :: 0xBB :: 0xBF :: bs => utf8 bs
  | 0xFF :: 0xFE :: bs => utf16 false bs
  | 0xFE :: 0xFF :: bs => utf16 true bs
  | bs => western bs

/-- The text of a source file, without a byte order mark. -/
def source (bs : Bytes) : Text :=
  stripMark <|
    match Bytes.toString? bs with
    | some s => s.toList
    | none => sniffed bs

end Stylometry.Encoding
