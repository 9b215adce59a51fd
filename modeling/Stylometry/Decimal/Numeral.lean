-- Numerals: numbers as they are written, with their parts, and the double nearest to them.
import Stylometry.Decimal.Whole

namespace Stylometry.Decimal

/-- The parts of a written number. A part that is not written is `none`. -/
structure Numeral where
  sign : Option Char
  whole : Text
  /-- What stands after the point. -/
  fraction : Option Text
  /-- The sign and the digits of the exponent. -/
  exponent : Option (Option Char × Text)
  deriving DecidableEq, Repr

namespace Numeral

/-! ## Reading -/

/-- The sign at the head of a text, and the rest. -/
def takeSign : Text → Option Char × Text
  | '-' :: t => (some '-', t)
  | '+' :: t => (some '+', t)
  | t => (none, t)

/-- The numeral at the head of a text, and the rest. `inDigits` tells the characters that
may stand among digits. Nothing is checked: each part may be empty. -/
def read (inDigits : Char → Bool) (t : Text) : Numeral × Text :=
  let (sign, t) := takeSign t
  let whole := t.takeWhile inDigits
  let t := t.dropWhile inDigits
  let (fraction, t) :=
    match t with
    | '.' :: t => (some (t.takeWhile inDigits), t.dropWhile inDigits)
    | t => (none, t)
  match t with
  | e :: rest =>
    if e = 'e' ∨ e = 'E' then
      let (sign', rest) := takeSign rest
      (⟨sign, whole, fraction, some (sign', rest.takeWhile inDigits)⟩, rest.dropWhile inDigits)
    else (⟨sign, whole, fraction, none⟩, e :: rest)
  | [] => (⟨sign, whole, fraction, none⟩, [])

/-- Whether the number is written as a whole number. -/
def isWhole (n : Numeral) : Bool := n.fraction.isNone && n.exponent.isNone

/-- Whether a minus sign stands in front. -/
def isNegative (n : Numeral) : Bool := n.sign = some '-'

/-! ## Values -/

/-- The double nearest to `digits * 10 ^ exponent`. Numbers beyond all doubles are told
apart by their first digit, so that no large power is computed for them. -/
def nearest (digits : Nat) (exponent : Int) : Float :=
  if digits = 0 then 0.0
  else
    let leading := exponent + (Decimal.digits digits).length
    if 320 < leading then Float.ofBits 0x7FF0000000000000
    else if leading < -340 then 0.0
    else Float.ofScientific digits (decide (exponent < 0)) exponent.natAbs

/-- The double nearest to the number. The digits must be digits. -/
def toFloat (n : Numeral) : Float :=
  let fraction := n.fraction.getD []
  let exponent : Int :=
    match n.exponent with
    | none => 0
    | some (sign, ds) =>
      let e : Int := Nat.ofDigitChars 10 ds 0
      if sign = some '-' then -e else e
  let x := nearest (Nat.ofDigitChars 10 (n.whole ++ fraction) 0) (exponent - fraction.length)
  if n.isNegative then -x else x

/-- Whether the parts are digits and there is a digit wherever one must stand. -/
def isDecimal (n : Numeral) : Bool :=
  let fraction := n.fraction.getD []
  n.whole.all Char.isDigit && fraction.all Char.isDigit && !(n.whole ++ fraction).isEmpty &&
    match n.exponent with
    | none => true
    | some (_, ds) => (value? ds).isSome

end Numeral

/-- The double that a text reads as. The words for numbers that are not finite may be
written in any case. -/
def parseFloat? (t : Text) : Option Float :=
  let (n, rest) := Numeral.read Char.isDigit t
  if rest.isEmpty && n.isDecimal then some n.toFloat
  else
    let (sign, word) := Numeral.takeSign t
    let word := String.ofList (word.map Char.toLower)
    let magnitude? : Option Float :=
      if word = "nan" then some (Float.ofBits 0x7FF8000000000000)
      else if word = "inf" ∨ word = "infinity" then some (Float.ofBits 0x7FF0000000000000)
      else none
    magnitude?.map fun x => if sign = some '-' then -x else x

end Stylometry.Decimal
