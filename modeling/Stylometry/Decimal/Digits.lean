-- The decimal digits of doubles: a given number of them, a given number of places, or the
-- fewest that read back.
import Stylometry.Decimal.Double
import Stylometry.Decimal.Whole

namespace Stylometry.Decimal

/-- The number `digits * 10 ^ exponent`. -/
structure Decimals where
  digits : Nat
  exponent : Int
  deriving DecidableEq, Repr

namespace Decimals

/-- The exponent of the first digit. -/
def leading (d : Decimals) : Int := d.exponent + (Decimal.digits d.digits).length - 1

/-- The number. -/
def ratio (d : Decimals) : Ratio := .scaled d.digits 10 d.exponent

/-- The same number without zeros at the end of its digits. Each round takes one zero. -/
def trim (rounds : Nat) (d : Decimals) : Decimals :=
  match rounds with
  | 0 => d
  | rounds + 1 =>
    if d.digits ≠ 0 ∧ d.digits % 10 = 0 then trim rounds ⟨d.digits / 10, d.exponent + 1⟩ else d

end Decimals

/-- The exponent of the first decimal digit of a number above zero. -/
def decimalExponent (r : Ratio) : Int :=
  if r.den ≤ r.num then ((digits r.floor).length : Int) - 1
  else -((digits ((r.den + r.num - 1) / r.num - 1)).length : Int)

/-! ## A given number of digits or places -/

/-- The number to `count` digits, rounded to the nearest, a half to the even one. -/
def significant (count : Nat) (r : Ratio) : Decimals :=
  if r.num = 0 then ⟨0, 0⟩
  else
    let exponent := decimalExponent r - count + 1
    let n := (r.dividedBy (.scaled 1 10 exponent)).round
    if n = 10 ^ count then ⟨n / 10, exponent + 1⟩ else ⟨n, exponent⟩

/-- The number to `places` digits after the point, rounded to the nearest, a half to the
even one. -/
def toPlaces (places : Nat) (r : Ratio) : Nat := (Ratio.mk (r.num * 10 ^ places) r.den).round

/-! ## The fewest digits -/

/-- The numbers that round to the double with the given parts. -/
structure RoundingRange where
  low : Ratio
  high : Ratio
  /-- Whether the two ends belong to the range. -/
  closed : Bool

namespace RoundingRange

/-- The range reaches half way to the neighbours. Below a power of two the neighbour is
nearer. -/
def ofParts (significand : Nat) (exponent : Int) : RoundingRange :=
  let step := if significand = 2 ^ 52 ∧ exponent ≠ -1074 then 1 else 2
  { low := .scaled (4 * significand - step) 2 (exponent - 2)
    high := .scaled (4 * significand + 2) 2 (exponent - 2)
    closed := significand % 2 = 0 }

/-- Whether a number rounds to the double. -/
def holds (range : RoundingRange) (r : Ratio) : Bool :=
  if range.closed then range.low.atMost r && r.atMost range.high
  else range.low.below r && r.below range.high

end RoundingRange

/-- The nearer of the two neighbours of a number on the grid of `10 ^ exponent`, of those
that round to the double. Of two equally near ones it is the even one. -/
def neighbour? (range : RoundingRange) (r : Ratio) (exponent : Int) : Option Decimals :=
  let n := (r.dividedBy (.scaled 1 10 exponent)).floor
  let low : Decimals := ⟨n, exponent⟩
  let high : Decimals := ⟨n + 1, exponent⟩
  match range.holds low.ratio, range.holds high.ratio with
  | true, true =>
    let toLow := r.distance low.ratio
    let toHigh := r.distance high.ratio
    if toLow.below toHigh then some low
    else if toHigh.below toLow then some high
    else if n % 2 = 0 then some low else some high
  | true, false => some low
  | false, true => some high
  | false, false => none

/-- The fewest digits that read back as the double with the given parts, and of those the
nearest. Seventeen digits are always enough. -/
def shortest (significand : Nat) (exponent : Int) : Decimals :=
  if significand = 0 then ⟨0, 0⟩
  else
    let r := Ratio.scaled significand 2 exponent
    let range := RoundingRange.ofParts significand exponent
    let first := decimalExponent r
    let found := (List.range 17).findSome? fun (count : Nat) => neighbour? range r (first - count)
    (found.getD (significant 17 r)).trim 17

end Stylometry.Decimal
