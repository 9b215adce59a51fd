-- Doubles as texts.
import Stylometry.Decimal.Digits

namespace Stylometry.Decimal

/-- The sign of a number that may be negative. -/
def sign (negative : Bool) : Text := if negative then ['-'] else []

/-! ## Twelve digits -/

/-- The digits with a point after the first one. -/
def pointAfterFirst : Text → Text
  | [] => []
  | [d] => [d]
  | d :: ds => d :: '.' :: ds

/-- The exponent with its minus sign, if it has one. -/
def exponentDigits (e : Int) : Text := sign (e < 0) ++ digits e.natAbs

/-- The number to twelve digits with an exponent. -/
def scientific (x : Float) : Text :=
  match Double.ofFloat x with
  | .nan => "NaN".toList
  | .infinite negative => sign negative ++ "inf".toList
  | .finite negative significand exponent =>
    let d := significant 12 (.scaled significand 2 exponent)
    let exponent := if d.digits = 0 then 0 else d.leading
    let shown := if d.digits = 0 then List.replicate 12 '0' else digits d.digits
    sign negative ++ pointAfterFirst shown ++ 'e' :: exponentDigits exponent

/-! ## A given number of places -/

/-- The number with the given number of places after the point, at least one. -/
def fixed (places : Nat) (x : Float) : Text :=
  match Double.ofFloat x with
  | .nan => "NaN".toList
  | .infinite negative => sign negative ++ "inf".toList
  | .finite negative significand exponent =>
    let shown := paddedDigits (places + 1) (toPlaces places (.scaled significand 2 exponent))
    let whole := shown.length - places
    sign negative ++ shown.take whole ++ '.' :: shown.drop whole

/-! ## The fewest digits -/

/-- How a format writes floating numbers. -/
structure FloatFormat where
  /-- Whether a number whose first digit has this exponent is written without one. -/
  plain : Int → Bool
  nan : String
  infinite : String

/-- The digits without an exponent and with at least one place after the point. -/
def plainDigits (d : Decimals) : Text :=
  let shown := digits d.digits
  if 0 ≤ d.exponent then shown ++ List.replicate d.exponent.natAbs '0' ++ ".0".toList
  else
    let places := d.exponent.natAbs
    let padded := List.replicate (places + 1 - shown.length) '0' ++ shown
    padded.take (padded.length - places) ++ '.' :: padded.drop (padded.length - places)

/-- The digits with an exponent, which always has a sign. -/
def exponentForm (d : Decimals) : Text :=
  pointAfterFirst (digits d.digits) ++ 'e' :: (if d.leading < 0 then '-' else '+') ::
    digits d.leading.natAbs

/-- The number with the fewest digits that read back. -/
def FloatFormat.render (format : FloatFormat) (x : Float) : Text :=
  match Double.ofFloat x with
  | .nan => format.nan.toList
  | .infinite negative => sign negative ++ format.infinite.toList
  | .finite negative significand exponent =>
    let d := shortest significand exponent
    sign negative ++ if d.digits = 0 ∨ format.plain d.leading then plainDigits d else exponentForm d

end Stylometry.Decimal
