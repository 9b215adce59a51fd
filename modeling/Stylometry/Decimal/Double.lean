-- Doubles by their parts: a whole significand times a power of two. Everything that is
-- written for a double is computed from these parts in whole numbers.
import Stylometry.Numerals

namespace Stylometry.Decimal

/-- What a double stands for. -/
inductive Double where
  | nan
  | infinite (negative : Bool)
  /-- The number `significand * 2 ^ exponent` with a sign. -/
  | finite (negative : Bool) (significand : Nat) (exponent : Int)
  deriving DecidableEq, Repr

/-- The parts of a floating number, from its bits. -/
def Double.ofFloat (x : Float) : Double :=
  let bits := x.toBits.toNat
  let negative := bits / 2 ^ 63 = 1
  let exponent : Nat := bits / 2 ^ 52 % 2 ^ 11
  let fraction := bits % 2 ^ 52
  if exponent = 2047 then
    if fraction = 0 then .infinite negative else .nan
  else if exponent = 0 then .finite negative fraction (-1074)
  else .finite negative (2 ^ 52 + fraction) ((exponent : Int) - 1075)

/-! ## Quotients of whole numbers -/

/-- A number that is zero or above, as a quotient. -/
structure Ratio where
  num : Nat
  den : Nat
  deriving DecidableEq, Repr

namespace Ratio

/-- The number `n * base ^ e`. -/
def scaled (n base : Nat) (e : Int) : Ratio :=
  if e < 0 then ⟨n, base ^ e.natAbs⟩ else ⟨n * base ^ e.natAbs, 1⟩

/-- The quotient of two numbers. -/
def dividedBy (a b : Ratio) : Ratio := ⟨a.num * b.den, a.den * b.num⟩

/-- Whether the first number is below the second or equal to it. -/
def atMost (a b : Ratio) : Bool := a.num * b.den ≤ b.num * a.den

/-- Whether the first number is below the second. -/
def below (a b : Ratio) : Bool := a.num * b.den < b.num * a.den

/-- The distance of two numbers. -/
def distance (a b : Ratio) : Ratio :=
  let x := a.num * b.den
  let y := b.num * a.den
  ⟨(x - y) + (y - x), a.den * b.den⟩

/-- The whole part. -/
def floor (a : Ratio) : Nat := a.num / a.den

/-- The nearest whole number. Of two the even one. -/
def round (a : Ratio) : Nat :=
  let q := a.num / a.den
  let r := a.num % a.den
  if 2 * r < a.den then q
  else if a.den < 2 * r then q + 1
  else if q % 2 = 0 then q else q + 1

end Ratio
end Stylometry.Decimal
