-- The numbers that measures are computed in. The formulas name the operations that they
-- need, so that they can be read over any numbers that have these operations.
namespace Stylometry

/-- Numbers with the operations of the formulas. -/
class Scalar (α : Type) extends Add α, Sub α, Mul α, Div α where
  /-- The number of things counted. -/
  ofCount : Nat → α
  /-- The logarithm to base two. -/
  log2 : α → α
  /-- The natural logarithm. -/
  ln : α → α
  /-- Whether the number is zero. -/
  isZero : α → Bool
  /-- Whether the number is zero or below. -/
  isNonPositive : α → Bool

/-- Floating numbers of double precision, each operation rounded to the nearest. -/
instance : Scalar Float where
  ofCount := Float.ofNat
  log2 := Float.log2
  ln := Float.log
  isZero x := x == 0.0
  isNonPositive x := x ≤ 0.0

end Stylometry
