-- The measures of Halstead, from counts of operators and operands.
import Stylometry.Count
import Stylometry.Measure.Degeneracy
import Stylometry.Measure.Scalar

namespace Stylometry

/-- Why measures cannot be computed. -/
inductive MeasureError where
  | degenerate (why : Degeneracy)
  | fault (f : Fault)
  deriving DecidableEq, Repr

/-- A sum of counts inside a formula. -/
def MeasureError.sum (counts : List Nat) : Except MeasureError Nat :=
  (sumCounts counts).mapError .fault

/-- Counts of operators and operands. -/
structure HalsteadCounts where
  distinctOperators : Nat
  distinctOperands : Nat
  totalOperators : Nat
  totalOperands : Nat
  deriving DecidableEq, Repr

/-- The measures of Halstead. -/
structure Halstead (α : Type) where
  vocabulary : Nat
  length : Nat
  /-- The length times the logarithm of the vocabulary. -/
  volume : α
  /-- Half the distinct operators times the uses of each operand. -/
  difficulty : α
  /-- The volume times the difficulty. -/
  effort : α
  deriving DecidableEq, Repr

/-- The measures of some counts. They need an operand. -/
def HalsteadCounts.measure [Scalar α] (c : HalsteadCounts) : Except MeasureError (Halstead α) := do
  let vocabulary ← MeasureError.sum [c.distinctOperators, c.distinctOperands]
  if vocabulary = 0 then throw (.degenerate .emptyVocabulary)
  if c.distinctOperands = 0 then throw (.degenerate .noOperands)
  let length ← MeasureError.sum [c.totalOperators, c.totalOperands]
  let volume : α := Scalar.ofCount length * Scalar.log2 (Scalar.ofCount vocabulary)
  let difficulty : α :=
    (Scalar.ofCount c.distinctOperators / Scalar.ofCount 2)
      * (Scalar.ofCount c.totalOperands / Scalar.ofCount c.distinctOperands)
  return { vocabulary, length, volume, difficulty, effort := volume * difficulty }

end Stylometry
