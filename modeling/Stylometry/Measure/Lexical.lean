-- Measures of a token stream: its entropy, and how many keywords and operators it has.
import Stylometry.Measure.Degeneracy
import Stylometry.Measure.Scalar
import Stylometry.Token.Stream

namespace Stylometry

/-- The measures of a token stream. -/
structure Lexical (α : Type) where
  tokenCount : Nat
  /-- The Shannon entropy of the kinds, in bits. -/
  entropy : α
  keywordOccurrences : Nat
  distinctKeywords : Nat
  operatorOccurrences : Nat
  distinctOperators : Nat
  deriving DecidableEq, Repr

namespace Lexical

/-- The kinds that occur with their counts, in the order of the kinds. The order does not
depend on the stream. -/
def frequencies (kinds : List Kind) : List (Kind × Nat) :=
  (Kind.all.map fun k => (k, kinds.count k)).filter fun f => 0 < f.2

/-- The entropy of the frequencies, from the first kind to the last. -/
def entropyOf [Scalar α] (frequencies : List (Kind × Nat)) (total : Nat) : α :=
  frequencies.foldl
    (fun sum f =>
      let p := Scalar.ofCount f.2 / Scalar.ofCount total
      sum - p * Scalar.log2 p)
    (Scalar.ofCount 0)

/-- The tokens whose kind is in a class, and the kinds of the class that occur. -/
def classCounts (frequencies : List (Kind × Nat)) (inClass : List Kind) : Nat × Nat :=
  let met := frequencies.filter fun f => f.1 ∈ inClass
  ((met.map (·.2)).sum, met.length)

/-- The measures of a token stream. An empty stream has no entropy. -/
def ofTokens [Scalar α] (tokens : List Token) (classes : TokenClasses) :
    Except Degeneracy (Lexical α) :=
  if tokens.isEmpty then .error .noTokens
  else
    let frequencies := frequencies (tokens.map (·.kind))
    let keywords := classCounts frequencies classes.keywords
    let operators := classCounts frequencies classes.operators
    .ok {
      tokenCount := tokens.length
      entropy := entropyOf frequencies tokens.length
      keywordOccurrences := keywords.1
      distinctKeywords := keywords.2
      operatorOccurrences := operators.1
      distinctOperators := operators.2 }

end Lexical
end Stylometry
