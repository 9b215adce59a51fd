-- The ways in which the measures of a source can fail to exist.
namespace Stylometry

/-- The counts that a formula divides by. -/
inductive Divisor where
  | functions
  | lines
  | identifiers
  | nodes
  | keywordCharacters
  | identifierCharacters
  deriving DecidableEq, Repr

/-- How a divisor is named. -/
def Divisor.name : Divisor → String
  | .functions => "function count"
  | .lines => "line count"
  | .identifiers => "identifier count"
  | .nodes => "AST node count"
  | .keywordCharacters => "distinct keywords per character"
  | .identifierCharacters => "identifiers per character"

/-- Why a measure does not exist. -/
inductive Degeneracy where
  | noTokens
  | emptyVocabulary
  | noOperands
  /-- A formula divides by a count that is zero. -/
  | zero (divisor : Divisor)
  /-- A formula takes the logarithm of a quotient that is zero or below. -/
  | logarithm (divisor : Divisor)
  deriving DecidableEq, Repr

/-- The reason in words. -/
def Degeneracy.message : Degeneracy → String
  | .noTokens => "empty token stream"
  | .emptyVocabulary => "Halstead vocabulary is empty"
  | .noOperands => "no distinct Halstead operands"
  | .zero divisor => s!"{divisor.name} is zero"
  | .logarithm divisor => s!"logarithm of non-positive {divisor.name}"

end Stylometry
