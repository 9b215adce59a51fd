-- The measures of one source, and how they follow from its tally.
import Stylometry.Measure.Halstead
import Stylometry.Measure.Lexical
import Stylometry.Measure.Readability
import Stylometry.Measure.Source
import Stylometry.Measure.Tally

namespace Stylometry

/-- The measures of one source. -/
structure Measures (α : Type) where
  nodeCount : α
  functionLength : α
  functionParameters : α
  identifiersPerLine : α
  identifierLength : α
  lineLength : α
  periodsPerLine : α
  parenthesesPerLine : α
  branchFactor : α
  cyclomaticComplexity : α
  entropy : α
  halsteadDifficulty : α
  halsteadEffort : α
  halsteadVolume : α
  keywordCount : α
  linesOfCode : α
  lnKeywordsPerCharacter : α
  lnIdentifiersPerCharacter : α
  blockDepth : α
  identifierUses : α
  longestIdentifier : α
  longestLine : α
  readability : α
  deriving Repr

namespace Measures

/-- The names of the measures, in their order. -/
def names : List String :=
  ["ast_node_count", "avg_function_length", "avg_function_parameter_count",
   "avg_identifier_count", "avg_identifier_length", "avg_line_length", "avg_period_count",
   "avg_parenthesis_count", "branch_factor", "cyclomatic_complexity", "entropy",
   "halstead_difficulty", "halstead_effort", "halstead_volume", "keyword_distribution",
   "lines_of_code", "ln_keyword_file_length", "ln_literal_count_file_length",
   "max_depth_nested_blocks", "max_identifier_count", "max_identifier_length",
   "max_line_length", "readability"]

/-- The measures, in the order of their names. -/
def toList (m : Measures α) : List α :=
  [m.nodeCount, m.functionLength, m.functionParameters, m.identifiersPerLine,
   m.identifierLength, m.lineLength, m.periodsPerLine, m.parenthesesPerLine, m.branchFactor,
   m.cyclomaticComplexity, m.entropy, m.halsteadDifficulty, m.halsteadEffort,
   m.halsteadVolume, m.keywordCount, m.linesOfCode, m.lnKeywordsPerCharacter,
   m.lnIdentifiersPerCharacter, m.blockDepth, m.identifierUses, m.longestIdentifier,
   m.longestLine, m.readability]

/-- The measures that stand in a list of their number. -/
def ofList? : List α → Option (Measures α)
  | [a, b, c, d, e, f, g, h, i, j, k, l, m, n, o, p, q, r, s, t, u, v, w] =>
    some ⟨a, b, c, d, e, f, g, h, i, j, k, l, m, n, o, p, q, r, s, t, u, v, w⟩
  | _ => none

/-- The measures with their names. -/
def fields (m : Measures α) : List (String × α) := names.zip m.toList

/-- The name of the first measure that is no finite number. -/
def firstInvalid? (m : Measures Float) : Option String :=
  (m.fields.find? fun f => !f.2.isFinite).map (·.1)

end Measures

/-! ## From the tally to the measures -/

/-- What the measures need to know besides the tally. -/
structure MeasureInputs (α : Type) where
  size : SourceSize
  lexical : Lexical α
  readability : Readability α

/-- A quotient whose divisor must not be zero. -/
def quotient [Scalar α] (dividend divisor : α) (what : Divisor) : Except MeasureError α :=
  if Scalar.isZero divisor then .error (.degenerate (.zero what)) else .ok (dividend / divisor)

/-- The natural logarithm of a quotient, which must be above zero. -/
def lnQuotient [Scalar α] (dividend divisor : α) (what : Divisor) : Except MeasureError α := do
  let q ← quotient dividend divisor what
  if Scalar.isNonPositive q then throw (.degenerate (.logarithm what))
  return Scalar.ln q

/-- The counts of operators and operands of a source. Keywords and operators of the token
stream are operators as well, and a kind of shift that occurs is one more operator. -/
def Tally.halsteadCounts (s : Tally) (lexical : Lexical α) : Except MeasureError HalsteadCounts := do
  let operatorOccurrences ←
    MeasureError.sum [lexical.operatorOccurrences, s.rightShifts, s.rightShiftAssigns]
  let distinctOperators ← MeasureError.sum
    [lexical.distinctOperators, if 0 < s.rightShifts then 1 else 0,
     if 0 < s.rightShiftAssigns then 1 else 0]
  let n1 ← MeasureError.sum [lexical.distinctKeywords, distinctOperators, s.operators.length]
  let uses ← MeasureError.sum (s.operators.map (·.2))
  let total ← MeasureError.sum [lexical.keywordOccurrences, operatorOccurrences, uses]
  let operands ← MeasureError.sum (s.operands.map (·.2))
  return ⟨n1, s.operands.length, total, operands⟩

/-- The measures of a source, or the first reason why one of them does not exist. -/
def Tally.measure [Scalar α] (s : Tally) (inputs : MeasureInputs α) :
    Except MeasureError (Measures α) := do
  let counts ← s.halsteadCounts inputs.lexical
  let halstead ← counts.measure (α := α)
  let lines : α := Scalar.ofCount inputs.size.lines
  let characters : α := Scalar.ofCount s.characters
  let functions : α := Scalar.ofCount s.functions
  let identifiers : α := Scalar.ofCount s.identifiers
  let nodes : α := Scalar.ofCount s.nodes
  let branches : α := Scalar.ofCount (s.flowControl + s.conditionalBranches + s.jumps)
  let functionLength ← quotient characters functions .functions
  let functionParameters ← quotient (Scalar.ofCount s.parameters) functions .functions
  let identifiersPerLine ← quotient identifiers lines .lines
  let identifierLength ←
    quotient (Scalar.ofCount s.identifierCharacters) identifiers .identifiers
  let lineLength ← quotient characters lines .lines
  let periodsPerLine ← quotient (Scalar.ofCount s.periods) lines .lines
  let parenthesesPerLine ← quotient (Scalar.ofCount s.parentheses) lines .lines
  let branchFactor ← quotient (Scalar.ofCount s.children) nodes .nodes
  let cyclomaticComplexity ← quotient branches functions .functions
  let lnKeywordsPerCharacter ←
    lnQuotient (Scalar.ofCount inputs.lexical.distinctKeywords) characters .keywordCharacters
  let lnIdentifiersPerCharacter ← lnQuotient identifiers characters .identifierCharacters
  return {
    nodeCount := nodes
    functionLength, functionParameters, identifiersPerLine, identifierLength, lineLength
    periodsPerLine, parenthesesPerLine, branchFactor, cyclomaticComplexity
    entropy := inputs.lexical.entropy
    halsteadDifficulty := halstead.difficulty
    halsteadEffort := halstead.effort
    halsteadVolume := halstead.volume
    keywordCount := Scalar.ofCount inputs.lexical.keywordOccurrences
    linesOfCode := lines
    lnKeywordsPerCharacter, lnIdentifiersPerCharacter
    blockDepth := Scalar.ofCount s.maxBlockDepth
    identifierUses := Scalar.ofCount s.identifierOccurrences.largest
    longestIdentifier := Scalar.ofCount s.longestIdentifier
    longestLine := Scalar.ofCount inputs.size.longestLine
    readability := inputs.readability.score halstead.volume lines inputs.lexical.entropy }

end Stylometry
