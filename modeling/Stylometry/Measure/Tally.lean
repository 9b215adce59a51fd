-- The tally of a syntax tree: what a walk over its nodes counts. Names and values that are
-- called count as operators, all others as operands.
import Stylometry.Count
import Stylometry.Tree.Walk

namespace Stylometry

/-- What the next name, literal or declaration counts as. -/
inductive CallContext where
  | idle
  /-- Inside a call whose callee was not met yet. -/
  | expectingOperator
  deriving DecidableEq, Repr

/-- What was counted so far. -/
structure Tally where
  /-- The nodes that have something below them. -/
  nodes : Nat := 0
  /-- The nodes and tokens right below any node. -/
  children : Nat := 0
  maxTreeDepth : Nat := 0
  functions : Nat := 0
  conditionalBranches : Nat := 0
  flowControl : Nat := 0
  jumps : Nat := 0
  parameters : Nat := 0
  periods : Nat := 0
  parentheses : Nat := 0
  characters : Nat := 0
  identifiers : Nat := 0
  identifierCharacters : Nat := 0
  longestIdentifier : Nat := 0
  identifierOccurrences : Occurrences Text := []
  /-- The blocks that are entered and not left, the innermost first. -/
  openBlocks : List NodeKind := []
  maxBlockDepth : Nat := 0
  rightShifts : Nat := 0
  rightShiftAssigns : Nat := 0
  operators : Occurrences Text := []
  operands : Occurrences Text := []
  context : CallContext := .idle
  deriving DecidableEq, Repr

namespace Tally

/-! ## Tokens -/

/-- Counts an identifier. -/
def addIdentifier (s : Tally) (name : Text) : Tally :=
  { s with
    identifiers := s.identifiers + 1
    identifierCharacters := s.identifierCharacters + name.length
    longestIdentifier := max s.longestIdentifier name.length
    identifierOccurrences := s.identifierOccurrences.bump name }

/-- Counts a token right below the node that is entered. -/
def addToken (s : Tally) (t : Token) : Tally :=
  match t.kind with
  | .identifier => s.addIdentifier t.text
  | .punctuator .Dot => { s with periods := s.periods + 1 }
  | .punctuator .LeftParen | .punctuator .LeftBrace => { s with parentheses := s.parentheses + 1 }
  | _ => s

/-! ## Operators and operands -/

/-- Counts a use of an operator. -/
def addOperator (s : Tally) (text : Text) : Tally :=
  { s with operators := s.operators.bump text }

/-- Counts a name, literal or declaration as what the context says. It ends the context. -/
def classify (s : Tally) (text : Text) : Tally :=
  match s.context with
  | .expectingOperator => { s.addOperator text with context := .idle }
  | .idle => { s with operands := s.operands.bump text }

/-- The name that a declarator declares: its first node, unless that one is its
parameters. -/
def declaredName? (declarator : Tree) : Option Text :=
  match declarator.nodes with
  | [] => none
  | first :: _ => if first.kind = .ParameterClause then none else some first.text

/-! ## Nodes -/

/-- Counts what every node counts for: its place in the tree and its tokens. -/
def addShape (s : Tally) (t : Tree) (depth : Nat) : Tally :=
  let s := { s with
    children := s.children + t.children.length
    nodes := if t.children.isEmpty then s.nodes else s.nodes + 1
    maxTreeDepth := max s.maxTreeDepth depth }
  t.tokens.foldl addToken s

/-- Opens the block that a node is. -/
def openBlock (s : Tally) (kind : NodeKind) : Tally :=
  if kind.isBlock then
    { s with
      openBlocks := kind :: s.openBlocks
      maxBlockDepth := max s.maxBlockDepth (s.openBlocks.length + 1) }
  else s

/-- Counts what a node counts for by its kind. -/
def addKind (s : Tally) (t : Tree) : Tally :=
  match t.kind with
  | .TranslationUnit => { s with characters := t.text.length }
  | .Jump => { s with jumps := s.jumps + 1 }
  | .LogicalAnd | .LogicalOr =>
    { s with conditionalBranches := s.conditionalBranches + 1, context := .idle }
  | .ParameterClause => { s with parameters := s.parameters + t.nodes.length }
  | .RightShift => { s with rightShifts := s.rightShifts + 1 }
  | .RightShiftAssign => { s with rightShiftAssigns := s.rightShiftAssigns + 1 }
  | .FunctionCall => { s with context := .expectingOperator }
  | .Expression | .ArgumentList => { s with context := .idle }
  | .FunctionDeclarator =>
    let s := match declaredName? t with
      | some name => s.addOperator name
      | none => s
    { s with context := .idle }
  | .Identifier | .Literal | .Declaration => s.classify t.text
  | _ => s

/-- Counts a node that is entered. -/
def enter (s : Tally) (t : Tree) (depth : Nat) : Tally :=
  let s := (s.addShape t depth).openBlock t.kind
  let s := if t.kind.isFlow then { s with flowControl := s.flowControl + 1 } else s
  s.addKind t

/-- Counts a node that is left. -/
def leave (s : Tally) (t : Tree) (_depth : Nat) : Tally :=
  let s := if t.kind.isBlock then { s with openBlocks := s.openBlocks.drop 1 } else s
  match t.kind with
  | .FunctionDefinition => { s with functions := s.functions + 1 }
  | .FunctionCall => { s with context := .idle }
  | _ => s

/-- The listener that counts. -/
def listener : Listener Tally := ⟨enter, leave⟩

/-- The tally of a tree. -/
def ofTree (root : Tree) : Tally := root.walk listener {}

end Tally
end Stylometry
