-- From parse trees to syntax trees. The conversion is told twice: by recursion on the
-- parse tree, and by a cursor on it with a stack of half-built nodes, which needs no deep
-- calls.
import Stylometry.Grammar.Cursor
import Stylometry.Tree.Basic

namespace Stylometry.Grammar

/-! ## What the grammar kinds mean -/

/-- Kinds that leave nothing in the syntax tree: what the scan passes over as well. -/
def skippedKinds : List String :=
  ["comment", "preproc_include", "preproc_def", "preproc_function_def", "preproc_call"]

/-- Kinds that become one literal. -/
def literalKinds : List String :=
  ["number_literal", "string_literal", "raw_string_literal", "char_literal",
   "user_defined_literal", "true", "false", "null", "nullptr"]

/-- Kinds that become one name. -/
def identifierKinds : List String :=
  ["identifier", "field_identifier", "type_identifier", "namespace_identifier",
   "statement_identifier"]

/-- The kind of node for a parse tree that is opened. -/
def nodeKind (source : Text) (t : ParseTree) : NodeKind :=
  if t.kind = "translation_unit" then .TranslationUnit
  else if t.kind = "function_definition" then .FunctionDefinition
  else if t.kind = "function_declarator" then .FunctionDeclarator
  else if t.kind = "parameter_list" then .ParameterClause
  else if t.kind = "declaration" then .Declaration
  else if t.kind ∈ ["if_statement", "switch_statement"] then .Selection
  else if t.kind ∈ ["for_statement", "for_range_loop", "while_statement", "do_statement"] then
    .Iteration
  else if t.kind = "try_statement" then .TryBlock
  else if t.kind = "catch_clause" then .Handler
  else if t.kind = "type_descriptor" then .TypeSpecifierSeq
  else if t.kind ∈
      ["return_statement", "break_statement", "continue_statement", "goto_statement"] then
    .Jump
  else if t.kind = "call_expression" then .FunctionCall
  else if t.kind = "argument_list" then .ArgumentList
  else if t.kind = "binary_expression" then
    match (t.childByField? "operator").map (·.text source) with
    | some op =>
      if op ∈ ["&&".toList, "and".toList] then .LogicalAnd
      else if op ∈ ["||".toList, "or".toList] then .LogicalOr
      else .Expression
    | none => .Expression
  else if "_expression".toList.isSuffixOf t.kind.toList then .Expression
  else .Other

/-- The kind of a literal that is not one token by itself. -/
def literalSort (kind : String) (text : Text) : LiteralSort :=
  if kind = "char_literal" then .character
  else if kind = "number_literal" then
    if text.any fun c => c == '.' || c == 'p' || c == 'P' then .floating else .integer
  else .string

/-! ## One node -/

/-- A node of one token that covers what the parse tree covers. -/
def leaf (source : Text) (kind : NodeKind) (t : ParseTree) (token : Kind) : Tree :=
  .node kind t.span [.token ⟨token, t.text source, t.start⟩]

/-- The tokens of the text of a parse tree, all placed where it starts. -/
def scanned (source : Text) (t : ParseTree) : List Tree :=
  (tokenize (t.text source)).map fun token => .token { token with position := t.start }

/-- The node of a right shift: the shift sign is two tokens. -/
def shift (kind : NodeKind) (t : ParseTree) (second : Punctuator) : Tree :=
  .node kind t.span
    [.token ⟨.punctuator .Greater, ['>'], t.start⟩,
     .token ⟨.punctuator second, second.entry.2.toList, t.start⟩]

/-- What a symbol without a name becomes, below a node of kind `parent`. -/
def symbolTrees (source : Text) (parent : String) (t : ParseTree) : List Tree :=
  if t.text source = ['>', '>'] ∧ parent = "binary_expression" then
    [shift .RightShift t .Greater]
  else if t.text source = ['>', '>', '='] ∧ parent = "assignment_expression" then
    [shift .RightShiftAssign t .GreaterEqual]
  else scanned source t

/-- The node kind of a name, below a node of kind `parent`. A declared name fills the field
of a declarator, or stands without a field right below a declarator. -/
def nameKind (parent : String) (t : ParseTree) : NodeKind :=
  let declared := t.mark.field = some "declarator" ∨
    t.mark.field = none ∧ "declarator".toList.isSuffixOf parent.toList
  if t.kind = "identifier" ∧ ¬declared then .Identifier else .Name

/-- How a node below the root takes part in the syntax tree. -/
inductive Part where
  /-- It becomes these trees, and what is below it is not looked at. -/
  | closed (trees : List Tree)
  /-- It becomes a node of this kind over what is below it. -/
  | opened (kind : NodeKind)

/-- The part of a node below a node of kind `parent`. -/
def part (source : Text) (parent : String) (t : ParseTree) : Part :=
  if t.kind ∈ skippedKinds then .closed []
  else if !t.mark.named then .closed (symbolTrees source parent t)
  else if t.kind ∈ literalKinds then
    let text := t.text source
    .closed [leaf source .Literal t
      ((Kind.ofLexeme? text).getD (.literal (literalSort t.kind text)))]
  else if t.kind ∈ identifierKinds then .closed [leaf source (nameKind parent t) t .identifier]
  else if t.children.isEmpty then .closed [.node .Other t.span (scanned source t)]
  else .opened (nodeKind source t)

/-! ## The conversion by recursion -/

mutual
/-- The trees that a node below a node of kind `parent` becomes. -/
def treesOf (source : Text) (parent : String) : ParseTree → List Tree
  | .node m cs =>
    match part source parent (.node m cs) with
    | .closed trees => trees
    | .opened kind => [.node kind (ParseTree.node m cs).span (treesOfAll source m.kind cs)]

/-- The trees that several nodes become, one after the other. -/
def treesOfAll (source : Text) (parent : String) : List ParseTree → List Tree
  | [] => []
  | c :: cs => treesOf source parent c ++ treesOfAll source parent cs
end

/-- The syntax tree of a parse tree, by recursion. The root is always opened. -/
def toTree (source : Text) (root : ParseTree) : Tree :=
  .node (nodeKind source root) root.span (treesOfAll source root.kind root.children)

/-! ## The conversion by a cursor -/

/-- A node of the syntax tree that is not complete yet. Its trees so far stand last first. -/
structure OpenNode where
  kind : NodeKind
  span : Span
  grammarKind : String
  built : List Tree

/-- The open nodes, the innermost first. -/
abbrev Builder := List OpenNode

namespace Builder

/-- Opens a node for a parse tree. -/
def openNode (t : ParseTree) (kind : NodeKind) (b : Builder) : Builder :=
  ⟨kind, t.span, t.kind, []⟩ :: b

/-- Adds trees to the innermost open node. -/
def attach (trees : List Tree) : Builder → Builder
  | [] => []
  | n :: b => { n with built := trees.reverse ++ n.built } :: b

/-- The grammar kind that the innermost open node comes from. -/
def grammarKind : Builder → String
  | [] => ""
  | n :: _ => n.grammarKind

/-- Closes the innermost node: it goes to the node around it, or is done when there is
none. -/
def close : Builder → Tree ⊕ Builder
  | [] => .inr []
  | [n] => .inl (.node n.kind n.span n.built.reverse)
  | n :: outer :: b =>
    .inr (attach [.node n.kind n.span n.built.reverse] (outer :: b))

end Builder

/-- Moves to the next node that was not visited and closes the nodes that end before it.
Gives the root when nothing is left. -/
def climb (c : Cursor) (b : Builder) : Option Tree ⊕ Cursor × Builder :=
  match c.nextSibling? with
  | some d => .inr (d, b)
  | none =>
    match hp : c.parent? with
    | none => .inl (b.close.getLeft?)
    | some d =>
      have := Cursor.length_above_parent hp
      match b.close with
      | .inl root => .inl (some root)
      | .inr b => climb d b
termination_by c.above.length

/-- A climb leaves what was ahead. -/
theorem remaining_climb {c d : Cursor} {b b' : Builder} (h : climb c b = .inr (d, b')) :
    d.remaining = c.ahead := by
  fun_induction climb c b with
  | case1 c b e hn => cases h; exact Cursor.remaining_nextSibling hn
  | case2 => cases h
  | case3 => cases h
  | case4 c b hn e hp _ b'' hb ih => rw [ih h, Cursor.ahead_parent hn hp]

/-- Visits the current node and goes on until the root is closed. -/
def build (source : Text) (c : Cursor) (b : Builder) : Tree :=
  match part source b.grammarKind c.current with
  | .closed trees =>
    match hc : climb c (b.attach trees) with
    | .inl root => root.getD (.plain .TranslationUnit [])
    | .inr (d, b) =>
      have := remaining_climb hc ▸ c.ahead_lt_remaining
      build source d b
  | .opened kind =>
    let opened := b.openNode c.current kind
    match hd : c.firstChild? with
    | some d =>
      have := Cursor.remaining_firstChild hd
      build source d opened
    | none =>
      match opened.close with
      | .inl root => root
      | .inr b =>
        match hc : climb c b with
        | .inl root => root.getD (.plain .TranslationUnit [])
        | .inr (d, b) =>
          have := remaining_climb hc ▸ c.ahead_lt_remaining
          build source d b
termination_by c.remaining

/-- The syntax tree of a parse tree, by a cursor and a stack of open nodes. -/
def convert (source : Text) (root : ParseTree) : Tree :=
  let opened := Builder.openNode root (nodeKind source root) []
  match (Cursor.atRoot root).firstChild? with
  | some c => build source c opened
  | none => opened.close.getLeft?.getD (.plain .TranslationUnit [])

/-! ## Errors in a parse tree -/

/-- The first node in preorder that is missing or an error. Nodes without an error below
them are passed over. -/
def firstError? (c : Cursor) : Option ParseTree :=
  if c.current.mark.isError || c.current.mark.missing then some c.current
  else
    match c.current.mark.hasError, hd : c.firstChild? with
    | true, some d =>
      have := Cursor.remaining_firstChild hd
      firstError? d
    | _, _ =>
      match hn : c.next? with
      | some d =>
        have := Cursor.remaining_next hn ▸ c.ahead_lt_remaining
        firstError? d
      | none => none
termination_by c.remaining

/-- The parser met something that it could not place. -/
structure SyntaxError where
  /-- The text where it happened, at most its first forty characters. -/
  near : Text
  position : Position
  deriving DecidableEq, Repr

/-- The syntax tree of a source, from its parse tree. A parse tree with an error in it has
none. -/
def parse (source : Text) (root : ParseTree) : Except SyntaxError Tree :=
  if root.mark.hasError then
    match firstError? (.atRoot root) with
    | some t => .error ⟨(t.text source).take 40, t.start⟩
    | none => .error ⟨[], root.start⟩
  else .ok (convert source root)

end Stylometry.Grammar
