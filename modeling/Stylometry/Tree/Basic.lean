-- Syntax trees of sources. A tree says what each part is for the measures, and no more;
-- its leaves are tokens.
import Stylometry.Token.Stream

namespace Stylometry

/-- What a node of a syntax tree is. -/
inductive NodeKind where
  | TranslationUnit
  | FunctionDefinition
  /-- The name of a function with its parameters. -/
  | FunctionDeclarator
  | ParameterClause
  /-- A declaration statement of no other kind. -/
  | Declaration
  /-- A choice: `if` or `switch`. -/
  | Selection
  /-- A loop: `for`, `while` or `do`. -/
  | Iteration
  | TryBlock
  | Handler
  | TypeSpecifierSeq
  /-- A statement that leaves its place: `return`, `break`, `continue` or `goto`. -/
  | Jump
  | LogicalAnd
  | LogicalOr
  | FunctionCall
  /-- The arguments of a call with their parentheses. -/
  | ArgumentList
  /-- An expression of no other kind. -/
  | Expression
  /-- A name used as an expression. -/
  | Identifier
  /-- The name of a declared thing, a type, a field or a namespace. -/
  | Name
  | Literal
  | RightShift
  | RightShiftAssign
  | Other
  deriving DecidableEq, Repr

namespace NodeKind

/-- Every kind of node. -/
def all : List NodeKind :=
  [.TranslationUnit, .FunctionDefinition, .FunctionDeclarator, .ParameterClause, .Declaration,
   .Selection, .Iteration, .TryBlock, .Handler, .TypeSpecifierSeq, .Jump, .LogicalAnd,
   .LogicalOr, .FunctionCall, .ArgumentList, .Expression, .Identifier, .Name, .Literal,
   .RightShift, .RightShiftAssign, .Other]

/-- The name of a kind of node. -/
def name : NodeKind → String
  | .TranslationUnit => "TranslationUnit"
  | .FunctionDefinition => "FunctionDefinition"
  | .FunctionDeclarator => "FunctionDeclarator"
  | .ParameterClause => "ParameterClause"
  | .Declaration => "Declaration"
  | .Selection => "Selection"
  | .Iteration => "Iteration"
  | .TryBlock => "TryBlock"
  | .Handler => "Handler"
  | .TypeSpecifierSeq => "TypeSpecifierSeq"
  | .Jump => "Jump"
  | .LogicalAnd => "LogicalAnd"
  | .LogicalOr => "LogicalOr"
  | .FunctionCall => "FunctionCall"
  | .ArgumentList => "ArgumentList"
  | .Expression => "Expression"
  | .Identifier => "Identifier"
  | .Name => "Name"
  | .Literal => "Literal"
  | .RightShift => "RightShift"
  | .RightShiftAssign => "RightShiftAssign"
  | .Other => "Other"

/-- The kind of node with the given name. -/
def ofName? (s : String) : Option NodeKind := all.find? (·.name = s)

/-- Whether nodes of the kind deepen the nesting of blocks. -/
def isBlock : NodeKind → Bool
  | .Selection | .Iteration | .FunctionDefinition | .TryBlock | .Handler | .TypeSpecifierSeq =>
    true
  | _ => false

/-- Whether nodes of the kind steer the flow of control. -/
def isFlow : NodeKind → Bool
  | .Selection | .Iteration => true
  | _ => false

end NodeKind

/-- A syntax tree: a token, or a node with the trees below it. -/
inductive Tree where
  | token (t : Token)
  | node (kind : NodeKind) (span : Span) (children : List Tree)

namespace Tree

/-! ## Parts of a tree -/

/-- The trees right below. -/
def children : Tree → List Tree
  | .token _ => []
  | .node _ _ cs => cs

/-- Whether the tree is a node. -/
def isNode : Tree → Bool
  | .token _ => false
  | .node .. => true

/-- The kind of the node. A token alone is no node of interest. -/
def kind : Tree → NodeKind
  | .token _ => .Other
  | .node k _ _ => k

/-- The nodes right below, in order. -/
def nodes (t : Tree) : List Tree := t.children.filter isNode

/-- The tokens right below, in order. -/
def tokens (t : Tree) : List Token :=
  t.children.filterMap fun
    | .token t => some t
    | .node .. => none

/-- The tokens of one kind right below. -/
def tokensOf (t : Tree) (k : Kind) : List Token := t.tokens.filter (·.kind = k)

/-- The first node of a kind right below. -/
def findChild? (t : Tree) (k : NodeKind) : Option Tree := t.nodes.find? (·.kind = k)

/-- A node that stands in no source. -/
def plain (k : NodeKind) (children : List Tree) : Tree := .node k .zero children

/-! ## Sizes -/

mutual
/-- The number of nodes and tokens. -/
def size : Tree → Nat
  | .token _ => 1
  | .node _ _ cs => 1 + sizeAll cs

/-- The number of nodes and tokens of several trees. -/
def sizeAll : List Tree → Nat
  | [] => 0
  | c :: cs => c.size + sizeAll cs
end

@[simp] theorem size_token (t : Token) : (Tree.token t).size = 1 := by rw [size]

@[simp] theorem size_node (k : NodeKind) (s : Span) (cs : List Tree) :
    (Tree.node k s cs).size = 1 + sizeAll cs := by rw [size]

@[simp] theorem sizeAll_nil : sizeAll [] = 0 := by rw [sizeAll]

@[simp] theorem sizeAll_cons (c : Tree) (cs : List Tree) :
    sizeAll (c :: cs) = c.size + sizeAll cs := by rw [sizeAll]

theorem sizeAll_filter_le (p : Tree → Bool) (cs : List Tree) :
    sizeAll (cs.filter p) ≤ sizeAll cs := by
  induction cs with
  | nil => simp
  | cons c cs ih =>
    by_cases h : p c <;> simp [h] <;> omega

/-- What is right below a tree is smaller than the tree. -/
theorem sizeAll_children_lt (t : Tree) : sizeAll t.children < t.size := by
  cases t with
  | token t => rw [size_token, children, sizeAll_nil]; omega
  | node k s cs => rw [size_node, children]; omega

/-! ## Text of a tree -/

/-- The texts of all tokens that wait on a stack of rows of trees, the top row first. A
node puts the row of its children on top. -/
def textOf : List (List Tree) → Text
  | [] => []
  | [] :: rows => textOf rows
  | (.token t :: row) :: rows => t.text ++ textOf (row :: rows)
  | (.node _ _ cs :: row) :: rows => textOf (cs :: row :: rows)
termination_by rows => (rows.map fun row => 1 + 2 * sizeAll row).sum
decreasing_by all_goals simp <;> omega

/-- The characters of all tokens below a node, without anything between them. -/
def text (t : Tree) : Text := textOf [t.children]

end Tree
end Stylometry
