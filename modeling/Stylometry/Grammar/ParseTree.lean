-- Parse trees of the C++ grammar, as a parser gives them: every node names its grammar
-- kind, its field in the node above and what it covers, by bytes and by rows and columns.
import Stylometry.Text.Position

namespace Stylometry

/-- What a parse tree says about one of its nodes. -/
structure Mark where
  /-- The grammar kind. For a node without a name it is the text of the symbol. -/
  kind : String
  named : Bool := true
  /-- The parser put the node in to go on. -/
  missing : Bool := false
  /-- The node holds text that the parser could not place. -/
  isError : Bool := false
  /-- Something at the node or below it is missing or an error. -/
  hasError : Bool := false
  /-- The field that the node fills in the node above. -/
  field : Option String := none
  start : Nat
  stop : Nat
  /-- The row and column of the start. A mark that does not give them is on the first row. -/
  startPoint : Point := ⟨0, start⟩
  /-- The row and column of the stop. -/
  stopPoint : Point := ⟨0, stop⟩
  deriving DecidableEq, Repr

/-- The mark with the rows and columns of its bytes in a source. -/
def Mark.counted (source : Text) (m : Mark) : Mark :=
  { m with
    startPoint := .inText source m.start
    stopPoint := .inText source m.stop }

/-- A parse tree. -/
inductive ParseTree where
  | node (mark : Mark) (children : List ParseTree)

namespace ParseTree

/-- What the tree says about its root. -/
def mark : ParseTree → Mark
  | .node m _ => m

/-- The trees right below the root. -/
def children : ParseTree → List ParseTree
  | .node _ cs => cs

/-- The grammar kind of the root. -/
def kind (t : ParseTree) : String := t.mark.kind

/-- The part of the source that the root covers. -/
def text (source : Text) (t : ParseTree) : Text := source.slice t.mark.start t.mark.stop

/-- The place where the root starts. -/
def start (t : ParseTree) : Position := t.mark.startPoint.position t.mark.start

/-- The span of the root. -/
def span (t : ParseTree) : Span := ⟨t.start, t.mark.stopPoint.position t.mark.stop⟩

/-- The first tree right below that fills the given field. -/
def childByField? (t : ParseTree) (field : String) : Option ParseTree :=
  t.children.find? (·.mark.field = some field)

/-! ## Sizes -/

mutual
/-- The number of nodes. -/
def size : ParseTree → Nat
  | .node _ cs => 1 + sizeAll cs

/-- The number of nodes of several trees. -/
def sizeAll : List ParseTree → Nat
  | [] => 0
  | c :: cs => c.size + sizeAll cs
end

@[simp] theorem size_node (m : Mark) (cs : List ParseTree) :
    (ParseTree.node m cs).size = 1 + sizeAll cs := by rw [size]

@[simp] theorem sizeAll_nil : sizeAll [] = 0 := by rw [sizeAll]

@[simp] theorem sizeAll_cons (c : ParseTree) (cs : List ParseTree) :
    sizeAll (c :: cs) = c.size + sizeAll cs := by rw [sizeAll]

theorem size_pos (t : ParseTree) : 0 < t.size := by
  cases t with
  | node m cs => rw [size_node]; omega

/-- A tree is one node larger than what is right below it. -/
theorem size_eq (t : ParseTree) : t.size = 1 + sizeAll t.children := by
  cases t; simp [children]

end ParseTree
end Stylometry
