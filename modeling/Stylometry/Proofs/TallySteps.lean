-- What one step of a walk does to a tally, as one equation for a node that is entered and one
-- for a node that is left. What is known about a walk is read off these two.
import Stylometry.Measure.Tally
import Stylometry.Proofs.Occurrences
import Stylometry.Proofs.Walk

namespace Stylometry

namespace NodeKind

/-- Whether nodes of the kind set or clear the context. -/
def isMark : NodeKind → Bool
  | .FunctionCall | .Expression | .ArgumentList | .LogicalAnd | .LogicalOr
  | .FunctionDeclarator | .Identifier | .Literal | .Declaration => true
  | _ => false

/-- Whether nodes of the kind are names, literals or declarations. -/
def isUse : NodeKind → Bool
  | .Identifier | .Literal | .Declaration => true
  | _ => false

end NodeKind

namespace Tally

/-! ## Tokens -/

def isName (t : Token) : Bool := t.kind = .identifier

def isPeriod (t : Token) : Bool := t.kind = .punctuator .Dot

/-- Both round and curly brackets count as parentheses. -/
def isParenthesis (t : Token) : Bool :=
  t.kind = .punctuator .LeftParen || t.kind = .punctuator .LeftBrace

/-- The names among some tokens. -/
def namesIn (ts : List Token) : List Text := (ts.filter isName).map (·.text)

/-- The tally after some tokens. -/
def afterTokens (s : Tally) (ts : List Token) : Tally :=
  { s with
    periods := s.periods + ts.countP isPeriod
    parentheses := s.parentheses + ts.countP isParenthesis
    identifiers := s.identifiers + ts.countP isName
    identifierCharacters := s.identifierCharacters + ((namesIn ts).map List.length).sum
    longestIdentifier := (namesIn ts).foldl (fun n name => max n name.length) s.longestIdentifier
    identifierOccurrences := s.identifierOccurrences.bumpAll (namesIn ts) }

theorem foldl_addToken (s : Tally) (ts : List Token) : ts.foldl addToken s = s.afterTokens ts := by
  induction ts generalizing s with
  | nil => rfl
  | cons t ts ih =>
    rw [List.foldl_cons, ih]
    unfold addToken afterTokens addIdentifier
    -- Only identifiers, periods and brackets count, so there is a case for each and one more.
    split
    all_goals
      simp_all [isName, isPeriod, isParenthesis, namesIn, Nat.add_assoc, Nat.add_comm 1,
        Occurrences.bumpAll]

/-! ## Kinds -/

/-- What an entered node does to the context. -/
def contextAfter (k : NodeKind) (context : CallContext) : CallContext :=
  if k = .FunctionCall then .expectingOperator else if k.isMark then .idle else context

/-- What an entered node counts for among the operators, by the context. -/
def operatorIn? (context : CallContext) (t : Tree) : Option Text :=
  if t.kind.isUse then if context = .expectingOperator then some t.text else none
  else if t.kind = .FunctionDeclarator then declaredName? t else none

/-- What an entered node counts for among the operands, by the context. -/
def operandIn? (context : CallContext) (t : Tree) : Option Text :=
  if t.kind.isUse ∧ context = .idle then some t.text else none

/-- One for a node of some kinds, none for every other node. -/
def hits (ks : List NodeKind) (t : Tree) : Nat := if t.kind ∈ ks then 1 else 0

/-- The tally after the kind of a node was counted. -/
def afterKind (s : Tally) (t : Tree) : Tally :=
  { s with
    conditionalBranches := s.conditionalBranches + hits [.LogicalAnd, .LogicalOr] t
    jumps := s.jumps + hits [.Jump] t
    parameters := s.parameters + if t.kind = .ParameterClause then t.nodes.length else 0
    characters := if t.kind = .TranslationUnit then t.text.length else s.characters
    rightShifts := s.rightShifts + hits [.RightShift] t
    rightShiftAssigns := s.rightShiftAssigns + hits [.RightShiftAssign] t
    operators := s.operators.bumpAll (operatorIn? s.context t).toList
    operands := s.operands.bumpAll (operandIn? s.context t).toList
    context := contextAfter t.kind s.context }

theorem classify_eq (s : Tally) (text : Text) :
    s.classify text =
      { s with
        operators := if s.context = .expectingOperator then s.operators.bump text else s.operators
        operands := if s.context = .idle then s.operands.bump text else s.operands
        context := .idle } := by
  unfold classify
  cases h : s.context <;> simp [addOperator, h]

theorem addKind_eq (s : Tally) (t : Tree) : s.addKind t = s.afterKind t := by
  unfold addKind afterKind hits contextAfter operatorIn? operandIn?
  cases t.kind with
  | Identifier | Literal | Declaration =>
    dsimp only
    rw [classify_eq]
    cases s.context <;> rfl
  | FunctionDeclarator => cases declaredName? t <;> rfl
  | _ => rfl

/-! ## Nodes -/

theorem openBlock_eq (s : Tally) (k : NodeKind) :
    s.openBlock k =
      { s with
        openBlocks := if k.isBlock then k :: s.openBlocks else s.openBlocks
        maxBlockDepth :=
          if k.isBlock then max s.maxBlockDepth (s.openBlocks.length + 1)
          else s.maxBlockDepth } := by
  unfold openBlock
  cases k.isBlock <;> rfl

/-- The tally after a node was entered. -/
def afterEnter (s : Tally) (t : Tree) (depth : Nat) : Tally :=
  { (s.afterTokens t.tokens).afterKind t with
    nodes := if t.children.isEmpty then s.nodes else s.nodes + 1
    children := s.children + t.children.length
    maxTreeDepth := max s.maxTreeDepth depth
    flowControl := s.flowControl + if t.kind.isFlow then 1 else 0
    openBlocks := if t.kind.isBlock then t.kind :: s.openBlocks else s.openBlocks
    maxBlockDepth :=
      if t.kind.isBlock then max s.maxBlockDepth (s.openBlocks.length + 1) else s.maxBlockDepth }

/-- A node adds its tokens, its kind and its place in the tree to a tally, and none of these
changes what another one adds. -/
theorem enter_eq (s : Tally) (t : Tree) (depth : Nat) : s.enter t depth = s.afterEnter t depth := by
  unfold enter addShape
  dsimp only
  rw [foldl_addToken, openBlock_eq, addKind_eq]
  cases hflow : t.kind.isFlow with
  | true =>
    simp only [afterKind, afterEnter, afterTokens, hflow]
    rfl
  | false =>
    simp only [afterKind, afterEnter, afterTokens, hflow]
    rfl

/-- The tally after a node was left. -/
def afterLeave (s : Tally) (t : Tree) : Tally :=
  { s with
    openBlocks := if t.kind.isBlock then s.openBlocks.drop 1 else s.openBlocks
    functions := s.functions + hits [.FunctionDefinition] t
    context := if t.kind = .FunctionCall then .idle else s.context }

theorem leave_eq (s : Tally) (t : Tree) (depth : Nat) : s.leave t depth = s.afterLeave t := by
  unfold leave afterLeave hits
  cases hk : t.kind <;> simp [NodeKind.isBlock]

/-! ## Names -/

theorem context_enter (s : Tally) (t : Tree) (depth : Nat) :
    (s.enter t depth).context = contextAfter t.kind s.context := by
  rw [enter_eq]
  rfl

theorem operators_enter (s : Tally) (t : Tree) (depth : Nat) :
    (s.enter t depth).operators =
      s.operators.bumpAll (operatorIn? s.context t).toList := by
  rw [enter_eq]
  rfl

theorem operands_enter (s : Tally) (t : Tree) (depth : Nat) :
    (s.enter t depth).operands = s.operands.bumpAll (operandIn? s.context t).toList := by
  rw [enter_eq]
  rfl

theorem context_leave (s : Tally) (t : Tree) (depth : Nat) :
    (s.leave t depth).context = if t.kind = .FunctionCall then .idle else s.context := by
  rw [leave_eq]
  rfl

theorem operators_leave (s : Tally) (t : Tree) (depth : Nat) :
    (s.leave t depth).operators = s.operators := by
  rw [leave_eq]
  rfl

theorem operands_leave (s : Tally) (t : Tree) (depth : Nat) :
    (s.leave t depth).operands = s.operands := by
  rw [leave_eq]
  rfl

/-! ## Events -/

/-- The tally after some events. -/
def follow (s : Tally) (es : List Tree.Event) : Tally := es.foldl (Tree.Event.apply listener) s

@[simp] theorem follow_nil (s : Tally) : s.follow [] = s := rfl

@[simp] theorem follow_enter (s : Tally) (t : Tree) (depth : Nat) (es : List Tree.Event) :
    s.follow (.enter t depth :: es) = (s.enter t depth).follow es := rfl

@[simp] theorem follow_leave (s : Tally) (t : Tree) (depth : Nat) (es : List Tree.Event) :
    s.follow (.leave t depth :: es) = (s.leave t depth).follow es := rfl

theorem follow_append (s : Tally) (es fs : List Tree.Event) :
    s.follow (es ++ fs) = (s.follow es).follow fs := List.foldl_append

/-- A walk over a node follows its events. -/
theorem ofTree_node (k : NodeKind) (span : Span) (cs : List Tree) :
    ofTree (.node k span cs) = follow {} (Tree.events 1 (.node k span cs)) :=
  Tree.walk_node listener {} k span cs

end Tally
end Stylometry
