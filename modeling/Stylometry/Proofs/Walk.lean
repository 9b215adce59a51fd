-- The walk over a tree as a fold. The walk keeps its steps on a stack, and the laws of a
-- listener are told by recursion on the tree; here the two are shown to be one.
import Stylometry.Tree.Walk

namespace Stylometry.Tree

variable {σ : Type}

/-! ## Events of several trees -/

@[simp] theorem events_token (depth : Nat) (t : Token) : events depth (.token t) = [] := by
  rw [events]

@[simp] theorem events_node (depth : Nat) (k : NodeKind) (s : Span) (cs : List Tree) :
    events depth (.node k s cs) =
      .enter (.node k s cs) depth ::
        (eventsAll (depth + 1) cs ++ [.leave (.node k s cs) depth]) := by
  rw [events]

@[simp] theorem eventsAll_nil (depth : Nat) : eventsAll depth [] = [] := by rw [eventsAll]

@[simp] theorem eventsAll_cons (depth : Nat) (c : Tree) (cs : List Tree) :
    eventsAll depth (c :: cs) = events depth c ++ eventsAll depth cs := by
  rw [eventsAll]

/-! ## The stack of the walk -/

/-- The events that a step on the stack stands for. -/
def Event.expand : Event → List Event
  | .enter (.token t) depth => [.enter (.token t) depth, .leave (.token t) depth]
  | .enter (.node k s cs) depth => events depth (.node k s cs)
  | .leave t depth => [.leave t depth]

/-- The steps that the walk puts on the stack for the nodes right below a node stand for
the events of these nodes. Tokens have no events, so only the nodes count. -/
theorem expand_enter_nodes (depth : Nat) (cs : List Tree) :
    ((cs.filter isNode).map (Event.enter · depth)).flatMap Event.expand = eventsAll depth cs := by
  induction cs with
  | nil => rfl
  | cons c cs ih =>
    rw [eventsAll_cons, ← ih]
    cases c with
    | token t => rw [List.filter_cons_of_neg (by simp [isNode]), events_token, List.nil_append]
    | node k s ds => rw [List.filter_cons_of_pos rfl, List.map_cons, List.flatMap_cons]; rfl

/-- To enter a node comes before the events of the nodes below it and its leaving. -/
theorem expand_enter (t : Tree) (depth : Nat) :
    (Event.enter t depth).expand =
      .enter t depth ::
        ((t.nodes.map (Event.enter · (depth + 1))).flatMap Event.expand ++ [.leave t depth]) := by
  cases t with
  | token t => simp [Event.expand, nodes, children]
  | node k s cs => rw [nodes, children, expand_enter_nodes, Event.expand, events_node]

/-- The stack runs the events that its steps stand for, the top first. -/
theorem run_eq_foldl (listener : Listener σ) (s : σ) (stack : List Event) :
    run listener s stack = (stack.flatMap Event.expand).foldl (Event.apply listener) s := by
  fun_induction run listener s stack with
  | case1 s => rfl
  | case2 s t depth stack ih =>
    rw [ih, List.flatMap_cons, expand_enter, List.flatMap_append, List.flatMap_cons]
    simp [Event.apply, Event.expand]
  | case3 s t depth stack ih =>
    rw [ih, List.flatMap_cons]
    simp [Event.apply, Event.expand]

/-- A walk over a node is the fold over its events. -/
theorem walk_node (listener : Listener σ) (s : σ) (k : NodeKind) (span : Span)
    (cs : List Tree) :
    walk listener s (.node k span cs) =
      (events 1 (.node k span cs)).foldl (Event.apply listener) s := by
  rw [walk, run_eq_foldl]
  simp [Event.expand]

end Stylometry.Tree
