-- Trees without their places. A walk counts the kinds and the texts of a tree and never reads a
-- span or a position, so two trees that differ in these only have one tally.
import Stylometry.Proofs.Leaves

namespace Stylometry

/-- The token in no source. -/
def Token.bare (t : Token) : Token := { t with position := .zero }

namespace Tree

/-! ## Trees in no source -/

mutual
/-- The tree with every span and position put to zero. -/
def bare : Tree → Tree
  | .token t => .token t.bare
  | .node k _ cs => .node k .zero (bareAll cs)

/-- The same for several trees. -/
def bareAll : List Tree → List Tree
  | [] => []
  | c :: cs => c.bare :: bareAll cs
end

@[simp] theorem bare_token (t : Token) : bare (.token t) = .token t.bare := by rw [bare]

theorem bareAll_eq_map (cs : List Tree) : bareAll cs = cs.map bare := by
  induction cs with
  | nil => rw [bareAll, List.map_nil]
  | cons c cs ih => rw [bareAll, ih, List.map_cons]

@[simp] theorem bare_node (k : NodeKind) (s : Span) (cs : List Tree) :
    bare (.node k s cs) = .node k .zero (cs.map bare) := by
  rw [bare, bareAll_eq_map]

@[simp] theorem kind_bare (t : Tree) : t.bare.kind = t.kind := by
  cases t with
  | token t => rw [bare_token, kind, kind]
  | node k s cs => rw [bare_node, kind, kind]

@[simp] theorem children_bare (t : Tree) : t.bare.children = t.children.map bare := by
  cases t with
  | token t => rw [bare_token, children, children, List.map_nil]
  | node k s cs => rw [bare_node, children, children]

theorem isNode_bare (t : Tree) : t.bare.isNode = t.isNode := by
  cases t with
  | token t => rw [bare_token, isNode, isNode]
  | node k s cs => rw [bare_node, isNode, isNode]

theorem nodes_bare (t : Tree) : t.bare.nodes = t.nodes.map bare := by
  have hnode : isNode ∘ bare = isNode := funext isNode_bare
  rw [nodes, children_bare, List.filter_map, hnode, nodes]

theorem tokens_bare (t : Tree) : t.bare.tokens = t.tokens.map Token.bare := by
  unfold tokens
  rw [children_bare, List.filterMap_map, List.map_filterMap]
  congr 1
  funext c
  cases c with
  | token t => simp
  | node k s cs => simp

mutual
theorem leaves_bare : ∀ t : Tree, t.bare.leaves = t.leaves.map Token.bare
  | .token t => by simp
  | .node k s cs => by rw [bare_node, leaves_node, leaves_node, leavesAll_map_bare cs]

theorem leavesAll_map_bare : ∀ cs : List Tree,
    leavesAll (cs.map bare) = (leavesAll cs).map Token.bare
  | [] => by simp
  | c :: cs => by
    rw [List.map_cons, leavesAll_cons, leavesAll_cons, List.map_append, leaves_bare c,
      leavesAll_map_bare cs]
end

theorem text_bare (t : Tree) : t.bare.text = t.text := by
  rw [text_eq_leaves, text_eq_leaves, children_bare, leavesAll_map_bare, List.flatMap_map]
  rfl

end Tree

/-! ## Their tallies -/

namespace Tally

theorem foldl_addToken_bare (s : Tally) (ts : List Token) :
    (ts.map Token.bare).foldl addToken s = ts.foldl addToken s := by
  rw [List.foldl_map]
  rfl

theorem declaredName?_bare (t : Tree) : declaredName? t.bare = declaredName? t := by
  unfold declaredName?
  rw [Tree.nodes_bare]
  cases t.nodes with
  | nil => rfl
  | cons first rest => simp [Tree.text_bare]

theorem addKind_bare (s : Tally) (t : Tree) : s.addKind t.bare = s.addKind t := by
  unfold addKind
  rw [Tree.kind_bare, Tree.text_bare, Tree.nodes_bare, List.length_map, declaredName?_bare]

theorem enter_bare (s : Tally) (t : Tree) (depth : Nat) :
    s.enter t.bare depth = s.enter t depth := by
  have hshape : s.addShape t.bare depth = s.addShape t depth := by
    unfold addShape
    rw [Tree.children_bare, Tree.tokens_bare, foldl_addToken_bare, List.length_map,
      List.isEmpty_map]
  unfold enter
  dsimp only
  rw [hshape, Tree.kind_bare, addKind_bare]

theorem leave_bare (s : Tally) (t : Tree) (depth : Nat) :
    s.leave t.bare depth = s.leave t depth := by
  unfold leave
  rw [Tree.kind_bare]

mutual
theorem events_bare : ∀ (t : Tree) (depth : Nat) (s : Tally),
    s.follow (t.bare.events depth) = s.follow (t.events depth)
  | .token t, depth, s => by simp
  | .node k span cs, depth, s => by
    have henter := enter_bare s (.node k span cs) depth
    have hleave := fun s' => leave_bare s' (.node k span cs) depth
    rw [Tree.bare_node] at henter hleave
    rw [Tree.bare_node, Tree.events_node, Tree.events_node, follow_enter, follow_enter,
      follow_append, follow_append, follow_leave, follow_leave, henter,
      eventsAll_bare cs, hleave]

theorem eventsAll_bare : ∀ (cs : List Tree) (depth : Nat) (s : Tally),
    s.follow (Tree.eventsAll depth (cs.map Tree.bare)) = s.follow (Tree.eventsAll depth cs)
  | [], depth, s => by rw [List.map_nil]
  | c :: cs, depth, s => by
    rw [List.map_cons, Tree.eventsAll_cons, Tree.eventsAll_cons, follow_append, follow_append,
      events_bare c, eventsAll_bare cs]
end

/-- A tally reads no place. -/
theorem ofTree_bare (k : NodeKind) (span : Span) (cs : List Tree) :
    ofTree (Tree.node k span cs).bare = ofTree (.node k span cs) := by
  have hevents := events_bare (.node k span cs) 1 {}
  rw [Tree.bare_node] at hevents ⊢
  rw [ofTree_node, ofTree_node, hevents]

end Tally
end Stylometry
