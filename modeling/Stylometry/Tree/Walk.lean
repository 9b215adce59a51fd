-- Walks over the nodes of a tree. A walk enters each node before the nodes below it and
-- leaves it after them. It runs on a stack of steps, so a deep tree needs no deep calls.
import Stylometry.Tree.Basic

namespace Stylometry

/-- What happens to a listener when the walk enters and leaves a node at a depth. -/
structure Listener (σ : Type) where
  enter : σ → Tree → Nat → σ
  leave : σ → Tree → Nat → σ

namespace Tree

/-! ## Events -/

/-- One event of a walk. -/
inductive Event where
  | enter (t : Tree) (depth : Nat)
  | leave (t : Tree) (depth : Nat)

/-- What an event does to a listener. -/
def Event.apply (listener : Listener σ) (s : σ) : Event → σ
  | .enter t depth => listener.enter s t depth
  | .leave t depth => listener.leave s t depth

mutual
/-- The events of a walk over a tree at a depth, by recursion. -/
def events (depth : Nat) : Tree → List Event
  | .token _ => []
  | .node k s cs =>
    .enter (.node k s cs) depth :: (eventsAll (depth + 1) cs ++ [.leave (.node k s cs) depth])

/-- The events of walks over several trees, one after the other. -/
def eventsAll (depth : Nat) : List Tree → List Event
  | [] => []
  | c :: cs => events depth c ++ eventsAll depth cs
end

/-! ## The walk -/

/-- The work that an event on the stack stands for. -/
def Event.cost : Event → Nat
  | .enter t _ => 2 * t.size
  | .leave .. => 1

/-- The sum of the work of entering several nodes is twice their size. -/
theorem sum_cost_enter (cs : List Tree) (depth : Nat) :
    ((cs.map (Event.enter · depth)).map Event.cost).sum = 2 * sizeAll cs := by
  induction cs with
  | nil => simp
  | cons c cs ih =>
    simp only [List.map_cons, List.sum_cons, ih, Event.cost, sizeAll_cons]
    omega

/-- Runs the events on the stack, the top first. To enter a node puts the nodes below it
and its leaving on top. -/
def run (listener : Listener σ) (s : σ) : List Event → σ
  | [] => s
  | .enter t depth :: stack =>
    run listener (listener.enter s t depth)
      (t.nodes.map (Event.enter · (depth + 1)) ++ .leave t depth :: stack)
  | .leave t depth :: stack => run listener (listener.leave s t depth) stack
termination_by stack => (stack.map Event.cost).sum
decreasing_by
  · have h := sizeAll_filter_le isNode t.children
    have h' := sizeAll_children_lt t
    have h'' := sum_cost_enter t.nodes (depth + 1)
    simp only [nodes] at h''
    simp only [List.map_append, List.map_cons, List.sum_append, List.sum_cons, Event.cost, nodes]
    omega
  · simp [Event.cost]

/-- Walks over a node and all nodes below it. The node itself has depth one. -/
def walk (listener : Listener σ) (s : σ) (root : Tree) : σ := run listener s [.enter root 1]

/-! ## Preorder lists -/

mutual
/-- The tree and all trees below it in preorder, each with its depth. -/
def preorder (depth : Nat) : Tree → List (Nat × Tree)
  | .token t => [(depth, .token t)]
  | .node k s cs => (depth, .node k s cs) :: preorderAll (depth + 1) cs

/-- The same for several trees, one after the other. -/
def preorderAll (depth : Nat) : List Tree → List (Nat × Tree)
  | [] => []
  | c :: cs => preorder depth c ++ preorderAll depth cs
end

/-- The trees that a preorder list of things at depths describes. The children of a thing
are what follows it at a greater depth. -/
def nest (make : α → List β → β) (entries : List (Nat × α)) : List β :=
  (entries.foldr step []).map (·.2)
where
  /-- Puts one thing before the trees of the later ones and takes up its children. -/
  step (entry : Nat × α) (later : List (Nat × β)) : List (Nat × β) :=
    let (below, rest) := later.span fun tree => entry.1 < tree.1
    (entry.1, make entry.2 (below.map (·.2))) :: rest

end Tree
end Stylometry
