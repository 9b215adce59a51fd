-- How the steps of a walk nest. The walk keeps its steps on a stack, and a text is gathered from a
-- stack of rows; both do what the recursion over the tree does. So a node is entered once and left
-- once, and what is left is always the node that was entered last among the open ones.
import Stylometry.Proofs.Leaves
import Stylometry.Proofs.OpenNodes

namespace Stylometry

variable {σ : Type}

namespace Tree

/-! ## The walk by recursion -/

mutual
/-- A walk by recursion: the node is entered, then comes what is below it, then it is left. -/
def descend (listener : Listener σ) (depth : Nat) (s : σ) : Tree → σ
  | .token _ => s
  | .node k span cs =>
    listener.leave
      (descendAll listener (depth + 1) (listener.enter s (.node k span cs) depth) cs)
      (.node k span cs) depth

/-- The walks over several trees, one after the other. -/
def descendAll (listener : Listener σ) (depth : Nat) (s : σ) : List Tree → σ
  | [] => s
  | c :: cs => descendAll listener depth (descend listener depth s c) cs
end

mutual
theorem foldl_events (listener : Listener σ) : ∀ (t : Tree) (depth : Nat) (s : σ),
    (t.events depth).foldl (Event.apply listener) s = descend listener depth s t
  | .token t, depth, s => by
    rw [events_token, descend]
    rfl
  | .node k span cs, depth, s => by
    rw [events_node, List.foldl_cons, List.foldl_append, foldl_eventsAll listener cs, descend]
    rfl

theorem foldl_eventsAll (listener : Listener σ) : ∀ (cs : List Tree) (depth : Nat) (s : σ),
    (eventsAll depth cs).foldl (Event.apply listener) s = descendAll listener depth s cs
  | [], depth, s => by
    rw [eventsAll_nil, descendAll]
    rfl
  | c :: cs, depth, s => by
    rw [eventsAll_cons, List.foldl_append, foldl_events listener c, foldl_eventsAll listener cs,
      descendAll]
end

/-- Writes down every event. -/
def recorder : Listener (List Event) where
  enter log t depth := log ++ [.enter t depth]
  leave log t depth := log ++ [.leave t depth]

theorem foldl_recorder (log es : List Event) :
    es.foldl (Event.apply recorder) log = log ++ es := by
  induction es generalizing log with
  | nil => rw [List.foldl_nil, List.append_nil]
  | cons e es ih =>
    have hstep : Event.apply recorder log e = log ++ [e] := by
      cases e <;> rfl
    rw [List.foldl_cons, hstep, ih, List.append_assoc]
    rfl

/-! ## The node that is left -/

/-- A thing in two lists that are joined is in the second list or in the first. -/
theorem cases_of_append_eq {α : Type} {l r es fs : List α} {x : α} (h : l ++ r = es ++ x :: fs) :
    (∃ m, es = l ++ m ∧ r = m ++ x :: fs) ∨ ∃ m, l = es ++ x :: m := by
  rcases List.append_eq_append_iff.1 h with ⟨m, hes, hr⟩ | ⟨m, hl, hx⟩
  · exact .inl ⟨m, hes, hr⟩
  · cases m with
    | nil => exact .inl ⟨[], by simpa using hl.symm, hx.symm⟩
    | cons f m =>
      obtain ⟨rfl, -⟩ := List.cons.inj hx
      exact .inr ⟨m, hl⟩

mutual
/-- The node that is left is the last one of the open nodes, in the order in which they were
entered. -/
theorem getLast?_openNodes : ∀ (t : Tree) (a : List Nat) (es : List Step) (x : Placed)
    (fs : List Step), t.steps a = es ++ .leave x :: fs → (Step.openNodes es).getLast? = some x
  | .token t, a, es, x, fs, h => by
    rw [steps_token] at h
    simp at h
  | .node k span cs, a, [], x, fs, h => by
    rw [steps_node] at h
    cases h
  | .node k span cs, a, e :: es, x, fs, h => by
    rw [steps_node, List.cons_append, List.cons.injEq] at h
    obtain ⟨rfl, h⟩ := h
    rcases cases_of_append_eq h with ⟨m, rfl, hm⟩ | ⟨m, hm⟩
    · -- the last step, when nothing below the node is open
      have hlast : m = [] ∧ x = ⟨a, .node k span cs⟩ := by
        cases m with
        | nil => exact ⟨rfl, (Step.leave.inj (List.cons.inj hm).1).symm⟩
        | cons f m => simp at hm
      obtain ⟨rfl, rfl⟩ := hlast
      have hall : stepsAll a 0 cs = stepsAll a 0 cs ++ [] := (List.append_nil _).symm
      rw [List.append_nil, Step.openNodes_enter (address_ne_of_left hall), openNodes_stepsAll]
      rfl
    · have hbelow := getLast?_openNodesAll cs a 0 es x m hm
      rw [Step.openNodes_enter (address_ne_of_left hm), List.getLast?_cons, hbelow]
      rfl

theorem getLast?_openNodesAll : ∀ (cs : List Tree) (a : List Nat) (i : Nat) (es : List Step)
    (x : Placed) (fs : List Step), stepsAll a i cs = es ++ .leave x :: fs →
    (Step.openNodes es).getLast? = some x
  | [], a, i, es, x, fs, h => by
    rw [stepsAll_nil] at h
    simp at h
  | c :: cs, a, i, es, x, fs, h => by
    rw [stepsAll_cons] at h
    rcases cases_of_append_eq h with ⟨m, rfl, hm⟩ | ⟨m, hm⟩
    · rw [openNodes_steps_append c hm]
      exact getLast?_openNodesAll cs a (i + 1) m x fs hm
    · exact getLast?_openNodes c (a ++ [i]) es x m hm
end

theorem length_steps (t : Tree) (a : List Nat) :
    (t.steps a).length = 2 * (t.placed a).length := by
  have hlength : ∀ es : List Step,
      es.length = (Step.entered es).length + (Step.left es).length := by
    intro es
    induction es with
    | nil => rfl
    | cons e es ih =>
      cases e with
      | enter x =>
        rw [Step.entered_enter, Step.left_enter, List.length_cons, List.length_cons, ih]
        omega
      | leave x =>
        rw [Step.entered_leave, Step.left_leave, List.length_cons, List.length_cons, ih]
        omega
  rw [hlength, entered_steps, (left_steps t a).length_eq]
  omega

/-- A walk does to any listener what the recursion over the tree does, from depth one on. What it
writes down are steps that enter each node once and leave it once, at one depth, and that leave the
node which was entered last among the open ones, until there are twice as many as nodes. The text of
the tree is made of the texts of its tokens in document order. -/
theorem walk_by_recursion (k : NodeKind) (span : Span) (cs : List Tree) :
    let root := Tree.node k span cs
    (∀ (σ : Type) (listener : Listener σ) (s : σ),
        root.walk listener s = descend listener 1 s root) ∧
      root.walk recorder [] = (root.steps []).map Step.event ∧
      (root.steps []).length = 2 * (root.placed []).length ∧
      Step.entered (root.steps []) = root.placed [] ∧
      (Step.left (root.steps [])).Perm (root.placed []) ∧
      ((root.placed []).map (·.address)).Nodup ∧
      (∀ es x fs, root.steps [] = es ++ .leave x :: fs →
        (Step.openNodes es).getLast? = some x) ∧
      root.text = root.leaves.flatMap Token.text := by
  intro root
  have hevents : (root.steps []).map Step.event = root.events 1 := map_event_steps root []
  refine ⟨?_, ?_, length_steps root [], entered_steps root [], left_steps root [],
    nodup_placed root [], getLast?_openNodes root [], ?_⟩
  · intro σ listener s
    rw [walk_node, foldl_events]
  · rw [walk_node, foldl_recorder, List.nil_append, hevents]
  · rw [text_eq_leaves, leaves_node]
    rfl

/-- The statement `return;`. -/
def ending : Tree :=
  .plain .Jump [.token (.synthetic (.keyword .Return)), .token (.synthetic (.punctuator .Semi))]

/-- The children of the function `f { return; }`. -/
def shortFunction : List Tree :=
  [.plain .Name [.token ⟨.identifier, ['f'], .zero⟩], .token (.synthetic (.punctuator .LeftBrace)),
    ending, .token (.synthetic (.punctuator .RightBrace))]

/-- The statement is left when it is the last open node. The name was left before it. -/
theorem walk_by_recursion_shortFunction :
    ∃ es fs, (plain .FunctionDefinition shortFunction).steps [] = es ++ .leave ⟨[2], ending⟩ :: fs ∧
      (Step.entered es).map (·.address) = [[], [0], [2]] ∧
      (Step.openNodes es).getLast? = some ⟨[2], ending⟩ ∧
      (plain .FunctionDefinition shortFunction).text = "f\x7breturn;\x7d".toList := by
  let steps := (plain .FunctionDefinition shortFunction).steps []
  have hsteps : steps = steps.take 4 ++ .leave ⟨[2], ending⟩ :: steps.drop 5 := rfl
  obtain ⟨-, -, -, -, -, -, hlast, htext⟩ :=
    walk_by_recursion .FunctionDefinition .zero shortFunction
  exact ⟨_, _, hsteps, rfl, hlast _ _ _ hsteps, htext.trans (by decide)⟩

end Tree
end Stylometry
