-- The nodes that a walk has entered and not left. A step of a walk names its node by the
-- address, so what is open can be told from the steps alone: a node is open when it is among
-- the entered ones and its address is not among those that were left.
import Stylometry.Proofs.Addresses
import Stylometry.Proofs.TallySteps

namespace Stylometry

/-- One step of a walk. -/
inductive Step where
  | enter (x : Placed)
  | leave (x : Placed)

namespace Step

/-- The event of a step. The root has the empty address and depth one. -/
def event : Step → Tree.Event
  | .enter x => .enter x.tree (x.address.length + 1)
  | .leave x => .leave x.tree (x.address.length + 1)

def entered? : Step → Option Placed
  | .enter x => some x
  | .leave _ => none

def left? : Step → Option Placed
  | .enter _ => none
  | .leave x => some x

/-- The nodes that some steps enter, in order. -/
def entered (es : List Step) : List Placed := es.filterMap entered?

/-- The nodes that some steps leave, in order. -/
def left (es : List Step) : List Placed := es.filterMap left?

/-- The nodes that some steps enter and do not leave, in the order in which they are entered. -/
def openNodes (es : List Step) : List Placed :=
  (entered es).filter fun x => x.address ∉ (left es).map (·.address)

/-- The kinds of the blocks among the open nodes, the innermost first. -/
def openBlocks (es : List Step) : List NodeKind :=
  ((openNodes es).reverse.map (·.tree.kind)).filter NodeKind.isBlock

@[simp] theorem entered_enter (x : Placed) (es : List Step) :
    entered (.enter x :: es) = x :: entered es := rfl

@[simp] theorem entered_leave (x : Placed) (es : List Step) :
    entered (.leave x :: es) = entered es := rfl

@[simp] theorem left_enter (x : Placed) (es : List Step) : left (.enter x :: es) = left es := rfl

@[simp] theorem left_leave (x : Placed) (es : List Step) :
    left (.leave x :: es) = x :: left es := rfl

theorem entered_append (es fs : List Step) : entered (es ++ fs) = entered es ++ entered fs :=
  List.filterMap_append

theorem left_append (es fs : List Step) : left (es ++ fs) = left es ++ left fs :=
  List.filterMap_append

end Step

/-! ## The steps of a tree -/

namespace Tree

mutual
/-- The steps of a walk over a tree with the given address. -/
def steps (address : List Nat) : Tree → List Step
  | .token _ => []
  | .node k s cs =>
    .enter ⟨address, .node k s cs⟩ ::
      (stepsAll address 0 cs ++ [.leave ⟨address, .node k s cs⟩])

/-- The steps of walks over the children from the `i`th on of the node with the given
address. -/
def stepsAll (address : List Nat) (i : Nat) : List Tree → List Step
  | [] => []
  | c :: cs => c.steps (address ++ [i]) ++ stepsAll address (i + 1) cs
end

@[simp] theorem steps_token (a : List Nat) (t : Token) : steps a (.token t) = [] := by rw [steps]

@[simp] theorem steps_node (a : List Nat) (k : NodeKind) (s : Span) (cs : List Tree) :
    steps a (.node k s cs) =
      .enter ⟨a, .node k s cs⟩ :: (stepsAll a 0 cs ++ [.leave ⟨a, .node k s cs⟩]) := by
  rw [steps]

@[simp] theorem stepsAll_nil (a : List Nat) (i : Nat) : stepsAll a i [] = [] := by rw [stepsAll]

@[simp] theorem stepsAll_cons (a : List Nat) (i : Nat) (c : Tree) (cs : List Tree) :
    stepsAll a i (c :: cs) = c.steps (a ++ [i]) ++ stepsAll a (i + 1) cs := by
  rw [stepsAll]

mutual
theorem map_event_steps : ∀ (t : Tree) (a : List Nat),
    (t.steps a).map Step.event = t.events (a.length + 1)
  | .token t, a => by simp
  | .node k s cs, a => by
    rw [steps_node, List.map_cons, List.map_append, map_event_stepsAll cs a 0, events_node]
    rfl

theorem map_event_stepsAll : ∀ (cs : List Tree) (a : List Nat) (i : Nat),
    (stepsAll a i cs).map Step.event = eventsAll (a.length + 2) cs
  | [], a, i => by simp
  | c :: cs, a, i => by
    rw [stepsAll_cons, List.map_append, map_event_steps c (a ++ [i]),
      map_event_stepsAll cs a (i + 1), eventsAll_cons, List.length_append, List.length_singleton]
end

mutual
/-- A walk enters the nodes in preorder. -/
theorem entered_steps : ∀ (t : Tree) (a : List Nat), Step.entered (t.steps a) = t.placed a
  | .token t, a => by
    rw [steps_token, placed_token]
    rfl
  | .node k s cs, a => by
    have hlast : Step.entered [.leave ⟨a, .node k s cs⟩] = [] := rfl
    rw [steps_node, Step.entered_enter, Step.entered_append, hlast, List.append_nil,
      entered_stepsAll cs a 0, placed_node]

theorem entered_stepsAll : ∀ (cs : List Tree) (a : List Nat) (i : Nat),
    Step.entered (stepsAll a i cs) = placedAll a i cs
  | [], a, i => by
    rw [stepsAll_nil, placedAll_nil]
    rfl
  | c :: cs, a, i => by
    rw [stepsAll_cons, Step.entered_append, entered_steps c, entered_stepsAll cs, placedAll_cons]
end

mutual
/-- A walk leaves every node once. -/
theorem left_steps : ∀ (t : Tree) (a : List Nat), (Step.left (t.steps a)).Perm (t.placed a)
  | .token t, a => by
    rw [steps_token, placed_token]
    exact .nil
  | .node k s cs, a => by
    have hlast : Step.left [.leave ⟨a, .node k s cs⟩] = [⟨a, .node k s cs⟩] := rfl
    rw [steps_node, Step.left_enter, Step.left_append, hlast, placed_node]
    exact List.perm_append_comm.trans ((left_stepsAll cs a 0).cons _)

theorem left_stepsAll : ∀ (cs : List Tree) (a : List Nat) (i : Nat),
    (Step.left (stepsAll a i cs)).Perm (placedAll a i cs)
  | [], a, i => by
    rw [stepsAll_nil, placedAll_nil]
    exact .nil
  | c :: cs, a, i => by
    rw [stepsAll_cons, Step.left_append, placedAll_cons]
    exact (left_steps c (a ++ [i])).append (left_stepsAll cs a (i + 1))
end

end Tree

/-! ## What is open on the way -/

namespace Step

/-- Steps that leave all that they enter do not matter for what later steps leave open. -/
theorem openNodes_append {es fs : List Step} (hes : (left es).Perm (entered es))
    (hfs : ∀ x ∈ entered fs, x.address ∉ (entered es).map (·.address)) :
    openNodes (es ++ fs) = openNodes fs := by
  unfold openNodes
  rw [entered_append, left_append, List.filter_append, List.map_append]
  have hnone : (entered es).filter
      (fun x => x.address ∉ (left es).map (·.address) ++ (left fs).map (·.address)) = [] := by
    rw [List.filter_eq_nil_iff]
    intro x hx hopen
    have hleft : x.address ∈ (left es).map (·.address) :=
      List.mem_map_of_mem (hes.mem_iff.2 hx)
    exact of_decide_eq_true hopen (List.mem_append_left _ hleft)
  rw [hnone, List.nil_append]
  apply List.filter_congr
  intro x hx
  have hno : x.address ∉ (left es).map (·.address) := by
    rw [(hes.map _).mem_iff]
    exact hfs x hx
  simp [hno]

theorem openNodes_of_left {es : List Step} (hes : (left es).Perm (entered es)) :
    openNodes es = [] := by
  have hnil : ∀ x ∈ entered [], x.address ∉ (entered es).map (·.address) := by simp [entered]
  have h := openNodes_append hes hnil
  rw [List.append_nil] at h
  exact h

/-- A node is open as long as it is not left. -/
theorem openNodes_enter {x : Placed} {es : List Step}
    (h : ∀ y ∈ left es, y.address ≠ x.address) :
    openNodes (.enter x :: es) = x :: openNodes es := by
  have hx : x.address ∉ (left es).map (·.address) := by
    intro hmem
    obtain ⟨y, hy, heq⟩ := List.mem_map.1 hmem
    exact h y hy heq
  exact List.filter_cons_of_pos (decide_eq_true hx)

theorem openBlocks_enter {x : Placed} {es : List Step}
    (h : ∀ y ∈ left es, y.address ≠ x.address) :
    openBlocks (.enter x :: es) =
      openBlocks es ++ if x.tree.kind.isBlock then [x.tree.kind] else [] := by
  rw [openBlocks, openNodes_enter h, List.reverse_cons, List.map_append, List.filter_append,
    openBlocks, List.map_singleton, List.filter_cons, List.filter_nil]

theorem openBlocks_of_left {es : List Step} (hes : (left es).Perm (entered es)) :
    openBlocks es = [] := by
  rw [openBlocks, openNodes_of_left hes]
  rfl

end Step

namespace Tree

/-- No step below a node leaves the node itself. -/
theorem address_ne_of_left {cs : List Tree} {a : List Nat} {i : Nat} {es fs : List Step}
    (h : stepsAll a i cs = es ++ fs) : ∀ y ∈ Step.left es, y.address ≠ a := by
  intro y hy heq
  have hmem : y ∈ Step.left (stepsAll a i cs) := by
    rw [h, Step.left_append]
    exact List.mem_append_left _ hy
  obtain ⟨j, -, hj⟩ := prefix_of_mem_placedAll cs a i y ((left_stepsAll cs a i).mem_iff.1 hmem)
  have := hj.length_le
  rw [heq, List.length_append, List.length_singleton] at this
  omega

theorem openNodes_stepsAll (cs : List Tree) (a : List Nat) (i : Nat) :
    Step.openNodes (stepsAll a i cs) = [] := by
  apply Step.openNodes_of_left
  rw [entered_stepsAll]
  exact left_stepsAll cs a i

/-- The steps of a child do not matter for what is open among the later children. -/
theorem openNodes_steps_append (c : Tree) {cs : List Tree} {a : List Nat} {i : Nat}
    {es fs : List Step} (h : stepsAll a (i + 1) cs = es ++ fs) :
    Step.openNodes (c.steps (a ++ [i]) ++ es) = Step.openNodes es := by
  have hleft := left_steps c (a ++ [i])
  rw [← entered_steps] at hleft
  apply Step.openNodes_append hleft
  intro x hx hmem
  obtain ⟨y, hy, heq⟩ := List.mem_map.1 hmem
  rw [entered_steps] at hy
  have hx' : x ∈ placedAll a (i + 1) cs := by
    rw [← entered_stepsAll, h, Step.entered_append]
    exact List.mem_append_left _ hx
  obtain ⟨j, hj, hprefix⟩ := prefix_of_mem_placedAll cs a (i + 1) x hx'
  have := child_eq_of_prefix (heq ▸ prefix_of_mem_placed c _ y hy) hprefix
  omega

end Tree

namespace Tally

/-- The tally after some steps. -/
def afterSteps (s : Tally) (es : List Step) : Tally := s.follow (es.map Step.event)

theorem afterSteps_enter (s : Tally) (x : Placed) (es : List Step) :
    s.afterSteps (.enter x :: es) = (s.enter x.tree (x.address.length + 1)).afterSteps es := rfl

theorem afterSteps_leave (s : Tally) (x : Placed) (es : List Step) :
    s.afterSteps (.leave x :: es) = (s.leave x.tree (x.address.length + 1)).afterSteps es := rfl

theorem afterSteps_append (s : Tally) (es fs : List Step) :
    s.afterSteps (es ++ fs) = (s.afterSteps es).afterSteps fs := by
  rw [afterSteps, List.map_append, follow_append]
  rfl

theorem openBlocks_enter (s : Tally) (t : Tree) (depth : Nat) :
    (s.enter t depth).openBlocks =
      if t.kind.isBlock then t.kind :: s.openBlocks else s.openBlocks := by
  rw [enter_eq]
  rfl

theorem openBlocks_leave (s : Tally) (t : Tree) (depth : Nat) :
    (s.leave t depth).openBlocks =
      if t.kind.isBlock then s.openBlocks.drop 1 else s.openBlocks := by
  rw [leave_eq]
  rfl

/-- To enter a node puts it below the blocks that are opened after it. -/
theorem openBlocks_afterSteps_enter {s : Tally} {x : Placed} {es : List Step}
    (hes : ∀ y ∈ Step.left es, y.address ≠ x.address)
    (h : ∀ s : Tally, (s.afterSteps es).openBlocks = Step.openBlocks es ++ s.openBlocks) :
    (s.afterSteps (.enter x :: es)).openBlocks =
      Step.openBlocks (.enter x :: es) ++ s.openBlocks := by
  rw [afterSteps_enter, h, openBlocks_enter, Step.openBlocks_enter hes, List.append_assoc]
  split <;> rfl

/-- A node that is left takes the block away that it put there. -/
theorem openBlocks_afterSteps_leave {s : Tally} {x : Placed} {es : List Step}
    (h : ∀ s : Tally, (s.afterSteps es).openBlocks = s.openBlocks) :
    (s.afterSteps (.enter x :: (es ++ [.leave x]))).openBlocks = s.openBlocks := by
  have hdone : ∀ s : Tally, s.afterSteps [] = s := fun s => rfl
  rw [afterSteps_enter, afterSteps_append, afterSteps_leave, hdone, openBlocks_leave, h,
    openBlocks_enter]
  split <;> rfl

mutual
/-- On the way through a tree the blocks of its open nodes stand on those from before. -/
theorem openBlocks_steps : ∀ (t : Tree) (a : List Nat) (s : Tally) (es fs : List Step),
    t.steps a = es ++ fs →
    (s.afterSteps es).openBlocks = Step.openBlocks es ++ s.openBlocks
  | .token t, a, s, es, fs, h => by
    rw [Tree.steps_token] at h
    obtain ⟨rfl, -⟩ := List.append_eq_nil_iff.1 h.symm
    rfl
  | .node k span cs, a, s, [], fs, h => rfl
  | .node k span cs, a, s, e :: es, fs, h => by
    have hleft := Tree.left_steps (.node k span cs) a
    rw [← Tree.entered_steps, h] at hleft
    rw [Tree.steps_node, List.cons_append, List.cons.injEq] at h
    obtain ⟨rfl, h⟩ := h
    have hinner : ∀ m, Tree.stepsAll a 0 cs = es ++ m →
        (s.afterSteps (.enter ⟨a, .node k span cs⟩ :: es)).openBlocks =
          Step.openBlocks (.enter ⟨a, .node k span cs⟩ :: es) ++ s.openBlocks :=
      fun m hm => openBlocks_afterSteps_enter (Tree.address_ne_of_left hm)
        fun s => openBlocks_stepsAll cs a 0 s es m hm
    rcases List.append_eq_append_iff.1 h with ⟨m, rfl, hm⟩ | ⟨m, hm, -⟩
    · cases m with
      | nil => exact hinner [] (by simp)
      | cons f m =>
        -- all steps are done
        obtain ⟨rfl, hnil⟩ := List.cons.inj hm
        obtain ⟨rfl, rfl⟩ := List.append_eq_nil_iff.1 hnil.symm
        rw [List.append_nil] at hleft
        rw [openBlocks_afterSteps_leave fun s => ?_, Step.openBlocks_of_left hleft,
          List.nil_append]
        have hall := openBlocks_stepsAll cs a 0 s (Tree.stepsAll a 0 cs) [] (by simp)
        rw [hall, Step.openBlocks, Tree.openNodes_stepsAll]
        rfl
    · exact hinner m hm

theorem openBlocks_stepsAll : ∀ (cs : List Tree) (a : List Nat) (i : Nat) (s : Tally)
    (es fs : List Step), Tree.stepsAll a i cs = es ++ fs →
    (s.afterSteps es).openBlocks = Step.openBlocks es ++ s.openBlocks
  | [], a, i, s, es, fs, h => by
    rw [Tree.stepsAll_nil] at h
    obtain ⟨rfl, -⟩ := List.append_eq_nil_iff.1 h.symm
    rfl
  | c :: cs, a, i, s, es, fs, h => by
    rw [Tree.stepsAll_cons] at h
    rcases List.append_eq_append_iff.1 h with ⟨m, rfl, hm⟩ | ⟨m, hm, -⟩
    · have hleft := Tree.left_steps c (a ++ [i])
      rw [← Tree.entered_steps] at hleft
      have hone := openBlocks_steps c (a ++ [i]) s (c.steps (a ++ [i])) [] (by simp)
      rw [afterSteps_append, openBlocks_stepsAll cs a (i + 1) _ m fs hm, hone,
        Step.openBlocks_of_left hleft, List.nil_append, Step.openBlocks,
        Step.openBlocks, Tree.openNodes_steps_append c hm]
    · exact openBlocks_steps c (a ++ [i]) s es m hm
end

/-! ## A walk that is watched -/

/-- Counts as ever and keeps the tally after every event. -/
def trail : Listener (Tally × List Tally) where
  enter s t depth := (s.1.enter t depth, s.2 ++ [s.1.enter t depth])
  leave s t depth := (s.1.leave t depth, s.2 ++ [s.1.leave t depth])

/-- The tallies after the events, one by one. -/
def tallies (s : Tally) : List Tree.Event → List Tally
  | [] => []
  | e :: es => e.apply listener s :: tallies (e.apply listener s) es

theorem foldl_trail (s : Tally) (log : List Tally) (es : List Tree.Event) :
    es.foldl (Tree.Event.apply trail) (s, log) = (s.follow es, log ++ tallies s es) := by
  induction es generalizing s log with
  | nil => simp [tallies]
  | cons e es ih =>
    have hstep : Tree.Event.apply trail (s, log) e =
        (e.apply listener s, log ++ [e.apply listener s]) := by
      cases e <;> rfl
    rw [List.foldl_cons, hstep, ih, tallies, List.append_assoc]
    rfl

theorem length_tallies (s : Tally) (es : List Tree.Event) :
    (tallies s es).length = es.length := by
  induction es generalizing s with
  | nil => rfl
  | cons e es ih => rw [tallies, List.length_cons, ih, List.length_cons]

theorem getElem?_tallies {s u : Tally} {es : List Tree.Event} {n : Nat}
    (h : (tallies s es)[n]? = some u) : u = s.follow (es.take (n + 1)) := by
  induction es generalizing s n with
  | nil => cases h
  | cons e es ih =>
    cases n with
    | zero => exact (Option.some.inj h).symm
    | succ n => exact ih h

/-- After every step of a walk the open blocks of the tally are the blocks among the nodes that
are entered and not left. -/
theorem openBlocks_walk (k : NodeKind) (span : Span) (cs : List Tree) :
    let root := Tree.node k span cs
    ∃ log, root.walk trail ({}, []) = (ofTree root, log) ∧
      log.length = (root.steps []).length ∧
      ∀ n s, log[n]? = some s → s.openBlocks = Step.openBlocks ((root.steps []).take (n + 1)) := by
  intro root
  have hevents : (root.steps []).map Step.event = root.events 1 := Tree.map_event_steps root []
  refine ⟨tallies {} (root.events 1), ?_, ?_, ?_⟩
  · rw [Tree.walk_node, foldl_trail, List.nil_append, ofTree_node]
  · rw [length_tallies, ← hevents, List.length_map]
  · intro n s hs
    rw [getElem?_tallies hs, ← hevents, ← List.map_take]
    have h := openBlocks_steps root [] {} ((root.steps []).take (n + 1))
      ((root.steps []).drop (n + 1)) (List.take_append_drop _ _).symm
    rw [show ({} : Tally).openBlocks = [] from rfl, List.append_nil] at h
    exact h

end Tally
end Stylometry
