-- What a walk counts, told without the walk: numbers of nodes and tokens of the whole tree, and
-- the largest numbers on a path from the root down.
import Mathlib.Data.List.Perm.Basic
import Stylometry.Proofs.Leaves
import Stylometry.Proofs.OpenNodes

namespace Stylometry

/-! ## Nodes and paths -/

namespace Tree

/-- All nodes of a tree, in preorder. -/
def allNodes (t : Tree) : List Tree := (t.placed []).map (·.tree)

mutual
/-- The paths from a node down, each to one of the nodes. -/
def paths : Tree → List (List Tree)
  | .token _ => []
  | .node k s cs => [.node k s cs] :: (pathsAll cs).map (.node k s cs :: ·)

/-- The paths from several trees down. -/
def pathsAll : List Tree → List (List Tree)
  | [] => []
  | c :: cs => c.paths ++ pathsAll cs
end

@[simp] theorem paths_token (t : Token) : paths (.token t) = [] := by rw [paths]

@[simp] theorem paths_node (k : NodeKind) (s : Span) (cs : List Tree) :
    paths (.node k s cs) = [.node k s cs] :: (pathsAll cs).map (.node k s cs :: ·) := by
  rw [paths]

@[simp] theorem pathsAll_nil : pathsAll [] = [] := by rw [pathsAll]

@[simp] theorem pathsAll_cons (c : Tree) (cs : List Tree) :
    pathsAll (c :: cs) = c.paths ++ pathsAll cs := by rw [pathsAll]

/-- The number of nodes that are of one of the kinds. -/
def countKinds (ks : List NodeKind) (t : Tree) : Nat := t.allNodes.countP (·.kind ∈ ks)

mutual
/-- Every node and token but the root is right below one node. -/
theorem sum_length_children : ∀ (t : Tree) (a : List Nat),
    ((t.placed a).map (·.tree.children.length)).sum + 1 = t.leaves.length + (t.placed a).length
  | .token t, a => by simp
  | .node k s cs, a => by
    have hall := sum_length_childrenAll cs a 0
    have hlength : (Tree.node k s cs).children.length = cs.length := rfl
    rw [placed_node, List.map_cons, List.sum_cons, List.length_cons, leaves_node, hlength]
    omega

theorem sum_length_childrenAll : ∀ (cs : List Tree) (a : List Nat) (i : Nat),
    ((placedAll a i cs).map (·.tree.children.length)).sum + cs.length =
      (leavesAll cs).length + (placedAll a i cs).length
  | [], a, i => by simp
  | c :: cs, a, i => by
    have hc := sum_length_children c (a ++ [i])
    have hcs := sum_length_childrenAll cs a (i + 1)
    rw [placedAll_cons, List.map_append, List.sum_append, List.length_append, leavesAll_cons,
      List.length_append, List.length_cons]
    omega
end

/-- The tokens among some trees. -/
def looseTokens (cs : List Tree) : List Token :=
  cs.filterMap fun
    | .token t => some t
    | .node .. => none

mutual
/-- Every token is right below one node, or stands alone. -/
theorem perm_leaves : ∀ (t : Tree) (a : List Nat),
    (looseTokens [t] ++ (t.placed a).flatMap (·.tree.tokens)).Perm t.leaves
  | .token t, a => by
    rw [placed_token, leaves_token]
    exact .refl _
  | .node k s cs, a => by
    rw [placed_node, leaves_node]
    exact perm_leavesAll cs a 0

theorem perm_leavesAll : ∀ (cs : List Tree) (a : List Nat) (i : Nat),
    (looseTokens cs ++ (placedAll a i cs).flatMap (·.tree.tokens)).Perm (leavesAll cs)
  | [], a, i => by
    rw [placedAll_nil, leavesAll_nil]
    exact .nil
  | c :: cs, a, i => by
    have hc := perm_leaves c (a ++ [i])
    have hcs := perm_leavesAll cs a (i + 1)
    have hloose : looseTokens (c :: cs) = looseTokens [c] ++ looseTokens cs := by
      rw [← List.singleton_append, looseTokens, List.filterMap_append]
      rfl
    rw [placedAll_cons, List.flatMap_append, leavesAll_cons, hloose]
    refine List.Perm.trans ?_ (hc.append hcs)
    rw [List.append_assoc, List.append_assoc]
    refine List.Perm.append_left _ ?_
    rw [← List.append_assoc, ← List.append_assoc]
    exact List.perm_append_comm.append_right _
end

theorem perm_tokens (k : NodeKind) (s : Span) (cs : List Tree) :
    ((Tree.node k s cs).allNodes.flatMap tokens).Perm (Tree.node k s cs).leaves := by
  have h := perm_leaves (.node k s cs) []
  rw [allNodes, List.flatMap_map]
  exact h

theorem length_text (t : Tree) (h : t.isNode = true) :
    t.text.length = (t.leaves.map (·.text.length)).sum := by
  cases t with
  | token t => cases h
  | node k s cs =>
    rw [text_eq_leaves, leaves_node, List.length_flatMap]
    rfl

end Tree

/-! ## What is counted where a node is entered -/

namespace Tally

theorem afterTokens_append (s : Tally) (ts us : List Token) :
    s.afterTokens (ts ++ us) = (s.afterTokens ts).afterTokens us := by
  rw [← foldl_addToken, ← foldl_addToken, ← foldl_addToken, List.foldl_append]

/-- The tally after some nodes were entered, as far as it does not matter where they stand and
in which context. -/
def afterNodes (s : Tally) (ts : List Tree) : Tally :=
  { s.afterTokens (ts.flatMap Tree.tokens) with
    nodes := s.nodes + ts.countP (!·.children.isEmpty)
    children := s.children + (ts.map (·.children.length)).sum
    flowControl := s.flowControl + ts.countP (·.kind.isFlow)
    conditionalBranches := s.conditionalBranches + ts.countP (·.kind ∈ [.LogicalAnd, .LogicalOr])
    jumps := s.jumps + ts.countP (·.kind ∈ [.Jump])
    parameters :=
      s.parameters + ((ts.filter (·.kind = .ParameterClause)).map (·.nodes.length)).sum
    rightShifts := s.rightShifts + ts.countP (·.kind ∈ [.RightShift])
    rightShiftAssigns := s.rightShiftAssigns + ts.countP (·.kind ∈ [.RightShiftAssign])
    characters :=
      ((ts.filter (·.kind = .TranslationUnit)).getLast?.map (·.text.length)).getD s.characters }

/-- The part of a tally that only the entered nodes change, wherever they stand. -/
def counts (s : Tally) : Tally :=
  { s with
    functions := 0
    openBlocks := []
    maxBlockDepth := 0
    maxTreeDepth := 0
    operators := []
    operands := []
    context := .idle }

theorem counts_leave (s : Tally) (t : Tree) (depth : Nat) :
    (s.leave t depth).counts = s.counts := by
  rw [leave_eq]
  rfl

theorem counts_enter (s : Tally) (t : Tree) (depth : Nat) (ts : List Tree) :
    (s.enter t depth).counts.afterNodes ts = s.counts.afterNodes (t :: ts) := by
  have htokens : s.counts.afterTokens ((t :: ts).flatMap Tree.tokens) =
      (s.counts.afterTokens t.tokens).afterTokens (ts.flatMap Tree.tokens) := by
    rw [List.flatMap_cons, afterTokens_append]
  have hkinds : ∀ (ks : List NodeKind) (n : Nat),
      n + (if t.kind ∈ ks then 1 else 0) + ts.countP (·.kind ∈ ks) =
        n + (t :: ts).countP (·.kind ∈ ks) := by
    intro ks n
    simp only [List.countP_cons, decide_eq_true_eq]
    omega
  rw [enter_eq, afterNodes, afterNodes, htokens]
  simp only [counts, afterEnter, afterKind, afterTokens, hits, Tally.mk.injEq, true_and, and_true]
  refine ⟨?_, ?_, hkinds _ _, ?_, hkinds _ _, ?_, ?_, hkinds _ _, hkinds _ _⟩
  · rw [List.countP_cons]
    cases t.children.isEmpty <;> simp [Nat.add_assoc, Nat.add_comm]
  · rw [List.map_cons, List.sum_cons, Nat.add_assoc]
  · rw [List.countP_cons]
    omega
  · by_cases h : t.kind = .ParameterClause
    · simp [h, Nat.add_assoc]
    · simp [h]
  · by_cases h : t.kind = .TranslationUnit
    · cases hlast : (ts.filter fun t => t.kind = .TranslationUnit).getLast? <;>
        simp [h, hlast, List.getLast?_cons]
    · simp [h]

theorem counts_afterSteps (s : Tally) (es : List Step) :
    (s.afterSteps es).counts = s.counts.afterNodes ((Step.entered es).map (·.tree)) := by
  induction es generalizing s with
  | nil => simp [afterSteps, Step.entered, afterNodes, afterTokens, namesIn, Occurrences.bumpAll]
  | cons e es ih =>
    cases e with
    | enter x =>
      rw [afterSteps_enter, ih, counts_enter]
      rfl
    | leave x =>
      rw [afterSteps_leave, ih, counts_leave]
      rfl

/-- A function is counted when it is left. -/
theorem functions_afterSteps (s : Tally) (es : List Step) :
    (s.afterSteps es).functions =
      s.functions + (Step.left es).countP (·.tree.kind = .FunctionDefinition) := by
  induction es generalizing s with
  | nil => rfl
  | cons e es ih =>
    cases e with
    | enter x =>
      rw [afterSteps_enter, ih, enter_eq]
      rfl
    | leave x =>
      rw [afterSteps_leave, ih, leave_eq, Step.left_leave, List.countP_cons]
      simp only [afterLeave, hits, List.mem_singleton, decide_eq_true_eq]
      omega

/-! ## The longest ways down -/

theorem maxBlockDepth_enter (s : Tally) (t : Tree) (depth : Nat) :
    (s.enter t depth).maxBlockDepth =
      if t.kind.isBlock then max s.maxBlockDepth (s.openBlocks.length + 1)
      else s.maxBlockDepth := by
  rw [enter_eq]
  rfl

theorem maxBlockDepth_leave (s : Tally) (t : Tree) (depth : Nat) :
    (s.leave t depth).maxBlockDepth = s.maxBlockDepth := by
  rw [leave_eq]
  rfl

theorem maxTreeDepth_enter (s : Tally) (t : Tree) (depth : Nat) :
    (s.enter t depth).maxTreeDepth = max s.maxTreeDepth depth := by
  rw [enter_eq]
  rfl

theorem maxTreeDepth_leave (s : Tally) (t : Tree) (depth : Nat) :
    (s.leave t depth).maxTreeDepth = s.maxTreeDepth := by
  rw [leave_eq]
  rfl

mutual
/-- Where the open blocks are no deeper than the deepest so far, every path that is added to
them counts for the depths. The blocks are closed again. -/
theorem depths_events : ∀ (t : Tree) (depth : Nat) (s : Tally),
    s.openBlocks.length ≤ s.maxBlockDepth →
    (s.follow (t.events (depth + 1))).openBlocks = s.openBlocks ∧
      (s.follow (t.events (depth + 1))).maxBlockDepth =
        (t.paths.map fun p => s.openBlocks.length + p.countP (·.kind.isBlock)).foldl max
          s.maxBlockDepth ∧
      (s.follow (t.events (depth + 1))).maxTreeDepth =
        (t.paths.map fun p => depth + p.length).foldl max s.maxTreeDepth
  | .token t, depth, s, h => by simp
  | .node k span cs, depth, s, h => by
    let t := Tree.node k span cs
    obtain ⟨b, hb⟩ : ∃ b, (if t.kind.isBlock then 1 else 0) = b := ⟨_, rfl⟩
    have hopen : (s.enter t (depth + 1)).openBlocks.length = s.openBlocks.length + b := by
      rw [openBlocks_enter, ← hb]
      split <;> rfl
    have hdeep : (s.enter t (depth + 1)).maxBlockDepth =
        max s.maxBlockDepth (s.openBlocks.length + b) := by
      rw [maxBlockDepth_enter, ← hb]
      split
      · rfl
      · exact (Nat.max_eq_left h).symm
    have hcount : ∀ p : List Tree,
        (t :: p).countP (·.kind.isBlock) = b + p.countP (·.kind.isBlock) := by
      intro p
      rw [List.countP_cons, hb, Nat.add_comm]
    obtain ⟨hblocks, hblock, htree⟩ := depths_eventsAll cs (depth + 1) (s.enter t (depth + 1))
      (by rw [hopen, hdeep]; exact Nat.le_max_right _ _)
    rw [Tree.events_node, follow_enter, follow_append, follow_leave, follow_nil,
      openBlocks_leave, maxBlockDepth_leave, maxTreeDepth_leave, hblocks, hblock, htree, hopen,
      hdeep, maxTreeDepth_enter, openBlocks_enter, Tree.paths_node]
    refine ⟨?_, ?_, ?_⟩
    · split <;> rfl
    · rw [List.map_cons, List.foldl_cons, List.map_map, hcount []]
      have hpaths : (fun p => s.openBlocks.length + p.countP (·.kind.isBlock)) ∘ (t :: ·) =
          fun p => s.openBlocks.length + b + p.countP (·.kind.isBlock) := by
        funext p
        rw [Function.comp_apply, hcount, Nat.add_assoc]
      rw [hpaths]
      rfl
    · rw [List.map_cons, List.foldl_cons, List.map_map]
      have hpaths : (fun p : List Tree => depth + p.length) ∘ (t :: ·) =
          fun p => depth + 1 + p.length := by
        funext p
        rw [Function.comp_apply, List.length_cons]
        omega
      rw [hpaths]
      rfl

theorem depths_eventsAll : ∀ (cs : List Tree) (depth : Nat) (s : Tally),
    s.openBlocks.length ≤ s.maxBlockDepth →
    (s.follow (Tree.eventsAll (depth + 1) cs)).openBlocks = s.openBlocks ∧
      (s.follow (Tree.eventsAll (depth + 1) cs)).maxBlockDepth =
        ((Tree.pathsAll cs).map fun p =>
          s.openBlocks.length + p.countP (·.kind.isBlock)).foldl max s.maxBlockDepth ∧
      (s.follow (Tree.eventsAll (depth + 1) cs)).maxTreeDepth =
        ((Tree.pathsAll cs).map fun p => depth + p.length).foldl max s.maxTreeDepth
  | [], depth, s, h => by simp
  | c :: cs, depth, s, h => by
    obtain ⟨hblocks, hblock, htree⟩ := depths_events c depth s h
    have hle : (s.follow (c.events (depth + 1))).openBlocks.length ≤
        (s.follow (c.events (depth + 1))).maxBlockDepth := by
      rw [hblocks, hblock, List.foldl_max]
      exact Nat.le_trans h (Nat.le_max_left _ _)
    obtain ⟨hblocks', hblock', htree'⟩ := depths_eventsAll cs depth _ hle
    rw [Tree.eventsAll_cons, follow_append, hblocks', hblock', htree', hblocks, hblock, htree,
      Tree.pathsAll_cons, List.map_append, List.map_append, List.foldl_append,
      List.foldl_append]
    exact ⟨rfl, rfl, rfl⟩
end

/-! ## The whole walk -/

/-- What a tally says of a whole tree, by the nodes, the paths and the tokens of the tree. -/
structure Totals (root : Tree) (s : Tally) : Prop where
  nodes : s.nodes = root.allNodes.countP (!·.children.isEmpty)
  children : s.children + 1 = root.leaves.length + root.allNodes.length
  nodes_le_children : s.nodes ≤ s.children
  openBlocks : s.openBlocks = []
  maxBlockDepth : (root.paths.map (·.countP (·.kind.isBlock))).max? = some s.maxBlockDepth
  maxTreeDepth : (root.paths.map (·.length)).max? = some s.maxTreeDepth
  functions : s.functions = root.countKinds [.FunctionDefinition]
  flowControl : s.flowControl = root.countKinds [.Selection, .Iteration]
  jumps : s.jumps = root.countKinds [.Jump]
  conditionalBranches : s.conditionalBranches = root.countKinds [.LogicalAnd, .LogicalOr]
  rightShifts : s.rightShifts = root.countKinds [.RightShift]
  rightShiftAssigns : s.rightShiftAssigns = root.countKinds [.RightShiftAssign]
  parameters : s.parameters =
    ((root.allNodes.filter (·.kind = .ParameterClause)).map (·.nodes.length)).sum
  identifiers : s.identifiers = root.leaves.countP isName
  identifierCharacters : s.identifierCharacters = ((namesIn root.leaves).map (·.length)).sum
  longestIdentifier : s.longestIdentifier = ((namesIn root.leaves).map (·.length)).max?.getD 0
  identifierOccurrences : s.identifierOccurrences.keys.Nodup ∧
    (∀ name, name ∈ s.identifierOccurrences.keys ↔ name ∈ namesIn root.leaves) ∧
    ∀ name, s.identifierOccurrences.count name = (namesIn root.leaves).countP (· = name)
  periods : s.periods = root.leaves.countP isPeriod
  parentheses : s.parentheses = root.leaves.countP isParenthesis
  /-- The last translation unit in preorder counts. -/
  characters : s.characters =
    ((root.allNodes.filter (·.kind = .TranslationUnit)).getLast?.map (·.text.length)).getD 0
  characters_of_root : root.kind = .TranslationUnit →
    (∀ t ∈ root.allNodes.tail, t.kind ≠ .TranslationUnit) →
    s.characters = (root.leaves.map (·.text.length)).sum

/-- The depths of a walk are those of the paths of the tree. -/
theorem depths_ofTree (k : NodeKind) (span : Span) (cs : List Tree) :
    let root := Tree.node k span cs
    (ofTree root).openBlocks = [] ∧
      (root.paths.map (·.countP (·.kind.isBlock))).max? = some (ofTree root).maxBlockDepth ∧
      (root.paths.map (·.length)).max? = some (ofTree root).maxTreeDepth := by
  intro root
  have hmax : ∀ f : List Tree → Nat,
      (root.paths.map f).max? = some ((root.paths.map f).foldl max 0) := by
    intro f
    rw [Tree.paths_node, List.map_cons, List.max?_cons', List.foldl_cons, Nat.zero_max]
  obtain ⟨hopen, hblock, htree⟩ := depths_events root 0 {} (Nat.le_refl 0)
  have hzero : ({} : Tally).openBlocks.length = 0 := rfl
  simp only [hzero, Nat.zero_add] at hblock htree
  rw [← ofTree_node] at hopen hblock htree
  refine ⟨hopen, ?_, ?_⟩
  · rw [hmax, hblock]
  · rw [hmax, htree]

/-- The names of a tally are those of some tokens, in any order. -/
theorem names_afterTokens {ts us : List Token} (h : ts.Perm us) :
    let s : Tally := afterTokens {} ts
    s.identifierCharacters = ((namesIn us).map (·.length)).sum ∧
      s.longestIdentifier = ((namesIn us).map (·.length)).max?.getD 0 ∧
      s.identifierOccurrences.keys.Nodup ∧
      (∀ name, name ∈ s.identifierOccurrences.keys ↔ name ∈ namesIn us) ∧
      ∀ name, s.identifierOccurrences.count name = (namesIn us).countP (· = name) := by
  intro s
  have hnames : (namesIn ts).Perm (namesIn us) := (h.filter isName).map Token.text
  have hlengths := hnames.map List.length
  have hoccurrences : s.identifierOccurrences = .ofList (namesIn ts) := rfl
  rw [hoccurrences]
  refine ⟨?_, ?_, Occurrences.nodup_keys_ofList _, ?_, ?_⟩
  · rw [← hlengths.sum_nat]
    exact Nat.zero_add _
  · have hfold : s.longestIdentifier = ((namesIn ts).map List.length).foldl max 0 := by
      rw [List.foldl_map]
      rfl
    rw [hfold, hlengths.foldl_eq, List.foldl_max]
    exact Nat.zero_max _
  · intro name
    rw [Occurrences.mem_keys_ofList, hnames.mem_iff]
  · intro name
    rw [Occurrences.count_ofList, hnames.countP_eq]

theorem countP_le_sum_children (ts : List Tree) :
    ts.countP (!·.children.isEmpty) ≤ (ts.map (·.children.length)).sum := by
  induction ts with
  | nil => exact Nat.le_refl 0
  | cons t ts ih =>
    rw [List.countP_cons, List.map_cons, List.sum_cons]
    cases hcs : t.children with
    | nil => simpa using ih
    | cons c cs =>
      simp only [List.isEmpty_cons, Bool.not_false, if_true, List.length_cons]
      omega

theorem characters_of_root {root : Tree} (hnode : root.isNode = true)
    (hkind : root.kind = .TranslationUnit)
    (htail : ∀ t ∈ root.allNodes.tail, t.kind ≠ .TranslationUnit) :
    ((root.allNodes.filter (·.kind = .TranslationUnit)).getLast?.map (·.text.length)).getD 0 =
      (root.leaves.map (·.text.length)).sum := by
  cases root with
  | token t => cases hnode
  | node k span cs =>
    obtain ⟨rest, hrest⟩ : ∃ rest, (Tree.node k span cs).allNodes = .node k span cs :: rest :=
      ⟨_, by rw [Tree.allNodes, Tree.placed_node]; rfl⟩
    rw [hrest, List.tail_cons] at htail
    have hnone : rest.filter (fun t => t.kind = .TranslationUnit) = [] := by
      rw [List.filter_eq_nil_iff]
      intro t ht
      simpa using htail t ht
    rw [hrest, List.filter_cons_of_pos (by simpa using hkind), hnone, ← Tree.length_text _ hnode]
    rfl

theorem ofTree_eq_afterSteps (k : NodeKind) (span : Span) (cs : List Tree) :
    ofTree (.node k span cs) = afterSteps {} ((Tree.node k span cs).steps []) := by
  rw [ofTree_node, afterSteps, Tree.map_event_steps]
  rfl

theorem counts_ofTree (k : NodeKind) (span : Span) (cs : List Tree) :
    (ofTree (.node k span cs)).counts = afterNodes {} (Tree.node k span cs).allNodes := by
  rw [ofTree_eq_afterSteps, counts_afterSteps, Tree.entered_steps]
  rfl

theorem functions_ofTree (k : NodeKind) (span : Span) (cs : List Tree) :
    (ofTree (.node k span cs)).functions =
      (Tree.node k span cs).countKinds [.FunctionDefinition] := by
  unfold Tree.countKinds Tree.allNodes
  rw [ofTree_eq_afterSteps, functions_afterSteps, (Tree.left_steps _ []).countP_eq,
    List.countP_map]
  simp only [List.mem_singleton]
  exact Nat.zero_add _

theorem countP_isFlow (root : Tree) :
    root.allNodes.countP (·.kind.isFlow) = root.countKinds [.Selection, .Iteration] := by
  have hflow : (fun t : Tree => t.kind.isFlow) =
      fun t => decide (t.kind ∈ [.Selection, .Iteration]) := by
    funext t
    cases t.kind <;> rfl
  rw [hflow]
  rfl

/-- After every event of a walk the open blocks are the blocks among the nodes that are entered
and not left, and at the end the tally is the totals of the tree. -/
theorem totals_of_walk (k : NodeKind) (span : Span) (cs : List Tree) :
    let root := Tree.node k span cs
    (∃ log, root.walk trail ({}, []) = (ofTree root, log) ∧
      log.length = (root.steps []).length ∧
      ∀ n s, log[n]? = some s → s.openBlocks = Step.openBlocks ((root.steps []).take (n + 1))) ∧
      Totals root (ofTree root) := by
  intro root
  refine ⟨openBlocks_walk k span cs, ?_⟩
  have hcounts := counts_ofTree k span cs
  obtain ⟨hopen, hblock, htree⟩ := depths_ofTree k span cs
  have htokens := Tree.perm_tokens k span cs
  obtain ⟨hcharacters, hlongest, hnodup, hmem, hcount⟩ := names_afterTokens htokens
  have hnodes : (ofTree root).nodes = root.allNodes.countP (!·.children.isEmpty) :=
    (congrArg Tally.nodes hcounts).trans (Nat.zero_add _)
  have hchildren : (ofTree root).children = (root.allNodes.map (·.children.length)).sum :=
    (congrArg Tally.children hcounts).trans (Nat.zero_add _)
  have hoccurrences := congrArg Tally.identifierOccurrences hcounts
  have hunits := congrArg Tally.characters hcounts
  -- a number of the tally starts at zero, and each token stands right below one node
  have hkinds : ∀ {n m : Nat}, n = 0 + m → n = m := fun h => h.trans (Nat.zero_add _)
  have hleaves : ∀ {n : Nat} (p : Token → Bool),
      n = 0 + (root.allNodes.flatMap Tree.tokens).countP p → n = root.leaves.countP p := by
    intro n p h
    rw [h, htokens.countP_eq, Nat.zero_add]
  exact {
    nodes := hnodes
    children := by
      have hsum := Tree.sum_length_children root []
      rw [hchildren, Tree.allNodes, List.length_map, List.map_map]
      exact hsum
    nodes_le_children := by
      rw [hnodes, hchildren]
      exact countP_le_sum_children _
    openBlocks := hopen
    maxBlockDepth := hblock
    maxTreeDepth := htree
    functions := functions_ofTree k span cs
    flowControl := by
      rw [← countP_isFlow]
      exact hkinds (congrArg Tally.flowControl hcounts)
    jumps := hkinds (congrArg Tally.jumps hcounts)
    conditionalBranches := hkinds (congrArg Tally.conditionalBranches hcounts)
    rightShifts := hkinds (congrArg Tally.rightShifts hcounts)
    rightShiftAssigns := hkinds (congrArg Tally.rightShiftAssigns hcounts)
    parameters := hkinds (congrArg Tally.parameters hcounts)
    identifiers := hleaves isName (congrArg Tally.identifiers hcounts)
    identifierCharacters := (congrArg Tally.identifierCharacters hcounts).trans hcharacters
    longestIdentifier := (congrArg Tally.longestIdentifier hcounts).trans hlongest
    identifierOccurrences := hoccurrences ▸ ⟨hnodup, hmem, hcount⟩
    periods := hleaves isPeriod (congrArg Tally.periods hcounts)
    parentheses := hleaves isParenthesis (congrArg Tally.parentheses hcounts)
    characters := hunits
    characters_of_root := fun hkind htail =>
      hunits.trans (characters_of_root rfl hkind htail) }

end Tally

end Stylometry
