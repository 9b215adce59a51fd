-- What a walk over a converted tree counts, told by the parse tree. The nodes of the converted
-- tree are those of the nodes that are opened and those that their other children become, so each
-- number of a tally is a number of nodes of some grammar kinds.
import Stylometry.Proofs.ConversionTokens
import Stylometry.Proofs.WalkTotals

namespace Stylometry

/-! ## Nodes of several trees -/

namespace Tree

mutual
/-- The nodes below do not depend on the address. -/
theorem map_tree_placed : ∀ (t : Tree) (a : List Nat), (t.placed a).map (·.tree) = t.allNodes
  | .token t, a => by
    rw [allNodes, placed_token, placed_token]
  | .node k s cs, a => by
    rw [allNodes, placed_node, placed_node, List.map_cons, List.map_cons,
      map_tree_placedAll cs a 0, map_tree_placedAll cs [] 0]

theorem map_tree_placedAll : ∀ (cs : List Tree) (a : List Nat) (i : Nat),
    (placedAll a i cs).map (·.tree) = cs.flatMap allNodes
  | [], a, i => by
    rw [placedAll_nil]
    rfl
  | c :: cs, a, i => by
    rw [placedAll_cons, List.map_append, map_tree_placed c, map_tree_placedAll cs,
      List.flatMap_cons]
end

@[simp] theorem allNodes_token (t : Token) : (Tree.token t).allNodes = [] := by
  rw [allNodes, placed_token]
  rfl

@[simp] theorem allNodes_node (k : NodeKind) (s : Span) (cs : List Tree) :
    (Tree.node k s cs).allNodes = .node k s cs :: cs.flatMap allNodes := by
  rw [allNodes, placed_node, List.map_cons, map_tree_placedAll]

end Tree

namespace Grammar

/-! ## What the grammar kinds stand for -/

/-- The grammar kinds that stand for one kind of node each. -/
def namedKinds : List (String × NodeKind) :=
  [("translation_unit", .TranslationUnit), ("function_definition", .FunctionDefinition),
   ("function_declarator", .FunctionDeclarator), ("parameter_list", .ParameterClause),
   ("declaration", .Declaration), ("if_statement", .Selection), ("switch_statement", .Selection),
   ("for_statement", .Iteration), ("for_range_loop", .Iteration), ("while_statement", .Iteration),
   ("do_statement", .Iteration), ("try_statement", .TryBlock), ("catch_clause", .Handler),
   ("type_descriptor", .TypeSpecifierSeq), ("return_statement", .Jump), ("break_statement", .Jump),
   ("continue_statement", .Jump), ("goto_statement", .Jump), ("call_expression", .FunctionCall),
   ("argument_list", .ArgumentList)]

/-- The kind of node for a binary expression, by its operator. -/
def operatorKind (source : Text) (t : ParseTree) : NodeKind :=
  match (t.childByField? "operator").map (·.text source) with
  | some op =>
    if op = "&&".toList ∨ op = "and".toList then .LogicalAnd
    else if op = "||".toList ∨ op = "or".toList then .LogicalOr
    else .Expression
  | none => .Expression

/-- The kind of node for a grammar kind that does not stand for one. -/
def otherKind (source : Text) (t : ParseTree) : NodeKind :=
  if t.kind = "binary_expression" then operatorKind source t
  else if "_expression".toList.isSuffixOf t.kind.toList then .Expression
  else .Other

theorem nodeKind_eq (source : Text) (t : ParseTree) :
    nodeKind source t = (namedKinds.lookup t.kind).getD (otherKind source t) := by
  have hlookup : ∀ (name : String) (k d : NodeKind) (l : List (String × NodeKind)),
      (((name, k) :: l).lookup t.kind).getD d =
        if t.kind = name then k else (l.lookup t.kind).getD d := by
    intro name k d l
    rw [List.lookup_cons]
    split <;> simp_all
  have hmem : ∀ (name : String) (names : List String) (a b : NodeKind),
      (if t.kind ∈ name :: names then a else b) =
        if t.kind = name then a else if t.kind ∈ names then a else b := by
    intro name names a b
    by_cases h : t.kind = name <;> simp [h]
  have hnil : ∀ a b : NodeKind, (if t.kind ∈ ([] : List String) then a else b) = b :=
    fun a b => if_neg List.not_mem_nil
  have hempty : ∀ d, (List.lookup t.kind ([] : List (String × NodeKind))).getD d = d := fun d => rfl
  unfold nodeKind otherKind operatorKind
  cases (t.childByField? "operator").map (·.text source) with
  | none => simp only [namedKinds, hlookup, hmem, hnil, hempty]
  | some op =>
    simp only [namedKinds, hlookup, hmem, hnil, hempty]
    simp only [List.mem_cons, List.not_mem_nil, or_false]

theorem mem_of_lookup_namedKinds {s : String} {k : NodeKind} (h : namedKinds.lookup s = some k) :
    (s, k) ∈ namedKinds := by
  obtain ⟨front, back, hsplit, -⟩ := List.lookup_eq_some_iff.1 h
  rw [hsplit]
  exact List.mem_append_right _ (List.mem_cons_self ..)

theorem lookup_of_mem_namedKinds : ∀ e ∈ namedKinds, namedKinds.lookup e.1 = some e.2 := by
  decide

/-- Expressions and what has no kind of its own. -/
def looseKinds : List NodeKind := [.LogicalAnd, .LogicalOr, .Expression, .Other]

theorem otherKind_mem (source : Text) (t : ParseTree) : otherKind source t ∈ looseKinds := by
  have hite : ∀ (p : Prop) [Decidable p] (a b : NodeKind), a ∈ looseKinds → b ∈ looseKinds →
      (if p then a else b) ∈ looseKinds := by
    intro p _ a b ha hb
    split
    · exact ha
    · exact hb
  have hexpression : NodeKind.Expression ∈ looseKinds := by decide
  unfold otherKind operatorKind
  refine hite _ _ _ ?_ (hite _ _ _ hexpression (by decide))
  cases (t.childByField? "operator").map (·.text source) with
  | none => exact hexpression
  | some op => exact hite _ _ _ (by decide) (hite _ _ _ (by decide) hexpression)

/-- Every other kind of node stands for some grammar kinds. -/
theorem nodeKind_mem_iff {source : Text} {t : ParseTree} {ks : List NodeKind}
    (hks : ∀ k ∈ looseKinds, k ∉ ks) :
    nodeKind source t ∈ ks ↔ t.kind ∈ (namedKinds.filter (·.2 ∈ ks)).map (·.1) := by
  constructor
  · intro h
    rw [nodeKind_eq] at h
    cases hlookup : namedKinds.lookup t.kind with
    | none =>
      rw [hlookup] at h
      exact absurd h (hks _ (otherKind_mem source t))
    | some k =>
      rw [hlookup] at h
      exact List.mem_map.2 ⟨(t.kind, k),
        List.mem_filter.2 ⟨mem_of_lookup_namedKinds hlookup, decide_eq_true h⟩, rfl⟩
  · intro h
    obtain ⟨e, he, hkind⟩ := List.mem_map.1 h
    obtain ⟨hmem, hk⟩ := List.mem_filter.1 he
    rw [nodeKind_eq, ← hkind, lookup_of_mem_namedKinds e hmem]
    exact of_decide_eq_true hk

/-- A binary expression whose operator is a logical one. -/
def isLogical (source : Text) (t : ParseTree) : Bool :=
  t.kind = "binary_expression" && (t.childByField? "operator").any fun op =>
    (op.text source = "&&".toList ∨ op.text source = "and".toList) ∨
      (op.text source = "||".toList ∨ op.text source = "or".toList)

theorem nodeKind_logical_iff {source : Text} {t : ParseTree} :
    nodeKind source t ∈ [.LogicalAnd, .LogicalOr] ↔ isLogical source t = true := by
  by_cases hbinary : t.kind = "binary_expression"
  · have hkind : nodeKind source t = operatorKind source t := by
      rw [nodeKind_eq, otherKind, if_pos hbinary, hbinary]
      rfl
    rw [hkind, operatorKind, isLogical, hbinary]
    cases t.childByField? "operator" with
    | none => simp
    | some op =>
      simp only [Option.map_some, Option.any_some, decide_true, Bool.true_and, decide_eq_true_eq]
      by_cases hand : op.text source = "&&".toList ∨ op.text source = "and".toList
      · rw [if_pos hand]
        exact ⟨fun _ => .inl hand, fun _ => by decide⟩
      · rw [if_neg hand]
        by_cases hor : op.text source = "||".toList ∨ op.text source = "or".toList
        · rw [if_pos hor]
          exact ⟨fun _ => .inr hor, fun _ => by decide⟩
        · rw [if_neg hor]
          exact ⟨fun h => absurd h (by decide), fun h => absurd h (not_or_intro hand hor)⟩
  · have hnot : isLogical source t = false := by
      rw [isLogical, decide_eq_false hbinary, Bool.false_and]
    have hkind : nodeKind source t ∉ [.LogicalAnd, .LogicalOr] := by
      rw [nodeKind_eq, otherKind, if_neg hbinary]
      cases hlookup : namedKinds.lookup t.kind with
      | none =>
        rw [Option.getD_none]
        split
        · decide
        · decide
      | some k =>
        have hnone : ∀ e ∈ namedKinds, e.2 ∉ [NodeKind.LogicalAnd, .LogicalOr] := by decide
        exact hnone _ (mem_of_lookup_namedKinds hlookup)
    rw [hnot]
    exact ⟨fun h => absurd h hkind, nofun⟩

/-! ## The nodes that are opened -/

/-- Below the root a node is opened when it has a name and something below it and is of no skipped,
literal or identifier kind. -/
def isOpened (t : ParseTree) : Bool :=
  t.mark.named && t.kind ∉ skippedKinds && t.kind ∉ literalKinds && t.kind ∉ identifierKinds &&
    !t.children.isEmpty

mutual
/-- The opened nodes among a node below the root and the nodes below it. A node that is not opened
has none. -/
def openedIn : ParseTree → List ParseTree
  | .node m cs => if isOpened (.node m cs) then .node m cs :: openedInAll cs else []

/-- The opened nodes among several nodes and the nodes below them. -/
def openedInAll : List ParseTree → List ParseTree
  | [] => []
  | c :: cs => openedIn c ++ openedInAll cs
end

/-- The opened nodes of a parse tree. The root is always opened. -/
def opened (root : ParseTree) : List ParseTree := root :: openedInAll root.children

@[simp] theorem openedInAll_nil : openedInAll [] = [] := by rw [openedInAll]

@[simp] theorem openedInAll_cons (c : ParseTree) (cs : List ParseTree) :
    openedInAll (c :: cs) = openedIn c ++ openedInAll cs := by rw [openedInAll]

theorem openedIn_of_isOpened {t : ParseTree} (h : isOpened t = true) : openedIn t = opened t := by
  cases t with
  | node m cs =>
    rw [openedIn, if_pos h]
    rfl

theorem openedIn_of_not {t : ParseTree} (h : isOpened t = false) : openedIn t = [] := by
  cases t with
  | node m cs => rw [openedIn, h, if_neg (by simp)]

theorem treesOf_of_isOpened {source : Text} {parent : String} {t : ParseTree}
    (h : isOpened t = true) : treesOf source parent t = [toTree source t] := by
  refine treesOf_eq_toTree ?_
  simp only [isOpened, Bool.and_eq_true, decide_eq_true_eq] at h
  obtain ⟨⟨⟨⟨hnamed, hskip⟩, hliteral⟩, hname⟩, hchildren⟩ := h
  simp_all [part]

/-! ## The nodes of the converted tree -/

/-- The nodes that the children become that are not opened. -/
def closedNodes (source : Text) (parent : String) (cs : List ParseTree) : List Tree :=
  (cs.filter fun c => !isOpened c).flatMap fun c => (treesOf source parent c).flatMap Tree.allNodes

/-- What an opened node adds to the nodes of the converted tree: itself, and what its children
become that are not opened. -/
def share (source : Text) (t : ParseTree) : List Tree :=
  toTree source t :: closedNodes source t.kind t.children

theorem closedNodes_of_isOpened {source : Text} {parent : String} {c : ParseTree}
    {cs : List ParseTree} (h : isOpened c = true) :
    closedNodes source parent (c :: cs) = closedNodes source parent cs := by
  simp [closedNodes, h]

theorem closedNodes_of_not {source : Text} {parent : String} {c : ParseTree} {cs : List ParseTree}
    (h : isOpened c = false) :
    closedNodes source parent (c :: cs) =
      (treesOf source parent c).flatMap Tree.allNodes ++ closedNodes source parent cs := by
  simp [closedNodes, h]

theorem treesOfAll_eq_flatMap (source : Text) (parent : String) (cs : List ParseTree) :
    treesOfAll source parent cs = cs.flatMap (treesOf source parent) := by
  induction cs with
  | nil => exact treesOfAll_nil source parent
  | cons c cs ih => rw [treesOfAll_cons, ih, List.flatMap_cons]

theorem children_toTree (source : Text) (t : ParseTree) :
    (toTree source t).children = t.children.flatMap (treesOf source t.kind) := by
  cases t with
  | node m cs => exact treesOfAll_eq_flatMap source m.kind cs

theorem kind_toTree (source : Text) (t : ParseTree) :
    (toTree source t).kind = nodeKind source t := by
  cases t
  rfl

mutual
theorem perm_allNodes (source : Text) : ∀ t : ParseTree,
    (toTree source t).allNodes.Perm ((opened t).flatMap (share source))
  | .node m cs => by
    have hall := perm_allNodesAll source cs m.kind
    rw [toTree, Tree.allNodes_node, opened, List.flatMap_cons]
    exact hall.cons _

theorem perm_allNodesAll (source : Text) : ∀ (cs : List ParseTree) (parent : String),
    ((treesOfAll source parent cs).flatMap Tree.allNodes).Perm
      (closedNodes source parent cs ++ (openedInAll cs).flatMap (share source))
  | [], parent => by simp [closedNodes]
  | c :: cs, parent => by
    have hcs := perm_allNodesAll source cs parent
    rw [treesOfAll_cons, List.flatMap_append, openedInAll_cons, List.flatMap_append]
    cases hopen : isOpened c with
    | true =>
      have hc := perm_allNodes source c
      rw [treesOf_of_isOpened hopen, openedIn_of_isOpened hopen, closedNodes_of_isOpened hopen,
        List.flatMap_singleton]
      exact (hc.append hcs).trans (List.perm_append_comm_assoc ..)
    | false =>
      rw [openedIn_of_not hopen, closedNodes_of_not hopen, List.flatMap_nil, List.nil_append,
        List.append_assoc]
      exact hcs.append_left _
end

/-! ## What is not opened -/

/-- A node without a name that reads as the sign and is not skipped. -/
def isSign (source sign : Text) (c : ParseTree) : Bool :=
  !c.mark.named && c.kind ∉ skippedKinds && c.text source = sign

/-- Whether a child without a name of a node of kind `parent` is the sign of a shift. -/
def isShift (source : Text) (parent : String) (c : ParseTree) : Bool :=
  parent = "binary_expression" && isSign source ">>".toList c ||
    parent = "assignment_expression" && isSign source ">>=".toList c

/-- A node without a name that is no shift becomes nothing or tokens. -/
theorem treesOf_of_not_isShift {source : Text} {parent : String} {c : ParseTree}
    (hnamed : c.mark.named = false) (h : isShift source parent c = false) :
    treesOf source parent c = if c.kind ∈ skippedKinds then [] else scanned source c := by
  by_cases hskip : c.kind ∈ skippedKinds
  · rw [if_pos hskip]
    exact treesOf_closed (by simp [part, hskip])
  · rw [if_neg hskip, treesOf_closed (part_symbol hskip hnamed)]
    simp only [isShift, isSign, hnamed, hskip, Bool.or_eq_false_iff, Bool.and_eq_false_iff,
      Bool.not_false, Bool.true_and, not_false_eq_true, decide_true, decide_eq_false_iff_not] at h
    obtain ⟨hshift, hassign⟩ := h
    rw [symbolTrees, if_neg fun hc => hshift.elim (· hc.2) (· hc.1),
      if_neg fun hc => hassign.elim (· hc.2) (· hc.1)]

/-- The kinds of nodes that only nodes which are not opened become. -/
def closedKinds : List NodeKind :=
  [.Identifier, .Name, .Literal, .Other, .RightShift, .RightShiftAssign]

/-- The kinds of the nodes of some trees. -/
def kindsOf (ts : List Tree) : List NodeKind := (ts.flatMap Tree.allNodes).map (·.kind)

theorem kindsOf_node {k : NodeKind} {span : Span} {cs : List Tree}
    (h : cs.flatMap Tree.allNodes = []) : kindsOf [.node k span cs] = [k] := by
  rw [kindsOf, List.flatMap_singleton, Tree.allNodes_node, h]
  rfl

/-- The kinds are those of a node that is not opened: the kind of a shift stands among them only
where the node is a shift sign. -/
structure IsClosed (source : Text) (parent : String) (c : ParseTree) (ks : List NodeKind) :
    Prop where
  mem : ∀ k ∈ ks, k ∈ closedKinds
  rightShift : ks.count .RightShift =
    if parent = "binary_expression" ∧ isSign source ">>".toList c then 1 else 0
  rightShiftAssign : ks.count .RightShiftAssign =
    if parent = "assignment_expression" ∧ isSign source ">>=".toList c then 1 else 0

/-- A node with a name that is not opened becomes one node, which is no shift. -/
theorem isClosed_of_named {source : Text} {parent : String} {c : ParseTree} {k : NodeKind}
    (hnamed : c.mark.named = true) (hk : k ∈ [NodeKind.Identifier, .Name, .Literal, .Other]) :
    IsClosed source parent c [k] := by
  have hsign : ∀ sign, isSign source sign c = false := by simp [isSign, hnamed]
  have hkinds : ∀ k ∈ [NodeKind.Identifier, .Name, .Literal, .Other],
      k ∈ closedKinds ∧ [k].count .RightShift = 0 ∧ [k].count .RightShiftAssign = 0 := by decide
  obtain ⟨hmem, hshift, hassign⟩ := hkinds k hk
  exact ⟨by simpa using hmem, by rw [hshift, hsign]; simp, by rw [hassign, hsign]; simp⟩

theorem isClosed_treesOf {source : Text} {parent : String} {c : ParseTree}
    (h : isOpened c = false) : IsClosed source parent c (kindsOf (treesOf source parent c)) := by
  have hrule := yields_treesOf source c parent
  generalize treesOf source parent c = trees at hrule
  cases hrule with
  | skipped hskip =>
    have hsign : ∀ sign, isSign source sign c = false := by simp [isSign, hskip]
    exact ⟨nofun, by rw [hsign]; simp [kindsOf], by rw [hsign]; simp [kindsOf]⟩
  | shift hskip hnamed hshift =>
    rw [kindsOf_node (by simp)]
    exact ⟨by decide, by simp [isSign, hskip, hnamed, hshift],
      by simp [isSign, hskip, hnamed, hshift]⟩
  | shiftAssign hskip hnamed hshift =>
    rw [kindsOf_node (by simp)]
    exact ⟨by decide, by simp [isSign, hskip, hnamed, hshift],
      by simp [isSign, hskip, hnamed, hshift]⟩
  | symbol hskip hnamed hshift hassign =>
    have hkinds : kindsOf ((tokenize (c.text source)).map fun token =>
        .token ⟨token.kind, token.text, c.start⟩) = [] := by
      simp [kindsOf, List.flatMap_map]
    have hno : ¬(parent = "binary_expression" ∧ isSign source ">>".toList c = true) := by
      rintro ⟨hparent, hsign⟩
      simp only [isSign, Bool.and_eq_true, decide_eq_true_eq] at hsign
      exact hshift ⟨hsign.2, hparent⟩
    have hno' : ¬(parent = "assignment_expression" ∧ isSign source ">>=".toList c = true) := by
      rintro ⟨hparent, hsign⟩
      simp only [isSign, Bool.and_eq_true, decide_eq_true_eq] at hsign
      exact hassign ⟨hsign.2, hparent⟩
    rw [hkinds]
    exact ⟨nofun, (if_neg hno).symm, (if_neg hno').symm⟩
  | literal htelling hliteral =>
    rw [kindsOf_node (by simp)]
    exact isClosed_of_named htelling.2 (by decide)
  | name htelling hliteral hname =>
    rw [kindsOf_node (by simp)]
    refine isClosed_of_named htelling.2 ?_
    unfold nameKind
    dsimp only
    split <;> decide
  | leaf htelling hliteral hname hchildren =>
    rw [kindsOf_node (by simp [List.flatMap_map])]
    exact isClosed_of_named htelling.2 (by decide)
  | opened htelling hliteral hname hchildren hall =>
    simp [isOpened, htelling.1, htelling.2, hliteral, hname, hchildren] at h

/-! ## Numbers of opened nodes -/

/-- The nodes of a kind that no closed node becomes are the opened nodes of that kind. -/
theorem filter_allNodes (source : Text) (root : ParseTree) {ks : List NodeKind}
    (hks : ∀ k ∈ closedKinds, k ∉ ks) :
    ((toTree source root).allNodes.filter (·.kind ∈ ks)).Perm
      (((opened root).filter (nodeKind source · ∈ ks)).map (toTree source)) := by
  have hclosed : ∀ (parent : String) (cs : List ParseTree),
      (closedNodes source parent cs).filter (·.kind ∈ ks) = [] := by
    intro parent cs
    rw [List.filter_eq_nil_iff]
    intro n hn
    obtain ⟨c, hc, hnode⟩ := List.mem_flatMap.1 hn
    have hopen : isOpened c = false := by simpa using (List.mem_filter.1 hc).2
    have hclosed : IsClosed source parent c (kindsOf (treesOf source parent c)) :=
      isClosed_treesOf hopen
    have hmem := hclosed.mem n.kind (List.mem_map_of_mem hnode)
    simpa using hks _ hmem
  have hshare : ∀ ts : List ParseTree, (ts.flatMap (share source)).filter (·.kind ∈ ks) =
      (ts.filter (nodeKind source · ∈ ks)).map (toTree source) := by
    intro ts
    induction ts with
    | nil => rfl
    | cons t ts ih =>
      rw [List.flatMap_cons, List.filter_append, ih, share, List.filter_cons, hclosed, kind_toTree,
        List.filter_cons]
      split <;> rfl
  exact hshare (opened root) ▸ (perm_allNodes source root).filter _

theorem countKinds_toTree (source : Text) (root : ParseTree) {ks : List NodeKind}
    (hks : ∀ k ∈ closedKinds, k ∉ ks) :
    (toTree source root).countKinds ks = (opened root).countP (nodeKind source · ∈ ks) := by
  rw [Tree.countKinds, List.countP_eq_length_filter, (filter_allNodes source root hks).length_eq,
    List.length_map, List.countP_eq_length_filter]

theorem filter_nodeKind (source : Text) (ts : List ParseTree) {ks : List NodeKind}
    {names : List String} (hks : ∀ k ∈ looseKinds, k ∉ ks)
    (hnames : (namedKinds.filter (·.2 ∈ ks)).map (·.1) = names) :
    ts.filter (nodeKind source · ∈ ks) = ts.filter (·.kind ∈ names) :=
  congrArg (fun p : ParseTree → Bool => ts.filter p) <| funext fun _ =>
    decide_eq_decide.2 <| hnames ▸ nodeKind_mem_iff hks

/-- The nodes of kinds that stand for grammar kinds are as many as the opened nodes of these. -/
theorem countKinds_eq (source : Text) (root : ParseTree) {ks : List NodeKind} {names : List String}
    (hks : ∀ k ∈ closedKinds ++ looseKinds, k ∉ ks)
    (hnames : (namedKinds.filter (·.2 ∈ ks)).map (·.1) = names) :
    (toTree source root).countKinds ks = (opened root).countP (·.kind ∈ names) := by
  obtain ⟨hclosed, hloose⟩ := List.forall_mem_append.1 hks
  rw [countKinds_toTree source root hclosed, List.countP_eq_length_filter,
    filter_nodeKind source _ hloose hnames, List.countP_eq_length_filter]

/-! ## Parameters -/

/-- Below a list of parameters every child with a name that is not skipped becomes one node, and
every other child becomes tokens. -/
theorem length_nodes_parameters (source : Text) {t : ParseTree} (h : t.kind = "parameter_list") :
    (toTree source t).nodes.length =
      t.children.countP fun c => c.mark.named && c.kind ∉ skippedKinds := by
  have hchild : ∀ c, ((treesOf source "parameter_list" c).filter Tree.isNode).length =
      if c.mark.named && c.kind ∉ skippedKinds then 1 else 0 := by
    intro c
    have hrule := yields_treesOf source c "parameter_list"
    generalize treesOf source "parameter_list" c = trees at hrule
    cases hrule with
    | skipped hskip => simp [hskip]
    | shift _ _ hshift => exact absurd hshift.2 (by decide)
    | shiftAssign _ _ hshift => exact absurd hshift.2 (by decide)
    | symbol _ hnamed => simp [hnamed, List.filter_map, Function.comp_def, Tree.isNode]
    | literal htelling | name htelling | leaf htelling | opened htelling =>
      simp only [htelling.1, htelling.2, not_false_eq_true, decide_true, Bool.and_self, if_true]
      rfl
  have hall : ∀ cs, ((treesOfAll source "parameter_list" cs).filter Tree.isNode).length =
      cs.countP fun c => c.mark.named && c.kind ∉ skippedKinds := by
    intro cs
    induction cs with
    | nil => rw [treesOfAll_nil]; rfl
    | cons c cs ih =>
      rw [treesOfAll_cons, List.filter_append, List.length_append, hchild, ih, List.countP_cons,
        Nat.add_comm]
  cases t with
  | node m cs =>
    have hkind : m.kind = "parameter_list" := h
    have hnodes := hall cs
    rw [← hkind] at hnodes
    rw [toTree]
    exact hnodes

theorem sum_parameters (source : Text) (root : ParseTree) :
    (((toTree source root).allNodes.filter (·.kind = .ParameterClause)).map (·.nodes.length)).sum =
      (((opened root).filter (·.kind = "parameter_list")).map fun t =>
        t.children.countP fun c => c.mark.named && c.kind ∉ skippedKinds).sum := by
  have hnone : ∀ k ∈ closedKinds, k ∉ [NodeKind.ParameterClause] := by decide
  have hlists : (opened root).filter (nodeKind source · ∈ [.ParameterClause]) =
      (opened root).filter (·.kind ∈ ["parameter_list"]) :=
    filter_nodeKind source _ (by decide) (by decide)
  have hclauses := filter_allNodes source root hnone
  rw [hlists] at hclauses
  simp only [List.mem_singleton] at hclauses
  rw [(hclauses.map _).sum_nat, List.map_map]
  refine congrArg List.sum (List.map_congr_left fun t ht => ?_)
  exact length_nodes_parameters source (by simpa using (List.mem_filter.1 ht).2)

/-! ## Shifts -/

theorem countP_kindsOf (ts : List Tree) (k : NodeKind) :
    (ts.flatMap Tree.allNodes).countP (·.kind ∈ [k]) = (kindsOf ts).count k := by
  rw [kindsOf, List.count_eq_countP, List.countP_map]
  simp only [List.mem_singleton]
  rfl

section Shifts

variable {source : Text} {k : NodeKind} {parent : String} {sign : Text}

/-- Only the sign becomes nodes of the kind, each sign one, and only below nodes of one grammar
kind. -/
def IsSignKind (source : Text) (k : NodeKind) (parent : String) (sign : Text) : Prop :=
  ∀ (p : String) (c : ParseTree), isOpened c = false →
    (kindsOf (treesOf source p c)).count k = if p = parent ∧ isSign source sign c then 1 else 0

theorem countP_closedNodes (hsign : IsSignKind source k parent sign) (p : String)
    (cs : List ParseTree) :
    (closedNodes source p cs).countP (·.kind ∈ [k]) =
      if p = parent then cs.countP (isSign source sign) else 0 := by
  induction cs with
  | nil => simp [closedNodes]
  | cons c cs ih =>
    cases hopen : isOpened c with
    | true =>
      have hno : isSign source sign c = false := by
        simp only [isOpened, Bool.and_eq_true] at hopen
        simp [isSign, hopen.1.1.1.1]
      rw [closedNodes_of_isOpened hopen, ih, List.countP_cons, hno]
      rfl
    | false =>
      rw [closedNodes_of_not hopen, List.countP_append, ih, countP_kindsOf, hsign p c hopen,
        List.countP_cons]
      by_cases hp : p = parent
      · simp [hp, Nat.add_comm]
      · simp [hp]

theorem countP_share (hk : k ∉ looseKinds ∧ ∀ e ∈ namedKinds, e.2 ≠ k)
    (hsign : IsSignKind source k parent sign) (t : ParseTree) :
    (share source t).countP (·.kind ∈ [k]) =
      if t.kind = parent then t.children.countP (isSign source sign) else 0 := by
  have hnone : namedKinds.filter (·.2 ∈ [k]) = [] := by
    simpa [List.filter_eq_nil_iff] using hk.2
  have hkind : nodeKind source t ∉ [k] := by
    rw [nodeKind_mem_iff (by simpa [looseKinds, eq_comm] using hk.1), hnone]
    exact List.not_mem_nil
  rw [share, List.countP_cons, countP_closedNodes hsign, kind_toTree, decide_eq_false hkind]
  rfl

/-- A kind of node that only a sign becomes stands in the tree as often as the sign stands below
opened nodes. -/
theorem countKinds_sign (hk : k ∉ looseKinds ∧ ∀ e ∈ namedKinds, e.2 ≠ k)
    (hsign : IsSignKind source k parent sign) (root : ParseTree) :
    (toTree source root).countKinds [k] =
      (((opened root).filter (·.kind = parent)).map
        fun t => t.children.countP (isSign source sign)).sum := by
  have hall : ∀ ts : List ParseTree, (ts.flatMap (share source)).countP (·.kind ∈ [k]) =
      ((ts.filter (·.kind = parent)).map fun t => t.children.countP (isSign source sign)).sum := by
    intro ts
    induction ts with
    | nil => rfl
    | cons t ts ih =>
      rw [List.flatMap_cons, List.countP_append, ih, countP_share hk hsign, List.filter_cons]
      by_cases hp : t.kind = parent
      · simp [hp]
      · simp [hp]
  rw [Tree.countKinds, (perm_allNodes source root).countP_eq, hall]

end Shifts

/-! ## The counts of a converted tree -/

/-- What a tally says of the opened nodes of a parse tree. -/
structure SyntaxCounts (source : Text) (root : ParseTree) (s : Tally) : Prop where
  functions : s.functions = (opened root).countP (·.kind = "function_definition")
  flowControl : s.flowControl = (opened root).countP
    (·.kind ∈ ["if_statement", "switch_statement", "for_statement", "for_range_loop",
      "while_statement", "do_statement"])
  jumps : s.jumps = (opened root).countP
    (·.kind ∈ ["return_statement", "break_statement", "continue_statement", "goto_statement"])
  conditionalBranches : s.conditionalBranches = (opened root).countP (isLogical source)
  parameters : s.parameters =
    (((opened root).filter (·.kind = "parameter_list")).map fun t =>
      t.children.countP fun c => c.mark.named && c.kind ∉ skippedKinds).sum
  rightShifts : s.rightShifts =
    (((opened root).filter (·.kind = "binary_expression")).map fun t =>
      t.children.countP (isSign source ">>".toList)).sum
  rightShiftAssigns : s.rightShiftAssigns =
    (((opened root).filter (·.kind = "assignment_expression")).map fun t =>
      t.children.countP (isSign source ">>=".toList)).sum

/-- A walk over a converted tree counts nodes of the parse tree. Every opened node is one node of
the converted tree, and its children without a name that are no shifts leave only tokens there. -/
theorem counts_of_convert (source : Text) (root : ParseTree) :
    SyntaxCounts source root (Tally.ofTree (convert source root)) ∧
      ∀ t ∈ opened root, ∃ node ∈ (convert source root).allNodes,
        node.kind = nodeKind source t ∧
        node.children = t.children.flatMap (treesOf source t.kind) ∧
        ∀ c ∈ t.children, c.mark.named = false → isShift source t.kind c = false →
          treesOf source t.kind c = if c.kind ∈ skippedKinds then [] else scanned source c := by
  rw [convert_eq_toTree]
  constructor
  · have totals : Tally.Totals (toTree source root) (Tally.ofTree (toTree source root)) := by
      cases root
      exact (Tally.totals_of_walk ..).2
    exact {
      functions := by
        have hnames : (toTree source root).countKinds [.FunctionDefinition] =
            (opened root).countP (·.kind ∈ ["function_definition"]) :=
          countKinds_eq source root (by decide) (by decide)
        rw [totals.functions, hnames]
        simp only [List.mem_singleton]
      flowControl := totals.flowControl.trans (countKinds_eq source root (by decide) (by decide))
      jumps := totals.jumps.trans (countKinds_eq source root (by decide) (by decide))
      conditionalBranches := by
        rw [totals.conditionalBranches, countKinds_toTree source root (by decide)]
        refine congrArg (fun p : ParseTree → Bool => (opened root).countP p) (funext fun t => ?_)
        exact Bool.eq_iff_iff.2 (decide_eq_true_iff.trans nodeKind_logical_iff)
      parameters := by
        rw [totals.parameters]
        exact sum_parameters source root
      rightShifts := totals.rightShifts.trans <|
        countKinds_sign (by decide) (fun p c h => (isClosed_treesOf h).rightShift) root
      rightShiftAssigns := totals.rightShiftAssigns.trans <|
        countKinds_sign (by decide) (fun p c h => (isClosed_treesOf h).rightShiftAssign) root }
  · intro t ht
    have hnode : toTree source t ∈ (opened root).flatMap (share source) :=
      List.mem_flatMap.2 ⟨t, ht, List.mem_cons_self⟩
    refine ⟨toTree source t, (perm_allNodes source root).mem_iff.2 hnode, kind_toTree source t,
      children_toTree source t, fun c _ hnamed hshift => ?_⟩
    exact treesOf_of_not_isShift hnamed hshift

end Grammar
end Stylometry
