-- The conversion by a cursor is the conversion by recursion. While the cursor goes through
-- the parse tree, the open nodes of the builder are the nodes above it, each with the trees
-- of its children that are already behind the cursor.
import Mathlib.Tactic.SplitIfs
import Stylometry.Grammar.Convert

namespace Stylometry.Grammar

/-! ## What children become, rule by rule -/

/-- A node of the parse tree that is neither skipped nor a symbol. -/
def Telling (t : ParseTree) : Prop := t.kind ∉ skippedKinds ∧ t.mark.named = true

mutual
/-- The trees that a node contributes to the node of grammar kind `parent` around it. -/
inductive Yields (source : Text) : String → ParseTree → List Tree → Prop
  | skipped {parent t} : t.kind ∈ skippedKinds → Yields source parent t []
  | shift {parent t} : t.kind ∉ skippedKinds → t.mark.named = false →
      t.text source = ['>', '>'] ∧ parent = "binary_expression" →
      Yields source parent t [.node .RightShift t.span
        [.token ⟨.punctuator .Greater, ['>'], t.start⟩,
          .token ⟨.punctuator .Greater, ['>'], t.start⟩]]
  | shiftAssign {parent t} : t.kind ∉ skippedKinds → t.mark.named = false →
      t.text source = ['>', '>', '='] ∧ parent = "assignment_expression" →
      Yields source parent t [.node .RightShiftAssign t.span
        [.token ⟨.punctuator .Greater, ['>'], t.start⟩,
          .token ⟨.punctuator .GreaterEqual, ['>', '='], t.start⟩]]
  | symbol {parent t} : t.kind ∉ skippedKinds → t.mark.named = false →
      ¬(t.text source = ['>', '>'] ∧ parent = "binary_expression") →
      ¬(t.text source = ['>', '>', '='] ∧ parent = "assignment_expression") →
      Yields source parent t ((tokenize (t.text source)).map fun token =>
        .token ⟨token.kind, token.text, t.start⟩)
  | literal {parent t} : Telling t → t.kind ∈ literalKinds →
      Yields source parent t [.node .Literal t.span
        [.token ⟨(Kind.ofLexeme? (t.text source)).getD
            (.literal (literalSort t.kind (t.text source))), t.text source, t.start⟩]]
  | name {parent t} : Telling t → t.kind ∉ literalKinds → t.kind ∈ identifierKinds →
      Yields source parent t [.node (nameKind parent t) t.span
        [.token ⟨.identifier, t.text source, t.start⟩]]
  | leaf {parent t} : Telling t → t.kind ∉ literalKinds → t.kind ∉ identifierKinds →
      t.children = [] →
      Yields source parent t [.node .Other t.span
        ((tokenize (t.text source)).map fun token =>
          .token ⟨token.kind, token.text, t.start⟩)]
  | opened {parent t trees} : Telling t → t.kind ∉ literalKinds → t.kind ∉ identifierKinds →
      t.children ≠ [] → YieldsAll source t.kind t.children trees →
      Yields source parent t [.node (nodeKind source t) t.span trees]

/-- The trees that the children of a node of grammar kind `parent` contribute, in order. -/
inductive YieldsAll (source : Text) : String → List ParseTree → List Tree → Prop
  | nil {parent} : YieldsAll source parent [] []
  | cons {parent c cs trees rest} : Yields source parent c trees →
      YieldsAll source parent cs rest → YieldsAll source parent (c :: cs) (trees ++ rest)
end

/-! ## The recursion follows the rules -/

@[simp] theorem treesOfAll_nil (source : Text) (parent : String) :
    treesOfAll source parent [] = [] := by rw [treesOfAll]

@[simp] theorem treesOfAll_cons (source : Text) (parent : String) (c : ParseTree)
    (cs : List ParseTree) :
    treesOfAll source parent (c :: cs) =
      treesOf source parent c ++ treesOfAll source parent cs := by rw [treesOfAll]

theorem treesOfAll_append (source : Text) (parent : String) (cs ds : List ParseTree) :
    treesOfAll source parent (cs ++ ds) =
      treesOfAll source parent cs ++ treesOfAll source parent ds := by
  induction cs with
  | nil => simp
  | cons c cs ih => simp [ih]

theorem treesOf_closed {source : Text} {parent : String} {t : ParseTree} {trees : List Tree}
    (h : part source parent t = .closed trees) : treesOf source parent t = trees := by
  cases t with
  | node m cs => rw [treesOf, h]

theorem treesOf_opened {source : Text} {parent : String} {t : ParseTree} {kind : NodeKind}
    (h : part source parent t = .opened kind) :
    treesOf source parent t =
      [.node kind t.span (treesOfAll source t.kind t.children)] := by
  cases t with
  | node m cs =>
    rw [treesOf, h]
    rfl

/-- A node that is opened has children and keeps the kind of its grammar kind. -/
theorem part_opened {source : Text} {parent : String} {t : ParseTree} {kind : NodeKind}
    (h : part source parent t = .opened kind) :
    kind = nodeKind source t ∧ t.children ≠ [] := by
  unfold part at h
  split_ifs at h with h1 h2 h3 h4 h5
  all_goals cases h
  exact ⟨rfl, by simpa using h5⟩

theorem part_symbol {source : Text} {parent : String} {t : ParseTree}
    (hs : t.kind ∉ skippedKinds) (hn : t.mark.named = false) :
    part source parent t = .closed (symbolTrees source parent t) := by
  simp [part, hs, hn]

/-- A symbol contributes by one of the three rules for symbols. -/
theorem yields_symbolTrees (source : Text) (parent : String) (t : ParseTree)
    (hs : t.kind ∉ skippedKinds) (hn : t.mark.named = false) :
    Yields source parent t (symbolTrees source parent t) := by
  unfold symbolTrees
  split_ifs with h1 h2
  · exact .shift hs hn h1
  · exact .shiftAssign hs hn h2
  · exact .symbol hs hn h1 h2

mutual
/-- What the recursion gives for a node follows the rules. -/
theorem yields_treesOf (source : Text) : ∀ (t : ParseTree) (parent : String),
    Yields source parent t (treesOf source parent t)
  | .node m cs, parent => by
    have hall := yieldsAll_treesOfAll source cs m.kind
    rw [treesOf]
    unfold part
    split_ifs with h1 h2 h3 h4 h5
    · exact .skipped h1
    · exact yields_symbolTrees source parent _ h1 (by simpa using h2)
    · exact .literal ⟨h1, by simpa using h2⟩ h3
    · exact .name ⟨h1, by simpa using h2⟩ h3 h4
    · exact .leaf ⟨h1, by simpa using h2⟩ h3 h4 (by simpa using h5)
    · exact .opened ⟨h1, by simpa using h2⟩ h3 h4 (by simpa using h5) hall

theorem yieldsAll_treesOfAll (source : Text) : ∀ (cs : List ParseTree) (parent : String),
    YieldsAll source parent cs (treesOfAll source parent cs)
  | [], parent => by
    rw [treesOfAll_nil]
    exact .nil
  | c :: cs, parent => by
    rw [treesOfAll_cons]
    exact .cons (yields_treesOf source c parent) (yieldsAll_treesOfAll source cs parent)
end

mutual
/-- The rules leave no choice for a node. -/
theorem eq_treesOf {source : Text} : ∀ {t : ParseTree} {parent : String} {trees : List Tree},
    Yields source parent t trees → trees = treesOf source parent t
  | .node m cs, parent, trees, h => by
    have hpart : ∀ ts, part source parent (.node m cs) = .closed ts →
        ts = treesOf source parent (.node m cs) := fun ts hts => (treesOf_closed hts).symm
    cases h with
    | skipped h1 => exact hpart _ (by simp [part, h1])
    | shift h1 h2 h3 =>
      apply hpart
      rw [part_symbol h1 h2, symbolTrees, if_pos h3]
      rfl
    | shiftAssign h1 h2 h3 =>
      apply hpart
      have hno : ¬(ParseTree.text source (.node m cs) = ['>', '>'] ∧
          parent = "binary_expression") := by
        rintro ⟨h, -⟩
        exact absurd (h.symm.trans h3.1) (by decide)
      rw [part_symbol h1 h2, symbolTrees, if_neg hno, if_pos h3]
      rfl
    | symbol h1 h2 h3 h4 =>
      apply hpart
      rw [part_symbol h1 h2, symbolTrees, if_neg h3, if_neg h4]
      rfl
    | literal h1 h2 => exact hpart _ (by simp [part, h1.1, h1.2, h2, leaf])
    | name h1 h2 h3 => exact hpart _ (by simp [part, h1.1, h1.2, h2, h3, leaf])
    | leaf h1 h2 h3 h4 => exact hpart _ (by simp [part, h1.1, h1.2, h2, h3, h4, scanned])
    | opened h1 h2 h3 h4 h5 =>
      have hopened : part source parent (.node m cs) = .opened (nodeKind source (.node m cs)) := by
        simp [part, h1.1, h1.2, h2, h3, h4]
      rw [treesOf_opened hopened, ← eq_treesOfAll h5]

theorem eq_treesOfAll {source : Text} : ∀ {cs : List ParseTree} {parent : String}
    {trees : List Tree}, YieldsAll source parent cs trees → trees = treesOfAll source parent cs
  | [], parent, trees, h => by
    cases h
    rw [treesOfAll_nil]
  | c :: cs, parent, trees, h => by
    cases h with
    | cons h1 h2 => rw [treesOfAll_cons, ← eq_treesOf h1, ← eq_treesOfAll h2]
end

/-! ## Where the cursor stands and what the builder holds -/

/-- An open node for `p` whose children `done` are behind the cursor. -/
def openedFor (source : Text) (p : ParseTree) (done : List ParseTree) : OpenNode :=
  ⟨nodeKind source p, p.span, p.kind, (treesOfAll source p.kind done).reverse⟩

/-- The cursor is to visit a node with some siblings after it, below the nodes `above`. The
builder holds one open node for each of them, with what its children before contribute. -/
inductive Aligned (source : Text) (root : ParseTree) :
    ParseTree → List ParseTree → List (ParseTree × List ParseTree) → Builder → Prop
  | root : Aligned source root root [] [] []
  | child {p l above b done c later} : Aligned source root p l above b →
      b = [] ∨ part source b.grammarKind p = .opened (nodeKind source p) →
      p.children = done ++ c :: later →
      Aligned source root c later ((p, l) :: above) (openedFor source p done :: b)

theorem attach_openedFor (source : Text) (p c : ParseTree) (done : List ParseTree) (b : Builder) :
    Builder.attach (treesOf source p.kind c) (openedFor source p done :: b) =
      openedFor source p (done ++ [c]) :: b := by
  simp [Builder.attach, openedFor, treesOfAll_append]

/-- A node whose children are all behind the cursor is the tree that the recursion gives. -/
theorem closed_openedFor (source : Text) (p : ParseTree) :
    Tree.node (openedFor source p p.children).kind (openedFor source p p.children).span
        (openedFor source p p.children).built.reverse = toTree source p := by
  simp [openedFor, toTree]

/-- A node that was opened contributes the tree that the recursion gives for it alone. -/
theorem treesOf_eq_toTree {source : Text} {parent : String} {t : ParseTree}
    (h : part source parent t = .opened (nodeKind source t)) :
    treesOf source parent t = [toTree source t] := treesOf_opened h

/-- When a node is behind the cursor, the climb finds the next node to visit, or all nodes
are behind the cursor and the climb gives the whole tree. -/
theorem climb_of_aligned {source : Text} {root t : ParseTree} {later : List ParseTree}
    {above : List (ParseTree × List ParseTree)} {b : Builder}
    (h : Aligned source root t later above b) (hb : b ≠ []) :
    climb ⟨t, later, above⟩ (b.attach (treesOf source b.grammarKind t)) =
        .inl (some (toTree source root)) ∨
      ∃ d b', climb ⟨t, later, above⟩ (b.attach (treesOf source b.grammarKind t)) = .inr (d, b') ∧
        Aligned source root d.current d.later d.above b' ∧ b' ≠ [] := by
  induction h with
  | root => exact absurd rfl hb
  | @child p l above b done c later hp hopen hchildren ih =>
    have hkind : Builder.grammarKind (openedFor source p done :: b) = p.kind := rfl
    rw [hkind, attach_openedFor]
    cases later with
    | cons next later =>
      refine .inr ⟨⟨next, later, (p, l) :: above⟩, openedFor source p (done ++ [c]) :: b, ?_,
        .child hp hopen ?_, by simp⟩
      · rw [climb]
        rfl
      · rw [hchildren]
        simp
    | nil =>
      -- The last child is behind the cursor, so the node around it is complete.
      have hdone : done ++ [c] = p.children := hchildren.symm
      rw [hdone]
      cases b with
      | nil =>
        left
        cases hp
        rw [climb]
        simp only [Cursor.nextSibling?, Cursor.parent?, Builder.close, closed_openedFor]
      | cons outer b =>
        have hclose : Builder.close (openedFor source p p.children :: outer :: b) =
            .inr (Builder.attach (treesOf source (Builder.grammarKind (outer :: b)) p)
              (outer :: b)) := by
          rw [treesOf_eq_toTree (hopen.resolve_left (by simp)), ← closed_openedFor]
          rfl
        have hclimb : climb ⟨c, [], (p, l) :: above⟩ (openedFor source p p.children :: outer :: b) =
            climb ⟨p, l, above⟩ (Builder.attach
              (treesOf source (Builder.grammarKind (outer :: b)) p) (outer :: b)) := by
          rw [climb]
          simp only [Cursor.nextSibling?, Cursor.parent?, hclose]
        rw [hclimb]
        exact ih (by simp)

theorem aligned_firstChild {source : Text} {root : ParseTree} {c d : Cursor} {b : Builder}
    (h : Aligned source root c.current c.later c.above b)
    (hopen : b = [] ∨ part source b.grammarKind c.current = .opened (nodeKind source c.current))
    (hd : c.firstChild? = some d) :
    Aligned source root d.current d.later d.above
      (b.openNode c.current (nodeKind source c.current)) := by
  unfold Cursor.firstChild? at hd
  split at hd
  · cases hd
  · next child later hc =>
    cases hd
    have hnode : Builder.openNode c.current (nodeKind source c.current) b =
        openedFor source c.current [] :: b := by
      simp [Builder.openNode, openedFor]
    rw [hnode]
    exact .child h hopen (by simpa using hc)

theorem firstChild?_of_opened {source : Text} {parent : String} {c : Cursor} {kind : NodeKind}
    (h : part source parent c.current = .opened kind) : c.firstChild? ≠ none := by
  intro hnone
  unfold Cursor.firstChild? at hnone
  split at hnone
  · next hc => exact (part_opened h).2 hc
  · cases hnone

/-- From wherever the cursor stands, the loop ends with the tree of the recursion. -/
theorem build_of_aligned {source : Text} {root : ParseTree} (c : Cursor) (b : Builder)
    (h : Aligned source root c.current c.later c.above b) (hb : b ≠ []) :
    build source c b = toTree source root := by
  fun_induction build source c b with
  | case1 c b trees hpart found hc =>
    obtain hclimb | ⟨d, b', hclimb, -⟩ := climb_of_aligned h hb
    · rw [treesOf_closed hpart, hc] at hclimb
      cases hclimb
      rfl
    · rw [treesOf_closed hpart, hc] at hclimb
      cases hclimb
  | case2 c b trees hpart d b' hc _ ih =>
    obtain hclimb | ⟨e, b'', hclimb, halign, hne⟩ := climb_of_aligned h hb
    · rw [treesOf_closed hpart, hc] at hclimb
      cases hclimb
    · rw [treesOf_closed hpart, hc] at hclimb
      cases hclimb
      exact ih halign hne
  | case3 c b kind hpart opened d hd _ ih =>
    obtain ⟨rfl, -⟩ := part_opened hpart
    exact ih (aligned_firstChild h (.inr hpart) hd) (by simp [opened, Builder.openNode])
  | case4 c b kind hpart opened hd => exact absurd hd (firstChild?_of_opened hpart)
  | case5 c b kind hpart opened hd => exact absurd hd (firstChild?_of_opened hpart)
  | case6 c b kind hpart opened hd => exact absurd hd (firstChild?_of_opened hpart)

/-! ## The whole conversion -/

/-- The cursors and builders with which the loop visits a node. -/
inductive Visits (source : Text) (root : ParseTree) : Cursor → Builder → Prop
  | first {c} : (Cursor.atRoot root).firstChild? = some c →
      Visits source root c (Builder.openNode root (nodeKind source root) [])
  | next {c b trees d b'} : Visits source root c b →
      part source b.grammarKind c.current = .closed trees →
      climb c (b.attach trees) = .inr (d, b') → Visits source root d b'
  | down {c b kind d} : Visits source root c b →
      part source b.grammarKind c.current = .opened kind →
      c.firstChild? = some d → Visits source root d (b.openNode c.current kind)
  | empty {c b kind b' d b''} : Visits source root c b →
      part source b.grammarKind c.current = .opened kind → c.firstChild? = none →
      (b.openNode c.current kind).close = .inr b' → climb c b' = .inr (d, b'') →
      Visits source root d b''

/-- At each visit the builder holds the nodes above the cursor. -/
theorem aligned_of_visits {source : Text} {root : ParseTree} {c : Cursor} {b : Builder}
    (h : Visits source root c b) :
    Aligned source root c.current c.later c.above b ∧ b ≠ [] := by
  induction h with
  | first hc => exact ⟨aligned_firstChild .root (.inl rfl) hc, by simp [Builder.openNode]⟩
  | next _ hpart hclimb ih =>
    obtain h | ⟨e, b'', h, halign⟩ := climb_of_aligned ih.1 ih.2
    · rw [treesOf_closed hpart, hclimb] at h
      cases h
    · rw [treesOf_closed hpart, hclimb] at h
      cases h
      exact halign
  | down _ hpart hd ih =>
    obtain ⟨rfl, -⟩ := part_opened hpart
    exact ⟨aligned_firstChild ih.1 (.inr hpart) hd, by simp [Builder.openNode]⟩
  | empty _ hpart hd _ _ _ => exact absurd hd (firstChild?_of_opened hpart)

theorem convert_eq_toTree (source : Text) (root : ParseTree) :
    convert source root = toTree source root := by
  unfold convert
  dsimp only
  split
  · next c hc =>
    exact build_of_aligned c _ (aligned_firstChild .root (.inl rfl) hc)
      (by simp [Builder.openNode])
  · next hc =>
    have hno : root.children = [] := by
      cases hcs : root.children with
      | nil => rfl
      | cons c cs => simp [Cursor.firstChild?, Cursor.atRoot, hcs] at hc
    simp [Builder.openNode, Builder.close, toTree, hno]

/-- The conversion by a cursor gives the tree of the recursion, whose nodes have the trees
that the rules for their children yield. At every visit the builder holds exactly the nodes
above the cursor, each with what its children before contribute; a node that is opened has
a first child, and a climb ends at a node to visit or with the whole tree. So no open node
is left over, and the tree that stands in no source is never given. -/
theorem convert_by_rules (source : Text) (root : ParseTree) :
    convert source root = toTree source root ∧
      (∀ trees, YieldsAll source root.kind root.children trees ↔
        convert source root = .node (nodeKind source root) root.span trees) ∧
      (∀ c b, Visits source root c b → Aligned source root c.current c.later c.above b ∧
        (∀ kind, part source b.grammarKind c.current = .opened kind → c.firstChild? ≠ none) ∧
        (∀ trees, part source b.grammarKind c.current = .closed trees →
          climb c (b.attach trees) ≠ .inl none)) ∧
      convert source root ≠ .plain .TranslationUnit [] := by
  refine ⟨convert_eq_toTree source root, ?_, ?_, ?_⟩
  · intro trees
    rw [convert_eq_toTree, toTree, Tree.node.injEq]
    constructor
    · intro h
      exact ⟨rfl, rfl, (eq_treesOfAll h).symm⟩
    · rintro ⟨-, -, rfl⟩
      exact yieldsAll_treesOfAll source root.children root.kind
  · intro c b h
    obtain ⟨halign, hb⟩ := aligned_of_visits h
    refine ⟨halign, fun kind => firstChild?_of_opened, ?_⟩
    intro trees hpart hnone
    obtain hclimb | ⟨d, b', hclimb, -⟩ := climb_of_aligned halign hb
    · rw [treesOf_closed hpart, hnone] at hclimb
      cases hclimb
    · rw [treesOf_closed hpart, hnone] at hclimb
      cases hclimb
  · rw [convert_eq_toTree, toTree, Tree.plain]
    intro h
    have hline := congrArg (fun t => match t with
      | .node _ s _ => s.start.line
      | .token _ => 0) h
    exact absurd hline (Nat.succ_ne_zero root.mark.startPoint.row)

end Stylometry.Grammar
