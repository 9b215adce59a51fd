-- Comments and directives leave no trace in a tally. Two parse trees that agree once their
-- skipped nodes are deleted become the same tree but for the places, wherever these nodes stood.
import Stylometry.Proofs.BareTrees
import Stylometry.Proofs.ConversionTokens

namespace Stylometry.Grammar

/-! ## Deletion of skipped nodes -/

mutual
/-- The tree without the skipped nodes below its root. -/
def pruned : ParseTree → ParseTree
  | .node m cs => .node m (prunedAll cs)

/-- The trees that are not skipped, each without the skipped nodes below it. -/
def prunedAll : List ParseTree → List ParseTree
  | [] => []
  | c :: cs => if isSkipped c then prunedAll cs else pruned c :: prunedAll cs
end

mutual
/-- The nodes that the conversion opens, in preorder. -/
def inner : ParseTree → List ParseTree
  | .node m cs =>
    if isSkipped (.node m cs) || isTerminal (.node m cs) then [] else .node m cs :: innerAll cs

/-- The nodes of several trees that the conversion opens. -/
def innerAll : List ParseTree → List ParseTree
  | [] => []
  | c :: cs => inner c ++ innerAll cs
end

/-- A parse tree that has no error and tells the conversion nothing by a skipped node: none
fills the field of an operator, and none is all that stands below an opened node. -/
structure Clean (root : ParseTree) : Prop where
  noError : root.mark.hasError = false
  operator : ∀ t ∈ root :: innerAll root.children, ∀ c ∈ t.children, isSkipped c = true →
    c.mark.field ≠ some "operator"
  kept : ∀ t ∈ innerAll root.children, ∃ c ∈ t.children, isSkipped c = false

/-- The kind, the name flag and the field are the same. -/
structure SameMark (m n : Mark) : Prop where
  kind : m.kind = n.kind
  named : m.named = n.named
  field : m.field = n.field

mutual
/-- Two trees of the same shape with the same marks, in two sources. The texts agree at the
terminals and at the operators. What is below a terminal is not looked at. -/
inductive Alike (source source' : Text) : ParseTree → ParseTree → Prop
  | terminal {t t'} : SameMark t.mark t'.mark → isTerminal t = true → isTerminal t' = true →
      t.text source = t'.text source' → Alike source source' t t'
  | opened {t t'} : SameMark t.mark t'.mark → isTerminal t = false → isTerminal t' = false →
      (t.mark.field = some "operator" → t.text source = t'.text source') →
      AlikeAll source source' t.children t'.children → Alike source source' t t'

/-- The trees of two lists in their order. -/
inductive AlikeAll (source source' : Text) : List ParseTree → List ParseTree → Prop
  | nil : AlikeAll source source' [] []
  | cons {c c' cs cs'} : Alike source source' c c' → AlikeAll source source' cs cs' →
      AlikeAll source source' (c :: cs) (c' :: cs')
end

/-! ## The conversion does not see deleted nodes -/

theorem pruned_node (m : Mark) (cs : List ParseTree) :
    pruned (.node m cs) = .node m (prunedAll cs) := by rw [pruned]

theorem mark_pruned (t : ParseTree) : (pruned t).mark = t.mark := by
  cases t with
  | node m cs => rw [pruned_node, ParseTree.mark, ParseTree.mark]

theorem children_pruned (t : ParseTree) : (pruned t).children = prunedAll t.children := by
  cases t with
  | node m cs => rw [pruned_node, ParseTree.children, ParseTree.children]

theorem kind_pruned (t : ParseTree) : (pruned t).kind = t.kind := by
  rw [ParseTree.kind, mark_pruned, ParseTree.kind]

theorem text_pruned (source : Text) (t : ParseTree) : (pruned t).text source = t.text source := by
  rw [ParseTree.text, mark_pruned, ParseTree.text]

theorem span_pruned (t : ParseTree) : (pruned t).span = t.span := by
  rw [ParseTree.span, ParseTree.start, mark_pruned, ParseTree.span, ParseTree.start]

theorem prunedAll_nil : prunedAll [] = [] := by rw [prunedAll]

theorem prunedAll_skipped {c : ParseTree} (h : isSkipped c = true) (cs : List ParseTree) :
    prunedAll (c :: cs) = prunedAll cs := by rw [prunedAll, if_pos h]

theorem prunedAll_kept {c : ParseTree} (h : isSkipped c = false) (cs : List ParseTree) :
    prunedAll (c :: cs) = pruned c :: prunedAll cs := by rw [prunedAll, if_neg (by simp [h])]

theorem prunedAll_eq_nil {cs : List ParseTree} :
    prunedAll cs = [] ↔ ∀ c ∈ cs, isSkipped c = true := by
  induction cs with
  | nil => simp [prunedAll_nil]
  | cons c cs ih =>
    cases hc : isSkipped c with
    | true => simp [prunedAll_skipped hc, ih, hc]
    | false => simp [prunedAll_kept hc, hc]

theorem isSkipped_pruned (t : ParseTree) : isSkipped (pruned t) = isSkipped t := by
  rw [isSkipped, kind_pruned, isSkipped]

/-- When no skipped child fills a field, the first child that fills it stays. -/
theorem childByField?_pruned {t : ParseTree} {field : String}
    (h : ∀ c ∈ t.children, isSkipped c = true → c.mark.field ≠ some field) :
    (pruned t).childByField? field = (t.childByField? field).map pruned := by
  have hall : ∀ cs : List ParseTree,
      (∀ c ∈ cs, isSkipped c = true → c.mark.field ≠ some field) →
      (prunedAll cs).find? (·.mark.field = some field) =
        (cs.find? (·.mark.field = some field)).map pruned := by
    intro cs
    induction cs with
    | nil => simp [prunedAll_nil]
    | cons c cs ih =>
      intro h
      have hcs := ih fun d hd => h d (List.mem_cons_of_mem _ hd)
      cases hc : isSkipped c with
      | true =>
        have hfield := h c (List.mem_cons_self ..) hc
        rw [prunedAll_skipped hc, hcs, List.find?_cons_of_neg (by simpa using hfield)]
      | false =>
        rw [prunedAll_kept hc]
        by_cases hfield : c.mark.field = some field
        · rw [List.find?_cons_of_pos (by simpa [mark_pruned] using hfield),
            List.find?_cons_of_pos (by simpa using hfield), Option.map_some]
        · rw [List.find?_cons_of_neg (by simpa [mark_pruned] using hfield), hcs,
            List.find?_cons_of_neg (by simpa using hfield)]
  rw [ParseTree.childByField?, children_pruned, hall _ h, ParseTree.childByField?]

/-- The kind of an opened node depends on the grammar kind and the text of the operator. -/
theorem nodeKind_congr {source source' : Text} {t t' : ParseTree} (hkind : t.kind = t'.kind)
    (hop : (t.childByField? "operator").map (·.text source) =
      (t'.childByField? "operator").map (·.text source')) :
    nodeKind source t = nodeKind source' t' := by
  unfold nodeKind
  rw [hkind, hop]

theorem nodeKind_pruned {source : Text} {t : ParseTree}
    (h : ∀ c ∈ t.children, isSkipped c = true → c.mark.field ≠ some "operator") :
    nodeKind source (pruned t) = nodeKind source t := by
  apply nodeKind_congr (kind_pruned t)
  rw [childByField?_pruned h, Option.map_map]
  congr 1
  funext c
  exact text_pruned source c

theorem isTerminal_iff {t : ParseTree} :
    isTerminal t = true ↔ isSkipped t = false ∧
      (t.mark.named = false ∨ t.kind ∈ literalKinds ∨ t.kind ∈ identifierKinds ∨
        t.children = []) := by
  simp [isTerminal, or_assoc]

/-- What a terminal becomes, from its mark and its text alone. -/
def terminalTrees (source : Text) (parent : String) (t : ParseTree) : List Tree :=
  if !t.mark.named then symbolTrees source parent t
  else if t.kind ∈ literalKinds then
    [leaf source .Literal t ((Kind.ofLexeme? (t.text source)).getD
      (.literal (literalSort t.kind (t.text source))))]
  else if t.kind ∈ identifierKinds then [leaf source (nameKind parent t) t .identifier]
  else [.node .Other t.span (scanned source t)]

theorem treesOf_terminal {source : Text} {parent : String} {t : ParseTree}
    (h : isTerminal t = true) : treesOf source parent t = terminalTrees source parent t := by
  obtain ⟨hskip, hterm⟩ := isTerminal_iff.1 h
  apply treesOf_closed
  unfold part terminalTrees
  rw [if_neg (by simpa [isSkipped] using hskip)]
  split_ifs with hnamed hliteral hname hempty
  · rfl
  · rfl
  · rfl
  · rfl
  · simp_all

theorem isTerminal_pruned_of_terminal {t : ParseTree} (h : isTerminal t = true) :
    isTerminal (pruned t) = true := by
  obtain ⟨hskip, hterm⟩ := isTerminal_iff.1 h
  apply isTerminal_iff.2
  rw [isSkipped_pruned, mark_pruned, kind_pruned, children_pruned]
  refine ⟨hskip, hterm.imp_right fun h => h.imp_right fun h => h.imp_right fun hnil => ?_⟩
  rw [hnil, prunedAll_nil]

/-- An opened node that keeps a child is opened as before. -/
theorem isTerminal_pruned {t : ParseTree} (h : isTerminal t = false)
    (hkept : ∃ c ∈ t.children, isSkipped c = false) : isTerminal (pruned t) = false := by
  have hempty : prunedAll t.children ≠ [] := by
    intro hnil
    obtain ⟨c, hc, hcs⟩ := hkept
    have hskip := prunedAll_eq_nil.1 hnil c hc
    rw [hcs] at hskip
    cases hskip
  have hchildren : t.children ≠ [] := by
    intro hnil
    rw [hnil, prunedAll_nil] at hempty
    exact hempty rfl
  rw [Bool.eq_false_iff, Ne, isTerminal_iff] at h ⊢
  rw [isSkipped_pruned, mark_pruned, kind_pruned, children_pruned]
  simp only [hempty, hchildren] at h ⊢
  exact h

mutual
theorem treesOf_pruned (source : Text) : ∀ (t : ParseTree) (parent : String),
    (∀ u ∈ inner t, ∀ c ∈ u.children, isSkipped c = true → c.mark.field ≠ some "operator") →
    (∀ u ∈ inner t, ∃ c ∈ u.children, isSkipped c = false) → isSkipped t = false →
    treesOf source parent (pruned t) = treesOf source parent t
  | .node m cs, parent, hop, hkept, hskip => by
    cases hterm : isTerminal (.node m cs) with
    | true =>
      rw [treesOf_terminal (isTerminal_pruned_of_terminal hterm), treesOf_terminal hterm,
        pruned_node]
      rfl
    | false =>
      have hinner : inner (.node m cs) = .node m cs :: innerAll cs := by
        rw [inner, hskip, hterm]
        rfl
      rw [hinner] at hop hkept
      have hnode := hop _ (List.mem_cons_self ..)
      -- a child is kept, so the node does not turn into a leaf
      have hterm' := isTerminal_pruned hterm (hkept _ (List.mem_cons_self ..))
      have hskip' := (isSkipped_pruned (.node m cs)).trans hskip
      rw [treesOf_opened (part_of_inner hskip' hterm'), treesOf_opened (part_of_inner hskip hterm),
        nodeKind_pruned hnode, span_pruned, kind_pruned, children_pruned]
      have hall := treesOfAll_pruned source cs m.kind
        (fun u hu => hop u (List.mem_cons_of_mem _ hu))
        (fun u hu => hkept u (List.mem_cons_of_mem _ hu))
      have hkind : ParseTree.kind (.node m cs) = m.kind := rfl
      rw [hkind, ParseTree.children, hall]

theorem treesOfAll_pruned (source : Text) : ∀ (cs : List ParseTree) (parent : String),
    (∀ u ∈ innerAll cs, ∀ c ∈ u.children, isSkipped c = true → c.mark.field ≠ some "operator") →
    (∀ u ∈ innerAll cs, ∃ c ∈ u.children, isSkipped c = false) →
    treesOfAll source parent (prunedAll cs) = treesOfAll source parent cs
  | [], parent, hop, hkept => by rw [prunedAll_nil]
  | c :: cs, parent, hop, hkept => by
    rw [innerAll] at hop hkept
    have hcs := treesOfAll_pruned source cs parent
      (fun u hu => hop u (List.mem_append_right _ hu))
      (fun u hu => hkept u (List.mem_append_right _ hu))
    cases hskip : isSkipped c with
    | true =>
      rw [prunedAll_skipped hskip, hcs, treesOfAll_cons, treesOf_closed (part_of_skipped hskip),
        List.nil_append]
    | false =>
      rw [prunedAll_kept hskip, treesOfAll_cons, treesOfAll_cons, hcs,
        treesOf_pruned source c parent (fun u hu => hop u (List.mem_append_left _ hu))
          (fun u hu => hkept u (List.mem_append_left _ hu)) hskip]
end

theorem convert_pruned (source : Text) {root : ParseTree} (h : Clean root) :
    convert source (pruned root) = convert source root := by
  rw [convert_eq_toTree, convert_eq_toTree, toTree, toTree,
    nodeKind_pruned (h.operator root (List.mem_cons_self ..)), span_pruned, kind_pruned,
    children_pruned, treesOfAll_pruned source root.children root.kind
      (fun u hu => h.operator u (List.mem_cons_of_mem _ hu)) h.kept]

/-! ## Alike trees -/

variable {source source' : Text}

theorem SameMark.isSkipped_eq {t t' : ParseTree} (h : SameMark t.mark t'.mark) :
    isSkipped t = isSkipped t' := by
  unfold isSkipped ParseTree.kind
  rw [h.kind]

theorem Alike.sameMark {t t' : ParseTree} (h : Alike source source' t t') :
    SameMark t.mark t'.mark := by
  cases h with
  | terminal hmark => exact hmark
  | opened hmark => exact hmark

theorem Alike.operator {t t' : ParseTree} (h : Alike source source' t t')
    (hop : t.mark.field = some "operator") : t.text source = t'.text source' := by
  cases h with
  | terminal _ _ _ htext => exact htext
  | opened _ _ _ htext _ => exact htext hop

theorem AlikeAll.operator {cs cs' : List ParseTree} (h : AlikeAll source source' cs cs') :
    (cs.find? (·.mark.field = some "operator")).map (·.text source) =
      (cs'.find? (·.mark.field = some "operator")).map (·.text source') := by
  induction cs generalizing cs' with
  | nil =>
    cases h
    rfl
  | cons c cs ih =>
    cases h with
    | cons hc hcs =>
      have hfield := hc.sameMark.field
      by_cases hop : c.mark.field = some "operator"
      · rw [List.find?_cons_of_pos (by simpa using hop),
          List.find?_cons_of_pos (by simpa [← hfield] using hop), Option.map_some, Option.map_some,
          hc.operator hop]
      · rw [List.find?_cons_of_neg (by simpa using hop),
          List.find?_cons_of_neg (by simpa [← hfield] using hop), ih hcs]

theorem bare_scanned {t t' : ParseTree} (h : t.text source = t'.text source') :
    (scanned source t).map Tree.bare = (scanned source' t').map Tree.bare := by
  unfold scanned
  rw [h, List.map_map, List.map_map]
  apply List.map_congr_left
  intro token _
  simp [Token.bare]

theorem bare_symbolTrees {t t' : ParseTree} (parent : String)
    (h : t.text source = t'.text source') :
    (symbolTrees source parent t).map Tree.bare =
      (symbolTrees source' parent t').map Tree.bare := by
  unfold symbolTrees
  rw [h]
  split_ifs with h1 h2
  · simp [shift, Token.bare]
  · simp [shift, Token.bare]
  · exact bare_scanned h

/-- Two terminals with the same mark and the same text become the same trees. -/
theorem bare_terminalTrees {t t' : ParseTree} (parent : String) (hmark : SameMark t.mark t'.mark)
    (htext : t.text source = t'.text source') :
    (terminalTrees source parent t).map Tree.bare =
      (terminalTrees source' parent t').map Tree.bare := by
  have hkind : t.kind = t'.kind := hmark.kind
  have hname : nameKind parent t = nameKind parent t' := by
    unfold nameKind
    rw [hmark.field, hkind]
  unfold terminalTrees
  rw [hmark.named, hkind, htext, hname]
  split_ifs
  · exact bare_symbolTrees parent htext
  · simp [leaf, htext, Token.bare]
  · simp [leaf, htext, Token.bare]
  · simp [bare_scanned htext]

mutual
theorem bare_treesOf : ∀ (t t' : ParseTree) (parent : String),
    Alike source source' t t' →
    (treesOf source parent t).map Tree.bare = (treesOf source' parent t').map Tree.bare
  | .node m cs, t', parent, h => by
    cases h with
    | terminal hmark hterm hterm' htext =>
      rw [treesOf_terminal hterm, treesOf_terminal hterm']
      exact bare_terminalTrees parent hmark htext
    | opened hmark hterm hterm' _ hcs =>
      have hsame := hmark.isSkipped_eq
      cases hskip : isSkipped (.node m cs) with
      | true => rw [treesOf_closed (part_of_skipped hskip),
          treesOf_closed (part_of_skipped (hsame.symm.trans hskip)), List.map_nil]
      | false =>
        have hkind : (ParseTree.node m cs).kind = t'.kind := hmark.kind
        have hnode := nodeKind_congr hkind hcs.operator
        have hall := bare_treesOfAll cs t'.children t'.kind hcs
        rw [treesOf_opened (part_of_inner hskip hterm),
          treesOf_opened (part_of_inner (hsame.symm.trans hskip) hterm'), hnode, hkind,
          ParseTree.children]
        simpa using hall

theorem bare_treesOfAll : ∀ (cs cs' : List ParseTree) (parent : String),
    AlikeAll source source' cs cs' →
    (treesOfAll source parent cs).map Tree.bare = (treesOfAll source' parent cs').map Tree.bare
  | [], cs', parent, h => by
    cases h
    simp
  | c :: cs, cs', parent, h => by
    cases h with
    | @cons _ c' _ ds hc hcs =>
      rw [treesOfAll_cons, treesOfAll_cons, List.map_append, List.map_append,
        bare_treesOf c c' parent hc, bare_treesOfAll cs ds parent hcs]
end

/-! ## Two sources -/

/-- Two sources whose parse trees agree once the skipped nodes are deleted have the same tree but
for the places, and the same tally. So a comment or a directive that is put anywhere changes no
count of a walk. -/
theorem parse_of_alike {root root' : ParseTree} (hroot : Clean root) (hroot' : Clean root')
    (hmark : SameMark root.mark root'.mark)
    (h : AlikeAll source source' (prunedAll root.children) (prunedAll root'.children)) :
    ∃ t t', parse source root = .ok t ∧ parse source' root' = .ok t' ∧
      t.bare = t'.bare ∧ Tally.ofTree t = Tally.ofTree t' := by
  -- both conversions are those of the trees without their skipped nodes
  have hok : ∀ (s : Text) {r : ParseTree}, Clean r → parse s r = .ok (toTree s (pruned r)) := by
    intro s r hr
    unfold parse
    rw [hr.noError, if_neg (by simp), ← convert_pruned s hr, convert_eq_toTree]
  have hkind : (pruned root).kind = (pruned root').kind := by
    rw [kind_pruned, kind_pruned]
    exact hmark.kind
  rw [← children_pruned, ← children_pruned] at h
  have hbare : (toTree source (pruned root)).bare = (toTree source' (pruned root')).bare := by
    unfold toTree
    rw [Tree.bare_node, Tree.bare_node, nodeKind_congr hkind h.operator, hkind,
      bare_treesOfAll _ _ _ h]
  refine ⟨_, _, hok source hroot, hok source' hroot', hbare, ?_⟩
  have htally : ∀ (s : Text) (r : ParseTree),
      Tally.ofTree (toTree s r).bare = Tally.ofTree (toTree s r) :=
    fun s r => Tally.ofTree_bare _ _ _
  rw [← htally, hbare, htally]

/-- The statement of `shiftSource` with a comment inside of it and none after it. -/
def commentedSource : Text := ['a', '/', '*', '*', '/', '>', '>', '5', ';']

/-- Its parse tree. -/
def commentedTree : ParseTree :=
  .node { kind := "translation_unit", start := 0, stop := 9 }
    [.node { kind := "expression_statement", start := 0, stop := 9 }
      [.node { kind := "binary_expression", start := 0, stop := 8 }
        [.node { kind := "identifier", start := 0, stop := 1 } [],
          .node { kind := "comment", start := 1, stop := 5 } [],
          .node { kind := ">>", named := false, field := some "operator", start := 5, stop := 7 } [],
          .node { kind := "number_literal", start := 7, stop := 8 } []],
        .node { kind := ";", named := false, start := 8, stop := 9 } []]]

theorem parse_of_commentedTree :
    Clean shiftTree ∧ Clean commentedTree ∧
      ∃ t t', parse shiftSource shiftTree = .ok t ∧ parse commentedSource commentedTree = .ok t' ∧
        t.bare = t'.bare ∧ Tally.ofTree t = Tally.ofTree t' := by
  have hclean : Clean shiftTree :=
    ⟨rfl, by decide +kernel, by decide +kernel⟩
  have hclean' : Clean commentedTree :=
    ⟨rfl, by decide +kernel, by decide +kernel⟩
  have hall : AlikeAll shiftSource commentedSource (prunedAll shiftTree.children)
      (prunedAll commentedTree.children) := by
    refine .cons (.opened ⟨rfl, rfl, rfl⟩ rfl rfl nofun ?_) .nil
    refine .cons (.opened ⟨rfl, rfl, rfl⟩ rfl rfl nofun ?_)
      (.cons (.terminal ⟨rfl, rfl, rfl⟩ rfl rfl rfl) .nil)
    exact .cons (.terminal ⟨rfl, rfl, rfl⟩ rfl rfl rfl)
      (.cons (.terminal ⟨rfl, rfl, rfl⟩ rfl rfl rfl)
        (.cons (.terminal ⟨rfl, rfl, rfl⟩ rfl rfl rfl) .nil))
  exact ⟨hclean, hclean', parse_of_alike hclean hclean' ⟨rfl, rfl, rfl⟩ hall⟩

end Stylometry.Grammar
