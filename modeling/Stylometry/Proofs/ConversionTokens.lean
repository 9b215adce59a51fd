-- The tokens of a converted tree are the tokens of the source. The scan reads the source as
-- a whole and the conversion reads the text of each terminal alone, so the terminals have
-- to tile the tokens; then the counts of a walk are counts of the token stream.
import Stylometry.Proofs.Conversion
import Stylometry.Proofs.Leaves
import Stylometry.Proofs.TokenStream

namespace Stylometry

namespace ParseTree

mutual
/-- The nodes of a tree, in preorder. -/
def nodes : ParseTree → List ParseTree
  | .node m cs => .node m cs :: nodesAll cs

/-- The nodes of several trees, one after the other. -/
def nodesAll : List ParseTree → List ParseTree
  | [] => []
  | c :: cs => nodes c ++ nodesAll cs
end

theorem nodesAll_nil : nodesAll [] = [] := by rw [nodesAll]

theorem nodesAll_cons (c : ParseTree) (cs : List ParseTree) :
    nodesAll (c :: cs) = c.nodes ++ nodesAll cs := by rw [nodesAll]

/-- The nodes of a tree are its root and what is below it. -/
theorem nodes_eq (t : ParseTree) : t.nodes = t :: nodesAll t.children := by
  cases t with
  | node m cs =>
    rw [nodes]
    rfl

end ParseTree

namespace Grammar

/-! ## Terminals -/

/-- The node leaves nothing in the syntax tree. -/
def isSkipped (t : ParseTree) : Bool := t.kind ∈ skippedKinds

/-- The node becomes tokens, and what is below it is not looked at. -/
def isTerminal (t : ParseTree) : Bool :=
  !isSkipped t &&
    (!t.mark.named || t.kind ∈ literalKinds || t.kind ∈ identifierKinds || t.children.isEmpty)

mutual
/-- The terminals of a tree that is not the root, in document order. -/
def terminals : ParseTree → List ParseTree
  | .node m cs =>
    if isSkipped (.node m cs) then []
    else if isTerminal (.node m cs) then [.node m cs]
    else terminalsAll cs

/-- The terminals of several trees, one after the other. -/
def terminalsAll : List ParseTree → List ParseTree
  | [] => []
  | c :: cs => terminals c ++ terminalsAll cs
end

@[simp] theorem terminalsAll_nil : terminalsAll [] = [] := by rw [terminalsAll]

@[simp] theorem terminalsAll_cons (c : ParseTree) (cs : List ParseTree) :
    terminalsAll (c :: cs) = terminals c ++ terminalsAll cs := by rw [terminalsAll]

/-- A terminal that the conversion takes for one token: a literal or a name. -/
def isLiteral (t : ParseTree) : Prop := t.mark.named = true ∧ t.kind ∈ literalKinds

def isName (t : ParseTree) : Prop :=
  t.mark.named = true ∧ t.kind ∉ literalKinds ∧ t.kind ∈ identifierKinds

/-! ## Terminals that tile the tokens -/

/-- The terminal spans the tokens of the source from one to another. -/
def Spans (source : Text) (t : ParseTree) (i j : Nat) : Prop :=
  ∃ a b, (tokenize source)[i]? = some a ∧ (tokenize source)[j]? = some b ∧ i ≤ j ∧
    t.mark.start = a.position.offset ∧ t.mark.stop = b.stop

/-- The terminals stand one after the other. Each spans some tokens or has no token in its
text, and every token lies in one that spans some. A literal spans one token and a name one
identifier. -/
structure Tiled (source : Text) (ts : List ParseTree) : Prop where
  ascending : ts.Pairwise fun s t => s.mark.stop ≤ t.mark.start
  spans : ∀ t ∈ ts, (∃ i j, Spans source t i j) ∨ tokenize (t.text source) = []
  covered : ∀ a ∈ tokenize source, ∃ t ∈ ts, (∃ i j, Spans source t i j) ∧
    t.mark.start ≤ a.position.offset ∧ a.stop ≤ t.mark.stop
  literal : ∀ t ∈ ts, isLiteral t → ∃ i, Spans source t i i
  name : ∀ t ∈ ts, isName t →
    ∃ i a, Spans source t i i ∧ (tokenize source)[i]? = some a ∧ a.kind = .identifier

theorem lexemes_of_spans {source : Text} {t : ParseTree} {i j : Nat} (h : Spans source t i j) :
    lexemes (t.text source) = ((lexemes source).drop i).take (j + 1 - i) := by
  obtain ⟨a, b, ha, hb, hij, hstart, hstop⟩ := h
  have htext : t.text source = between source a b := by
    rw [ParseTree.text, hstart, hstop, between]
  rw [htext, lexemes_between ha hb hij]

/-- The terminals tile the tokens from number `k` on. -/
structure TiledFrom (source : Text) (k : Nat) (ts : List ParseTree) : Prop where
  ascending : ts.Pairwise fun s t => s.mark.stop ≤ t.mark.start
  spans : ∀ t ∈ ts, (∃ i j, Spans source t i j) ∨ lexemes (t.text source) = []
  later : ∀ t ∈ ts, ∀ i j, Spans source t i j → k ≤ i
  covered : ∀ i < (tokenize source).length, k ≤ i →
    ∃ t ∈ ts, ∃ m n, Spans source t m n ∧ m ≤ i ∧ i ≤ n

theorem Tiled.from_zero {source : Text} {ts : List ParseTree} (h : Tiled source ts) :
    TiledFrom source 0 ts where
  ascending := h.ascending
  spans t ht := by
    refine (h.spans t ht).imp_right ?_
    intro hnil
    rw [lexemes, hnil]
    rfl
  later t _ i j _ := Nat.zero_le i
  covered i hi _ := by
    obtain ⟨a, ha⟩ : ∃ a, (tokenize source)[i]? = some a := ⟨_, List.getElem?_eq_getElem hi⟩
    obtain ⟨t, ht, ⟨m, n, hspans⟩, hstart, hstop⟩ := h.covered a (List.mem_of_getElem? ha)
    refine ⟨t, ht, m, n, hspans, ?_⟩
    obtain ⟨b, c, hb, hc, -, hb', hc'⟩ := hspans
    rw [hb'] at hstart
    rw [hc'] at hstop
    exact ⟨le_of_offset_le hb ha hstart, le_of_stop_le ha hc hstop⟩

theorem lexemes_ne_nil {source : Text} {t : ParseTree} {i j : Nat} (h : Spans source t i j) :
    lexemes (t.text source) ≠ [] := by
  rw [lexemes_of_spans h]
  obtain ⟨a, b, ha, hb, hij, -, -⟩ := h
  have hlength := (List.getElem?_eq_some_iff.1 ha).1
  rw [← length_lexemes] at hlength
  intro hnil
  have hzero := congrArg List.length hnil
  rw [List.length_take, List.length_drop, List.length_nil] at hzero
  omega

theorem TiledFrom.skip {source : Text} {k : Nat} {t : ParseTree} {ts : List ParseTree}
    (h : TiledFrom source k (t :: ts)) (hnil : lexemes (t.text source) = []) :
    TiledFrom source k ts where
  ascending := (List.pairwise_cons.1 h.ascending).2
  spans u hu := h.spans u (List.mem_cons_of_mem t hu)
  later u hu := h.later u (List.mem_cons_of_mem t hu)
  covered i hi hk := by
    obtain ⟨u, hu, m, n, hspans, hmn⟩ := h.covered i hi hk
    rcases List.mem_cons.1 hu with rfl | hu
    · exact absurd hnil (lexemes_ne_nil hspans)
    · exact ⟨u, hu, m, n, hspans, hmn⟩

/-- Of two terminals one after the other, the second one starts after the last token of the
first one. -/
theorem lt_of_spans {source : Text} {t u : ParseTree} {i j m n : Nat}
    (h : t.mark.stop ≤ u.mark.start) (ht : Spans source t i j) (hu : Spans source u m n) :
    j < m := by
  obtain ⟨-, b, -, hb, -, -, hstop⟩ := ht
  obtain ⟨c, -, hc, -, -, hstart, -⟩ := hu
  rw [hstop, hstart] at h
  exact lt_of_stop_le hb hc h

/-- A terminal spans the tokens from one to another only. -/
theorem spans_unique {source : Text} {t : ParseTree} {i j m n : Nat}
    (h : Spans source t i j) (h' : Spans source t m n) : m = i ∧ n = j := by
  obtain ⟨a, b, ha, hb, -, hstart, hstop⟩ := h
  obtain ⟨c, d, hc, hd, -, hstart', hstop'⟩ := h'
  rw [hstart] at hstart'
  rw [hstop] at hstop'
  constructor
  · exact Nat.le_antisymm (le_of_offset_le hc ha (Nat.le_of_eq hstart'.symm))
      (le_of_offset_le ha hc (Nat.le_of_eq hstart'))
  · exact Nat.le_antisymm (le_of_stop_le hd hb (Nat.le_of_eq hstop'.symm))
      (le_of_stop_le hb hd (Nat.le_of_eq hstop'))

/-- The first terminal that spans tokens starts with the first of them. The others tile the
tokens after it. -/
theorem TiledFrom.step {source : Text} {k i j : Nat} {t : ParseTree} {ts : List ParseTree}
    (h : TiledFrom source k (t :: ts)) (ht : Spans source t i j) :
    i = k ∧ TiledFrom source (j + 1) ts := by
  obtain ⟨hbefore, hts⟩ := List.pairwise_cons.1 h.ascending
  have hafter : ∀ u ∈ ts, ∀ m n, Spans source u m n → j < m :=
    fun u hu m n hspans => lt_of_spans (hbefore u hu) ht hspans
  have hij : i ≤ j := by
    obtain ⟨a, b, -, -, hij, -, -⟩ := ht
    exact hij
  have hi : i < (tokenize source).length := by
    obtain ⟨a, b, ha, -, -, -, -⟩ := ht
    exact (List.getElem?_eq_some_iff.1 ha).1
  have hki := h.later t (List.mem_cons_self ..) i j ht
  constructor
  · -- token `k` lies in a terminal, and those after `t` start too late for it
    obtain ⟨u, hu, m, n, hspans, hmk, hkn⟩ := h.covered k (by omega) (Nat.le_refl k)
    rcases List.mem_cons.1 hu with rfl | hu
    · obtain ⟨rfl, rfl⟩ := spans_unique ht hspans
      omega
    · have := hafter u hu m n hspans
      omega
  · refine ⟨hts, fun u hu => h.spans u (List.mem_cons_of_mem t hu), ?_, ?_⟩
    · intro u hu m n hspans
      exact hafter u hu m n hspans
    · intro l hl hjl
      obtain ⟨u, hu, m, n, hspans, hml, hln⟩ := h.covered l hl (by omega)
      rcases List.mem_cons.1 hu with rfl | hu
      · obtain ⟨rfl, rfl⟩ := spans_unique ht hspans
        omega
      · exact ⟨u, hu, m, n, hspans, hml, hln⟩

/-- The texts of the terminals have the tokens that they tile. -/
theorem lexemes_of_tiledFrom {source : Text} {k : Nat} {ts : List ParseTree}
    (h : TiledFrom source k ts) :
    ts.flatMap (fun t => lexemes (t.text source)) = (lexemes source).drop k := by
  induction ts generalizing k with
  | nil =>
    have hlength : (lexemes source).length ≤ k := by
      rw [length_lexemes]
      by_cases hk : k < (tokenize source).length
      · obtain ⟨t, ht, -⟩ := h.covered k hk (Nat.le_refl k)
        cases ht
      · omega
    rw [List.drop_eq_nil_of_le hlength]
    rfl
  | cons t ts ih =>
    rw [List.flatMap_cons]
    rcases h.spans t (List.mem_cons_self ..) with ⟨i, j, ht⟩ | hnil
    · obtain ⟨rfl, hrest⟩ := h.step ht
      have hij : i ≤ j := by
        obtain ⟨-, -, -, -, hij, -, -⟩ := ht
        exact hij
      have hdrop : (lexemes source).drop (j + 1) =
          ((lexemes source).drop i).drop (j + 1 - i) := by
        rw [List.drop_drop]
        congr 1
        omega
      rw [ih hrest, lexemes_of_spans ht, hdrop, List.take_append_drop]
    · rw [hnil, List.nil_append, ih (h.skip hnil)]

/-! ## What a terminal becomes -/

/-- The text of a literal is one token, and the text of a name is one identifier. -/
def Plain (source : Text) (t : ParseTree) : Prop :=
  (isLiteral t → ∃ k, Kind.ofLexeme? (t.text source) = some k ∧
    lexemes (t.text source) = [(k, t.text source)]) ∧
  (isName t → lexemes (t.text source) = [(.identifier, t.text source)])

theorem Tiled.plain {source : Text} {ts : List ParseTree} (h : Tiled source ts)
    {t : ParseTree} (ht : t ∈ ts) : Plain source t := by
  have hone : ∀ i a, Spans source t i i → (tokenize source)[i]? = some a →
      t.text source = a.text := by
    intro i a hspans ha
    obtain ⟨b, c, hb, hc, -, hstart, hstop⟩ := hspans
    rw [ha] at hb hc
    cases hb
    cases hc
    rw [ParseTree.text, hstart, hstop]
    exact (ofText_between_self ha).1
  constructor
  · intro hliteral
    obtain ⟨i, hspans⟩ := h.literal t ht hliteral
    obtain ⟨a, -, ha, -⟩ := id hspans
    rw [hone i a hspans ha]
    exact ⟨a.kind, ofLexeme?_eq ha, lexemes_text ha⟩
  · intro hname
    obtain ⟨i, a, hspans, ha, hkind⟩ := h.name t ht hname
    rw [hone i a hspans ha, lexemes_text ha, Token.lexeme, hkind]

/-- The tokens of some trees, wherever they stand. -/
def treeLexemes (trees : List Tree) : List Lexeme := (Tree.leavesAll trees).map Token.lexeme

theorem treeLexemes_append (ts us : List Tree) :
    treeLexemes (ts ++ us) = treeLexemes ts ++ treeLexemes us := by
  rw [treeLexemes, Tree.leavesAll_append, List.map_append]
  rfl

theorem treeLexemes_node (k : NodeKind) (span : Span) (cs : List Tree) :
    treeLexemes [.node k span cs] = treeLexemes cs := by
  simp [treeLexemes]

theorem treeLexemes_scanned (source : Text) (t : ParseTree) :
    treeLexemes (scanned source t) = lexemes (t.text source) := by
  have hmap : scanned source t = ((tokenize (t.text source)).map
      fun token => { token with position := t.start }).map .token := by
    rw [scanned, List.map_map]
    rfl
  rw [treeLexemes, hmap, Tree.leavesAll_map_token, List.map_map]
  rfl

/-- The shift signs are scanned as the two tokens that a shift node has. -/
theorem lexemes_shift :
    lexemes ['>', '>'] = [(.punctuator .Greater, ['>']), (.punctuator .Greater, ['>'])] ∧
    lexemes ['>', '>', '='] =
      [(.punctuator .Greater, ['>']), (.punctuator .GreaterEqual, ['>', '='])] := by
  decide +kernel

theorem treeLexemes_symbolTrees (source : Text) (parent : String) (t : ParseTree) :
    treeLexemes (symbolTrees source parent t) = lexemes (t.text source) := by
  unfold symbolTrees
  split_ifs with h1 h2
  · rw [h1.1, lexemes_shift.1, shift, treeLexemes_node]
    simp [treeLexemes, Token.lexeme, Punctuator.entry]
  · rw [h2.1, lexemes_shift.2, shift, treeLexemes_node]
    simp [treeLexemes, Token.lexeme, Punctuator.entry]
  · exact treeLexemes_scanned source t

theorem part_of_skipped {source : Text} {parent : String} {t : ParseTree}
    (h : isSkipped t = true) : part source parent t = .closed [] := by
  unfold part
  rw [if_pos (by simpa [isSkipped] using h)]

/-- A terminal becomes trees with the tokens of its text. -/
theorem part_of_terminal {source : Text} {parent : String} {t : ParseTree}
    (ht : isTerminal t = true) (hplain : Plain source t) :
    ∃ trees, part source parent t = .closed trees ∧
      treeLexemes trees = lexemes (t.text source) := by
  simp only [isTerminal, isSkipped, Bool.and_eq_true, Bool.not_eq_true', decide_eq_false_iff_not]
    at ht
  obtain ⟨hskip, ht⟩ := ht
  unfold part
  rw [if_neg hskip]
  split_ifs with hnamed hliteral hname hempty
  · exact ⟨_, rfl, treeLexemes_symbolTrees source parent t⟩
  · obtain ⟨k, hk, hlexemes⟩ := hplain.1 ⟨by simpa using hnamed, hliteral⟩
    refine ⟨_, rfl, ?_⟩
    rw [hk, Option.getD_some, leaf, treeLexemes_node, hlexemes]
    simp [treeLexemes, Token.lexeme]
  · refine ⟨_, rfl, ?_⟩
    rw [leaf, treeLexemes_node, hplain.2 ⟨by simpa using hnamed, hliteral, hname⟩]
    simp [treeLexemes, Token.lexeme]
  · refine ⟨_, rfl, ?_⟩
    rw [treeLexemes_node, treeLexemes_scanned]
  · simp [hnamed, hliteral, hname, hempty] at ht

theorem part_of_inner {source : Text} {parent : String} {t : ParseTree}
    (hskip : isSkipped t = false) (ht : isTerminal t = false) :
    part source parent t = .opened (nodeKind source t) := by
  simp only [isTerminal, hskip, Bool.not_false, Bool.true_and, Bool.or_eq_false_iff,
    decide_eq_false_iff_not] at ht
  obtain ⟨⟨⟨hnamed, hliteral⟩, hname⟩, hempty⟩ := ht
  unfold part
  rw [if_neg (by simpa [isSkipped] using hskip), if_neg (by simp [hnamed]), if_neg hliteral,
    if_neg hname, if_neg (by simp [hempty])]

mutual
/-- What a node becomes has the tokens of the terminals in it. -/
theorem treeLexemes_treesOf (source : Text) : ∀ (t : ParseTree) (parent : String),
    (∀ u ∈ terminals t, Plain source u) →
    treeLexemes (treesOf source parent t) =
      (terminals t).flatMap fun u => lexemes (u.text source)
  | .node m cs, parent, h => by
    rw [terminals] at h ⊢
    cases hskip : isSkipped (.node m cs) with
    | true =>
      rw [treesOf_closed (part_of_skipped hskip)]
      rfl
    | false =>
      cases hterm : isTerminal (.node m cs) with
      | true =>
        simp only [hskip, hterm, Bool.false_eq_true, if_false, if_true] at h ⊢
        obtain ⟨trees, hpart, hlexemes⟩ :=
          part_of_terminal hterm (h _ (List.mem_singleton_self _))
        rw [treesOf_closed hpart, hlexemes, List.flatMap_singleton]
      | false =>
        simp only [hskip, hterm, Bool.false_eq_true, if_false] at h ⊢
        rw [treesOf_opened (part_of_inner hskip hterm), treeLexemes_node]
        exact treeLexemes_treesOfAll source cs m.kind h

theorem treeLexemes_treesOfAll (source : Text) : ∀ (cs : List ParseTree) (parent : String),
    (∀ u ∈ terminalsAll cs, Plain source u) →
    treeLexemes (treesOfAll source parent cs) =
      (terminalsAll cs).flatMap fun u => lexemes (u.text source)
  | [], parent, _ => by
    rw [treesOfAll_nil, terminalsAll_nil, treeLexemes, Tree.leavesAll_nil]
    rfl
  | c :: cs, parent, h => by
    rw [terminalsAll_cons] at h
    rw [treesOfAll_cons, terminalsAll_cons, treeLexemes_append, List.flatMap_append,
      treeLexemes_treesOf source c parent fun u hu => h u (List.mem_append_left _ hu),
      treeLexemes_treesOfAll source cs parent fun u hu => h u (List.mem_append_right _ hu)]
end

/-! ## Translation units -/

theorem nodeKind_eq_translationUnit {source : Text} {t : ParseTree} :
    nodeKind source t = .TranslationUnit ↔ t.kind = "translation_unit" := by
  have hite : ∀ (c : Prop) [Decidable c] (a b : NodeKind), a ≠ .TranslationUnit →
      b ≠ .TranslationUnit → (if c then a else b) ≠ .TranslationUnit := by
    intro c _ a b ha hb
    split
    · exact ha
    · exact hb
  constructor
  · intro h
    by_cases hk : t.kind = "translation_unit"
    · exact hk
    · refine absurd h ?_
      unfold nodeKind
      rw [if_neg hk]
      cases (t.childByField? "operator").map (·.text source) with
      | none =>
        dsimp only
        repeat' apply hite
        all_goals simp
      | some op =>
        dsimp only
        repeat' apply hite
        all_goals simp
  · intro h
    unfold nodeKind
    rw [if_pos h]

/-- No tree in these is a translation unit. -/
def NoUnit (trees : List Tree) : Prop :=
  ∀ depth, ∀ x ∈ Tree.preorderAll depth trees, x.2.kind ≠ .TranslationUnit

theorem noUnit_nil : NoUnit [] := by
  intro depth x hx
  rw [Tree.preorderAll] at hx
  cases hx

theorem noUnit_cons {t : Tree} {ts : List Tree} :
    NoUnit (t :: ts) ↔ NoUnit [t] ∧ NoUnit ts := by
  simp only [NoUnit, Tree.preorderAll, List.mem_append, List.not_mem_nil, or_false]
  constructor
  · intro h
    exact ⟨fun depth x hx => h depth x (.inl hx), fun depth x hx => h depth x (.inr hx)⟩
  · rintro ⟨ht, hts⟩ depth x (hx | hx)
    · exact ht depth x hx
    · exact hts depth x hx

theorem noUnit_node {k : NodeKind} {span : Span} {cs : List Tree} (hk : k ≠ .TranslationUnit)
    (hcs : NoUnit cs) : NoUnit [.node k span cs] := by
  intro depth x hx
  simp only [Tree.preorderAll, Tree.preorder, List.mem_append, List.mem_cons, List.not_mem_nil,
    or_false] at hx
  rcases hx with rfl | hx
  · exact hk
  · exact hcs (depth + 1) x hx

theorem noUnit_map_token (ts : List Token) : NoUnit (ts.map .token) := by
  induction ts with
  | nil => exact noUnit_nil
  | cons t ts ih =>
    refine noUnit_cons.2 ⟨?_, ih⟩
    intro depth x hx
    simp only [Tree.preorderAll, Tree.preorder, List.mem_append, List.mem_cons, List.not_mem_nil,
      or_false] at hx
    rw [hx]
    simp [Tree.kind]

theorem noUnit_append {ts us : List Tree} (ht : NoUnit ts) (hu : NoUnit us) :
    NoUnit (ts ++ us) := by
  induction ts with
  | nil => exact hu
  | cons t ts ih =>
    obtain ⟨h, hts⟩ := noUnit_cons.1 ht
    exact noUnit_cons.2 ⟨h, ih hts⟩

theorem noUnit_scanned (source : Text) (t : ParseTree) : NoUnit (scanned source t) := by
  have h := noUnit_map_token ((tokenize (t.text source)).map
    fun token => { token with position := t.start })
  rw [List.map_map] at h
  exact h

/-- What a node becomes at once holds no translation unit. -/
theorem noUnit_of_closed {source : Text} {parent : String} {t : ParseTree} {trees : List Tree}
    (h : part source parent t = .closed trees) : NoUnit trees := by
  have hnode : ∀ k, k ≠ .TranslationUnit → ∀ ts : List Token,
      NoUnit [.node k t.span (ts.map .token)] :=
    fun k hk ts => noUnit_node hk (noUnit_map_token ts)
  unfold part at h
  split_ifs at h with h1 h2 h3 h4 h5
  · cases h
    exact noUnit_nil
  · cases h
    unfold symbolTrees
    split_ifs
    · exact hnode .RightShift (by simp) [_, _]
    · exact hnode .RightShiftAssign (by simp) [_, _]
    · exact noUnit_scanned source t
  · cases h
    exact hnode .Literal (by simp) [_]
  · cases h
    refine hnode (nameKind parent t) ?_ [_]
    unfold nameKind
    dsimp only
    split <;> simp
  · cases h
    exact noUnit_node (by simp) (noUnit_scanned source t)

mutual
theorem noUnit_treesOf (source : Text) : ∀ (t : ParseTree) (parent : String),
    (∀ u ∈ t.nodes, u.kind ≠ "translation_unit") → NoUnit (treesOf source parent t)
  | .node m cs, parent, h => by
    rw [ParseTree.nodes] at h
    cases hpart : part source parent (.node m cs) with
    | closed trees =>
      rw [treesOf_closed hpart]
      exact noUnit_of_closed hpart
    | opened kind =>
      rw [treesOf_opened hpart]
      obtain ⟨rfl, -⟩ := part_opened hpart
      refine noUnit_node ?_ (noUnit_treesOfAll source cs m.kind ?_)
      · rw [ne_eq, nodeKind_eq_translationUnit]
        exact h _ (List.mem_cons_self ..)
      · exact fun u hu => h u (List.mem_cons_of_mem _ hu)

theorem noUnit_treesOfAll (source : Text) : ∀ (cs : List ParseTree) (parent : String),
    (∀ u ∈ ParseTree.nodesAll cs, u.kind ≠ "translation_unit") →
    NoUnit (treesOfAll source parent cs)
  | [], parent, _ => by
    rw [treesOfAll_nil]
    exact noUnit_nil
  | c :: cs, parent, h => by
    rw [ParseTree.nodesAll] at h
    rw [treesOfAll_cons]
    exact noUnit_append (noUnit_treesOf source c parent fun u hu => h u (List.mem_append_left _ hu))
      (noUnit_treesOfAll source cs parent fun u hu => h u (List.mem_append_right _ hu))
end

/-! ## The whole conversion -/

theorem countP_of_lexemes {as bs : List Token} (h : as.map Token.lexeme = bs.map Token.lexeme)
    (p : Kind → Bool) : as.countP (fun t => p t.kind) = bs.countP fun t => p t.kind := by
  have hmap : ∀ ts : List Token, ts.countP (fun t => p t.kind) =
      (ts.map Token.lexeme).countP fun l => p l.1 := by
    intro ts
    rw [List.countP_map]
    rfl
  rw [hmap, hmap, h]

/-- When the terminals of a parse tree tile the tokens of the source, the converted tree has
the tokens of the source in their order. Then a walk counts the identifiers, the periods and
the parentheses of the token stream, and its characters when the root is the only translation
unit. -/
theorem tokens_of_convert {source : Text} {root : ParseTree}
    (h : Tiled source (terminalsAll root.children)) :
    (convert source root).leaves.map Token.lexeme = (tokenize source).map Token.lexeme ∧
      (Tally.ofTree (convert source root)).identifiers =
        (tokenize source).countP (·.kind = .identifier) ∧
      (Tally.ofTree (convert source root)).periods =
        (tokenize source).countP (·.kind = .punctuator .Dot) ∧
      (Tally.ofTree (convert source root)).parentheses = (tokenize source).countP
        (fun t => t.kind = .punctuator .LeftParen || t.kind = .punctuator .LeftBrace) ∧
      (root.kind = "translation_unit" →
        (∀ t ∈ ParseTree.nodesAll root.children, t.kind ≠ "translation_unit") →
        (Tally.ofTree (convert source root)).characters =
          ((tokenize source).map (·.text.length)).sum) := by
  have hleaves : (Tree.leavesAll (treesOfAll source root.kind root.children)).map Token.lexeme =
      (tokenize source).map Token.lexeme := by
    have hterminals := treeLexemes_treesOfAll source root.children root.kind fun t ht => h.plain ht
    rw [lexemes_of_tiledFrom h.from_zero, List.drop_zero] at hterminals
    exact hterminals
  rw [convert_eq_toTree, toTree]
  refine ⟨?_, ?_, ?_, ?_, ?_⟩
  · rw [Tree.leaves_node, hleaves]
  · rw [Tally.counts_identifiers.ofTree rfl]
    exact countP_of_lexemes hleaves (· = .identifier)
  · rw [Tally.counts_periods.ofTree rfl]
    exact countP_of_lexemes hleaves (· = .punctuator .Dot)
  · rw [Tally.counts_parentheses.ofTree rfl]
    exact countP_of_lexemes hleaves fun k =>
      k = .punctuator .LeftParen || k = .punctuator .LeftBrace
  · intro hroot hbelow
    rw [nodeKind_eq_translationUnit.2 hroot,
      Tally.characters_ofTree _ _ (noUnit_treesOfAll source root.children root.kind hbelow 2)]
    have hlengths := congrArg (fun ls : List Lexeme => (ls.map (·.2.length)).sum) hleaves
    rw [List.map_map, List.map_map] at hlengths
    exact hlengths

/-- The source of a statement with a right shift and a comment after it. -/
def shiftSource : Text := ['a', '>', '>', '5', ';', '/', '/']

/-- Its parse tree. -/
def shiftTree : ParseTree :=
  .node { kind := "translation_unit", start := 0, stop := 7 }
    [.node { kind := "expression_statement", start := 0, stop := 5 }
      [.node { kind := "binary_expression", start := 0, stop := 4 }
        [.node { kind := "identifier", start := 0, stop := 1 } [],
          .node { kind := ">>", named := false, field := some "operator", start := 1, stop := 3 } [],
          .node { kind := "number_literal", start := 3, stop := 4 } []],
        .node { kind := ";", named := false, start := 4, stop := 5 } []],
      .node { kind := "comment", start := 5, stop := 7 } []]

theorem tokens_of_shiftTree :
    Tiled shiftSource (terminalsAll shiftTree.children) ∧
      (convert shiftSource shiftTree).leaves.map Token.lexeme =
        (tokenize shiftSource).map Token.lexeme ∧
      (Tally.ofTree (convert shiftSource shiftTree)).characters = 5 := by
  have htokens : tokenize shiftSource =
      [⟨.identifier, ['a'], ⟨1, 1, 0⟩⟩, ⟨.punctuator .Greater, ['>'], ⟨1, 2, 1⟩⟩,
        ⟨.punctuator .Greater, ['>'], ⟨1, 3, 2⟩⟩, ⟨.literal .integer, ['5'], ⟨1, 4, 3⟩⟩,
        ⟨.punctuator .Semi, [';'], ⟨1, 5, 4⟩⟩] := by decide +kernel
  have hterminals : terminalsAll shiftTree.children =
      [.node { kind := "identifier", start := 0, stop := 1 } [],
        .node { kind := ">>", named := false, field := some "operator", start := 1, stop := 3 } [],
        .node { kind := "number_literal", start := 3, stop := 4 } [],
        .node { kind := ";", named := false, start := 4, stop := 5 } []] := rfl
  have hspans : ∀ (t : ParseTree) (i j : Nat) (a b : Token), (tokenize shiftSource)[i]? = some a →
      (tokenize shiftSource)[j]? = some b → i ≤ j → t.mark.start = a.position.offset →
      t.mark.stop = b.stop → Spans shiftSource t i j :=
    fun t i j a b ha hb hij hstart hstop => ⟨a, b, ha, hb, hij, hstart, hstop⟩
  rw [htokens] at hspans
  have hname := hspans (.node { kind := "identifier", start := 0, stop := 1 } []) 0 0 _ _ rfl rfl
    (by decide) rfl rfl
  have hshift := hspans
    (.node { kind := ">>", named := false, field := some "operator", start := 1, stop := 3 } [])
    1 2 _ _ rfl rfl (by decide) rfl rfl
  have hnumber := hspans (.node { kind := "number_literal", start := 3, stop := 4 } []) 3 3 _ _
    rfl rfl (by decide) rfl rfl
  have hend := hspans (.node { kind := ";", named := false, start := 4, stop := 5 } []) 4 4 _ _
    rfl rfl (by decide) rfl rfl
  have htiled : Tiled shiftSource (terminalsAll shiftTree.children) := by
    rw [hterminals]
    refine ⟨?_, ?_, ?_, ?_, ?_⟩
    · simp [ParseTree.mark]
    · intro t ht
      simp only [List.mem_cons, List.not_mem_nil, or_false] at ht
      rcases ht with rfl | rfl | rfl | rfl
      · exact .inl ⟨0, 0, hname⟩
      · exact .inl ⟨1, 2, hshift⟩
      · exact .inl ⟨3, 3, hnumber⟩
      · exact .inl ⟨4, 4, hend⟩
    · rw [htokens]
      simp only [List.forall_mem_cons]
      exact ⟨⟨_, by simp, ⟨0, 0, hname⟩, by decide, by decide⟩,
        ⟨_, by simp, ⟨1, 2, hshift⟩, by decide, by decide⟩,
        ⟨_, by simp, ⟨1, 2, hshift⟩, by decide, by decide⟩,
        ⟨_, by simp, ⟨3, 3, hnumber⟩, by decide, by decide⟩,
        ⟨_, by simp, ⟨4, 4, hend⟩, by decide, by decide⟩, by simp⟩
    · intro t ht hliteral
      simp only [List.mem_cons, List.not_mem_nil, or_false] at ht
      rcases ht with rfl | rfl | rfl | rfl
      · exact absurd hliteral.2 (by decide)
      · exact absurd hliteral.2 (by decide)
      · exact ⟨3, hnumber⟩
      · exact absurd hliteral.2 (by decide)
    · intro t ht hname'
      simp only [List.mem_cons, List.not_mem_nil, or_false] at ht
      rcases ht with rfl | rfl | rfl | rfl
      · exact ⟨0, _, hname, by rw [htokens]; rfl, rfl⟩
      · exact absurd hname'.2.2 (by decide)
      · exact absurd hname'.2.2 (by decide)
      · exact absurd hname'.2.2 (by decide)
  obtain ⟨hlexemes, -, -, -, hcharacters⟩ := tokens_of_convert htiled
  refine ⟨htiled, hlexemes, ?_⟩
  rw [hcharacters rfl (by decide), htokens]
  rfl

end Grammar
end Stylometry
