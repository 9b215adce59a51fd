-- Places of nodes. The conversion places every node and token where the parser places a node of the
-- parse tree, and when the parser counts line feeds, these places are those that the table of line
-- starts gives. So the scan of a source and its syntax tree place the same byte alike.
import Mathlib.Data.List.TakeDrop
import Stylometry.Grammar.Listing
import Stylometry.Proofs.ConversionTokens
import Stylometry.Proofs.LineFeeds
import Stylometry.Proofs.TokenOrder

namespace Stylometry

/-! ## Spans in a tree -/

namespace Tree

mutual
/-- The spans of the nodes of the tree, in preorder. -/
def spans : Tree → List Span
  | .token _ => []
  | .node _ s cs => s :: spansAll cs

/-- The spans of the nodes of several trees, one tree after the other. -/
def spansAll : List Tree → List Span
  | [] => []
  | c :: cs => c.spans ++ spansAll cs
end

@[simp] theorem spans_token (t : Token) : (Tree.token t).spans = [] := by rw [spans]

@[simp] theorem spans_node (k : NodeKind) (s : Span) (cs : List Tree) :
    (Tree.node k s cs).spans = s :: spansAll cs := by rw [spans]

@[simp] theorem spansAll_nil : spansAll [] = [] := by rw [spansAll]

@[simp] theorem spansAll_cons (c : Tree) (cs : List Tree) :
    spansAll (c :: cs) = c.spans ++ spansAll cs := by rw [spansAll]

theorem spansAll_append (cs ds : List Tree) :
    spansAll (cs ++ ds) = spansAll cs ++ spansAll ds := by
  induction cs with
  | nil => simp
  | cons c cs ih => simp [ih]

theorem spansAll_map_token (ts : List Token) : spansAll (ts.map .token) = [] := by
  induction ts with
  | nil => simp
  | cons t ts ih => simp [ih]

end Tree

/-! ## Places in a converted tree -/

namespace Grammar

/-- The nodes of the trees cover what some of the given nodes cover, and the tokens stand where some
of them start. -/
structure Located (ts : List ParseTree) (trees : List Tree) : Prop where
  spans : ∀ s ∈ Tree.spansAll trees, ∃ t ∈ ts, s = t.span
  positions : ∀ a ∈ Tree.leavesAll trees, ∃ t ∈ ts, a.position = t.start

namespace Located

variable {ts us : List ParseTree} {trees more : List Tree}

theorem nil : Located ts [] where
  spans s hs := by simp at hs
  positions a ha := by simp at ha

theorem mono (h : Located ts trees) (hsub : ts ⊆ us) : Located us trees where
  spans s hs := by
    obtain ⟨t, ht, hspan⟩ := h.spans s hs
    exact ⟨t, hsub ht, hspan⟩
  positions a ha := by
    obtain ⟨t, ht, hposition⟩ := h.positions a ha
    exact ⟨t, hsub ht, hposition⟩

theorem append (h : Located ts trees) (hmore : Located ts more) :
    Located ts (trees ++ more) where
  spans s hs := by
    rw [Tree.spansAll_append, List.mem_append] at hs
    exact hs.elim (h.spans s) (hmore.spans s)
  positions a ha := by
    rw [Tree.leavesAll_append, List.mem_append] at ha
    exact ha.elim (h.positions a) (hmore.positions a)

/-- A node with the span of one of the given nodes may stand around. -/
theorem node {t : ParseTree} (ht : t ∈ ts) (k : NodeKind) (h : Located ts trees) :
    Located ts [.node k t.span trees] where
  spans s hs := by
    simp only [Tree.spansAll_cons, Tree.spans_node, Tree.spansAll_nil, List.append_nil,
      List.mem_cons] at hs
    rcases hs with rfl | hs
    · exact ⟨t, ht, rfl⟩
    · exact h.spans s hs
  positions a ha := by
    rw [Tree.leavesAll_cons, Tree.leaves_node, Tree.leavesAll_nil, List.append_nil] at ha
    exact h.positions a ha

theorem tokens {t : ParseTree} (ht : t ∈ ts) {as : List Token}
    (h : ∀ a ∈ as, a.position = t.start) : Located ts (as.map .token) where
  spans s hs := by simp [Tree.spansAll_map_token] at hs
  positions a ha := by
    rw [Tree.leavesAll_map_token] at ha
    exact ⟨t, ht, h a ha⟩

theorem scanned (source : Text) {t : ParseTree} (ht : t ∈ ts) :
    Located ts (scanned source t) := by
  have htokens : Grammar.scanned source t = ((tokenize (t.text source)).map
      fun token => { token with position := t.start }).map .token := by
    rw [List.map_map]
    rfl
  rw [htokens]
  apply tokens ht
  intro a ha
  obtain ⟨token, -, rfl⟩ := List.mem_map.1 ha
  rfl

end Located

/-- What a node becomes at once is placed by that node. -/
theorem located_of_closed {source : Text} {parent : String} {t : ParseTree} {trees : List Tree}
    (h : part source parent t = .closed trees) : Located [t] trees := by
  have ht : t ∈ [t] := List.mem_singleton_self t
  have hnode : ∀ (k : NodeKind) (as : List Token), (∀ a ∈ as, a.position = t.start) →
      Located [t] [.node k t.span (as.map .token)] :=
    fun k as has => .node ht k (.tokens ht has)
  unfold part at h
  split_ifs at h
  · cases h
    exact .nil
  · cases h
    unfold symbolTrees
    split_ifs
    · exact hnode .RightShift [_, _] (by simp)
    · exact hnode .RightShiftAssign [_, _] (by simp)
    · exact .scanned source ht
  · cases h
    exact hnode .Literal [_] (by simp)
  · cases h
    exact hnode (nameKind parent t) [_] (by simp)
  · cases h
    exact .node ht .Other (.scanned source ht)

mutual
/-- What a node becomes is placed by it and the nodes below it. -/
theorem located_treesOf (source : Text) : ∀ (t : ParseTree) (parent : String),
    Located t.nodes (treesOf source parent t)
  | .node m cs, parent => by
    rw [ParseTree.nodes]
    cases hpart : part source parent (.node m cs) with
    | closed trees =>
      rw [treesOf_closed hpart]
      exact (located_of_closed hpart).mono (by simp)
    | opened kind =>
      rw [treesOf_opened hpart]
      have hbelow := (located_treesOfAll source cs m.kind).mono
        (List.subset_cons_self (.node m cs) _)
      exact .node (List.mem_cons_self ..) kind hbelow

theorem located_treesOfAll (source : Text) : ∀ (cs : List ParseTree) (parent : String),
    Located (ParseTree.nodesAll cs) (treesOfAll source parent cs)
  | [], parent => by
    rw [treesOfAll_nil]
    exact .nil
  | c :: cs, parent => by
    rw [ParseTree.nodesAll, treesOfAll_cons]
    exact ((located_treesOf source c parent).mono (List.subset_append_left _ _)).append
      ((located_treesOfAll source cs parent).mono (List.subset_append_right _ _))
end

/-- The converted tree is placed by the nodes of the parse tree. -/
theorem located_convert (source : Text) (root : ParseTree) :
    Located root.nodes [convert source root] := by
  rw [convert_eq_toTree, toTree]
  cases root with
  | node m cs =>
    rw [ParseTree.nodes]
    have hbelow := (located_treesOfAll source cs m.kind).mono
      (List.subset_cons_self (.node m cs) _)
    exact .node (List.mem_cons_self ..) _ hbelow

end Grammar

/-! ## One place for each byte -/

/-- The parser counts the rows of a node by the line feeds before it in the source, and its columns
by the bytes since the last of them. -/
structure Mark.CountsFeeds (m : Mark) (source : Text) : Prop where
  start : m.startPoint = ⟨source.feedsBefore m.start, m.start - source.lineStart m.start⟩
  stop : m.stopPoint = ⟨source.feedsBefore m.stop, m.stop - source.lineStart m.stop⟩

instance (m : Mark) (source : Text) : Decidable (m.CountsFeeds source) :=
  decidable_of_iff (_ ∧ _) ⟨fun h => ⟨h.1, h.2⟩, fun h => ⟨h.1, h.2⟩⟩

namespace ParseTree

variable {source : Text} {t : ParseTree}

theorem start_eq_position (h : t.mark.CountsFeeds source) :
    t.start = (LineTable.ofText source).position t.mark.start := by
  rw [start, h.start, LineTable.position_ofText]
  rfl

theorem span_eq_span (h : t.mark.CountsFeeds source) :
    t.span = (LineTable.ofText source).span t.mark.start t.mark.stop := by
  rw [span, start_eq_position h, h.stop, LineTable.span, LineTable.position_ofText _ t.mark.stop]
  rfl

end ParseTree

namespace Grammar

variable {source : Text} {root : ParseTree}

theorem span_of_mem_convert (h : ∀ t ∈ root.nodes, t.mark.CountsFeeds source) {s : Span}
    (hs : s ∈ (convert source root).spans) :
    ∃ t ∈ root.nodes, s = (LineTable.ofText source).span t.mark.start t.mark.stop := by
  obtain ⟨t, ht, hspan⟩ := (located_convert source root).spans s (by simpa using hs)
  exact ⟨t, ht, by rw [hspan, t.span_eq_span (h t ht)]⟩

theorem position_of_mem_convert (h : ∀ t ∈ root.nodes, t.mark.CountsFeeds source) {b : Token}
    (hb : b ∈ (convert source root).leaves) :
    ∃ t ∈ root.nodes, b.position = (LineTable.ofText source).position t.mark.start := by
  obtain ⟨t, ht, hposition⟩ := (located_convert source root).positions b (by simpa using hb)
  exact ⟨t, ht, by rw [hposition, t.start_eq_position (h t ht)]⟩

/-- A token of the scan and a token of the converted tree that start at one byte have one place. -/
theorem position_eq_of_offset_eq (h : ∀ t ∈ root.nodes, t.mark.CountsFeeds source) {a b : Token}
    (ha : a ∈ tokenize source) (hb : b ∈ (convert source root).leaves)
    (hoffset : a.position.offset = b.position.offset) : a.position = b.position := by
  obtain ⟨i, hi⟩ := List.mem_iff_getElem?.1 ha
  obtain ⟨t, -, hposition⟩ := position_of_mem_convert h hb
  have hstart : b.position.offset = t.mark.start := by rw [hposition]; rfl
  rw [position_of_getElem? hi, hposition, hoffset, hstart]

end Grammar

/-! ## Listings -/

theorem mem_of_mapM_eq_some {α β : Type} {f : α → Option β} {as : List α} {bs : List β}
    (h : as.mapM f = some bs) {b : β} (hb : b ∈ bs) : ∃ a ∈ as, f a = some b := by
  induction as generalizing bs with
  | nil =>
    cases h
    cases hb
  | cons a as ih =>
    simp only [List.mapM_cons, Option.bind_eq_bind, Option.bind_eq_some_iff, Option.pure_def,
      Option.some.injEq] at h
    obtain ⟨first, hfirst, rest, hrest, rfl⟩ := h
    rcases List.mem_cons.1 hb with rfl | hb
    · exact ⟨a, List.mem_cons_self .., hfirst⟩
    · obtain ⟨d, hd, heq⟩ := ih hrest hb
      exact ⟨d, List.mem_cons_of_mem a hd, heq⟩

namespace ParseTree

theorem nodesAll_append (cs ds : List ParseTree) :
    nodesAll (cs ++ ds) = nodesAll cs ++ nodesAll ds := by
  induction cs with
  | nil => rw [nodesAll_nil, List.nil_append, List.nil_append]
  | cons c cs ih => rw [List.cons_append, nodesAll_cons, nodesAll_cons, ih, List.append_assoc]

/-- The nodes of the trees that a listing describes are its entries, in their order. -/
theorem map_mark_nest (entries : List (Nat × Mark)) :
    (nodesAll (Tree.nest node entries)).map mark = entries.map (·.2) := by
  unfold Tree.nest
  induction entries with
  | nil => rw [List.foldr_nil, List.map_nil, nodesAll_nil]; rfl
  | cons e entries ih =>
    let later := entries.foldr (Tree.nest.step node) []
    have hlater : (later.takeWhile fun tree => e.1 < tree.1) ++
        later.dropWhile (fun tree => e.1 < tree.1) = later := List.takeWhile_append_dropWhile
    have hstep : (e :: entries).foldr (Tree.nest.step node) [] =
        (e.1, node e.2 ((later.takeWhile fun tree => e.1 < tree.1).map (·.2))) ::
          later.dropWhile (fun tree => e.1 < tree.1) := by
      rw [List.foldr_cons, Tree.nest.step, List.span_eq_takeWhile_dropWhile]
    rw [hstep, List.map_cons, nodesAll_cons, nodes, List.cons_append, ← nodesAll_append,
      ← List.map_append, hlater, List.map_cons, List.map_cons, ih]
    rfl

theorem countsFeeds_counted (source : Text) (m : Mark) :
    (m.counted source).CountsFeeds source :=
  ⟨Point.inText_eq source m.start, Point.inText_eq source m.stop⟩

theorem countsFeeds_of_entryOf? {source : Text} {d : Datum} {e : Nat × Mark}
    (h : entryOf? source d = some e) : e.2.CountsFeeds source := by
  unfold entryOf? at h
  split at h
  · simp only [Option.bind_eq_bind, Option.bind_eq_some_iff, Option.pure_def,
      Option.some.injEq] at h
    obtain ⟨flags, -, depth, -, kind, -, start, -, stop, -, rfl⟩ := h
    exact countsFeeds_counted source _
  · cases h

theorem countsFeeds_ofListing {source listing : Text} {root : ParseTree}
    (h : ofListing? source listing = some root) :
    ∀ t ∈ root.nodes, t.mark.CountsFeeds source := by
  intro t ht
  simp only [ofListing?, Option.bind_eq_bind, Option.bind_eq_some_iff] at h
  obtain ⟨d, -, entries, hentries, hroot⟩ := h
  have hmark : t.mark ∈ entries.map (·.2) := by
    rw [← map_mark_nest]
    refine List.mem_map_of_mem ?_
    obtain ⟨others, hothers⟩ := List.head?_eq_some_iff.1 hroot
    rw [hothers, nodesAll_cons]
    exact List.mem_append_left _ ht
  obtain ⟨e, he, heq⟩ := List.mem_map.1 hmark
  have hread : ∃ items, d = .list items ∧ items.mapM (entryOf? source) = some entries := by
    cases d <;> first | exact ⟨_, rfl, hentries⟩ | cases hentries
  obtain ⟨items, -, hitems⟩ := hread
  obtain ⟨item, -, hitem⟩ := mem_of_mapM_eq_some hitems he
  rw [← heq]
  exact countsFeeds_of_entryOf? hitem

/-- The parse tree from beside a source counts line feeds, whatever the listing holds. -/
theorem countsFeeds_beside (store : Files.Store) (id source : Text) :
    ∀ t ∈ (beside store id source).nodes, t.mark.CountsFeeds source := by
  have hunparsed : ∀ t ∈ (unparsed source).nodes, t.mark.CountsFeeds source := by
    intro t ht
    rw [unparsed, nodes, nodesAll_nil, List.mem_singleton] at ht
    rw [ht]
    exact countsFeeds_counted source _
  unfold beside
  split
  · rename_i listing _
    cases hlisting : ofListing? source listing with
    | none => exact hunparsed
    | some root => exact countsFeeds_ofListing hlisting
  · exact hunparsed

/-- So the tree from beside a source has its tokens where the scan has them. -/
theorem position_eq_beside {store : Files.Store} {id source : Text} {a b : Token}
    (ha : a ∈ tokenize source) (hb : b ∈ (Grammar.convert source (beside store id source)).leaves)
    (hoffset : a.position.offset = b.position.offset) : a.position = b.position :=
  Grammar.position_eq_of_offset_eq (countsFeeds_beside store id source) ha hb hoffset

end ParseTree

/-! ## Places by line feeds -/

open LineTable Grammar

/-- The table of line starts places an offset in the line after as many lines as line feeds stand
before it, at the column of the bytes since the last of them. That line is the only answer of a
search for the last line start up to the offset; it is a line of the table, and it starts no later
than the offset. In 64 bits the same place is given, unless the column is too large for them: at the
largest offset, when it lies on the first line. A larger offset has a later place.

When the parser counts line feeds, a node of its tree starts and ends where the table places its
bytes, and so do the nodes and tokens of the tree that it is converted to. So a token of that tree
and a token of the scan that start at one byte have one place. -/
theorem places_by_line_feeds (source : Text) :
    (∀ offset,
      (ofText source).position offset =
        ⟨source.feedsBefore offset + 1, offset - source.lineStart offset + 1, offset⟩ ∧
      (∀ n, (ofText source).Splits offset n ↔ n = source.feedsBefore offset + 1) ∧
      (ofText source).starts[source.feedsBefore offset]? = some (source.lineStart offset) ∧
      source.lineStart offset ≤ offset) ∧
    (∀ offset < countLimit,
      (ofText source).locate offset =
        if offset + 1 = countLimit ∧ source.lineStart offset = 0 then .error .overflow
        else .ok ((ofText source).position offset)) ∧
    (∀ i j, i < j → ((ofText source).position i).Before ((ofText source).position j)) ∧
    (∀ t : ParseTree, t.mark.CountsFeeds source →
      t.start = (ofText source).position t.mark.start ∧
      t.span = (ofText source).span t.mark.start t.mark.stop) ∧
    ∀ root : ParseTree, (∀ t ∈ root.nodes, t.mark.CountsFeeds source) →
      (∀ s ∈ (convert source root).spans, ∃ t ∈ root.nodes,
        s = (ofText source).span t.mark.start t.mark.stop) ∧
      (∀ b ∈ (convert source root).leaves, ∃ t ∈ root.nodes,
        b.position = (ofText source).position t.mark.start) ∧
      ∀ a ∈ tokenize source, ∀ b ∈ (convert source root).leaves,
        a.position.offset = b.position.offset → a.position = b.position := by
  refine ⟨?_, fun _ => locate_ofText, fun _ _ => position_before_of_lt source, ?_, ?_⟩
  · intro offset
    exact ⟨position_ofText source offset, fun _ => splits_ofText,
      getElem?_starts_ofText source offset, source.lineStart_le offset⟩
  · exact fun t ht => ⟨t.start_eq_position ht, t.span_eq_span ht⟩
  · intro root hcounts
    refine ⟨?_, ?_, ?_⟩
    · exact fun s hs => span_of_mem_convert hcounts hs
    · exact fun b hb => position_of_mem_convert hcounts hb
    · exact fun a ha b hb => position_eq_of_offset_eq hcounts ha hb

/-- A declaration on two lines. -/
def brokenLine : Text := "int\na;".toList

def brokenTree : ParseTree :=
  .node { kind := "translation_unit", start := 0, stop := 6, stopPoint := ⟨1, 2⟩ }
    [.node { kind := "declaration", start := 0, stop := 6, stopPoint := ⟨1, 2⟩ }
      [.node { kind := "primitive_type", field := some "type", start := 0, stop := 3 } [],
        .node
          { kind := "identifier", field := some "declarator", start := 4, stop := 5,
            startPoint := ⟨1, 0⟩, stopPoint := ⟨1, 1⟩ }
          [],
        .node
          { kind := ";", named := false, start := 5, stop := 6,
            startPoint := ⟨1, 1⟩, stopPoint := ⟨1, 2⟩ }
          []]]

theorem places_by_line_feeds_brokenLine :
    (∀ t ∈ brokenTree.nodes, t.mark.CountsFeeds brokenLine) ∧
      ∃ a ∈ tokenize brokenLine, ∃ b ∈ (convert brokenLine brokenTree).leaves,
        a.position = ⟨2, 1, 4⟩ ∧ a.position = b.position := by
  have hcounts : ∀ t ∈ brokenTree.nodes, t.mark.CountsFeeds brokenLine := by decide +kernel
  obtain ⟨-, -, -, -, hroot⟩ := places_by_line_feeds brokenLine
  obtain ⟨-, -, hsame⟩ := hroot brokenTree hcounts
  obtain ⟨a, ha, hposition⟩ : ∃ a ∈ tokenize brokenLine, a.position = ⟨2, 1, 4⟩ := by
    decide +kernel
  obtain ⟨b, hb, hoffset⟩ : ∃ b ∈ (convert brokenLine brokenTree).leaves,
      b.position.offset = 4 := by
    rw [convert_eq_toTree]
    decide +kernel
  exact ⟨hcounts, a, ha, b, hb, hposition, hsame a ha b hb (by rw [hposition, hoffset])⟩

end Stylometry
