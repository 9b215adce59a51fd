-- Comments and directives, which the scan passes over and the conversion drops. The two drop the
-- same as long as each dropped node is one note of the scan and no other terminal that starts in a
-- note becomes a token. The names and the conditions of conditional directives are such terminals.
import Stylometry.Proofs.ConversionTokens
import Stylometry.Proofs.Separators

namespace Stylometry

/-! ## Bytes and cuts -/

namespace Text

/-- What is left after the bytes of the front of a text is its back. -/
theorem eq_of_dropBytes? {front back rest : Text}
    (h : dropBytes? (front ++ back) (byteLength front) = some rest) : rest = back := by
  rw [dropBytes?_append] at h
  exact (Option.some.inj h).symm

end Text

namespace Piece

/-- Two pieces of a scan are one when the one starts in the bytes of the other. -/
theorem eq_of_byteLength {before before' after after' : List Piece} {p q : Piece}
    (h : before ++ p :: after = before' ++ q :: after') (hp : p.text ≠ [])
    (hle : Text.byteLength (before'.flatMap text) ≤ Text.byteLength (before.flatMap text))
    (hlt : Text.byteLength (before.flatMap text) <
      Text.byteLength (before'.flatMap text) + Text.byteLength q.text) : p = q := by
  have hpos := Text.byteLength_pos hp
  rcases List.append_eq_append_iff.1 h with ⟨between, rfl, hrest⟩ | ⟨between, rfl, hrest⟩
  · cases between with
    | nil => exact (List.cons.inj hrest).1
    | cons r between =>
      cases hrest
      simp only [List.flatMap_append, List.flatMap_cons, Text.byteLength_append] at hle
      omega
  · cases between with
    | nil => exact (List.cons.inj hrest).1.symm
    | cons r between =>
      cases hrest
      simp only [List.flatMap_append, List.flatMap_cons, Text.byteLength_append] at hlt
      omega

end Piece

/-- A token of a source stands before a piece that is no token, or it is a token of the text after
that piece. -/
theorem offset_cases {source : Text} {before after : List Piece} {p : Piece}
    (h : Piece.ofText source = before ++ p :: after) (hp : p.kind? = none) {a : Token}
    (ha : a ∈ tokenize source) :
    a.position.offset < Text.byteLength (before.flatMap Piece.text) ∨
      ∃ b ∈ tokenize (after.flatMap Piece.text),
        a.position.offset = Text.byteLength (before.flatMap Piece.text) +
          Text.byteLength p.text + b.position.offset := by
  rw [tokenize, h, Piece.place_append, place_cons, hp, List.mem_append] at ha
  rcases ha with ha | ha
  · left
    obtain ⟨i, hi⟩ := List.mem_iff_getElem?.1 ha
    obtain ⟨front, back, rfl, -, hposition⟩ := Piece.exists_of_getElem?_place hi
    have hne : a.text ≠ [] := Piece.text_ne_nil_of_mem (t := source) (p := .token a.kind a.text)
      (by rw [h]; simp)
    have hpos := Text.byteLength_pos hne
    have hoffset : a.position.offset = 0 + Text.byteLength (front.flatMap Piece.text) :=
      congrArg Position.offset hposition
    simp only [List.flatMap_append, List.flatMap_cons, Text.byteLength_append, Piece.text]
    omega
  · right
    have hafter : Piece.ofText (after.flatMap Piece.text) = after :=
      @Piece.ofText_of_append source (before ++ [p]) after (by rw [h]; simp)
    have hspot := List.mem_map_of_mem (f := Token.spot 0) ha
    rw [Option.map_none, Option.toList_none, List.nil_append, Nat.zero_add, ← Nat.zero_add (_ + _),
      Piece.map_spot_place _ (.ofText (after.flatMap Piece.text))] at hspot
    obtain ⟨b, hb, heq⟩ := List.mem_map.1 hspot
    refine ⟨b, by rwa [tokenize, hafter], ?_⟩
    have hoffset : b.position.offset + _ = a.position.offset + 0 :=
      congrArg (fun s : Kind × Text × Nat => s.2.2) heq
    omega

/-- A text that the scan passes over in one step is a piece before the pieces of the rest. -/
theorem ofText_of_next {u rest : Text} (hu : u ≠ []) (h : Next (u ++ rest) none u.length) :
    ∃ p, p.text = u ∧ p.kind? = none ∧ Piece.ofText (u ++ rest) = p :: Piece.ofText rest := by
  obtain ⟨hlength, hkind⟩ := next_iff.1 h
  refine ⟨(Piece.headLength (u ++ rest)).1 u, Piece.text_headLength _ _, hkind u, ?_⟩
  rw [Piece.ofText_of_ne_nil (List.append_ne_nil_of_left_ne_nil hu rest), hlength, List.take_left,
    List.drop_left]

/-! ## Notes -/

/-- The byte lies in a comment or a directive that the scan passes over. -/
def InNote (source : Text) (n : Nat) : Prop :=
  ∃ before c t after, Piece.ofText source = before ++ .blank (c :: t) :: after ∧
    (c = '/' ∨ c = '#') ∧ Text.byteLength (before.flatMap Piece.text) ≤ n ∧
    n < Text.byteLength (before.flatMap Piece.text) + Text.byteLength (c :: t)

/-- No token starts in a note. -/
theorem not_inNote_of_token {source : Text} {a : Token} (ha : a ∈ tokenize source) :
    ¬InNote source a.position.offset := by
  rintro ⟨before, c, t, after, heq, -, hle, hlt⟩
  obtain ⟨i, hi⟩ := List.mem_iff_getElem?.1 ha
  obtain ⟨before', after', heq', -, hoffset⟩ := exists_of_getElem?_tokenize hi
  have hne : a.text ≠ [] := Piece.text_ne_nil_of_mem (t := source) (p := .token a.kind a.text)
    (by rw [heq']; simp)
  rw [hoffset] at hle hlt
  have hsame := Piece.eq_of_byteLength (heq'.symm.trans heq) hne hle hlt
  cases hsame

/-- A complete block comment, or a comment or a directive up to the end of its line, with the text
that follows it. -/
inductive Note : Text → Text → Prop
  | comment {u rest} : ¬['*', '/'] <:+: u → Note ('/' :: '*' :: (u ++ ['*', '/'])) rest
  | line {mark : String} {u rest} : mark ∈ ["//", "#"] → '\r' ∉ u ∧ '\n' ∉ u →
      (∀ c, rest.head? = some c → c = '\r' ∨ c = '\n') → Note (mark.toList ++ u) rest

theorem Note.ne_nil {note rest : Text} (h : Note note rest) : note ≠ [] := by
  cases h with
  | comment => exact List.cons_ne_nil _ _
  | line hmark =>
    obtain ⟨c, t, heq, -⟩ := Rule.head_of_mark hmark
    rw [heq]
    exact List.cons_ne_nil _ _

/-- The scan passes over a note in one step. -/
theorem Note.next {note rest : Text} (h : Note note rest) :
    Next (note ++ rest) none note.length := by
  cases h with
  | comment hu => exact next_comment_append hu rest
  | line hmark hu hrest => exact next_line_append hmark hu hrest

/-- No token starts in white space. -/
theorem white_le_offset {white rest : Text} (hwhite : ∀ c ∈ white, c ∈ whites) {a : Token}
    (ha : a ∈ tokenize (white ++ rest)) : Text.byteLength white ≤ a.position.offset := by
  cases white with
  | nil => exact Nat.zero_le _
  | cons c w =>
    obtain ⟨u, v, rfl, hu, hv⟩ := exists_longest_front (· ∈ whites) rest
    simp only [decide_eq_true_eq] at hu hv
    have hall : ∀ d ∈ c :: (w ++ u), d ∈ whites := by
      intro d hd
      rw [← List.cons_append, List.mem_append] at hd
      exact hd.elim (hwhite d) (hu d)
    obtain ⟨p, hp, hkind, hpieces⟩ :=
      ofText_of_next (List.cons_ne_nil _ _) (next_whites_append hall hv)
    rw [← List.append_assoc, List.cons_append] at ha
    rcases @offset_cases _ [] _ _ hpieces hkind _ ha with hlt | ⟨b, -, hoffset⟩
    · exact absurd hlt (Nat.not_lt_zero _)
    · rw [hoffset, hp]
      simp only [List.flatMap_nil, Text.byteLength_nil, Text.byteLength_cons,
        Text.byteLength_append]
      omega

/-- No token after a cut starts in white space that begins before the cut. -/
theorem white_le_offset_after {white rest front later : Text} (hwhite : ∀ c ∈ white, c ∈ whites)
    (h : white ++ rest = front ++ later) {a : Token} (ha : a ∈ tokenize later) :
    Text.byteLength white ≤ Text.byteLength front + a.position.offset := by
  rcases List.append_eq_append_iff.1 h with ⟨x, rfl, -⟩ | ⟨x, rfl, rfl⟩
  · rw [Text.byteLength_append, Nat.add_assoc]
    exact Nat.le_add_right _ _
  · have := white_le_offset (fun c hc => hwhite c (List.mem_append_right front hc)) ha
    rw [Text.byteLength_append]
    omega

/-- A piece that starts as a line goes up to the end of the line. -/
theorem head_of_line {t : Text} {mark : String} {u : Text} {after : List Piece}
    (hmark : mark ∈ ["//", "#"]) (h : Piece.ofText t = .blank (mark.toList ++ u) :: after)
    {c : Char} (hc : (after.flatMap Piece.text).head? = some c) : c = '\r' ∨ c = '\n' := by
  have htext : t = mark.toList ++ (u ++ after.flatMap Piece.text) := by
    rw [← Piece.flatMap_text_of_eq h]
    simp [Piece.text]
  obtain ⟨v, w, hsplit, hv, hw⟩ :=
    exists_longest_front (fun c => c ≠ '\r' ∧ c ≠ '\n') (u ++ after.flatMap Piece.text)
  simp only [decide_eq_true_eq, not_and_or, not_not] at hv hw
  have hclear : '\r' ∉ v ∧ '\n' ∉ v := ⟨fun hr => (hv _ hr).1 rfl, fun hn => (hv _ hn).2 rfl⟩
  obtain ⟨d, x, hhead, -⟩ := Rule.head_of_mark hmark
  have hne : mark.toList ++ v ≠ [] := by simp [hhead]
  obtain ⟨p, hp, -, hpieces⟩ := ofText_of_next hne (next_line_append hmark hclear hw)
  rw [List.append_assoc, ← hsplit, ← htext, h] at hpieces
  obtain ⟨rfl, -⟩ := List.cons.inj hpieces
  obtain rfl : u = v := List.append_cancel_left hp
  exact hw c (List.append_cancel_left hsplit ▸ hc)

/-- A text without an end of a line, before some text, is in the part up to the first end. -/
theorem exists_of_line {note rest back later : Text} (h : note ++ rest = back ++ later)
    (hnote : '\r' ∉ note ∧ '\n' ∉ note)
    (hlater : ∀ c, later.head? = some c → c = '\r' ∨ c = '\n') :
    ∃ x, back = note ++ x ∧ rest = x ++ later := by
  rcases List.append_eq_append_iff.1 h with ⟨x, rfl, rfl⟩ | ⟨x, rfl, rfl⟩
  · exact ⟨x, rfl, rfl⟩
  · cases x with
    | nil => exact ⟨[], by simp, by simp⟩
    | cons c x =>
      rcases hlater c rfl with rfl | rfl
      · exact absurd (by simp) hnote.1
      · exact absurd (by simp) hnote.2

/-- The scan meets a note at a byte. It comes to the start of the note, or the note starts in a
line that the scan passes over and ends in this line as well. -/
inductive Met (source : Text) (n : Nat) (note : Text) : Prop
  | first {before after} : Piece.ofText source = before ++ after →
      Text.byteLength (before.flatMap Piece.text) = n → Met source n note
  | within {before front back after} {mark : String} {u : Text} :
      Piece.ofText source = before ++ .blank (mark.toList ++ u) :: after →
      mark ∈ ["//", "#"] → mark.toList ++ u = front ++ back →
      Text.byteLength (before.flatMap Piece.text) + Text.byteLength front = n →
      '\r' ∉ note ∧ '\n' ∉ note → Met source n note

/-- No token starts in a note that the scan meets, or in white space after it. -/
theorem stop_le_of_met {source note white rest : Text} {n : Nat}
    (hrest : Text.dropBytes? source n = some (note ++ (white ++ rest)))
    (hnote : Note note (white ++ rest)) (hwhite : ∀ c ∈ white, c ∈ whites)
    (hmet : Met source n note) {a : Token} (ha : a ∈ tokenize source)
    (hn : n ≤ a.position.offset) :
    n + Text.byteLength (note ++ white) ≤ a.position.offset := by
  rw [Text.byteLength_append]
  cases hmet with
  | @first before after heq hlength =>
    have hsource := Piece.flatMap_text_of_eq heq
    rw [List.flatMap_append] at hsource
    rw [← hsource, ← hlength] at hrest
    have hafter : Piece.ofText (note ++ (white ++ rest)) = after := by
      rw [Text.eq_of_dropBytes? hrest, Piece.ofText_of_append heq]
    obtain ⟨p, hp, hkind, hpieces⟩ := ofText_of_next hnote.ne_nil hnote.next
    rw [hafter] at hpieces
    rw [hpieces] at heq
    rcases offset_cases heq hkind ha with hlt | ⟨b, hb, hoffset⟩
    · omega
    · rw [Piece.flatMap_text_of_eq rfl] at hb
      have := white_le_offset hwhite hb
      rw [hp] at hoffset
      omega
  | @within before front back after mark u heq hmark hline hlength hclear =>
    have hcut := Piece.ofText_of_append heq
    have hsource : source = before.flatMap Piece.text ++ front ++
        (back ++ after.flatMap Piece.text) := by
      rw [← Piece.flatMap_text_of_eq heq]
      simp [Piece.text, hline]
    rw [hsource, ← hlength, ← Text.byteLength_append] at hrest
    obtain ⟨x, rfl, hx⟩ := exists_of_line (Text.eq_of_dropBytes? hrest) hclear
      fun c hc => head_of_line hmark hcut hc
    rcases offset_cases heq rfl ha with hlt | ⟨b, hb, hoffset⟩
    · omega
    · simp only [Piece.text, hline, Text.byteLength_append] at hoffset
      have := white_le_offset_after hwhite hx hb
      omega

namespace Grammar

/-! ## Where the tokens of a converted tree come from -/

/-- The terminal becomes a token at least. -/
def Tells (source : Text) (t : ParseTree) : Prop :=
  isLiteral t ∨ isName t ∨ tokenize (t.text source) ≠ []

/-- The trees have tokens when the terminal tells something, and all of them are placed where the
terminal starts. -/
structure Placed (source : Text) (t : ParseTree) (trees : List Tree) : Prop where
  offset : ∀ a ∈ Tree.leavesAll trees, a.position.offset = t.mark.start
  tells : Tree.leavesAll trees ≠ [] ↔ Tells source t

theorem offset_start (t : ParseTree) : t.start.offset = t.mark.start := rfl

theorem leavesAll_scanned (source : Text) (t : ParseTree) :
    Tree.leavesAll (scanned source t) = (tokenize (t.text source)).map
      fun token => { token with position := t.start } := by
  rw [← Tree.leavesAll_map_token (List.map _ _), List.map_map]
  rfl

/-- A terminal that is no literal and no name tells something when its text has tokens. -/
theorem placed_scanned {source : Text} {t : ParseTree} (hliteral : ¬isLiteral t)
    (hname : ¬isName t) : Placed source t (scanned source t) where
  offset a ha := by
    rw [leavesAll_scanned] at ha
    obtain ⟨token, -, rfl⟩ := List.mem_map.1 ha
    exact offset_start t
  tells := by
    rw [leavesAll_scanned, Tells]
    simp [hliteral, hname]

theorem placed_of_tells {source : Text} {t : ParseTree} {trees : List Tree}
    (htells : Tells source t) (hne : Tree.leavesAll trees ≠ [])
    (hposition : ∀ a ∈ Tree.leavesAll trees, a.position = t.start) :
    Placed source t trees where
  offset a ha := by rw [hposition a ha, offset_start]
  tells := ⟨fun _ => htells, fun _ => hne⟩

theorem placed_symbolTrees {source : Text} {t : ParseTree} (parent : String)
    (hnamed : t.mark.named = false) : Placed source t (symbolTrees source parent t) := by
  have htells : ∀ {ls : List Lexeme}, lexemes (t.text source) = ls → ls ≠ [] → Tells source t := by
    intro ls hls hne
    refine .inr (.inr ?_)
    intro hnil
    rw [lexemes, hnil] at hls
    exact hne hls.symm
  unfold symbolTrees
  split_ifs with h1 h2
  · exact placed_of_tells (htells (h1.1 ▸ lexemes_shift.1) (by simp)) (by simp [shift])
      (by simp [shift])
  · exact placed_of_tells (htells (h2.1 ▸ lexemes_shift.2) (by simp)) (by simp [shift])
      (by simp [shift])
  · exact placed_scanned (fun h => by simp [isLiteral, hnamed] at h)
      (fun h => by simp [isName, hnamed] at h)

/-- What a terminal becomes is placed where it starts. -/
theorem placed_of_terminal (source : Text) {t : ParseTree} (parent : String)
    (ht : isTerminal t = true) :
    ∃ trees, part source parent t = .closed trees ∧ Placed source t trees := by
  simp only [isTerminal, isSkipped, Bool.and_eq_true, Bool.not_eq_true', decide_eq_false_iff_not]
    at ht
  obtain ⟨hskip, ht⟩ := ht
  unfold part
  rw [if_neg hskip]
  split_ifs with hnamed hliteral hname hempty
  · exact ⟨_, rfl, placed_symbolTrees parent (by simpa using hnamed)⟩
  · have htells : Tells source t := .inl ⟨by simpa using hnamed, hliteral⟩
    exact ⟨_, rfl, placed_of_tells htells (by simp [leaf]) (by simp [leaf])⟩
  · have htells : Tells source t := .inr (.inl ⟨by simpa using hnamed, hliteral, hname⟩)
    exact ⟨_, rfl, placed_of_tells htells (by simp [leaf]) (by simp [leaf])⟩
  · have hscanned : Placed source t (scanned source t) :=
      placed_scanned (fun h => hliteral h.2) (fun h => hname h.2.2)
    exact ⟨_, rfl, by simpa using hscanned.offset, by simpa using hscanned.tells⟩
  · simp [hnamed, hliteral, hname, hempty] at ht

mutual
/-- The tokens of what a node becomes start where the terminals in it start that tell something. -/
theorem exists_leaf_treesOf (source : Text) (p : Nat → Prop) : ∀ (t : ParseTree) (parent : String),
    (∃ a ∈ Tree.leavesAll (treesOf source parent t), p a.position.offset) ↔
      ∃ u ∈ terminals t, Tells source u ∧ p u.mark.start
  | .node m cs, parent => by
    rw [terminals]
    cases hskip : isSkipped (.node m cs) with
    | true =>
      rw [treesOf_closed (part_of_skipped hskip)]
      simp
    | false =>
      cases hterm : isTerminal (.node m cs) with
      | true =>
        obtain ⟨trees, hpart, hplaced⟩ := placed_of_terminal source parent hterm
        rw [treesOf_closed hpart]
        simp only [Bool.false_eq_true, if_false, if_true, List.mem_singleton, exists_eq_left]
        constructor
        · rintro ⟨a, ha, hp⟩
          exact ⟨hplaced.tells.1 (List.ne_nil_of_mem ha), hplaced.offset a ha ▸ hp⟩
        · rintro ⟨htells, hp⟩
          obtain ⟨a, ha⟩ := List.exists_mem_of_ne_nil _ (hplaced.tells.2 htells)
          exact ⟨a, ha, (hplaced.offset a ha).symm ▸ hp⟩
      | false =>
        simp only [Bool.false_eq_true, if_false]
        rw [treesOf_opened (part_of_inner hskip hterm), Tree.leavesAll_cons, Tree.leaves_node,
          Tree.leavesAll_nil, List.append_nil]
        exact exists_leaf_treesOfAll source p cs m.kind

theorem exists_leaf_treesOfAll (source : Text) (p : Nat → Prop) :
    ∀ (cs : List ParseTree) (parent : String),
    (∃ a ∈ Tree.leavesAll (treesOfAll source parent cs), p a.position.offset) ↔
      ∃ u ∈ terminalsAll cs, Tells source u ∧ p u.mark.start
  | [], parent => by simp
  | c :: cs, parent => by
    rw [treesOfAll_cons, terminalsAll_cons, Tree.leavesAll_append]
    simp only [List.mem_append, or_and_right, exists_or, exists_leaf_treesOf source p c parent,
      exists_leaf_treesOfAll source p cs parent]
end

/-- The tokens of a converted tree start where the terminals start that tell something. -/
theorem exists_leaf_convert (source : Text) (root : ParseTree) (p : Nat → Prop) :
    (∃ a ∈ (convert source root).leaves, p a.position.offset) ↔
      ∃ u ∈ terminalsAll root.children, Tells source u ∧ p u.mark.start := by
  rw [convert_eq_toTree, toTree, Tree.leaves_node]
  exact exists_leaf_treesOfAll source p root.children root.kind

/-! ## What the scan and the conversion drop -/

/-- The scan and the conversion drop the same comments and directives: no token of the converted
tree comes from a node that starts in a note of the scan, and no token of the scan starts in a node
of a skipped kind. -/
structure DropsAlike (source : Text) (root : ParseTree) : Prop where
  tree : ∀ a ∈ (convert source root).leaves, ¬InNote source a.position.offset
  scan : ∀ a ∈ tokenize source, ∀ t ∈ root.nodes, isSkipped t = true →
    ¬(t.mark.start ≤ a.position.offset ∧ a.position.offset < t.mark.stop)

/-- The node is one note that the scan meets, with the white space after it. -/
def Noted (source : Text) (t : ParseTree) : Prop :=
  ∃ note white rest, Text.dropBytes? source t.mark.start = some (note ++ (white ++ rest)) ∧
    t.mark.stop = t.mark.start + Text.byteLength (note ++ white) ∧
    Note note (white ++ rest) ∧ (∀ c ∈ white, c ∈ whites) ∧ Met source t.mark.start note

theorem Noted.not_inside {source : Text} {t : ParseTree} (h : Noted source t) {a : Token}
    (ha : a ∈ tokenize source) :
    ¬(t.mark.start ≤ a.position.offset ∧ a.position.offset < t.mark.stop) := by
  obtain ⟨note, white, rest, hrest, hstop, hnote, hwhite, hmet⟩ := h
  rintro ⟨hle, hlt⟩
  have := stop_le_of_met hrest hnote hwhite hmet ha hle
  omega

/-- A terminal of those that tile the tokens tells nothing when it starts in a note. -/
theorem Tiled.not_tells {source : Text} {ts : List ParseTree} (h : Tiled source ts)
    {t : ParseTree} (ht : t ∈ ts) (hin : InNote source t.mark.start) : ¬Tells source t := by
  have hspans : ∀ i j, ¬Spans source t i j := by
    rintro i j ⟨a, b, ha, -, -, hstart, -⟩
    rw [hstart] at hin
    exact not_inNote_of_token (List.mem_of_getElem? ha) hin
  rintro (hliteral | hname | htokens)
  · obtain ⟨i, hi⟩ := h.literal t ht hliteral
    exact hspans i i hi
  · obtain ⟨i, -, hi, -⟩ := h.name t ht hname
    exact hspans i i hi
  · rcases h.spans t ht with ⟨i, j, hij⟩ | hnil
    · exact hspans i j hij
    · exact htokens hnil

/-- When every node of a skipped kind is one note, the scan and the conversion drop the same just
when no terminal that starts in a note tells anything. So they do when the terminals tile the
tokens. -/
theorem dropsAlike_iff {source : Text} {root : ParseTree}
    (h : ∀ t ∈ root.nodes, isSkipped t = true → Noted source t) :
    (DropsAlike source root ↔ ∀ t ∈ terminalsAll root.children,
        InNote source t.mark.start → ¬Tells source t) ∧
      (Tiled source (terminalsAll root.children) → DropsAlike source root) := by
  have hiff : DropsAlike source root ↔ ∀ t ∈ terminalsAll root.children,
      InNote source t.mark.start → ¬Tells source t := by
    have htree := exists_leaf_convert source root (InNote source)
    constructor
    · intro halike t ht hin htells
      obtain ⟨a, ha, hin⟩ := htree.2 ⟨t, ht, htells, hin⟩
      exact halike.tree a ha hin
    · intro hterminals
      refine ⟨?_, fun a ha t ht hskip => (h t ht hskip).not_inside ha⟩
      intro a ha hin
      obtain ⟨t, ht, htells, hin⟩ := htree.1 ⟨a, ha, hin⟩
      exact hterminals t ht hin htells
  exact ⟨hiff, fun htiled => hiff.2 fun t ht hin => htiled.not_tells ht hin⟩

/-- The source of a directive with a comment in its line. -/
def definedSource : Text := "#define A // b\n;".toList

/-- Its parse tree. -/
def definedTree : ParseTree :=
  .node { kind := "translation_unit", start := 0, stop := 16, stopPoint := ⟨1, 1⟩ }
    [.node { kind := "preproc_def", start := 0, stop := 15, stopPoint := ⟨1, 0⟩ }
      [.node { kind := "#define", named := false, start := 0, stop := 7 } [],
        .node { kind := "identifier", field := some "name", start := 8, stop := 9 } [],
        .node { kind := "comment", start := 10, stop := 14 } []],
      .node
        { kind := ";", named := false, start := 15, stop := 16,
          startPoint := ⟨1, 0⟩, stopPoint := ⟨1, 1⟩ }
        []]

theorem dropsAlike_definedTree :
    (∀ t ∈ definedTree.nodes, isSkipped t = true → Noted definedSource t) ∧
      DropsAlike definedSource definedTree := by
  have hpieces : Piece.ofText definedSource =
      [.blank ("#".toList ++ "define A // b".toList), .blank ['\n'],
        .token (.punctuator .Semi) [';']] := by decide +kernel
  have htokens : tokenize definedSource = [⟨.punctuator .Semi, [';'], ⟨2, 1, 15⟩⟩] := by
    rw [tokenize, hpieces]
    decide
  have hend : ∀ rest c, ('\n' :: rest : Text).head? = some c → c = '\r' ∨ c = '\n' := by
    rintro rest c ⟨⟩
    exact .inr rfl
  have hnoted : ∀ t ∈ definedTree.nodes, isSkipped t = true → Noted definedSource t := by
    intro t ht hskip
    simp only [definedTree, ParseTree.nodes, ParseTree.nodesAll, List.mem_append, List.mem_cons,
      List.not_mem_nil, or_false] at ht
    rcases ht with rfl | (rfl | rfl | rfl | rfl) | rfl
    · exact absurd hskip (by decide)
    · exact ⟨"#".toList ++ "define A // b".toList, ['\n'], [';'], by decide, by decide,
        .line (by decide) (by decide) (hend [';']), by simp [whites],
        @Met.first _ _ _ [] _ hpieces rfl⟩
    · exact absurd hskip (by decide)
    · exact absurd hskip (by decide)
    · exact ⟨"//".toList ++ " b".toList, [], ['\n', ';'], by decide, by decide,
        .line (by decide) (by decide) (hend [';']), by simp,
        @Met.within _ _ _ [] "#define A ".toList _ _ _ _ hpieces (by decide) rfl (by decide)
          (by decide)⟩
    · exact absurd hskip (by decide)
  refine ⟨hnoted, (dropsAlike_iff hnoted).1.2 ?_⟩
  intro t ht hin
  have hterminals : terminalsAll definedTree.children =
      [.node
        { kind := ";", named := false, start := 15, stop := 16,
          startPoint := ⟨1, 0⟩, stopPoint := ⟨1, 1⟩ }
        []] := rfl
  obtain rfl := List.mem_singleton.1 (hterminals ▸ ht)
  exact absurd hin (not_inNote_of_token (a := ⟨.punctuator .Semi, [';'], ⟨2, 1, 15⟩⟩)
    (by rw [htokens]; exact List.mem_singleton_self _))

/-- The source of two functions of which a conditional directive takes one. -/
def conditionalSource : Text :=
  "#ifdef A\nint a() \x7b return 1; \x7d\n#else\nint a() \x7b return 2; \x7d\n#endif".toList

/-- A node of the parse tree of the source. -/
def conditionalNode (m : Mark) (children : List ParseTree) : ParseTree :=
  .node (m.counted conditionalSource) children

/-- The parse tree of one of these functions, from the byte where it starts. -/
def constantTree (n : Nat) : ParseTree :=
  conditionalNode { kind := "function_definition", start := n, stop := n + 21 }
    [conditionalNode { kind := "primitive_type", field := some "type", start := n, stop := n + 3 }
        [],
      conditionalNode
        { kind := "function_declarator", field := some "declarator", start := n + 4, stop := n + 7 }
        [conditionalNode
            { kind := "identifier", field := some "declarator", start := n + 4, stop := n + 5 } [],
          conditionalNode
            { kind := "parameter_list", field := some "parameters", start := n + 5, stop := n + 7 }
            [conditionalNode { kind := "(", named := false, start := n + 5, stop := n + 6 } [],
              conditionalNode { kind := ")", named := false, start := n + 6, stop := n + 7 } []]],
      conditionalNode
        { kind := "compound_statement", field := some "body", start := n + 8, stop := n + 21 }
        [conditionalNode { kind := "\x7b", named := false, start := n + 8, stop := n + 9 } [],
          conditionalNode { kind := "return_statement", start := n + 10, stop := n + 19 }
            [conditionalNode { kind := "return", named := false, start := n + 10, stop := n + 16 }
                [],
              conditionalNode { kind := "number_literal", start := n + 17, stop := n + 18 } [],
              conditionalNode { kind := ";", named := false, start := n + 18, stop := n + 19 } []],
          conditionalNode { kind := "\x7d", named := false, start := n + 20, stop := n + 21 } []]]

/-- The parse tree of the source. The name in the directive is a node of its own. -/
def conditionalTree : ParseTree :=
  conditionalNode { kind := "translation_unit", start := 0, stop := 65 }
    [conditionalNode { kind := "preproc_ifdef", start := 0, stop := 65 }
      [conditionalNode { kind := "#ifdef", named := false, start := 0, stop := 6 } [],
        conditionalNode { kind := "identifier", field := some "name", start := 7, stop := 8 } [],
        constantTree 9,
        conditionalNode
          { kind := "preproc_else", field := some "alternative", start := 31, stop := 58 }
          [conditionalNode { kind := "#else", named := false, start := 31, stop := 36 } [],
            constantTree 37],
        conditionalNode { kind := "#endif", named := false, start := 59, stop := 65 } []]]

/-- The source of a line comment that goes on in the next line. -/
def continuedSource : Text := "//\\\n;".toList

/-- Its parse tree. The comment holds both lines. -/
def continuedTree : ParseTree :=
  .node { kind := "translation_unit", start := 0, stop := 5, stopPoint := ⟨1, 1⟩ }
    [.node { kind := "comment", start := 0, stop := 5, stopPoint := ⟨1, 1⟩ } []]

/-- Two parse trees without an error for which the scan and the conversion do not drop the same. The
name in a conditional directive starts in a note and becomes a token of the tree, and a comment that
goes on in the next line has a token of the scan in it. -/
theorem not_dropsAlike_conditional_continued :
    ((∀ t ∈ conditionalTree.nodes, t.mark.hasError = false) ∧
        ¬DropsAlike conditionalSource conditionalTree) ∧
      ((∀ t ∈ continuedTree.nodes, t.mark.hasError = false) ∧
        ¬DropsAlike continuedSource continuedTree) := by
  refine ⟨⟨by decide, ?_⟩, by decide, ?_⟩
  · intro halike
    have hname : (terminalsAll conditionalTree.children)[1]? =
        some (.node { kind := "identifier", field := some "name", start := 7, stop := 8 } []) := rfl
    have htells : Tells conditionalSource
        (.node { kind := "identifier", field := some "name", start := 7, stop := 8 } []) :=
      .inr (.inl ⟨rfl, by decide, by decide⟩)
    have hin : InNote conditionalSource 7 := by
      have hhead : (Piece.ofText conditionalSource).head? = some (.blank "#ifdef A".toList) := by
        decide +kernel
      obtain ⟨after, heq⟩ := List.head?_eq_some_iff.1 hhead
      exact ⟨[], _, _, after, heq, .inr rfl, by decide, by decide⟩
    obtain ⟨a, ha, hin⟩ := (exists_leaf_convert conditionalSource conditionalTree
      (InNote conditionalSource)).2 ⟨_, List.mem_of_getElem? hname, htells, hin⟩
    exact halike.tree a ha hin
  · intro halike
    have htokens : tokenize continuedSource = [⟨.punctuator .Semi, [';'], ⟨2, 1, 4⟩⟩] := by
      decide +kernel
    have hcomment : .node { kind := "comment", start := 0, stop := 5, stopPoint := ⟨1, 1⟩ } [] ∈
        continuedTree.nodes := by simp [continuedTree, ParseTree.nodes, ParseTree.nodesAll]
    exact halike.scan _ (htokens ▸ List.mem_singleton_self _) _ hcomment rfl
      ⟨by decide, by decide⟩

end Grammar
end Stylometry
