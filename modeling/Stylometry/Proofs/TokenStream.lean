-- The token stream of a source. Its tokens lie one after the other in the source, and the
-- part of the source from one token to another has just the tokens between them.
import Stylometry.Proofs.ScanLocality
import Stylometry.Token.Stream

namespace Stylometry

/-! ## Cuts at bytes -/

namespace Text

theorem dropBytes?_append (u v : Text) : dropBytes? (u ++ v) (byteLength u) = some v := by
  induction u with
  | nil => cases v <;> rfl
  | cons c u ih =>
    obtain ⟨n, hn⟩ : ∃ n, c.utf8Size + byteLength u = n + 1 :=
      ⟨c.utf8Size + byteLength u - 1, by have := c.utf8Size_pos; omega⟩
    have hrest : n + 1 - c.utf8Size = byteLength u := by omega
    rw [List.cons_append, byteLength_cons, hn, dropBytes?, if_pos (by omega), hrest, ih]

theorem takeBytes?_append (u v : Text) : takeBytes? (u ++ v) (byteLength u) = some u := by
  induction u with
  | nil => cases v <;> rfl
  | cons c u ih =>
    obtain ⟨n, hn⟩ : ∃ n, c.utf8Size + byteLength u = n + 1 :=
      ⟨c.utf8Size + byteLength u - 1, by have := c.utf8Size_pos; omega⟩
    have hrest : n + 1 - c.utf8Size = byteLength u := by omega
    rw [List.cons_append, byteLength_cons, hn, takeBytes?, if_pos (by omega), hrest, ih]
    rfl

/-- The part of a text between two of its parts. -/
theorem slice_append (u v w : Text) :
    slice (u ++ v ++ w) (byteLength u) (byteLength u + byteLength v) = v := by
  unfold slice
  rw [List.append_assoc, dropBytes?_append, Nat.add_sub_cancel_left, Option.bind_some,
    takeBytes?_append]
  rfl

theorem byteLength_pos {t : Text} (h : t ≠ []) : 0 < byteLength t := by
  cases t with
  | nil => exact absurd rfl h
  | cons c t =>
    have := c.utf8Size_pos
    rw [byteLength_cons]
    omega

end Text

/-! ## Tokens among the pieces -/

/-- What a token is, wherever it stands. -/
abbrev Lexeme := Kind × Text

namespace Token

def lexeme (t : Token) : Lexeme := (t.kind, t.text)

/-- What a token is and where it starts, when its source starts at byte `n`. -/
def spot (n : Nat) (t : Token) : Kind × Text × Nat := (t.kind, t.text, t.position.offset + n)

/-- The byte after a token. -/
def stop (t : Token) : Nat := t.position.offset + Text.byteLength t.text

end Token

namespace Piece

/-- What a token among the pieces is. -/
def lexeme? : Piece → Option Lexeme
  | .token k t => some (k, t)
  | .blank _ => none
  | .stray _ => none

theorem map_lexeme_place (table : LineTable) (offset : Nat) (ps : List Piece) :
    (Token.place table offset ps).map Token.lexeme = ps.filterMap lexeme? := by
  induction ps generalizing offset with
  | nil => rfl
  | cons p ps ih => cases p <;> simp [Token.place, lexeme?, Token.lexeme, List.filterMap_cons, ih]

theorem length_place (table : LineTable) (offset : Nat) (ps : List Piece) :
    (Token.place table offset ps).length = (ps.filterMap lexeme?).length := by
  rw [← map_lexeme_place table offset, List.length_map]

/-- A token stands at the byte where the pieces before it end. -/
theorem exists_of_getElem?_place {table : LineTable} {offset : Nat} {ps : List Piece} {i : Nat}
    {a : Token} (h : (Token.place table offset ps)[i]? = some a) :
    ∃ before after, ps = before ++ .token a.kind a.text :: after ∧
      (before.filterMap lexeme?).length = i ∧
      a.position = table.position (offset + Text.byteLength (before.flatMap text)) := by
  induction ps generalizing offset i with
  | nil => simp [Token.place] at h
  | cons p ps ih =>
    have hskip : ∀ j, (Token.place table (offset + Text.byteLength p.text) ps)[j]? = some a →
        (([p].filterMap lexeme?).length + j = i) →
        ∃ before after, p :: ps = before ++ .token a.kind a.text :: after ∧
          (before.filterMap lexeme?).length = i ∧
          a.position = table.position (offset + Text.byteLength (before.flatMap text)) := by
      intro j hj hi
      obtain ⟨before, after, rfl, hlength, hposition⟩ := ih hj
      refine ⟨p :: before, after, rfl, ?_, ?_⟩
      · rw [← List.singleton_append, List.filterMap_append, List.length_append, hlength, hi]
      · rw [hposition, List.flatMap_cons, Text.byteLength_append, Nat.add_assoc]
    cases p with
    | token k t =>
      cases i with
      | zero =>
        obtain rfl : _ = a := Option.some.inj h
        exact ⟨[], ps, rfl, rfl, rfl⟩
      | succ i => exact hskip i h (Nat.add_comm 1 i)
    | blank t => exact hskip i h (Nat.zero_add i)
    | stray t => exact hskip i h (Nat.zero_add i)

theorem place_append (table : LineTable) (offset : Nat) (ps qs : List Piece) :
    Token.place table offset (ps ++ qs) =
      Token.place table offset ps ++
        Token.place table (offset + Text.byteLength (ps.flatMap text)) qs := by
  induction ps generalizing offset with
  | nil => rfl
  | cons p ps ih =>
    rw [List.flatMap_cons, Text.byteLength_append, ← Nat.add_assoc]
    cases p <;> simp [Token.place, text, ih]

/-- Pieces that stand further behind have their tokens further behind. -/
theorem map_spot_place (table table' : LineTable) (offset n : Nat) (ps : List Piece) :
    (Token.place table (offset + n) ps).map (Token.spot 0) =
      (Token.place table' offset ps).map (Token.spot n) := by
  induction ps generalizing offset with
  | nil => rfl
  | cons p ps ih =>
    have hrest := ih (offset + Text.byteLength p.text)
    rw [Nat.add_right_comm] at hrest
    cases p with
    | token k t =>
      rw [Token.place, Token.place, List.map_cons, List.map_cons]
      exact congrArg (_ :: ·) hrest
    | blank t => exact hrest
    | stray t => exact hrest

end Piece

/-! ## Tokens of a source -/

/-- The tokens of a text, wherever they stand in it. -/
def lexemes (t : Text) : List Lexeme := (tokenize t).map Token.lexeme

theorem lexemes_eq (t : Text) : lexemes t = (Piece.ofText t).filterMap Piece.lexeme? :=
  Piece.map_lexeme_place _ _ _

theorem length_lexemes (t : Text) : (lexemes t).length = (tokenize t).length := by
  rw [lexemes, List.length_map]

theorem exists_of_getElem?_tokenize {source : Text} {i : Nat} {a : Token}
    (h : (tokenize source)[i]? = some a) :
    ∃ before after, Piece.ofText source = before ++ .token a.kind a.text :: after ∧
      (before.filterMap Piece.lexeme?).length = i ∧
      a.position.offset = Text.byteLength (before.flatMap Piece.text) := by
  obtain ⟨before, after, heq, hlength, hposition⟩ := Piece.exists_of_getElem?_place h
  refine ⟨before, after, heq, hlength, ?_⟩
  rw [hposition, Nat.zero_add]
  rfl

/-- The pieces from one token on to another, with what stands before and after them. -/
theorem exists_between {source : Text} {i j : Nat} {a b : Token}
    (ha : (tokenize source)[i]? = some a) (hb : (tokenize source)[j]? = some b) (hij : i ≤ j) :
    ∃ before between after,
      Piece.ofText source = before ++ (between ++ .token b.kind b.text :: after) ∧
      (before.filterMap Piece.lexeme?).length = i ∧
      (between.filterMap Piece.lexeme?).length = j - i ∧
      a.position.offset = Text.byteLength (before.flatMap Piece.text) ∧
      b.position.offset = Text.byteLength ((before ++ between).flatMap Piece.text) ∧
      (between = [] ∧ i = j ∨ i < j ∧ ∃ rest, between = .token a.kind a.text :: rest) := by
  obtain ⟨before, after, heq, hlength, hoffset⟩ := exists_of_getElem?_tokenize ha
  obtain ⟨before', after', heq', hlength', hoffset'⟩ := exists_of_getElem?_tokenize hb
  rcases List.append_eq_append_iff.1 (heq.symm.trans heq') with
    ⟨between, rfl, hrest⟩ | ⟨between, rfl, hrest⟩
  · rw [List.filterMap_append, List.length_append, hlength] at hlength'
    refine ⟨before, between, after', by rw [heq, hrest], hlength, by omega, hoffset, hoffset', ?_⟩
    cases between with
    | nil => exact .inl ⟨rfl, hlength'⟩
    | cons p rest =>
      cases hrest
      simp only [Piece.lexeme?, List.filterMap_cons, List.length_cons] at hlength'
      exact .inr ⟨by omega, rest, rfl⟩
  · -- the other way round the two tokens are one
    rw [List.filterMap_append, List.length_append, hlength'] at hlength
    cases between with
    | nil =>
      rw [List.append_nil] at heq hoffset
      have hi : i = j := hlength.symm
      exact ⟨before', [], after', heq', by omega, by simp [hi], hoffset, by simpa using hoffset',
        .inl ⟨rfl, hi⟩⟩
    | cons p rest =>
      cases hrest
      simp only [Piece.lexeme?, List.filterMap_cons, List.length_cons] at hlength
      omega

/-- A token ends before the next ones start. -/
theorem stop_le_of_lt {source : Text} {i j : Nat} {a b : Token}
    (ha : (tokenize source)[i]? = some a) (hb : (tokenize source)[j]? = some b) (hij : i < j) :
    a.stop ≤ b.position.offset := by
  obtain ⟨before, between, after, -, -, -, hoffset, hoffset', ⟨-, rfl⟩ | ⟨-, rest, rfl⟩⟩ :=
    exists_between ha hb (Nat.le_of_lt hij)
  · exact absurd hij (Nat.lt_irrefl i)
  rw [Token.stop, hoffset, hoffset', List.flatMap_append, Text.byteLength_append,
    List.flatMap_cons, Text.byteLength_append, ← Nat.add_assoc]
  exact Nat.le_add_right _ _

theorem offset_lt_stop {source : Text} {i : Nat} {a : Token}
    (ha : (tokenize source)[i]? = some a) : a.position.offset < a.stop := by
  obtain ⟨before, after, heq, -, -⟩ := exists_of_getElem?_tokenize ha
  have hne : a.text ≠ [] := Piece.text_ne_nil_of_mem (t := source) (p := .token a.kind a.text)
    (by rw [heq]; simp)
  have := Text.byteLength_pos hne
  rw [Token.stop]
  omega

/-- Of two tokens the one that starts first is the earlier one. -/
theorem le_of_offset_le {source : Text} {i j : Nat} {a b : Token}
    (ha : (tokenize source)[i]? = some a) (hb : (tokenize source)[j]? = some b)
    (h : a.position.offset ≤ b.position.offset) : i ≤ j := by
  by_cases hij : i ≤ j
  · exact hij
  · have hstop := stop_le_of_lt hb ha (by omega)
    have hlt := offset_lt_stop hb
    omega

theorem le_of_stop_le {source : Text} {i j : Nat} {a b : Token}
    (ha : (tokenize source)[i]? = some a) (hb : (tokenize source)[j]? = some b)
    (h : a.stop ≤ b.stop) : i ≤ j := by
  by_cases hij : i ≤ j
  · exact hij
  · have hstop := stop_le_of_lt hb ha (by omega)
    have hlt := offset_lt_stop ha
    omega

theorem lt_of_stop_le {source : Text} {i j : Nat} {a b : Token}
    (ha : (tokenize source)[i]? = some a) (hb : (tokenize source)[j]? = some b)
    (h : a.stop ≤ b.position.offset) : i < j := by
  have hle := le_of_stop_le ha hb (Nat.le_trans h (Nat.le_of_lt (offset_lt_stop hb)))
  refine Nat.lt_of_le_of_ne hle ?_
  rintro rfl
  rw [ha] at hb
  cases hb
  have hlt := offset_lt_stop ha
  omega

/-! ## Parts of a source -/

/-- The part of a source from one token to another. -/
def between (source : Text) (a b : Token) : Text := source.slice a.position.offset b.stop

/-- The part of a source from one token to another has the same pieces as the source has
there. -/
theorem exists_pieces_between {source : Text} {i j : Nat} {a b : Token}
    (ha : (tokenize source)[i]? = some a) (hb : (tokenize source)[j]? = some b) (hij : i ≤ j) :
    ∃ before ps after, Piece.ofText source = before ++ (ps ++ after) ∧
      Piece.ofText (between source a b) = ps ∧
      (before.filterMap Piece.lexeme?).length = i ∧
      (ps.filterMap Piece.lexeme?).length = j + 1 - i ∧
      a.position.offset = Text.byteLength (before.flatMap Piece.text) ∧
      (i = j → ps = [.token b.kind b.text]) := by
  obtain ⟨before, ps, after, heq, hi, hj, hoffset, hoffset', hfirst⟩ :=
    exists_between ha hb hij
  have hscan : Piece.ofText (ps.flatMap Piece.text ++ b.text) =
      ps ++ [.token b.kind b.text] := Piece.ofText_cut (Piece.ofText_of_append heq)
  have hpart : between source a b = ps.flatMap Piece.text ++ b.text := by
    have hsource : source = before.flatMap Piece.text ++ (ps.flatMap Piece.text ++ b.text) ++
        after.flatMap Piece.text := by
      rw [← Piece.flatMap_text_of_eq heq]
      simp [Piece.text]
    have hstop : b.stop = Text.byteLength (before.flatMap Piece.text) +
        Text.byteLength (ps.flatMap Piece.text ++ b.text) := by
      rw [Token.stop, hoffset', List.flatMap_append, Text.byteLength_append,
        Text.byteLength_append, Nat.add_assoc]
    rw [between, hoffset, hstop]
    conv => lhs; rw [hsource]
    exact Text.slice_append _ _ _
  refine ⟨before, ps ++ [.token b.kind b.text], after, by simp [heq], by rw [hpart, hscan], hi,
    ?_, hoffset, ?_⟩
  · rw [List.filterMap_append, List.length_append, hj]
    simp only [Piece.lexeme?, List.filterMap_cons, List.filterMap_nil, List.length_cons,
      List.length_nil]
    omega
  · intro h
    rcases hfirst with ⟨rfl, -⟩ | ⟨hlt, -⟩
    · rfl
    · omega

theorem lexemes_between {source : Text} {i j : Nat} {a b : Token}
    (ha : (tokenize source)[i]? = some a) (hb : (tokenize source)[j]? = some b) (hij : i ≤ j) :
    lexemes (between source a b) = ((lexemes source).drop i).take (j + 1 - i) := by
  obtain ⟨before, ps, after, heq, hps, rfl, hj, -, -⟩ := exists_pieces_between ha hb hij
  rw [lexemes_eq, lexemes_eq, heq, hps, List.filterMap_append, List.filterMap_append,
    List.drop_left, ← hj, List.take_left]

theorem ofText_between_self {source : Text} {i : Nat} {a : Token}
    (ha : (tokenize source)[i]? = some a) :
    between source a a = a.text ∧ Piece.ofText a.text = [.token a.kind a.text] := by
  obtain ⟨-, ps, -, -, hps, -, -, -, hone⟩ := exists_pieces_between ha ha (Nat.le_refl i)
  rw [hone rfl] at hps
  have htext : between source a a = a.text := by
    have := Piece.flatMap_text_of_eq hps
    simpa [Piece.text] using this.symm
  rw [htext] at hps
  exact ⟨htext, hps⟩

/-- The text of a token is a lexeme of its kind. -/
theorem ofLexeme?_eq {source : Text} {i : Nat} {a : Token}
    (ha : (tokenize source)[i]? = some a) : Kind.ofLexeme? a.text = some a.kind := by
  simp [Kind.ofLexeme?, (ofText_between_self ha).2]

theorem lexemes_text {source : Text} {i : Nat} {a : Token}
    (ha : (tokenize source)[i]? = some a) : lexemes a.text = [a.lexeme] := by
  rw [lexemes_eq, (ofText_between_self ha).2]
  rfl

/-- The part of a source from one token to another has just the tokens between them, with the
same kinds and texts and with offsets that count from the start of the part. A token alone is a
lexeme of its kind. -/
theorem tokenize_between {source : Text} {i j : Nat} {a b : Token}
    (ha : (tokenize source)[i]? = some a) (hb : (tokenize source)[j]? = some b) (hij : i ≤ j) :
    (tokenize (between source a b)).map (Token.spot a.position.offset) =
        (((tokenize source).drop i).take (j + 1 - i)).map (Token.spot 0) ∧
      Kind.ofLexeme? a.text = some a.kind := by
  obtain ⟨before, ps, after, heq, hps, hi, hj, hoffset, -⟩ := exists_pieces_between ha hb hij
  refine ⟨?_, ofLexeme?_eq ha⟩
  obtain ⟨table, htable⟩ : ∃ table, LineTable.ofText source = table := ⟨_, rfl⟩
  have hdrop : (tokenize source).drop i =
      Token.place table (0 + a.position.offset) ps ++
        Token.place table (0 + a.position.offset + Text.byteLength (ps.flatMap Piece.text))
          after := by
    rw [tokenize, heq, htable, Piece.place_append, List.drop_left' (by rw [Piece.length_place, hi]),
      ← hoffset, Piece.place_append]
  rw [hdrop, List.take_left' (by rw [Piece.length_place, hj]), tokenize, hps]
  exact (Piece.map_spot_place table _ 0 a.position.offset ps).symm

/-- A source with quotes in its comments and a number that stops short of its exponent. -/
def shortNumber : Text :=
  ['/', '*', '\'', '*', '/', 'u', '8', ' ', '/', '*', '"', '*', '/', '1', 'e', '+', 'x']

theorem tokenize_between_shortNumber :
    ∃ a b, (tokenize shortNumber)[0]? = some a ∧ (tokenize shortNumber)[2]? = some b ∧
      between shortNumber a b = ['u', '8', ' ', '/', '*', '"', '*', '/', '1', 'e'] ∧
      (tokenize (between shortNumber a b)).map (Token.spot 5) =
        [(.identifier, ['u', '8'], 5), (.literal .integer, ['1'], 13),
          (.identifier, ['e'], 14)] ∧
      Kind.ofLexeme? ['u', '8'] = some .identifier := by
  have htokens : tokenize shortNumber =
      [⟨.identifier, ['u', '8'], ⟨1, 6, 5⟩⟩, ⟨.literal .integer, ['1'], ⟨1, 14, 13⟩⟩,
        ⟨.identifier, ['e'], ⟨1, 15, 14⟩⟩, ⟨.punctuator .Plus, ['+'], ⟨1, 16, 15⟩⟩,
        ⟨.identifier, ['x'], ⟨1, 17, 16⟩⟩] := by decide +kernel
  have ha : (tokenize shortNumber)[0]? = some ⟨.identifier, ['u', '8'], ⟨1, 6, 5⟩⟩ := by
    rw [htokens]
    rfl
  have hb : (tokenize shortNumber)[2]? = some ⟨.identifier, ['e'], ⟨1, 15, 14⟩⟩ := by
    rw [htokens]
    rfl
  obtain ⟨hspots, hlexeme⟩ := tokenize_between ha hb (by decide)
  refine ⟨_, _, ha, hb, by decide, ?_, hlexeme⟩
  rw [hspots, htokens]
  rfl

end Stylometry
