-- The token stream of a source. A token knows its kind, its characters and its place.
import Stylometry.Text.Position
import Stylometry.Token.Scan

namespace Stylometry

/-- A token of a source. -/
structure Token where
  kind : Kind
  text : Text
  position : Position
  deriving DecidableEq, Repr

namespace Token

/-- The token of a kind that stands in no source. -/
def synthetic (k : Kind) : Token := ⟨k, k.symbol.toList, .zero⟩

/-- The tokens among the pieces, where the first piece starts at byte `offset`. -/
def place (table : LineTable) : Nat → List Piece → List Token
  | _, [] => []
  | offset, .token k t :: pieces =>
    ⟨k, t, table.position offset⟩ :: place table (offset + Text.byteLength t) pieces
  | offset, .blank t :: pieces => place table (offset + Text.byteLength t) pieces
  | offset, .stray t :: pieces => place table (offset + Text.byteLength t) pieces

end Token

/-- The tokens of a source, in order. -/
def tokenize (source : Text) : List Token :=
  Token.place (.ofText source) 0 (Piece.ofText source)

/-- The kind of a text that is one token, with nothing else but blanks. -/
def Kind.ofLexeme? (t : Text) : Option Kind :=
  match (Piece.ofText t).filter (fun | .blank _ => false | _ => true) with
  | [.token k _] => some k
  | _ => none

/-! ## Classes of tokens -/

/-- The kinds that count as keywords and the kinds that count as operators. -/
structure TokenClasses where
  keywords : List Kind
  operators : List Kind

/-- Every keyword, and every operator and opening delimiter. -/
def TokenClasses.standard : TokenClasses where
  keywords := Keyword.all.map .keyword
  operators :=
    (Punctuator.all.filter fun p => p ≠ .RightParen ∧ p ≠ .RightBracket ∧ p ≠ .RightBrace).map
      .punctuator

end Stylometry
