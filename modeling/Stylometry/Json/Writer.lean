-- Writing of data in JSON, on one line or with one item on a line.
import Stylometry.Decimal.Render
import Stylometry.Format.Datum
import Stylometry.Text.Hex

namespace Stylometry.Json

/-! ## Scalars -/

/-- The escapes that have a letter. -/
def letterEscapes : List (Char × Char) :=
  [('"', '"'), ('\\', '\\'), ('\x08', 'b'), ('\x0c', 'f'), ('\n', 'n'), ('\r', 'r'), ('\t', 't')]

/-- A character inside a string. Control characters without a letter have four digits. -/
def escapeChar (c : Char) : Text :=
  match letterEscapes.lookup c with
  | some letter => ['\\', letter]
  | none =>
    if c < ' ' then
      "\\u00".toList ++ Text.hexOfByte c.toNat
    else [c]

/-- A text between quotes. -/
def quoted (s : Text) : Text := '"' :: s.flatMap escapeChar ++ ['"']

/-- Numbers have an exponent when their first digit stands at place sixteen or above, or
below the fifth place after the point. -/
def floatFormat : Decimal.FloatFormat where
  plain e := -5 ≤ e && e < 16
  nan := "null"
  infinite := "null"

/-- A floating number. One that is not finite is written as nothing. -/
def floatText (x : Float) : Text :=
  if x.isFinite then floatFormat.render x else "null".toList

/-- A whole number. -/
def intText (n : Int) : Text := Decimal.sign (n < 0) ++ Decimal.digits n.natAbs

/-! ## Data -/

/-- How items are put on lines. -/
structure Layout where
  /-- What stands before an item at the given depth. -/
  lineBreak : Nat → Text
  /-- What stands after the colon of a field. -/
  afterColon : Text

/-- Everything on one line without blanks. -/
def Layout.compact : Layout := ⟨fun _ => [], []⟩

/-- Each item on its own line, two blanks further in than what it stands in. -/
def Layout.pretty : Layout := ⟨fun depth => '\n' :: List.replicate (2 * depth) ' ', [' ']⟩

/-- Items between brackets. Brackets with nothing in them stand together. -/
def Layout.enclose (l : Layout) (depth : Nat) (start stop : Char) (items : List Text) : Text :=
  if items.isEmpty then [start, stop]
  else
    start :: Text.join [','] (items.map fun item => l.lineBreak (depth + 1) ++ item) ++
      l.lineBreak depth ++ [stop]

mutual
/-- Data at a depth. -/
def write (l : Layout) (depth : Nat) : Datum → Text
  | .null | .moment | .malformed => "null".toList
  | .bool b => (if b then "true" else "false").toList
  | .int n => intText n
  | .float x => floatText x
  | .string s => quoted s
  | .list items => l.enclose depth '[' ']' (writeItems l (depth + 1) items)
  | .table fields => l.enclose depth '\x7b' '\x7d' (writeFields l (depth + 1) fields)

/-- The items of a list. -/
def writeItems (l : Layout) (depth : Nat) : List Datum → List Text
  | [] => []
  | d :: ds => write l depth d :: writeItems l depth ds

/-- The fields of a table. -/
def writeFields (l : Layout) (depth : Nat) : List (Text × Datum) → List Text
  | [] => []
  | (name, d) :: fields =>
    (quoted name ++ ':' :: l.afterColon ++ write l depth d) :: writeFields l depth fields
end

/-- Data on one line. -/
def compact (d : Datum) : Text := write .compact 0 d

/-- Data with one item on a line. -/
def pretty (d : Datum) : Text := write .pretty 0 d

end Stylometry.Json
