-- Writing of scalars in TOML.
import Stylometry.Decimal.Render
import Stylometry.Text.Hex

namespace Stylometry.Toml

/-- The longest run of one character. `current` counts the run that is not over yet. -/
def longestRun (quote : Char) (current : Nat) : Text → Nat
  | [] => current
  | c :: t => if c = quote then longestRun quote (current + 1) t else max current (longestRun quote 0 t)

/-- Whether a character cannot stand in a string without an escape. -/
def isControl (c : Char) : Bool := (c < ' ' && c ≠ '\t' && c ≠ '\n') || c = '\x7f'

/-- Whether a text is written without escapes: when that spares one, and when nothing in it
needs one. -/
def isLiteral (s : Text) : Bool :=
  s.any (fun c => c = '"' || c = '\\') && !s.any isControl && longestRun '\'' 0 s < 3 &&
    s.getLast? ≠ some '\''

/-- The escapes of one letter. -/
def letterOf : List (Char × Char) :=
  [('\x08', 'b'), ('\t', 't'), ('\x0c', 'f'), ('\r', 'r'), ('"', '"'), ('\\', '\\')]

/-- A character of a string with escapes. Line feeds stay when the string has lines. -/
def escapeChar (hasLines : Bool) (c : Char) : Text :=
  match letterOf.lookup c with
  | some letter => ['\\', letter]
  | none =>
    if c = '\n' then (if hasLines then [c] else ['\\', 'n'])
    else if isControl c then "\\u00".toList ++ (Text.hexOfByte c.toNat).map Char.toUpper
    else [c]

/-- A text between quotes. A text with line feeds starts on a line of its own. -/
def quoted (s : Text) : Text :=
  let hasLines := s.contains '\n'
  if isLiteral s then
    let quotes := List.replicate (if hasLines || s.contains '\'' then 3 else 1) '\''
    quotes ++ (if hasLines then ['\n'] else []) ++ s ++ quotes
  else
    let quotes := List.replicate (if hasLines then 3 else 1) '"'
    quotes ++ (if hasLines then ['\n'] else []) ++ s.flatMap (escapeChar hasLines) ++ quotes

/-- Numbers never have an exponent. -/
def floatFormat : Decimal.FloatFormat where
  plain _ := true
  nan := "nan"
  infinite := "inf"

/-- A floating number. -/
def floatText (x : Float) : Text := floatFormat.render x

/-- A truth value. -/
def boolText (b : Bool) : Text := (if b then "true" else "false").toList

/-- A number of things. It has to fit into the whole numbers of the format. -/
def countText? (n : Nat) : Option Text := if n < 2 ^ 63 then some (Decimal.digits n) else none

end Stylometry.Toml
