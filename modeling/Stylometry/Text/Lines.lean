-- Texts by lines. A listing ends its lines with a line feed; a source may end them with a
-- line feed, a carriage return or both.
import Stylometry.Text.Basic

namespace Stylometry.Text

/-! ## Lines of a listing -/

/-- The part without one carriage return at its end. -/
def dropReturn (line : Text) : Text :=
  if line.getLast? = some '\r' then line.dropLast else line

/-- The lines that line feeds end, each without a carriage return before its line feed.
The last line needs no line feed, and an empty last line does not count. -/
def lines (t : Text) : List Text :=
  match (splitOn '\n' t).reverse with
  | [] => []
  | last :: ended =>
    ended.reverse.map dropReturn ++ if last.isEmpty then [] else [last]

/-! ## Lines of a source -/

/-- The parts between line breaks. A carriage return with a line feed after it is one
break. -/
def splitBreaks : Text → List Text
  | [] => [[]]
  | '\r' :: '\n' :: t => [] :: splitBreaks t
  | '\r' :: t => [] :: splitBreaks t
  | '\n' :: t => [] :: splitBreaks t
  | c :: t =>
    match splitBreaks t with
    | [] => [[c]]
    | part :: parts => (c :: part) :: parts

/-- The list without its empty texts at the end. -/
def dropTrailingEmpty (parts : List Text) : List Text :=
  (parts.reverse.dropWhile List.isEmpty).reverse

end Stylometry.Text
