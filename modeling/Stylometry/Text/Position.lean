-- Places in a text by line, column and byte. A table of line starts places many offsets of one
-- text; a parser counts the rows and columns of an offset on its own.
import Stylometry.Count
import Stylometry.Text.Basic

namespace Stylometry

/-- A place in a text. Lines and columns start at one and offsets at zero, and columns and
offsets count bytes. -/
structure Position where
  line : Nat
  column : Nat
  offset : Nat
  deriving DecidableEq, Repr

/-- A stretch of a text from one place to another. -/
structure Span where
  start : Position
  stop : Position
  deriving DecidableEq, Repr

namespace Position

/-- The place of things that no text holds. -/
def zero : Position := ⟨0, 0, 0⟩

/-- The place as it is shown to people. -/
def render (p : Position) : String :=
  s!"{p.line}:{p.column}"

end Position

/-- The span of things that no text holds. -/
def Span.zero : Span := ⟨.zero, .zero⟩

/-! ## Rows and columns -/

/-- A row and a column of a text, as a parser counts them. Both start at zero, and columns count
bytes. -/
structure Point where
  row : Nat
  column : Nat
  deriving DecidableEq, Repr

namespace Point

/-- The row and column of byte `offset`, by the line feeds before it. -/
def inText (t : Text) (offset : Nat) : Point :=
  go t 0 0 0
where
  /-- `pos` is the byte where the rest starts, in row `row`, which starts at `rowStart`. -/
  go (rest : Text) (pos row rowStart : Nat) : Point :=
    match rest with
    | [] => ⟨row, offset - rowStart⟩
    | c :: rest =>
      if offset ≤ pos then ⟨row, offset - rowStart⟩
      else if c = '\n' then go rest (pos + 1) (row + 1) (pos + 1)
      else go rest (pos + c.utf8Size) row rowStart

/-- The place of a byte at this row and column. -/
def position (p : Point) (offset : Nat) : Position := ⟨p.row + 1, p.column + 1, offset⟩

end Point

/-! ## The table of line starts -/

/-- The byte offsets where the lines of a text start, in order. -/
structure LineTable where
  starts : List Nat

namespace LineTable

/-- The offsets after the line feeds, for a text whose first byte is byte `pos`. -/
def startsAfter : Nat → Text → List Nat
  | _, [] => []
  | pos, c :: t =>
    if c = '\n' then (pos + 1) :: startsAfter (pos + 1) t
    else startsAfter (pos + c.utf8Size) t

/-- The first line starts at zero, and one more line starts after each line feed. -/
def ofText (t : Text) : LineTable := ⟨0 :: startsAfter 0 t⟩

/-- The number of lines. -/
def lineCount (table : LineTable) : Nat := table.starts.length

/-- The place of an offset: its line is the last one that starts at or before it. -/
def position (table : LineTable) (offset : Nat) : Position :=
  let begun := table.starts.takeWhile (· ≤ offset)
  ⟨begun.length, offset - begun.getLastD 0 + 1, offset⟩

/-- The span between two offsets. -/
def span (table : LineTable) (start stop : Nat) : Span :=
  ⟨table.position start, table.position stop⟩

/-- The place of an offset in numbers of 64 bits, if its column fits. -/
def locate (table : LineTable) (offset : Nat) : Except Fault Position :=
  let place := table.position offset
  if place.column < countLimit then .ok place else .error .overflow

/-- The span between two offsets in numbers of 64 bits. -/
def locateSpan (table : LineTable) (start stop : Nat) : Except Fault Span := do
  return ⟨← table.locate start, ← table.locate stop⟩

end LineTable
end Stylometry
