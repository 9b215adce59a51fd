-- Reports: records as they are written to a file or shown.
import Stylometry.Record

namespace Stylometry

/-- How records are written. -/
inductive ReportFormat where
  /-- One line of JSON for each record. -/
  | json
  /-- Lines for people. -/
  | text
  deriving DecidableEq, Repr

namespace ReportFormat

/-- The format with the given name, in any case of its letters. -/
def ofName? (name : Text) : Option ReportFormat :=
  let name := String.ofList (name.map Char.toLower)
  if name = "json" ∨ name = "jsonl" then some .json
  else if name = "text" ∨ name = "txt" then some .text
  else none

/-- What is said about a name that no format has. -/
def unknownName (name : Text) : String := s!"Unknown output format: {String.ofList name}"

end ReportFormat

namespace Record

/-- A text with blanks after it up to a width. -/
def padRight (width : Nat) (t : Text) : Text := t ++ List.replicate (width - t.length) ' '

/-- A text with blanks before it up to a width. -/
def padLeft (width : Nat) (t : Text) : Text := List.replicate (width - t.length) ' ' ++ t

/-- The line of a measure: its name and its value with four places. -/
def measureLine (name : String) (value : Float) : Text :=
  "  ".toList ++ padRight 30 name.toList ++ ' ' :: padLeft 12 (Decimal.fixed 4 value) ++ ['\n']

/-- The lines of a record for people. -/
def lines (r : Record) : Text :=
  r.id ++ (if r.completed then " [completed]\n" else " [not completed]\n").toList ++
    (if r.requiresExpansion then "  requires preprocessing\n".toList else []) ++
    match r.values with
    | some values => values.fields.flatMap fun f => measureLine f.1 f.2
    | none => []

/-- The record in a format. -/
def render (r : Record) : ReportFormat → Text
  | .json => Json.compact r.datum ++ ['\n']
  | .text => r.lines

end Record

/-- The records in a format, one after the other. -/
def ReportFormat.report (format : ReportFormat) (records : List Record) : Text :=
  records.flatMap (·.render format)

end Stylometry
