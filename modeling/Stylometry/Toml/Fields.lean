-- Tables of TOML while they are put together. A table may be opened once by a header, and
-- tables on the way to it come into being by themselves.
import Stylometry.Format.Datum

namespace Stylometry.Toml

/-- How a table came into being. -/
inductive TableOrigin where
  /-- A header or braces opened it. -/
  | opened
  /-- A header passed through it. -/
  | passed
  /-- A key with dots passed through it. -/
  | dotted
  deriving DecidableEq

/-- What a name in a table stands for. -/
inductive Item where
  | value (d : Datum)
  | table (origin : TableOrigin) (fields : List (Text × Item))
  /-- A list of tables, of which the last one is open. -/
  | tables (earlier : List (List (Text × Item))) (last : List (Text × Item))

/-- The names of a table with what they stand for. -/
abbrev Fields := List (Text × Item)

namespace Fields

/-- Changes what one name stands for. A new name goes to the end. -/
def alter? (name : Text) (change : Option Item → Option Item) : Fields → Option Fields
  | [] => (change none).map fun item => [(name, item)]
  | (other, item) :: rest =>
    if name = other then (change (some item)).map fun item => (other, item) :: rest
    else (alter? name change rest).map ((other, item) :: ·)

/-- Changes the table that a path leads to. The tables on the way come into being with the
given origin. A key with dots does not lead through a table that was opened. -/
def within? (origin : TableOrigin) (change : TableOrigin → Fields → Option Fields) :
    List Text → TableOrigin → Fields → Option Fields
  | [], here, fields => change here fields
  | name :: path, _, fields =>
    fields.alter? name fun
      | none => (within? origin change path origin []).map (.table origin)
      | some (.table there inner) =>
        if origin = .dotted ∧ there = .opened then none
        else (within? origin change path there inner).map (.table there)
      | some (.tables earlier last) =>
        (within? origin change path .opened last).map (.tables earlier)
      | some (.value _) => none

/-- Adds a value under a key, which may have dots. The last table on the way has to be one
that keys with dots made. -/
def addValue? (key : List Text) (d : Datum) (fields : Fields) : Option Fields :=
  let path := key.dropLast
  within? .dotted
    (fun origin fields =>
      if !path.isEmpty ∧ origin ≠ .dotted then none
      else fields.alter? (key.getLastD []) fun
        | none => some (.value d)
        | some _ => none)
    path .opened fields

/-- Opens the table of a header. Only a table that a header passed through can be opened
later. -/
def openTable? (header : List Text) (fields : Fields) : Option Fields :=
  within? .passed
    (fun _ fields =>
      fields.alter? (header.getLastD []) fun
        | none => some (.table .opened [])
        | some (.table .passed inner) => some (.table .opened inner)
        | some _ => none)
    header.dropLast .opened fields

/-- Adds a table to the list of a header. -/
def addTable? (header : List Text) (fields : Fields) : Option Fields :=
  within? .passed
    (fun _ fields =>
      fields.alter? (header.getLastD []) fun
        | none => some (.tables [] [])
        | some (.tables earlier last) => some (.tables (earlier ++ [last]) [])
        | some _ => none)
    header.dropLast .opened fields

/-- Adds a value to the table that a header opened. -/
def addBelow? (header key : List Text) (d : Datum) (fields : Fields) : Option Fields :=
  within? .passed (fun _ fields => fields.addValue? key d) header .opened fields

end Fields

/-! ## Complete tables -/

mutual
/-- The data that an item stands for. -/
def Item.datum : Item → Datum
  | .value d => d
  | .table _ fields => .table (fieldsData fields)
  | .tables earlier last => .list (tablesData earlier ++ [.table (fieldsData last)])

/-- The data that the names of a table stand for. -/
def fieldsData : List (Text × Item) → List (Text × Datum)
  | [] => []
  | (name, item) :: rest => (name, item.datum) :: fieldsData rest

/-- The data that some tables stand for. -/
def tablesData : List (List (Text × Item)) → List Datum
  | [] => []
  | fields :: rest => .table (fieldsData fields) :: tablesData rest
end

end Stylometry.Toml
