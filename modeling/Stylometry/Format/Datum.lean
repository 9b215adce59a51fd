-- Data as formats hold it, before it is known what it stands for, and how records are read
-- from it. A record is given by the names of its fields or by their order.
import Stylometry.Text.Basic

namespace Stylometry

/-- A piece of data. -/
inductive Datum where
  | null
  | bool (b : Bool)
  | int (n : Int)
  | float (x : Float)
  | string (s : Text)
  | list (items : List Datum)
  /-- Names with data, in the order in which they were written. -/
  | table (fields : List (Text × Datum))
  /-- A date, a time or both. No record has a field for it. -/
  | moment
  /-- Data that can be passed over and that stands for nothing. -/
  | malformed

namespace Datum

/-! ## Simple data -/

/-- The data as a truth value. -/
def bool? : Datum → Option Bool
  | .bool b => some b
  | _ => none

/-- The data as a text. -/
def text? : Datum → Option Text
  | .string s => some s
  | _ => none

/-- The data as a number of things, which fits into 64 bits. -/
def count? : Datum → Option Nat
  | .int (.ofNat n) => if n < 2 ^ 64 then some n else none
  | _ => none

/-- The data as a floating number. A whole number is one as well. -/
def float? : Datum → Option Float
  | .float x => some x
  | .int n => some (Float.ofInt n)
  | _ => none

/-- The data as a list of things that are read one by one. -/
def list? (read : Datum → Option α) : Datum → Option (List α)
  | .list items => items.mapM read
  | _ => none

/-- The data as one of some names. A table with that name and nothing under it is the name
as well. -/
def name? : Datum → Option Text
  | .string s => some s
  | .table [(s, .null)] => some s
  | _ => none

/-! ## Records -/

/-- What is given for the fields of a record. -/
structure Given where
  /-- Whether the fields are given by their names. -/
  named : Bool
  /-- What is given for each field, in the order of the fields. -/
  values : List (Option Datum)

/-- What a table gives for the named fields, if it names none of them twice. Other names do
not matter. -/
def givenByName? (names : List String) (fields : List (Text × Datum)) : Option Given :=
  let values := names.map fun name => fields.filter fun f => f.1 = name.toList
  if values.all fun found => found.length ≤ 1 then
    some ⟨true, values.map fun found => found.head?.map (·.2)⟩
  else none

/-- What the data gives for the fields of a record. -/
def given? (names : List String) : Datum → Option Given
  | .table fields => givenByName? names fields
  | .moment => givenByName? names []
  | .list items =>
    if items.length ≤ names.length then
      some ⟨false, items.map some ++ List.replicate (names.length - items.length) none⟩
    else none
  | _ => none

namespace Given

/-- What is given for the field at a place. -/
def at? (g : Given) (place : Nat) : Option Datum := (g.values[place]?).join

/-- A field that has to be given. -/
def required? (g : Given) (place : Nat) (read : Datum → Option α) : Option α :=
  (g.at? place).bind read

/-- A field that has a value of its own when it is not given. -/
def defaulted? (g : Given) (place : Nat) (default : α) (read : Datum → Option α) : Option α :=
  match g.at? place with
  | none => some default
  | some d => read d

/-- A field that may hold nothing. Where names are given it may be missing. -/
def optional? (g : Given) (place : Nat) (read : Datum → Option α) : Option (Option α) :=
  match g.at? place with
  | none => if g.named then some none else none
  | some .null => some none
  | some d => (read d).map some

end Given
end Datum
end Stylometry
