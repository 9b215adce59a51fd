-- Documents of TOML, read line by line into one table.
import Stylometry.Text.Encoding
import Stylometry.Toml.Fields
import Stylometry.Toml.Scalar

namespace Stylometry.Toml

/-- The number of parts that a key has fewer than, and of levels that values have fewer
than. -/
def nestingLimit : Nat := 80

/-! ## Keys -/

/-- The characters of a key without quotes. -/
def isKeyChar (c : Char) : Bool := c.isAlphanum || c = '_' || c = '-'

/-- One part of a key. -/
def keyPart? : Text → Option (Text × Text)
  | '"' :: t => basicString? t
  | '\'' :: t => literalString? t
  | t =>
    let name := t.takeWhile isKeyChar
    if name.isEmpty then none else some (name, t.dropWhile isKeyChar)

/-- The parts of a key with dots and blanks between them. A round takes one part. -/
def keyParts? : Nat → Text → Option (List Text × Text)
  | 0, _ => none
  | rounds + 1, t => do
    let (part, t) ← keyPart? (t.dropWhile isBlank)
    match t.dropWhile isBlank with
    | '.' :: t =>
      let (parts, t) ← keyParts? rounds t
      return (part :: parts, t)
    | t => return ([part], t)

/-- The key at the head of a text. -/
def key? (t : Text) : Option (List Text × Text) := keyParts? (nestingLimit - 1) t

/-! ## Values -/

/-- What follows a comment, which ends with its line. -/
def afterComment? (t : Text) : Option Text :=
  let rest := t.dropWhile isPlain
  if rest.isEmpty ∨ (afterBreak? rest).isSome then some rest else none

/-- What follows blanks, line breaks and comments. A round takes one of them. -/
def afterFiller? : Nat → Text → Option Text
  | 0, _ => none
  | rounds + 1, t =>
    match t.dropWhile isBlank with
    | '#' :: t => (afterComment? t).bind (afterFiller? rounds)
    | t =>
      match afterBreak? t with
      | some t => afterFiller? rounds t
      | none => some t

mutual
/-- The value at the head of a text. A round takes one character or more. -/
def value? (depth : Nat) : Nat → Text → Option (Datum × Text)
  | 0, _ => none
  | _ + 1, [] => none
  | rounds + 1, c :: t =>
    if c = '"' ∨ c = '\'' then (string? (c :: t)).map fun (s, rest) => (.string s, rest)
    else if c = '[' then
      if depth + 1 < nestingLimit then
        (items? (depth + 1) rounds t).map fun (ds, rest) => (.list ds, rest)
      else none
    else if c = '\x7b' then
      if depth + 1 < nestingLimit then do
        match t.dropWhile isBlank with
        | '\x7d' :: rest => return (.table [], rest)
        | t =>
          let (fields, rest) ← pairs? (depth + 1) rounds [] t
          return (.table (fieldsData fields), rest)
      else none
    else if c = 't' then (Text.stripStart? "rue".toList t).map fun rest => (.bool true, rest)
    else if c = 'f' then (Text.stripStart? "alse".toList t).map fun rest => (.bool false, rest)
    else if c = '_' ∨ c = '.' then none
    else numberOrMoment? (c :: t)

/-- The items of a list up to its end. A comma may stand after the last one. -/
def items? (depth : Nat) : Nat → Text → Option (List Datum × Text)
  | 0, _ => none
  | rounds + 1, t => do
    match ← afterFiller? (t.length + 1) t with
    | ']' :: rest => return ([], rest)
    | t =>
      let (d, t) ← value? depth rounds t
      match ← afterFiller? (t.length + 1) t with
      | ',' :: t =>
        let (ds, rest) ← items? depth rounds t
        return (d :: ds, rest)
      | ']' :: rest => return ([d], rest)
      | _ => none

/-- The fields between braces up to their end, on top of earlier ones. They stand on one
line, and no comma stands after the last one. -/
def pairs? (depth : Nat) : Nat → Fields → Text → Option (Fields × Text)
  | 0, _, _ => none
  | rounds + 1, fields, t => do
    let (key, t) ← key? t
    let t ← after? '=' t
    let (d, t) ← value? depth rounds (t.dropWhile isBlank)
    let fields ← fields.addValue? key d
    match t.dropWhile isBlank with
    | ',' :: t => pairs? depth rounds fields t
    | '\x7d' :: rest => return (fields, rest)
    | _ => none
end

/-! ## Lines -/

/-- What is read so far: the fields, and the header of the open table. -/
structure Draft where
  fields : Fields := []
  header : List Text := []

/-- What follows the rest of a line, where only blanks and a comment may stand. -/
def afterLine? (t : Text) : Option Text := do
  let t ← match t.dropWhile isBlank with
    | '#' :: t => afterComment? t
    | t => some t
  if t.isEmpty then some [] else afterBreak? t

/-- Reads a line that is neither blank nor a comment, and gives what follows it. -/
def readLine? (draft : Draft) (t : Text) : Option (Draft × Text) :=
  match t with
  | '[' :: '[' :: t => do
    let (header, t) ← key? t
    let t ← Text.stripStart? [']', ']'] t
    let fields ← draft.fields.addTable? header
    return (⟨fields, header⟩, ← afterLine? t)
  | '[' :: t => do
    let (header, t) ← key? t
    let t ← after? ']' t
    let fields ← draft.fields.openTable? header
    return (⟨fields, header⟩, ← afterLine? t)
  | t => do
    let (key, t) ← key? t
    let t ← after? '=' t
    let t := t.dropWhile isBlank
    let (d, t) ← value? 0 (t.length + 1) t
    let fields ← draft.fields.addBelow? draft.header key d
    return ({ draft with fields }, ← afterLine? t)

/-- Reads lines to the end. A round takes one line. -/
def readLines? : Nat → Draft → Text → Option Draft
  | 0, _, _ => none
  | rounds + 1, draft, t =>
    match t.dropWhile isBlank with
    | [] => some draft
    | c :: t =>
      if c = '#' ∨ (afterBreak? (c :: t)).isSome then
        (afterLine? (c :: t)).bind (readLines? rounds draft)
      else do
        let (draft, t) ← readLine? draft (c :: t)
        readLines? rounds draft t

/-- The table of a document. A byte order mark may stand in front. -/
def read? (t : Text) : Option Datum :=
  let t := Encoding.stripMark t
  (readLines? (t.length + 1) {} t).map fun draft => .table (fieldsData draft.fields)

end Stylometry.Toml
