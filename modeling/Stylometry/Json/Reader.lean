-- Reading of data in JSON. A text is cut into tokens, and the tokens are put together.
import Stylometry.Decimal.Numeral
import Stylometry.Format.Datum
import Stylometry.Text.Encoding
import Stylometry.Text.Hex

namespace Stylometry.Json

/-! ## Strings -/

/-- The content of a string up to its closing quote, with its escapes, and the rest. A
control character may not stand in a string. -/
def rawString? : Text → Option (Text × Text)
  | [] => none
  | '"' :: t => some ([], t)
  | '\\' :: c :: t => (rawString? t).map fun (raw, rest) => ('\\' :: c :: raw, rest)
  | c :: t => if c < ' ' then none else (rawString? t).map fun (raw, rest) => (c :: raw, rest)

/-- The escapes of one character. -/
def shortEscapes : List (Char × Char) :=
  [('"', '"'), ('\\', '\\'), ('/', '/'), ('b', '\x08'), ('f', '\x0c'), ('n', '\n'), ('r', '\r'),
   ('t', '\t')]

/-- The units that the content of a string stands for. A character is one unit and an escape
of four digits is any unit. -/
def unitsOfRaw? : Text → Option (List Nat)
  | [] => some []
  | '\\' :: 'u' :: a :: b :: c :: d :: t => do
    let unit ← Text.natInBase? 16 [a, b, c, d]
    return unit :: (← unitsOfRaw? t)
  | '\\' :: c :: t => do
    let char ← shortEscapes.lookup c
    return char.toNat :: (← unitsOfRaw? t)
  | c :: t => do
    if c = '\\' then none
    return c.toNat :: (← unitsOfRaw? t)

/-- The characters of units. A unit of a pair must not stand alone. -/
def charsOfUnits? : List Nat → Option Text
  | [] => some []
  | [u] => if Encoding.isLead u ∨ Encoding.isTrail u then none else some [Char.ofNat u]
  | u :: v :: us =>
    if Encoding.isLead u then
      if Encoding.isTrail v then (charsOfUnits? us).map (Encoding.pair u v :: ·) else none
    else if Encoding.isTrail u then none
    else (charsOfUnits? (v :: us)).map (Char.ofNat u :: ·)

/-- The data that the content of a string stands for. -/
def stringDatum? (raw : Text) : Option Datum :=
  (unitsOfRaw? raw).map fun units =>
    match charsOfUnits? units with
    | some s => .string s
    | none => .malformed

/-! ## Numbers -/

/-- Whether the parts of a number stand as they have to: no plus sign and no zero in front,
and a digit before and after the point. -/
def isStrict (n : Decimal.Numeral) : Bool :=
  n.sign ≠ some '+' && n.isDecimal && !n.whole.isEmpty &&
    (n.whole.length = 1 || n.whole.head? ≠ some '0') && n.fraction ≠ some []

/-- The data of a number. A whole number that does not fit into 64 bits is a floating one,
and a number beyond all floating ones is none. -/
def numberDatum (n : Decimal.Numeral) : Datum :=
  let magnitude : Int := Nat.ofDigitChars 10 n.whole 0
  let value := if n.isNegative then -magnitude else magnitude
  if n.isWhole && !(n.isNegative && magnitude = 0) && -(2 ^ 63) ≤ value && value < 2 ^ 64 then
    .int value
  else if n.toFloat.isFinite then .float n.toFloat
  else .malformed

/-! ## Tokens -/

/-- A token of a text in JSON. -/
inductive JsonToken where
  | scalar (d : Datum)
  | listStart
  | listEnd
  | tableStart
  | tableEnd
  | comma
  | colon

/-- The blanks between tokens. -/
def isBlank (c : Char) : Bool := c = ' ' || c = '\t' || c = '\n' || c = '\r'

/-- The tokens of one character. -/
def markToken? (c : Char) : Option JsonToken :=
  if c = '[' then some .listStart
  else if c = ']' then some .listEnd
  else if c = '\x7b' then some .tableStart
  else if c = '\x7d' then some .tableEnd
  else if c = ',' then some .comma
  else if c = ':' then some .colon
  else none

/-- The words that are data. -/
def wordData : List (String × Datum) :=
  [("null", .null), ("true", .bool true), ("false", .bool false)]

/-- The token at the head of a text, which starts with no blank, and the rest. -/
def token? (t : Text) : Option (JsonToken × Text) :=
  match t with
  | [] => none
  | '"' :: t => do
    let (raw, rest) ← rawString? t
    return (.scalar (← stringDatum? raw), rest)
  | c :: rest =>
    match markToken? c with
    | some token => some (token, rest)
    | none =>
      match wordData.findSome? fun (word, d) =>
          (Text.stripStart? word.toList t).map fun rest => (JsonToken.scalar d, rest) with
      | some found => some found
      | none =>
        let (n, rest) := Decimal.Numeral.read Char.isDigit t
        if isStrict n then some (.scalar (numberDatum n), rest) else none

/-- The tokens of a text. A round takes one token, and a token takes a character or more. -/
def tokens? (rounds : Nat) (t : Text) : Option (List JsonToken) :=
  match rounds, t.dropWhile isBlank with
  | _, [] => some []
  | 0, _ => none
  | rounds + 1, t => do
    let (token, rest) ← token? t
    return token :: (← tokens? rounds rest)

/-! ## Data -/

mutual
/-- The data at the head of some tokens, and the rest. A round takes one token or more. -/
def datum? : Nat → List JsonToken → Option (Datum × List JsonToken)
  | 0, _ => none
  | _ + 1, .scalar d :: ts => some (d, ts)
  | _ + 1, .listStart :: .listEnd :: ts => some (.list [], ts)
  | rounds + 1, .listStart :: ts => (items? rounds ts).map fun (ds, ts) => (.list ds, ts)
  | _ + 1, .tableStart :: .tableEnd :: ts => some (.table [], ts)
  | rounds + 1, .tableStart :: ts =>
    (fields? rounds ts).map fun (fields, ts) =>
      match fields.mapM id with
      | some fields => (.table fields, ts)
      | none => (.malformed, ts)
  | _, _ => none

/-- The items of a list up to its end, which has one or more. -/
def items? : Nat → List JsonToken → Option (List Datum × List JsonToken)
  | 0, _ => none
  | rounds + 1, ts => do
    let (d, ts) ← datum? rounds ts
    match ts with
    | .comma :: ts =>
      let (ds, ts) ← items? rounds ts
      return (d :: ds, ts)
    | .listEnd :: ts => return ([d], ts)
    | _ => none

/-- The fields of a table up to its end, which has one or more. A field whose name stands
for nothing is `none`. -/
def fields? : Nat → List JsonToken → Option (List (Option (Text × Datum)) × List JsonToken)
  | 0, _ => none
  | rounds + 1, ts => do
    let (name, ts) ←
      match ts with
      | .scalar (.string s) :: .colon :: ts => some (some s, ts)
      | .scalar .malformed :: .colon :: ts => some (none, ts)
      | _ => none
    let (d, ts) ← datum? rounds ts
    let field := name.map fun s => (s, d)
    match ts with
    | .comma :: ts =>
      let (fields, ts) ← fields? rounds ts
      return (field :: fields, ts)
    | .tableEnd :: ts => return ([field], ts)
    | _ => none
end

/-- The data of a text. Nothing but blanks may follow it. -/
def read? (t : Text) : Option Datum := do
  let tokens ← tokens? t.length t
  match ← datum? (2 * tokens.length + 1) tokens with
  | (d, []) => some d
  | _ => none

end Stylometry.Json
