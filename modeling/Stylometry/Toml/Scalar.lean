-- Scalars of TOML: strings, numbers, dates and times. Each reader takes a value from the
-- head of a text and gives the rest.
import Stylometry.Decimal.Numeral
import Stylometry.Format.Datum
import Stylometry.Text.Hex

namespace Stylometry.Toml

/-! ## Characters -/

/-- The blanks inside a line. -/
def isBlank (c : Char) : Bool := c = ' ' || c = '\t'

/-- Whether a character may stand in a comment or a string. Control characters may not. -/
def isPlain (c : Char) : Bool := c = '\t' || (' ' ≤ c && c ≠ '\x7f')

/-- What follows a line break at the head of a text. -/
def afterBreak? : Text → Option Text
  | '\n' :: t => some t
  | '\r' :: '\n' :: t => some t
  | _ => none

/-! ## Escapes -/

/-- The character with the code point that hexadecimal digits spell. -/
def charOfHex? (t : Text) : Option Char :=
  (Text.natInBase? 16 t).bind fun n =>
    if h : n.isValidChar then some (Char.ofNatAux n h) else none

/-- The escapes of one letter. -/
def escapes : List (Char × Char) :=
  [('b', '\x08'), ('t', '\t'), ('n', '\n'), ('f', '\x0c'), ('r', '\r'), ('"', '"'), ('\\', '\\')]

/-! ## Strings -/

/-- The content of a string with escapes, up to its closing quote. -/
def basicString? : Text → Option (Text × Text)
  | [] => none
  | '"' :: t => some ([], t)
  | '\\' :: 'u' :: a :: b :: c :: d :: t => do
    let char ← charOfHex? [a, b, c, d]
    let (s, rest) ← basicString? t
    return (char :: s, rest)
  | '\\' :: 'U' :: a :: b :: c :: d :: e :: f :: g :: h :: t => do
    let char ← charOfHex? [a, b, c, d, e, f, g, h]
    let (s, rest) ← basicString? t
    return (char :: s, rest)
  | '\\' :: c :: t => do
    let char ← escapes.lookup c
    let (s, rest) ← basicString? t
    return (char :: s, rest)
  | c :: t => do
    if c = '\\' ∨ !isPlain c then none
    let (s, rest) ← basicString? t
    return (c :: s, rest)

/-- The content of a string without escapes, up to its closing quote. -/
def literalString? : Text → Option (Text × Text)
  | [] => none
  | '\'' :: t => some ([], t)
  | c :: t => do
    if !isPlain c then none
    let (s, rest) ← literalString? t
    return (c :: s, rest)

/-- The end of a string of several lines: what follows three quotes. Up to two quotes more
belong to the string. -/
def closing (quote : Char) (t : Text) : Text × Text :=
  let more := min 2 (t.takeWhile (· = quote)).length
  (List.replicate more quote, t.drop more)

/-- Whether the rest of a line is blank and a line break ends it. -/
def endsLine (t : Text) : Bool := (afterBreak? (t.dropWhile isBlank)).isSome

/-- The content of a string of several lines with escapes, up to its three closing quotes.
A line break is a line feed. While `passing` holds, blanks and line breaks are passed over,
as they are after a backslash at the end of a line. -/
def basicLines? (passing : Bool) : Text → Option (Text × Text)
  | [] => none
  | '"' :: '"' :: '"' :: t => some (closing '"' t)
  | '\r' :: '\n' :: t => addBreak (basicLines? passing t)
  | '\n' :: t => addBreak (basicLines? passing t)
  | '\\' :: 'u' :: a :: b :: c :: d :: t => do
    let char ← charOfHex? [a, b, c, d]
    let (s, rest) ← basicLines? false t
    return (char :: s, rest)
  | '\\' :: 'U' :: a :: b :: c :: d :: e :: f :: g :: h :: t => do
    let char ← charOfHex? [a, b, c, d, e, f, g, h]
    let (s, rest) ← basicLines? false t
    return (char :: s, rest)
  | '\\' :: c :: t =>
    if endsLine (c :: t) then
      match c with
      | '\r' | '\n' | ' ' | '\t' => basicLines? true t
      | _ => none
    else do
      let char ← escapes.lookup c
      let (s, rest) ← basicLines? false t
      return (char :: s, rest)
  | c :: t =>
    if passing ∧ isBlank c then basicLines? passing t
    else do
      if c = '\\' ∨ !isPlain c then none
      let (s, rest) ← basicLines? false t
      return (c :: s, rest)
where
  /-- A line break in front of what follows, if it counts. -/
  addBreak (found : Option (Text × Text)) : Option (Text × Text) :=
    if passing then found else found.map fun (s, rest) => ('\n' :: s, rest)

/-- The content of a string of several lines without escapes, up to its three closing
quotes. A line break is a line feed. -/
def literalLines? : Text → Option (Text × Text)
  | [] => none
  | '\'' :: '\'' :: '\'' :: t => some (closing '\'' t)
  | '\r' :: '\n' :: t => (literalLines? t).map fun (s, rest) => ('\n' :: s, rest)
  | c :: t => do
    if c ≠ '\n' ∧ !isPlain c then none
    let (s, rest) ← literalLines? t
    return (c :: s, rest)

/-- The text without one line break in front. -/
def dropBreak (t : Text) : Text := (afterBreak? t).getD t

/-- The string at the head of a text. -/
def string? : Text → Option (Text × Text)
  | '"' :: '"' :: '"' :: t => basicLines? false (dropBreak t)
  | '\'' :: '\'' :: '\'' :: t => literalLines? (dropBreak t)
  | '"' :: t => basicString? t
  | '\'' :: t => literalString? t
  | _ => none

/-! ## Numbers -/

/-- The digits without the underscores between them. An underscore stands between two
digits. -/
def plainDigits? (t : Text) : Option Text :=
  let parts := Text.splitOn '_' t
  if parts.all fun p => !p.isEmpty then some parts.flatten else none

/-- The whole number of some digits, with its sign. It has to fit into 64 bits. -/
def intDatum? (negative : Bool) (magnitude : Nat) : Option Datum :=
  let n : Int := if negative then -magnitude else magnitude
  if -(2 ^ 63) ≤ n ∧ n < 2 ^ 63 then some (.int n) else none

/-- The whole number in a base at the head of a text. -/
def natDatum? (base : Nat) (t : Text) : Option (Datum × Text) := do
  let inDigits c := c = '_' || (Text.hexDigit? c).any (· < base)
  let digits ← plainDigits? (t.takeWhile inDigits)
  let n ← Text.natInBase? base digits
  return (← intDatum? false n, t.dropWhile inDigits)

/-- The numbers that have no digits. -/
def specialNumber? (t : Text) : Option (Datum × Text) :=
  let (sign, t) := Decimal.Numeral.takeSign t
  let signed (x : Float) : Datum := .float (if sign = some '-' then -x else x)
  match t with
  | 'i' :: 'n' :: 'f' :: t => some (signed (Float.ofBits 0x7FF0000000000000), t)
  | 'n' :: 'a' :: 'n' :: t => some (signed (Float.ofBits 0x7FF8000000000000), t)
  | _ => none

/-- The decimal number at the head of a text. A floating number must not pass all others. -/
def decimalDatum? (t : Text) : Option (Datum × Text) := do
  let (n, rest) := Decimal.Numeral.read (fun c => c.isDigit || c = '_') t
  let whole ← plainDigits? n.whole
  let fraction ← match n.fraction with
    | none => some none
    | some f => (plainDigits? f).map some
  let exponent ← match n.exponent with
    | none => some none
    | some (sign, e) => (plainDigits? e).map fun e => some (sign, e)
  let plain : Decimal.Numeral := { n with whole, fraction, exponent }
  if 1 < whole.length ∧ whole.head? = some '0' then none
  if plain.isWhole then
    return (← intDatum? n.isNegative (Nat.ofDigitChars 10 whole 0), rest)
  else
    let x := plain.toFloat
    if !x.isFinite ∧ !n.isNegative then none
    return (.float x, rest)

/-- The number at the head of a text. -/
def number? (t : Text) : Option (Datum × Text) :=
  match t with
  | '0' :: 'x' :: t => natDatum? 16 t
  | '0' :: 'o' :: t => natDatum? 8 t
  | '0' :: 'b' :: t => natDatum? 2 t
  | t =>
    match specialNumber? t with
    | some found => some found
    | none => decimalDatum? t

/-! ## Dates and times -/

/-- The number of exactly `n` digits between two bounds. -/
def bounded? (n low high : Nat) (t : Text) : Option (Nat × Text) := do
  let value ← Decimal.value? (t.take n)
  if (t.take n).length = n ∧ low ≤ value ∧ value ≤ high then some (value, t.drop n) else none

/-- What follows the given character. -/
def after? (c : Char) : Text → Option Text
  | d :: t => if c = d then some t else none
  | [] => none

/-- The number of days in a month. -/
def daysIn (year month : Nat) : Nat :=
  if month = 2 then
    if year % 4 = 0 ∧ (year % 100 ≠ 0 ∨ year % 400 = 0) then 29 else 28
  else if month = 4 ∨ month = 6 ∨ month = 9 ∨ month = 11 then 30
  else 31

/-- What follows a date. -/
def afterDate? (t : Text) : Option Text := do
  let (year, t) ← bounded? 4 0 9999 t
  let (month, t) ← bounded? 2 1 12 (← after? '-' t)
  let (_, t) ← bounded? 2 1 (daysIn year month) (← after? '-' t)
  return t

/-- What follows a time. -/
def afterTime? (t : Text) : Option Text := do
  let (_, t) ← bounded? 2 0 23 t
  let (_, t) ← bounded? 2 0 59 (← after? ':' t)
  let (_, t) ← bounded? 2 0 60 (← after? ':' t)
  match t with
  | '.' :: t => if (t.takeWhile Char.isDigit).isEmpty then none else some (t.dropWhile Char.isDigit)
  | t => some t

/-- What follows a difference from universal time. -/
def afterZone? : Text → Option Text
  | [] => none
  | c :: t =>
    if c = 'Z' ∨ c = 'z' then some t
    else if c = '+' ∨ c = '-' then do
      let (_, t) ← bounded? 2 0 23 t
      let (_, t) ← bounded? 2 0 59 (← after? ':' t)
      return t
    else none

/-- Whether a date starts at the head of a text: four digits and a dash. -/
def startsDate (t : Text) : Bool := (bounded? 4 0 9999 t).any fun (_, t) => t.head? = some '-'

/-- Whether a time starts at the head of a text: two digits and a colon. -/
def startsTime (t : Text) : Bool := (bounded? 2 0 23 t).any fun (_, t) => t.head? = some ':'

/-- The date, the time or the date with a time at the head of a text. -/
def moment? (t : Text) : Option (Datum × Text) :=
  if startsDate t then do
    let rest ← afterDate? t
    match rest with
    | c :: time =>
      if (c = 'T' ∨ c = 't' ∨ c = ' ') ∧ startsTime time then do
        let rest ← afterTime? time
        match rest with
        | z :: _ =>
          if z = 'Z' ∨ z = 'z' ∨ z = '+' ∨ z = '-' then return (.moment, ← afterZone? rest)
          else return (.moment, rest)
        | [] => return (.moment, rest)
      else return (.moment, rest)
    | [] => return (.moment, rest)
  else (afterTime? t).map fun rest => (.moment, rest)

/-- The number, the date or the time at the head of a text. -/
def numberOrMoment? (t : Text) : Option (Datum × Text) :=
  if startsDate t ∨ startsTime t then moment? t else number? t

end Stylometry.Toml
