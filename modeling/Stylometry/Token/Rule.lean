-- The rules of the lexical grammar: which texts are tokens of which kind, and which texts
-- stand between tokens.
import Stylometry.Pattern
import Stylometry.Token.Kind

namespace Stylometry

/-- What becomes of the text that a rule matches. -/
inductive Outcome where
  /-- It is a token. -/
  | token (k : Kind)
  /-- It is passed over. -/
  | blank
  /-- It opens a comment, which is passed over up to its end. -/
  | comment
  deriving DecidableEq, Repr

/-- A rule of the lexical grammar. -/
structure Rule where
  pattern : Pattern
  outcome : Outcome

namespace Rule

open Pattern

/-! ## Parts of the patterns -/

def isDigit (c : Char) : Bool := '0' ≤ c && c ≤ '9'

def isHexDigit (c : Char) : Bool :=
  isDigit c || ('a' ≤ c && c ≤ 'f') || ('A' ≤ c && c ≤ 'F')

def isLetter (c : Char) : Bool := ('a' ≤ c && c ≤ 'z') || ('A' ≤ c && c ≤ 'Z') || c == '_'

def digit : Pattern := .one isDigit

/-- The letters after an integer. -/
def integerEnd : Pattern := .many (.oneOf "uUlL")

/-- A digit, then digits and quotes that group them. -/
def grouped (isDigit : Char → Bool) : Pattern :=
  .seq (.one isDigit) (.many (.one fun c => isDigit c || c == '\''))

def exponent : Pattern := all [.oneOf "eE", opt (.oneOf "+-"), oneOrMore digit]

/-- The letter after a floating number. -/
def floatingEnd : Pattern := opt (.oneOf "fFlL")

/-- The mark before a character or a string. -/
def encodingMark : Pattern := opt (any [word "u8", word "u", word "U", word "L"])

/-- A text between two quotes. A backslash takes any character but a line feed with it. -/
def quoted (quote : Char) : Pattern :=
  all [encodingMark, .char quote,
    .many (.alt (.one fun c => c ≠ quote && c ≠ '\\' && c ≠ '\r' && c ≠ '\n')
      (.seq (.char '\\') (.one (· ≠ '\n')))),
    .char quote]

/-! ## The rules -/

/-- The texts between tokens: white space, line comments, directives and the start of a
block comment. -/
def between : List Rule :=
  [⟨oneOrMore (.oneOf " \t\r\n\x0c\x0b"), .blank⟩,
   ⟨.seq (word "//") (.many (.noneOf "\r\n")), .blank⟩,
   ⟨.seq (word "#") (.many (.noneOf "\r\n")), .blank⟩,
   ⟨word "/*", .comment⟩]

/-- The kinds with their fixed spellings. -/
def spellings : List (String × Kind) :=
  Keyword.all.map (fun k => (k.entry.2, .keyword k))
    ++ Punctuator.all.map (fun p => (p.entry.2, .punctuator p))
    ++ Punctuator.wordSpellings.map fun (p, w) => (w, .punctuator p)

/-- The kinds whose spelling varies. Identifiers come last. -/
def varying : List Rule :=
  [⟨.seq (grouped isDigit) integerEnd, .token (.literal .integer)⟩,
   ⟨all [.char '0', .oneOf "xX", grouped isHexDigit, integerEnd], .token (.literal .integer)⟩,
   ⟨all [.char '0', .oneOf "bB", grouped (fun c => c == '0' || c == '1'), integerEnd],
     .token (.literal .integer)⟩,
   ⟨all [oneOrMore digit, .char '.', .many digit, opt exponent, floatingEnd],
     .token (.literal .floating)⟩,
   ⟨all [.char '.', oneOrMore digit, opt exponent, floatingEnd],
     .token (.literal .floating)⟩,
   ⟨all [oneOrMore digit, exponent, floatingEnd], .token (.literal .floating)⟩,
   ⟨quoted '\'', .token (.literal .character)⟩,
   ⟨quoted '"', .token (.literal .string)⟩,
   ⟨.seq (.one isLetter) (.many (.one fun c => isLetter c || isDigit c)), .token .identifier⟩]

/-- All rules. Of two rules with matches of one length the earlier one counts, so a fixed
spelling comes before the identifiers. -/
def grammar : List Rule :=
  between ++ spellings.map (fun (w, k) => ⟨word w, .token k⟩) ++ varying

/-! ## The rule that counts -/

/-- The better of a match found before and a match of a later rule: the longer one, and
the earlier one of two equally long. -/
def better (best : Option (Outcome × Nat)) (outcome : Outcome) : Option Nat →
    Option (Outcome × Nat)
  | none => best
  | some n =>
    match best with
    | none => some (outcome, n)
    | some (_, m) => if m < n then some (outcome, n) else best

/-- The longest match of the rules at the head of the text. -/
def longestOf (rules : List Rule) (t : Text) : Option (Outcome × Nat) :=
  rules.foldl (fun best r => better best r.outcome (r.pattern.longest? t)) none

end Rule
end Stylometry
