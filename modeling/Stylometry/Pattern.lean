-- Patterns of texts: what they match, and how the longest match at the head of a text is
-- found. The search takes one derivative of the pattern for each character.
import Stylometry.Text.Basic

namespace Stylometry

/-- A set of texts, built from single characters. -/
inductive Pattern where
  /-- No text. -/
  | never
  /-- The empty text alone. -/
  | nothing
  /-- Each text of one character that the test accepts. -/
  | one (accepts : Char → Bool)
  | seq (first second : Pattern)
  | alt (left right : Pattern)
  /-- Any number of texts of the body, one after the other. -/
  | many (body : Pattern)

namespace Pattern

/-! ## What a pattern matches -/

/-- The texts that a pattern matches in full. -/
inductive Matches : Pattern → Text → Prop where
  | nothing : Matches .nothing []
  | one {accepts : Char → Bool} {c : Char} : accepts c = true → Matches (.one accepts) [c]
  | seq {p q : Pattern} {s t : Text} : Matches p s → Matches q t → Matches (.seq p q) (s ++ t)
  | left {p q : Pattern} {t : Text} : Matches p t → Matches (.alt p q) t
  | right {p q : Pattern} {t : Text} : Matches q t → Matches (.alt p q) t
  | stop {p : Pattern} : Matches (.many p) []
  | more {p : Pattern} {s t : Text} :
    Matches p s → Matches (.many p) t → Matches (.many p) (s ++ t)

/-! ## Ways to write patterns -/

/-- The given character alone. -/
def char (c : Char) : Pattern := .one (· == c)

/-- One of the given characters. -/
def oneOf (cs : String) : Pattern := .one fun c => cs.toList.contains c

/-- Any one character but the given ones. -/
def noneOf (cs : String) : Pattern := .one fun c => !cs.toList.contains c

/-- The given word alone. -/
def word (w : String) : Pattern := w.toList.foldr (fun c p => .seq (char c) p) .nothing

/-- The pattern or nothing. -/
def opt (p : Pattern) : Pattern := .alt p .nothing

/-- The pattern once or more. -/
def oneOrMore (p : Pattern) : Pattern := .seq p (.many p)

/-- The patterns one after the other. -/
def all (ps : List Pattern) : Pattern := ps.foldr .seq .nothing

/-- One of the patterns. -/
def any (ps : List Pattern) : Pattern := ps.foldr .alt .never

/-! ## Derivatives -/

/-- Whether the pattern matches the empty text. -/
def nullable : Pattern → Bool
  | .never => false
  | .nothing => true
  | .one _ => false
  | .seq p q => p.nullable && q.nullable
  | .alt p q => p.nullable || q.nullable
  | .many _ => true

/-- The pattern has no match because it is `never`. -/
def isNever : Pattern → Bool
  | .never => true
  | _ => false

/-- A sequence, written without the parts that add nothing. -/
def seqOf : Pattern → Pattern → Pattern
  | .never, _ => .never
  | .nothing, q => q
  | p, q => .seq p q

/-- An alternative, written without the side that never matches. -/
def altOf : Pattern → Pattern → Pattern
  | .never, q => q
  | p, .never => p
  | p, q => .alt p q

/-- What may follow after the character `c`. -/
def deriv (c : Char) : Pattern → Pattern
  | .never => .never
  | .nothing => .never
  | .one accepts => if accepts c then .nothing else .never
  | .seq p q =>
    if p.nullable then altOf (seqOf (p.deriv c) q) (q.deriv c) else seqOf (p.deriv c) q
  | .alt p q => altOf (p.deriv c) (q.deriv c)
  | .many p => seqOf (p.deriv c) (.many p)

/-! ## The longest match -/

/-- The length of the longest match of `p` at the head of the text, after `read`
characters, or `best` when nothing longer matches. -/
def longestFrom (p : Pattern) (read : Nat) (best : Option Nat) : Text → Option Nat
  | [] => best
  | c :: t =>
    let rest := p.deriv c
    if rest.isNever then best
    else longestFrom rest (read + 1) (if rest.nullable then some (read + 1) else best) t

/-- The number of characters of the longest text that the pattern matches at the head of
`t`. -/
def longest? (p : Pattern) (t : Text) : Option Nat :=
  p.longestFrom 0 (if p.nullable then some 0 else none) t

end Pattern
end Stylometry
