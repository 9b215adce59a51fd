-- The scan of a text into pieces: tokens, what stands between them, and characters that
-- belong nowhere. The pieces are the whole text, cut apart.
import Stylometry.Token.Rule

namespace Stylometry

/-- A piece of a scanned text. -/
inductive Piece where
  | token (k : Kind) (text : Text)
  /-- White space, a comment or a directive. -/
  | blank (text : Text)
  /-- A character that starts nothing, or a literal that is not finished. -/
  | stray (text : Text)
  deriving DecidableEq, Repr

namespace Piece

/-- The characters of a piece. -/
def text : Piece → Text
  | .token _ t => t
  | .blank t => t
  | .stray t => t

/-! ## Literals that are not finished -/

/-- The quote that the text opens, after an encoding mark or without one, and the number of
characters up to and with it. -/
def openQuote? : Text → Option (Char × Nat)
  | '\'' :: _ => some ('\'', 1)
  | '"' :: _ => some ('"', 1)
  | 'u' :: '8' :: '\'' :: _ => some ('\'', 3)
  | 'u' :: '8' :: '"' :: _ => some ('"', 3)
  | 'u' :: '\'' :: _ => some ('\'', 2)
  | 'u' :: '"' :: _ => some ('"', 2)
  | 'U' :: '\'' :: _ => some ('\'', 2)
  | 'U' :: '"' :: _ => some ('"', 2)
  | 'L' :: '\'' :: _ => some ('\'', 2)
  | 'L' :: '"' :: _ => some ('"', 2)
  | _ => none

/-- The number of characters of an open literal after its quote, or nothing when the
literal is closed. A backslash that takes no character along still counts. -/
def openBody? (quote : Char) : Text → Option Nat
  | [] => some 0
  | '\\' :: c :: t => if c = '\n' then some 1 else (openBody? quote t).map (· + 2)
  | c :: t =>
    if c = quote then none
    else if c = '\r' || c = '\n' then some 0
    else (openBody? quote t).map (· + 1)

/-- The length of the literal that starts here and is not finished. -/
def unfinished? (t : Text) : Option Nat :=
  (openQuote? t).bind fun (quote, n) => (openBody? quote (t.drop n)).map (n + ·)

/-! ## One piece -/

/-- The number of characters of a block comment from after its start. Without an end it
takes the whole rest. -/
def commentLength (t : Text) : Nat :=
  match Text.after? ['*', '/'] t with
  | some rest => t.length - rest.length
  | none => t.length

/-- The piece at the head of a text that is not empty, by the number of its characters. -/
def headLength (t : Text) : (Text → Piece) × Nat :=
  match unfinished? t with
  | some n => (.stray, n)
  | none =>
    match Rule.longestOf Rule.grammar t with
    | some (.token k, n) => (.token k, n)
    | some (.blank, n) => (.blank, n)
    | some (.comment, n) => (.blank, n + commentLength (t.drop n))
    | none => (.stray, 1)

/-- The pieces of a text, in order. Each piece takes one character at least. -/
def ofText : Text → List Piece
  | [] => []
  | c :: t =>
    let (make, n) := headLength (c :: t)
    make (c :: t.take (n - 1)) :: ofText (t.drop (n - 1))
termination_by t => t.length
decreasing_by simp only [List.length_drop, List.length_cons]; omega

end Piece
end Stylometry
