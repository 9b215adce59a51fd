-- Texts as lists of characters. Tokens and syntax nodes are placed by bytes, so a
-- text can also be measured and cut in bytes of UTF-8.
import Stylometry.Numerals

namespace Stylometry

/-- A text is its characters in order. -/
abbrev Text := List Char

namespace Text

/-! ## Bytes of a text -/

/-- The number of bytes that the text takes in UTF-8. -/
def byteLength (t : Text) : Nat := (t.map Char.utf8Size).sum

/-- What is left after the first `n` bytes. There is none when the cut falls inside a
character or past the end. -/
def dropBytes? : Text → Nat → Option Text
  | t, 0 => some t
  | [], _ + 1 => none
  | c :: t, n + 1 =>
    if c.utf8Size ≤ n + 1 then dropBytes? t (n + 1 - c.utf8Size) else none

/-- The first `n` bytes. There are none when the cut falls inside a character or past
the end. -/
def takeBytes? : Text → Nat → Option Text
  | _, 0 => some []
  | [], _ + 1 => none
  | c :: t, n + 1 =>
    if c.utf8Size ≤ n + 1 then (takeBytes? t (n + 1 - c.utf8Size)).map (c :: ·) else none

/-- The part from byte `start` up to byte `stop`. It is empty when one of the two does not
stand at the edge of a character. -/
def slice (t : Text) (start stop : Nat) : Text :=
  ((dropBytes? t start).bind (takeBytes? · (stop - start))).getD []

@[simp] theorem byteLength_nil : byteLength [] = 0 := rfl

@[simp] theorem byteLength_cons (c : Char) (t : Text) :
    byteLength (c :: t) = c.utf8Size + byteLength t := by
  simp [byteLength]

@[simp] theorem byteLength_append (s t : Text) :
    byteLength (s ++ t) = byteLength s + byteLength t := by
  simp [byteLength]

/-! ## Parts of a text -/

/-- The parts between the separators. There is one more part than separators. -/
def splitOn (sep : Char) : Text → List Text
  | [] => [[]]
  | c :: t =>
    if c = sep then [] :: splitOn sep t
    else
      match splitOn sep t with
      | [] => [[c]]
      | part :: parts => (c :: part) :: parts

/-- The parts with a separator between each two. -/
def join (sep : Text) : List Text → Text
  | [] => []
  | [part] => part
  | part :: parts => part ++ sep ++ join sep parts

/-- What follows the first place where `needle` stands. -/
def after? (needle : Text) : Text → Option Text
  | [] => if needle.isEmpty then some [] else none
  | c :: t =>
    if needle.isPrefixOf (c :: t) then some ((c :: t).drop needle.length)
    else after? needle t

/-- Whether `needle` stands somewhere in the text. -/
def holds (needle t : Text) : Bool := (after? needle t).isSome

/-- What follows `start`, when the text begins with it. -/
def stripStart? (start t : Text) : Option Text :=
  if start.isPrefixOf t then some (t.drop start.length) else none

end Text
end Stylometry
