-- Prefix codes. The lengths of the code words fix the code: words of one length follow each
-- other in the order of their symbols, and shorter words come first.
import Stylometry.Gzip.Bits

namespace Stylometry.Gzip

/-- A prefix code as a tree: a bit leads to the left when it is zero. -/
inductive Code where
  | unused
  | symbol (s : Nat)
  | branch (zero one : Code)

namespace Code

/-- The code with one more word, given from its first bit. -/
def insert (s : Nat) : List Bool → Code → Code
  | [], _ => .symbol s
  | false :: word, .branch zero one => .branch (insert s word zero) one
  | true :: word, .branch zero one => .branch zero (insert s word one)
  | false :: word, _ => .branch (insert s word .unused) .unused
  | true :: word, _ => .branch .unused (insert s word .unused)

/-- The lowest `length` bits of a number, the highest of them first. -/
def wordOf (length n : Nat) : List Bool :=
  (List.range length).map fun i => n.testBit (length - 1 - i)

/-- The symbols with the length of their words, the shortest first. A symbol of length zero
has no word. -/
def used (lengths : List Nat) : List (Nat × Nat) :=
  ((lengths.zipIdx).filter fun e => e.1 ≠ 0).mergeSort fun a b => a.1 ≤ b.1

/-- Adds the words of some symbols. `next` is the next word of length `length`. -/
def addWords (next length : Nat) : List (Nat × Nat) → Code → Code
  | [], code => code
  | (l, s) :: rest, code =>
    let word := next * 2 ^ (l - length)
    addWords (word + 1) l rest (code.insert s (wordOf l word))

/-- The part of all words of fifteen bits that begin with a word of the code, in words. -/
def room (lengths : List Nat) : Nat := ((used lengths).map fun e => 2 ^ (15 - e.1)).sum

/-- The code with the given lengths. Two or more words have to leave no gap and must not
overlap. -/
def ofLengths? (lengths : List Nat) : Option Code :=
  let words := used lengths
  if words.length ≤ 1 ∨ room lengths = 2 ^ 15 then some (addWords 0 0 words .unused) else none

/-- The next symbol. -/
def read? : Code → BitReader → Option (Nat × BitReader)
  | .unused, _ => none
  | .symbol s, r => some (s, r)
  | .branch zero one, r =>
    match r.bit? with
    | some (false, r) => read? zero r
    | some (true, r) => read? one r
    | none => none

end Code
end Stylometry.Gzip
