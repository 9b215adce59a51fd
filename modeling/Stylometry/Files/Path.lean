-- Paths as they are written, and the places that they lead to.
import Stylometry.Text.Basic

namespace Stylometry.Files

/-- A path as it is written. -/
abbrev Path := Text

namespace Path

/-- The parts between the slashes. -/
def parts (p : Path) : List Text := Text.splitOn '/' p

/-- The path of something inside a folder. A path that starts at the top stays as it is. -/
def inside (folder name : Path) : Path :=
  if name.head? = some '/' || folder.isEmpty then name
  else if folder.getLast? = some '/' then folder ++ name
  else folder ++ '/' :: name

/-- What follows the last dot of a file name. A dot in front does not count. -/
def extension? (name : Text) : Option Text :=
  match (Text.splitOn '.' name).reverse with
  | [] | [_] => none
  | [_, []] => none
  | last :: _ => some last

end Path

/-- A place in the tree of folders, by the names on the way from the working folder. A name
that is a slash leads to the top, and one that is two dots to the folder above. -/
abbrev Place := List Text

namespace Place

/-- The working folder. -/
def base : Place := []

/-- The top of all folders. -/
def top : Place := [['/']]

/-- The folder above. -/
def above (p : Place) : Place :=
  if p = top then top
  else if p.all (· = "..".toList) then p ++ ["..".toList]
  else p.dropLast

/-- Whether the place is the working folder, the top or above the working folder. -/
def isGiven (p : Place) : Bool := p = top || p.all (· = "..".toList)

/-- Follows one part of a path. -/
def enter (p : Place) (part : Text) : Place :=
  if part = [] ∨ part = ['.'] then p
  else if part = "..".toList then p.above
  else p ++ [part]

/-- Where the parts of a path start. -/
def startOf (p : Path) : Place := if p.head? = some '/' then top else base

/-- The places that a path leads through, the last one first. -/
def along (p : Path) : List Place :=
  p.parts.foldl (fun places part => (places.headD base).enter part :: places) [startOf p]

/-- A path that leads to a place. -/
def path (p : Place) : Path := Text.join ['/'] (p.map fun name => if name = ['/'] then [] else name)

/-- What leads from one place to another that lies inside it. -/
def within? (outer inner : Place) : Option (List Text) :=
  if outer.isPrefixOf inner then some (inner.drop outer.length) else none

end Place
end Stylometry.Files
