-- The sources below a path, and their texts.
import Stylometry.Files.Store
import Stylometry.Text.Encoding

namespace Stylometry.Files

/-- The extensions of sources. -/
def sourceExtensions : List String := ["cpp", "cc", "cxx", "c", "h", "hpp", "hh"]

/-- Whether a file name has the extension of a source, in any case of its letters. -/
def isSourceName (name : Text) : Bool :=
  match Path.extension? name with
  | some e => sourceExtensions.contains (String.ofList (e.map Char.toLower))
  | none => false

/-- Whether one list of names comes before another or is equal to it, by the bytes of the
first two names that differ. -/
def namesLe : List Text → List Text → Bool
  | [], _ => true
  | _ :: _, [] => false
  | a :: as, b :: bs => if a = b then namesLe as bs else String.ofList a < String.ofList b

namespace Store

/-- The paths of the sources below a root, sorted. A root that is a file is taken as it
is. -/
def sources (s : Store) (root : Path) : List Path :=
  if s.isFile root then [root]
  else
    match s.resolve root with
    | .error _ => []
    | .ok place =>
      let found := (s.filesWithin place).filter fun names => isSourceName (names.getLastD [])
      (found.mergeSort namesLe).map fun names => names.foldl Path.inside root

/-- The text of a source. -/
def readSource (s : Store) (p : Path) : Except FileError Text := (s.read p).map Encoding.source

end Store
end Stylometry.Files
