-- Measures of a source by its lines.
import Stylometry.Text.Lines

namespace Stylometry

/-- The size of a source in lines. -/
structure SourceSize where
  lines : Nat
  /-- The characters of the longest line. -/
  longestLine : Nat
  deriving DecidableEq, Repr

/-- Counts the lines up to the last one that is not empty. -/
def SourceSize.ofText (source : Text) : SourceSize :=
  let lines := Text.dropTrailingEmpty (Text.splitBreaks source)
  ⟨lines.length, (lines.map List.length).foldl max 0⟩

end Stylometry
