-- The linear model of readability.
import Stylometry.Measure.Scalar

namespace Stylometry

/-- The weights of the model. Volume and entropy lower the score and lines raise it. -/
structure Readability (α : Type) where
  intercept : α
  volume : α
  lines : α
  entropy : α
  deriving Repr

/-- The score of a source. -/
def Readability.score [Scalar α] (m : Readability α) (volume lines entropy : α) : α :=
  m.intercept - m.volume * volume + m.lines * lines - m.entropy * entropy

/-- The weights used where no others are given. -/
def Readability.standard : Readability Float := ⟨8.87, 0.033, 0.40, 1.5⟩

end Stylometry
