import Stylometry.Main
import Stylometry.Proofs.Callees
import Stylometry.Proofs.CanonicalKeys
import Stylometry.Proofs.CommandHistories
import Stylometry.Proofs.CountingRuns
import Stylometry.Proofs.DeclaredScan
import Stylometry.Proofs.FeatureSums
import Stylometry.Proofs.FileOrder
import Stylometry.Proofs.FirstError
import Stylometry.Proofs.Groupings
import Stylometry.Proofs.LoadedTables
import Stylometry.Proofs.MissingMeasures
import Stylometry.Proofs.Notes
import Stylometry.Proofs.OperandTexts
import Stylometry.Proofs.Records
import Stylometry.Proofs.Selection
import Stylometry.Proofs.Separators
import Stylometry.Proofs.SkippedNodes
import Stylometry.Proofs.SyntaxCounts
import Stylometry.Proofs.WalkTotals
import Stylometry.Proofs.WindowCounts
import Stylometry.Proofs.FileEncodings
import Stylometry.Proofs.LineBreaks
import Stylometry.Proofs.LineFeeds
import Stylometry.Proofs.NodePlaces
import Stylometry.Proofs.LineMarkers
import Stylometry.Proofs.Positions
import Stylometry.Proofs.TokenOrder
import Stylometry.Proofs.Frequencies
import Stylometry.Proofs.Meanings
import Stylometry.Proofs.Nesting
import Stylometry.Proofs.HalsteadBounds
