import Sigil.FileTree
import Sigil.LineIndex
import Sigil.Main
import Sigil.Proofs.LoopVariables
import Sigil.Proofs.MappingsField
import Sigil.Proofs.PositionMaps
import Sigil.Proofs.SourceLayout
import Sigil.Proofs.StatementOrder
import Sigil.Proofs.Tiling
import Sigil.Run
import Sigil.Proofs.FaultPlaces
import Sigil.Proofs.LineJoins
import Sigil.Proofs.StateScopes
import Sigil.Proofs.WellFormed
import Sigil.Proofs.DialectLines
import Sigil.Proofs.UnitFailures
import Sigil.Proofs.Schedules
import Sigil.Proofs.Layouts
import Sigil.Proofs.StatementLines
import Sigil.Proofs.MapLookups
import Sigil.Proofs.ByteOffsets
import Sigil.Proofs.TextRuns
import Sigil.Proofs.TypeRereading
import Sigil.Proofs.TypeRoundTrip
import Sigil.Proofs.Bindings
import Sigil.Proofs.Comments
import Sigil.Proofs.InputEnds
import Sigil.Proofs.Keys
import Sigil.Proofs.ComponentNames
import Sigil.Proofs.Escapes
import Sigil.Proofs.DependencyLists
