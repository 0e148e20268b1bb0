import RankOne.BitField
import RankOne.CoefficientTable
import RankOne.Constraint
import RankOne.Fault
import RankOne.Hint
import RankOne.LinearCombination.Basic
import RankOne.LinearCombination.Canonical
import RankOne.LinearCombination.Edit
import RankOne.LinearCombination.Rendering
import RankOne.Message
import RankOne.Proofs.RenderedText
import RankOne.Proofs.Traversal
import RankOne.Proofs.WellFormedness
import RankOne.Scope
import RankOne.Site
import RankOne.System.Basic
import RankOne.System.Call
import RankOne.System.Edit
import RankOne.System.Rendering
import RankOne.System.Validity
import RankOne.Term.Basic
import RankOne.Term.Layout
import RankOne.Term.Order
import RankOne.Term.Update
import RankOne.Text.Decimal
import RankOne.Text.Hexadecimal
import RankOne.Visibility
import RankOne.Proofs.Decoding
import RankOne.Proofs.Earliest
import RankOne.Proofs.Packing
import RankOne.Proofs.ReadingOrder
import RankOne.Proofs.CanonicalForm
import RankOne.Proofs.Interning
import RankOne.Proofs.Reordering
import RankOne.Proofs.FaultSubject
import RankOne.Proofs.Meaning
import RankOne.Proofs.Histories
import RankOne.Proofs.DebugLinks
import RankOne.Proofs.FirstHints
import RankOne.Proofs.Interleaving
import RankOne.Proofs.TableGrowth
import RankOne.Proofs.TraceRecords
import RankOne.Proofs.UnknownCoefficients
import RankOne.Proofs.Extension
import RankOne.Proofs.Parts
import RankOne.Proofs.TermOrder
import RankOne.Proofs.VisibilityBlocks
import RankOne.Proofs.BufferedText
import RankOne.Proofs.Composition
import RankOne.Proofs.LooseLinks
import RankOne.Proofs.Building
import RankOne.Proofs.FieldWrites
import RankOne.Proofs.SummandOrder
import RankOne.Proofs.Inspection
import RankOne.Proofs.FixedWidth
