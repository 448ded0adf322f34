import TwoLevel.Main
import TwoLevel.Proofs.Canonical
import TwoLevel.Proofs.Coverage
import TwoLevel.Proofs.Cube
import TwoLevel.Proofs.DiscoveryOrder
import TwoLevel.Proofs.Grammar
import TwoLevel.Proofs.MinimalForm
import TwoLevel.Proofs.PrimeImplicants
import TwoLevel.Proofs.Rendering
import TwoLevel.Proofs.TableValues
import TwoLevel.Proofs.WidenedChoice
import TwoLevel.Proofs.Widening
import TwoLevel.Proofs.Conversion
import TwoLevel.Proofs.Outcome
import TwoLevel.Proofs.Sentence
import TwoLevel.Proofs.GreedyBound
import TwoLevel.Proofs.MinimumCover
import TwoLevel.Proofs.TableExtension
import TwoLevel.Proofs.Duality
import TwoLevel.Proofs.CoverText
import TwoLevel.Proofs.ProgramRun
import TwoLevel.Proofs.Placement
import TwoLevel.Proofs.Essentials
import TwoLevel.Proofs.GreedyPicks
import TwoLevel.Proofs.EnumerationOrder
import TwoLevel.Proofs.EvaluationOutcome
import TwoLevel.Proofs.CanonicalForms
import TwoLevel.Proofs.FunctionIndex
import TwoLevel.Proofs.MapReading
import TwoLevel.Proofs.RoundTrip
import TwoLevel.Proofs.RowDecoding
import TwoLevel.Proofs.ChainedCommands
import TwoLevel.Proofs.WordSearch
import TwoLevel.Proofs.SearchLoop
import TwoLevel.Proofs.Coherence
import TwoLevel.Proofs.StoredPattern
import TwoLevel.Proofs.VariableLookup
import TwoLevel.Proofs.WordCover
