import Transducers.Diagram.Tree
import Transducers.Files.Store
import Transducers.Main
import Transducers.Trace.Json
import Transducers.Proofs.FreshId
import Transducers.Proofs.Synthesis
import Transducers.Proofs.SplitPairs
import Transducers.Proofs.MooreStates
import Transducers.Proofs.MooreForm
import Transducers.Proofs.Simulation
import Transducers.Proofs.MealyRows
import Transducers.Proofs.RoundTrip
import Transducers.Proofs.MealyRuns
import Transducers.Proofs.Chain
import Transducers.Proofs.Sessions
import Transducers.Proofs.Drawings
import Transducers.Proofs.JsonText
import Transducers.Proofs.DefinitionText
import Transducers.Proofs.Agreement
import Transducers.Proofs.Renaming
import Transducers.Proofs.Rendering
import Transducers.Proofs.DefinitionFormat
import Transducers.Proofs.Redrawing
import Transducers.Proofs.CommandRuns
import Transducers.Proofs.DotText
import Transducers.Proofs.MachineDiagrams
import Transducers.Proofs.ConversionOutcomes
import Transducers.Proofs.ExportText
import Transducers.Proofs.MealyForm
import Transducers.Proofs.TreeOutline
import Transducers.Proofs.Reachability
import Transducers.Proofs.MachineDrawings
import Transducers.Proofs.GraphMlText
import Transducers.Proofs.DotReading
import Transducers.Proofs.RunComposition
import Transducers.Proofs.TreeText
import Transducers.Proofs.GraphMlReading
import Transducers.Proofs.ConversionLog
import Transducers.Proofs.Additions
import Transducers.Proofs.Lookups
