import Kconfig.Config.Evaluate
import Kconfig.Main
import Kconfig.Proofs.Config.Coherence
import Kconfig.Proofs.Reading.Lines
import Kconfig.Proofs.Reading.Files
import Kconfig.Proofs.Reading.CommonFiles
import Kconfig.Proofs.Model.Inheritance
import Kconfig.Proofs.Model.Outline
import Kconfig.Proofs.Model.Properties
import Kconfig.Proofs.Model.Settled
import Kconfig.Proofs.Load.Model
import Kconfig.Proofs.Config.History
import Kconfig.Proofs.Model.Propagation
import Kconfig.Proofs.Model.Search
import Kconfig.Proofs.Model.Loop
import Kconfig.Proofs.Values.Entering
import Kconfig.Proofs.Load.Loops
import Kconfig.Proofs.Values.Saved
import Kconfig.Proofs.Model.Order
import Kconfig.Proofs.Model.Iteration
import Kconfig.Proofs.Config.Line
import Kconfig.Proofs.Config.Page
import Kconfig.Proofs.Config.Loading
import Kconfig.Proofs.Config.Unseen
import Kconfig.Proofs.Config.LoadedFiles
import Kconfig.Proofs.Config.Assignments
import Kconfig.Proofs.Values.Recall
import Kconfig.Proofs.Values.Backing
import Kconfig.Proofs.Values.Exclusive
import Kconfig.Proofs.Config.Selected
import Kconfig.Proofs.Config.RoundTrip
import Kconfig.Proofs.Menu.Unsaved
import Kconfig.Proofs.Config.Reach
import Kconfig.Proofs.Config.Minimal
import Kconfig.Proofs.Config.Repeated
import Kconfig.Proofs.Files.Store
import Kconfig.Proofs.Menu.Calls
import Kconfig.Proofs.Config.Reload
import Kconfig.Proofs.Menu.Reload
import Kconfig.Proofs.Values.Loopless
import Kconfig.Proofs.Config.Able
import Kconfig.Proofs.Menu.Answers
import Kconfig.Proofs.Files.Growth
import Kconfig.Proofs.Reading.Confined
import Kconfig.Proofs.Reading.ConfinedLines
import Kconfig.Proofs.Reading.Inclusion
import Kconfig.Proofs.Load.Inclusion
import Kconfig.Proofs.Reading.Dependencies
import Kconfig.Proofs.Config.Ranges
import Kconfig.Proofs.Config.Assignable
import Kconfig.Proofs.Config.Printed
import Kconfig.Proofs.Load.FoundLoops
import Kconfig.Proofs.Config.Defaults
import Kconfig.Proofs.Menu.Ranges
import Kconfig.Proofs.Config.Malformed
import Kconfig.Proofs.Config.SingleLine
import Kconfig.Proofs.Model.FirstPlaces
import Kconfig.Proofs.Config.Writers
import Kconfig.Proofs.Text.Constant
import Kconfig.Proofs.Config.Literals
import Kconfig.Proofs.Tool.Readable
import Kconfig.Proofs.Menu.Assembly
import Kconfig.Proofs.Menu.Shown
import Kconfig.Proofs.Tool.Defaults
import Kconfig.Proofs.Reading.Expansion
import Kconfig.Proofs.Reading.Leftover
import Kconfig.Proofs.Config.Expansions
import Kconfig.Proofs.Reading.Handled
import Kconfig.Proofs.Reading.Positions
import Kconfig.Proofs.Load.Positions
import Kconfig.Proofs.Config.Restated
