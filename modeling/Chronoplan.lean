import Chronoplan.Logging
import Chronoplan.Main
import Chronoplan.Proofs.Faults
import Chronoplan.Proofs.Tables
import Chronoplan.Proofs.Sorting
import Chronoplan.Proofs.Planner.Exploration
import Chronoplan.Proofs.Planner.Choices
import Chronoplan.Proofs.Planner.Journals
import Chronoplan.Proofs.Planner.Backtracking
import Chronoplan.Proofs.Planner.Steps
import Chronoplan.Proofs.Planner.Replay
import Chronoplan.Proofs.Planner.Goals
import Chronoplan.Proofs.Planner.Rounds
import Chronoplan.Proofs.Planner.Deeds
import Chronoplan.Proofs.Planner.Retries
import Chronoplan.Proofs.Network.Check
import Chronoplan.Proofs.Network.Solutions
import Chronoplan.Proofs.Network.Bookings
import Chronoplan.Proofs.Network.Mirror
import Chronoplan.Proofs.Network.Flag
import Chronoplan.Proofs.Network.Propagation
import Chronoplan.Proofs.Network.Earliest
import Chronoplan.Proofs.Network.Orders
import Chronoplan.Proofs.Planner.Placing
import Chronoplan.Proofs.Planner.Schedules
import Chronoplan.Proofs.Planner.Pairing
import Chronoplan.Proofs.Planner.Budget
import Chronoplan.Proofs.Planner.Termination
import Chronoplan.Proofs.Sorting.Order
import Chronoplan.Proofs.Network.Gaps
import Chronoplan.Proofs.Network.Blocks
import Chronoplan.Proofs.Network.EarliestSlot
import Chronoplan.Proofs.Planner.EarliestPlace
import Chronoplan.Proofs.Network.Meets
import Chronoplan.Proofs.Network.Batches
import Chronoplan.Proofs.Network.Cycles
import Chronoplan.Proofs.Network.Narrowing
import Chronoplan.Proofs.Network.Doubling
import Chronoplan.Proofs.Network.RoundTrips
import Chronoplan.Proofs.Network.Refining
import Chronoplan.Proofs.Rounding.Halves
import Chronoplan.Proofs.Rounding.Spans
import Chronoplan.Proofs.Rounding.Sums
import Chronoplan.Proofs.Network.Detours
import Chronoplan.Proofs.Network.Requests
import Chronoplan.Proofs.Network.Agendas
import Chronoplan.Proofs.Planner.Splitting
import Chronoplan.Proofs.Planner.Accounts
import Chronoplan.Proofs.State.Keys
import Chronoplan.Proofs.State.Histories
import Chronoplan.Proofs.State.Mappings
import Chronoplan.Proofs.State.Maps
import Chronoplan.Proofs.State.Enumeration
import Chronoplan.Proofs.Documents
import Chronoplan.Proofs.Items
import Chronoplan.Proofs.Items.Refusals
import Chronoplan.Proofs.State.Export
import Chronoplan.Proofs.Network.Files
import Chronoplan.Proofs.Network.Metadata
import Chronoplan.Proofs.Settings.Keys
import Chronoplan.Proofs.Settings.Trees
import Chronoplan.Proofs.Settings.Merging
import Chronoplan.Proofs.Settings.Paths
import Chronoplan.Proofs.Settings.Coverage
import Chronoplan.Proofs.Settings.Reloading
import Chronoplan.Proofs.Yaml.Objects
import Chronoplan.Proofs.Yaml.Readout
import Chronoplan.Proofs.Settings.Sections
