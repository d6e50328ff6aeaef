import Notebook.Json.Parser
import Notebook.Digest.Sha256
import Notebook.Text.Passes
import Notebook.Graph.Plan
import Notebook.Graph.Index
import Notebook.Graph.Schedule
import Notebook.Cache.File
import Notebook.Model
import Notebook.Wire.Kernel
import Notebook.Config
import Notebook.Kernel.Run
import Notebook.Script.Interpreter
import Notebook.Proofs.Graph.Edges
import Notebook.Proofs.Graph.Paths
import Notebook.Proofs.Graph.Plan
import Notebook.Proofs.Graph.Index
import Notebook.Proofs.Graph.Affected
import Notebook.Proofs.Graph.Orders
import Notebook.Proofs.Graph.Circuits
import Notebook.Proofs.Graph.Counters
import Notebook.Proofs.Graph.Search
import Notebook.Proofs.Graph.Groups
import Notebook.Proofs.Graph.Schedule
import Notebook.Proofs.Graph.Accurate
import Notebook.Proofs.Graph.Runs
import Notebook.Proofs.Kernel.Round
import Notebook.Proofs.Kernel.Edit
import Notebook.Proofs.Kernel.Reachable
import Notebook.Proofs.Kernel.Containment
import Notebook.Proofs.Kernel.Informed
import Notebook.Proofs.Kernel.Stopped
import Notebook.Proofs.Kernel.Privacy
import Notebook.Proofs.Kernel.Staleness
import Notebook.Proofs.Json.Doubles
import Notebook.Proofs.Text.Sources
import Notebook.Proofs.Identity.Content
import Notebook.Proofs.Identity.Exactness
import Notebook.Proofs.Identity.Framing
import Notebook.Proofs.Identity.Search
import Notebook.Proofs.Cache.LastWrite
import Notebook.Proofs.Cache.Saving
import Notebook.Proofs.Cache.Paths
import Notebook.Proofs.Cache.Restoring
import Notebook.Proofs.Cache.Servable
import Notebook.Proofs.Kernel.Cached
import Notebook.Proofs.Kernel.Completed
import Notebook.Proofs.Kernel.History
import Notebook.Proofs.Kernel.Incremental
import Notebook.Proofs.Kernel.FromScratch
import Notebook.Proofs.Kernel.Bookkeeping
import Notebook.Proofs.Kernel.Transparent
import Notebook.Proofs.Identity.Impurity
import Notebook.Proofs.Identity.Modules
import Notebook.Proofs.Identity.Pinning
import Notebook.Proofs.Identity.Recursion
import Notebook.Proofs.Identity.Details
import Notebook.Proofs.Element.Lineage
import Notebook.Proofs.Element.Histories
import Notebook.Proofs.Element.Patches
import Notebook.Proofs.Element.Mirror
import Notebook.Proofs.Element.Rerun
import Notebook.Proofs.Element.Superseded
import Notebook.Proofs.Kernel.Followers
import Notebook.Proofs.Kernel.Ownership
import Notebook.Proofs.Session.Frames
import Notebook.Proofs.Session.Holdings
import Notebook.Proofs.Kernel.Upkeep
import Notebook.Proofs.Kernel.Naming
import Notebook.Proofs.Kernel.Agreement
import Notebook.Proofs.Kernel.Conflicts
import Notebook.Proofs.Kernel.Rejected
import Notebook.Proofs.Kernel.Reported
import Notebook.Proofs.Kernel.Elements
import Notebook.Proofs.Kernel.Coalesced
import Notebook.Proofs.Graph.Branches
import Notebook.Proofs.Kernel.Cycles
import Notebook.Proofs.Element.Replay
import Notebook.Proofs.Element.Collecting
import Notebook.Proofs.Element.Walks
import Notebook.Proofs.Model.Owners
import Notebook.Proofs.Model.Removal
import Notebook.Proofs.Kernel.LastOfClass
import Notebook.Proofs.Cache.Counting
import Notebook.Proofs.Session.Guards
import Notebook.Proofs.Json.Spellings
import Notebook.Proofs.Wire.Readers
import Notebook.Proofs.Wire.RoundTrips
