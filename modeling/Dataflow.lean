import Dataflow.Analysis
import Dataflow.CommandLine.Arguments
import Dataflow.CommandLine.Run
import Dataflow.Config
import Dataflow.Config.File
import Dataflow.Constants
import Dataflow.Decimal
import Dataflow.Dot
import Dataflow.Failure
import Dataflow.Graph
import Dataflow.Graph.Build
import Dataflow.Graph.Codec
import Dataflow.Graph.Description
import Dataflow.Graph.Traversal
import Dataflow.Instruction
import Dataflow.Instruction.Codec
import Dataflow.Json
import Dataflow.Json.Decode
import Dataflow.Json.Reader
import Dataflow.Label
import Dataflow.Labeled
import Dataflow.Lattice
import Dataflow.Liveness
import Dataflow.Main
import Dataflow.NodeId
import Dataflow.NodeMap
import Dataflow.NullCheck
import Dataflow.Nullness
import Dataflow.OrderedMap
import Dataflow.Report
import Dataflow.Report.Text
import Dataflow.Session
import Dataflow.Solver
import Dataflow.Toml
import Dataflow.Toml.Reader
import Dataflow.Toml.Scalar
import Dataflow.Tuple
import Dataflow.UnitFile
import Dataflow.Worklist
import Dataflow.Proofs.Arena
import Dataflow.Proofs.Traversal
import Dataflow.Proofs.Worklist
import Dataflow.Proofs.Labeled
import Dataflow.Proofs.Run
import Dataflow.Proofs.Stability
import Dataflow.Proofs.Clients
import Dataflow.Proofs.LeastSolution
import Dataflow.Proofs.Execution
import Dataflow.Proofs.NullnessSoundness
import Dataflow.Proofs.ConstantSoundness
import Dataflow.Proofs.Paths
import Dataflow.Proofs.LivePaths
import Dataflow.Proofs.Accounting
import Dataflow.Proofs.Monotone
import Dataflow.Proofs.CleanStates
import Dataflow.Proofs.Convergence
import Dataflow.Proofs.PendingOrder
import Dataflow.Proofs.Postorder
import Dataflow.Proofs.OnePass
import Dataflow.Proofs.DeadCode
import Dataflow.Proofs.Descriptions
import Dataflow.Proofs.EdgeOrder
import Dataflow.Proofs.OrderIndependence
import Dataflow.Proofs.CacheCoherence
import Dataflow.Proofs.Questions
import Dataflow.Proofs.RoundTrip
import Dataflow.Proofs.PointwiseOrder
import Dataflow.Proofs.Guards
import Dataflow.Proofs.Branches
import Dataflow.Proofs.VisitBound
import Dataflow.Proofs.OutgoingLabels
import Dataflow.Proofs.EdgeStates
import Dataflow.Proofs.ExceptionalExits
import Dataflow.Proofs.Acceptance
import Dataflow.Proofs.Cancellation
import Dataflow.Proofs.CheckedAccess
import Dataflow.Proofs.UnitSafety
import Dataflow.Proofs.LabelwiseOrder
import Dataflow.Proofs.JsonText
import Dataflow.Proofs.PendingSet
import Dataflow.Proofs.Loading
import Dataflow.Proofs.ExitStatus
import Dataflow.Proofs.ExactArithmetic
