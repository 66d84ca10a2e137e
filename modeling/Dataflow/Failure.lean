import Dataflow.Config
import Dataflow.Graph.Description
import Dataflow.Lattice

/-!
Why a run, a description or a configuration is refused.
-/

namespace Dataflow

def GraphFault.complaint (fault : GraphFault) : String := "invalid control-flow graph: " ++ fault.message

def ConfigFault.complaint (fault : ConfigFault) : String := "invalid solver configuration: " ++ fault.message

/-- A failure; `ε` is what the transfer function of a client can report. -/
inductive Failure (ε : Type) where
  | nonConvergent (node : NodeId) (limit : Nat)
  | cancelled (iterations : Nat)
  | transfer (node : NodeId) (fault : ε)
  | invalidGraph (fault : GraphFault)
  | configuration (fault : ConfigFault)
  deriving DecidableEq, Repr

namespace Failure

variable {ε : Type}

def message [Display ε] : Failure ε → String
  | .nonConvergent node limit =>
    "analysis did not converge: node " ++ node.text ++ " exceeded " ++ limit.repr ++ " visits"
  | .cancelled iterations => "analysis cancelled after " ++ iterations.repr ++ " iterations"
  | .transfer node fault =>
    "transfer function failed at node " ++ node.text ++ ": " ++ Display.text fault
  | .invalidGraph fault => fault.complaint
  | .configuration fault => fault.complaint

def isNonConvergent : Failure ε → Bool
  | .nonConvergent _ _ => true
  | _ => false

end Failure

end Dataflow
