import Dataflow.Json
import Dataflow.Liveness
import Dataflow.Constants
import Dataflow.NullCheck

/-!
Reports on units: the state before and after each node, and the findings of the null check.
-/

namespace Dataflow

inductive AnalysisKind where
  | nullness
  | constants
  | liveness
  deriving DecidableEq, Repr

def AnalysisKind.name : AnalysisKind → String
  | .nullness => "nullness"
  | .constants => "constants"
  | .liveness => "liveness"

def AnalysisKind.ofName? : String → Option AnalysisKind
  | "nullness" => some .nullness
  | "constants" => some .constants
  | "liveness" => some .liveness
  | _ => none

/-- The instruction at a node, or the mark of the start or the end. -/
def nodeLabel (g : Graph Instruction) (n : NodeId) : String :=
  match g.instruction? n with
  | some i => i.text
  | none => if n = .start then "<start>" else "<end>"

structure NodeReport where
  node : String
  instruction : String
  /-- None at an unreachable node, as for `after`. -/
  before : Option String
  after : Option String
  deriving DecidableEq, Repr

structure UnitReport where
  unit : String
  analysis : String
  direction : Direction
  iterations : Nat
  nodes : List NodeReport
  deriving DecidableEq, Repr

structure CheckReport where
  unit : String
  findings : List Finding
  deriving DecidableEq, Repr

structure FailedUnit where
  unit : String
  error : String
  deriving DecidableEq, Repr

namespace Session

variable {α ε : Type} [Display α]

/-- The row of one node. -/
def nodeReport (signals : Token → Signal) (d : Node Instruction) (s : Session Instruction α ε) :
    Reply Instruction α ε NodeReport :=
  (s.before signals d.id).andThen fun before s =>
    (s.after signals d.id).map fun after =>
      { node := d.id.text
        instruction := nodeLabel s.graph d.id
        before := before.map Display.text
        after := after.map Display.text }

/-- The states before and after every node of the graph. -/
def report (s : Session Instruction α ε) (name : String) (signals : Token → Signal) :
    Reply Instruction α ε UnitReport :=
  (s.solve signals).andThen fun r s =>
    (s.collect (nodeReport signals) s.graph.nodes.toList).map fun nodes =>
      { unit := s.graph.name
        analysis := name
        direction := s.analysis.direction
        iterations := r.iterations
        nodes }

end Session

def optionalText : Option String → Json
  | none => .null
  | some text => .str text

def NodeReport.toJson (r : NodeReport) : Json :=
  .obj [("node", .str r.node), ("instruction", .str r.instruction), ("before", optionalText r.before),
    ("after", optionalText r.after)]

def UnitReport.toJson (r : UnitReport) : Json :=
  .obj [("unit", .str r.unit), ("analysis", .str r.analysis), ("direction", .str r.direction.name),
    ("iterations", .int r.iterations), ("nodes", .arr (r.nodes.map NodeReport.toJson))]

def Finding.toJson (f : Finding) : Json :=
  .obj [("node", .int f.node.index), ("variable", .str f.receiver), ("severity", .str f.severity.name),
    ("instruction", .str f.instruction)]

def CheckReport.toJson (r : CheckReport) : Json :=
  .obj [("unit", .str r.unit), ("findings", .arr (r.findings.map Finding.toJson))]

def FailedUnit.toJson (f : FailedUnit) : Json :=
  .obj [("unit", .str f.unit), ("error", .str f.error)]

end Dataflow
