import Dataflow.Graph.Build

/-!
Descriptions of graphs: a name, the instructions, and edges between the start, the end and positions
in the instruction list. `toGraph` accepts a description when every position exists, no edge enters the
start and none leaves the end; it reports the first edge at fault.
-/

namespace Dataflow

inductive Endpoint where
  | start
  | finish
  | instruction (position : Nat)
  deriving DecidableEq, Repr

structure EdgeDescription where
  source : Endpoint
  target : Endpoint
  label : Label
  deriving DecidableEq, Repr

structure Description (I : Type) where
  name : String
  instructions : List I
  edges : List EdgeDescription
  deriving DecidableEq, Repr

/-- Why a description is not one of a graph; `edge` is the position of the edge at fault. -/
inductive GraphFault where
  | noInstruction (edge position count : Nat)
  | entersStart (edge : Nat)
  | leavesEnd (edge : Nat)
  /-- The graph under construction has refused an edge whose ends were resolved. -/
  | refused (fault : EdgeFault)
  deriving DecidableEq, Repr

def GraphFault.message : GraphFault → String
  | .noInstruction edge position count =>
    "edge " ++ edge.repr ++ " references instruction " ++ position.repr ++ " but only " ++
      count.repr ++ " exist"
  | .entersStart edge => "edge " ++ edge.repr ++ " enters the start node"
  | .leavesEnd edge => "edge " ++ edge.repr ++ " leaves the end node"
  | .refused fault => fault.message

/-- The node of an endpoint; `ids` are those of the instructions, and `edge` is the position of the edge. -/
def Endpoint.resolve (ids : List NodeId) (edge : Nat) : Endpoint → Except GraphFault NodeId
  | .start => .ok .start
  | .finish => .ok .finish
  | .instruction position =>
    match ids[position]? with
    | some id => .ok id
    | none => .error (.noInstruction edge position ids.length)

namespace Description

variable {I : Type}

/-- The graph of the instructions, without edges, and their identifiers. -/
def nodes (d : Description I) : Graph I × List NodeId :=
  (Graph.empty.rename d.name).addInstructions d.instructions

/-- Adds the edge at position `edge` of a description whose instructions have the given identifiers. -/
def addEdge (ids : List NodeId) (edge : Nat) (g : Graph I) (e : EdgeDescription) :
    Except GraphFault (Graph I) := do
  let source ← e.source.resolve ids edge
  let target ← e.target.resolve ids edge
  if target = .start then .error (.entersStart edge)
  else if source = .finish then .error (.leavesEnd edge)
  else (g.addEdge source target e.label).mapError .refused

def addEdges (ids : List NodeId) : Nat → Graph I → List EdgeDescription → Except GraphFault (Graph I)
  | _, g, [] => .ok g
  | edge, g, e :: rest =>
    match addEdge ids edge g e with
    | .ok next => addEdges ids (edge + 1) next rest
    | .error fault => .error fault

def toGraph (d : Description I) : Except GraphFault (Graph I) :=
  let (g, ids) := d.nodes
  addEdges ids 0 g d.edges

end Description

end Dataflow
