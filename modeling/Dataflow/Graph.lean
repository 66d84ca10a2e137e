import Dataflow.Label
import Dataflow.NodeId

/-!
Control-flow graphs. A graph is an arena of nodes with labelled edges kept at both ends, in the order
in which they were added. It starts out with a start and an end node; instructions follow in order.
An edge is stored once, and only between nodes of the graph.
-/

namespace Dataflow

/-- One end of an edge, seen from the other: in a successor list the target, in a predecessor list the
source. -/
structure Edge where
  node : NodeId
  label : Label
  deriving DecidableEq, Repr

inductive NodeKind (I : Type) where
  | start
  | finish
  | instruction (instruction : I)
  deriving DecidableEq, Repr

def NodeKind.instruction? {I : Type} : NodeKind I → Option I
  | .instruction i => some i
  | .start | .finish => none

structure Node (I : Type) where
  id : NodeId
  kind : NodeKind I
  successors : List Edge
  predecessors : List Edge
  deriving Repr

structure Graph (I : Type) where
  name : String
  nodes : Array (Node I)

namespace Graph

variable {I : Type}

def size (g : Graph I) : Nat := g.nodes.size

def contains (g : Graph I) (n : NodeId) : Bool := decide (n.index < g.size)

/-- The identifiers that the nodes of the graph carry, in order. -/
def ids (g : Graph I) : List NodeId := g.nodes.toList.map Node.id

def node? (g : Graph I) (n : NodeId) : Option (Node I) := g.nodes[n.index]?

def instruction? (g : Graph I) (n : NodeId) : Option I := (g.node? n).bind fun d => d.kind.instruction?

def successors (g : Graph I) (n : NodeId) : List Edge := ((g.node? n).map Node.successors).getD []

def predecessors (g : Graph I) (n : NodeId) : List Edge :=
  ((g.node? n).map Node.predecessors).getD []

/-- The edges along which the result of a node travels on. -/
def flowSuccessors (g : Graph I) (direction : Direction) (n : NodeId) : List Edge :=
  match direction with
  | .forward => g.successors n
  | .backward => g.predecessors n

/-- The edges along which values arrive at a node. -/
def flowPredecessors (g : Graph I) (direction : Direction) (n : NodeId) : List Edge :=
  match direction with
  | .forward => g.predecessors n
  | .backward => g.successors n

/-- The distinct labels on which a node's result travels on, in order of first occurrence. -/
def labels (g : Graph I) (direction : Direction) (n : NodeId) : List Label :=
  ((g.flowSuccessors direction n).map Edge.label).eraseDups

end Graph

/-- The node at which values enter a graph. -/
def Direction.root : Direction → NodeId
  | .forward => .start
  | .backward => .finish

end Dataflow
