import Dataflow.Report

/-!
Solved units in the DOT language. A node shows its instruction and the state after it; an edge shows
its label unless it is a normal one.
-/

namespace Dataflow.Dot

/-- A character inside a quoted label; a line ends left-justified. -/
def escape (c : Char) : List Char :=
  if c = '"' || c = '\\' then ['\\', c]
  else if c = '\n' then ['\\', 'l']
  else [c]

def quoted (text : String) : String :=
  "\"" ++ String.ofList (text.toList.flatMap escape) ++ "\""

def nodeLine (n : NodeId) (label : String) : String :=
  "    " ++ n.index.repr ++ " [ label = " ++ quoted label ++ " ]\n"

def edgeText : Label → String
  | .normal => ""
  | label => label.name

def edgeLine (n : NodeId) (e : Edge) : String :=
  "    " ++ n.index.repr ++ " -> " ++ e.node.index.repr ++ " [ label = " ++ quoted (edgeText e.label) ++
    " ]\n"

variable {α ε : Type} [Display α]

/-- The line of one node. -/
def drawNode (signals : Token → Signal) (d : Node Instruction) (s : Session Instruction α ε) :
    Reply Instruction α ε String :=
  (s.after signals d.id).map fun after =>
    let state := (after.map Display.text).getD "unreachable"
    nodeLine d.id (d.id.text ++ ": " ++ nodeLabel s.graph d.id ++ "\n" ++ state)

def drawEdges (d : Node Instruction) : String := String.join (d.successors.map (edgeLine d.id))

/-- The picture of the graph of a session. -/
def render (s : Session Instruction α ε) (signals : Token → Signal) : Reply Instruction α ε String :=
  (s.collect (drawNode signals) s.graph.nodes.toList).map fun nodes =>
    "digraph \x7b\n" ++ String.join nodes ++ String.join (s.graph.nodes.toList.map drawEdges) ++ "\x7d\n"

end Dataflow.Dot
