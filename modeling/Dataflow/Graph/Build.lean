import Dataflow.Graph

/-!
Construction of graphs, one step at a time. A step either succeeds or is refused because it names a
node outside the graph; a refused sequence keeps the edges added before the refusal.
-/

namespace Dataflow

/-- An edge with an end outside the graph. -/
structure EdgeFault where
  source : NodeId
  target : NodeId
  deriving DecidableEq, Repr

def EdgeFault.message (fault : EdgeFault) : String :=
  "edge " ++ fault.source.text ++ " -> " ++ fault.target.text ++
    " references a node outside the graph"

namespace Graph

variable {I : Type}

/-- The graph of the start and the end, with no edges. -/
def empty : Graph I := ⟨"<unit>", #[⟨.start, .start, [], []⟩, ⟨.finish, .finish, [], []⟩]⟩

def rename (g : Graph I) (name : String) : Graph I := { g with name }

/-- Adds a node behind the others, and tells its identifier. -/
def addInstruction (g : Graph I) (i : I) : Graph I × NodeId :=
  let id : NodeId := ⟨g.size⟩
  ({ g with nodes := g.nodes.push ⟨id, .instruction i, [], []⟩ }, id)

/-- Adds instructions one after the other, and tells their identifiers. -/
def addInstructions (g : Graph I) : List I → Graph I × List NodeId
  | [] => (g, [])
  | i :: rest =>
    let (next, id) := g.addInstruction i
    let (final, ids) := next.addInstructions rest
    (final, id :: ids)

/-- Stores an edge at both of its ends unless it is already there. -/
def link (g : Graph I) (source target : NodeId) (label : Label) : Graph I :=
  if ⟨target, label⟩ ∈ g.successors source then g
  else
    let leaving := g.nodes.modify source.index fun d =>
      { d with successors := d.successors ++ [⟨target, label⟩] }
    let entering := leaving.modify target.index fun d =>
      { d with predecessors := d.predecessors ++ [⟨source, label⟩] }
    { g with nodes := entering }

def addEdge (g : Graph I) (source target : NodeId) (label : Label) : Except EdgeFault (Graph I) :=
  if g.contains source && g.contains target then .ok (g.link source target label)
  else .error ⟨source, target⟩

/-- Adds unlabelled edges until one is refused. -/
def addPath (g : Graph I) : List (NodeId × NodeId) → Graph I × Option EdgeFault
  | [] => (g, none)
  | (source, target) :: rest =>
    match g.addEdge source target .normal with
    | .ok next => next.addPath rest
    | .error fault => (g, some fault)

/-- Straight-line code: from the start through the nodes to the end. -/
def addSequence (g : Graph I) (nodes : List NodeId) : Graph I × Option EdgeFault :=
  g.addPath ((NodeId.start :: nodes).zip (nodes ++ [NodeId.finish]))

end Graph

inductive BuildStep (I : Type) where
  | rename (name : String)
  | instruction (instruction : I)
  | edge (source target : NodeId) (label : Label)
  | sequence (nodes : List NodeId)
  deriving Repr

/-- What a step answers: the new node, nothing, or the refusal. -/
inductive BuildAnswer where
  | added (node : NodeId)
  | done
  | refused (fault : EdgeFault)
  deriving DecidableEq, Repr

namespace Graph

variable {I : Type}

def perform (g : Graph I) : BuildStep I → Graph I × BuildAnswer
  | .rename name => (g.rename name, .done)
  | .instruction i =>
    let (next, id) := g.addInstruction i
    (next, .added id)
  | .edge source target label =>
    match g.addEdge source target label with
    | .ok next => (next, .done)
    | .error fault => (g, .refused fault)
  | .sequence nodes =>
    match g.addSequence nodes with
    | (next, none) => (next, .done)
    | (next, some fault) => (next, .refused fault)

def performAll (g : Graph I) : List (BuildStep I) → Graph I × List BuildAnswer
  | [] => (g, [])
  | step :: rest =>
    let (next, answer) := g.perform step
    let (final, answers) := next.performAll rest
    (final, answer :: answers)

/-- The graph that a list of construction steps leaves behind. -/
def build (steps : List (BuildStep I)) : Graph I := (empty.performAll steps).1

end Graph

end Dataflow
