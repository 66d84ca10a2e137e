import Dataflow.Graph
import Dataflow.NodeMap

/-!
Depth-first traversal in flow direction, as a machine with an explicit stack. The machine marks a node
when it enters it and lists it when all its flow successors have been looked at, so the list, last
finished first, is the reverse postorder of the nodes reachable from the root.
-/

namespace Dataflow

/-- The path from the root to the current node, current node first, each with the targets still to be
looked at; the nodes entered so far; the nodes finished so far, last finished first. -/
structure Traversal where
  stack : List (NodeId × List NodeId)
  seen : NodeMap Bool
  finished : List NodeId

namespace Traversal

def enter (next : NodeId → List NodeId) (root : NodeId) : Traversal :=
  ⟨[(root, next root)], (NodeMap.const false).set root true, []⟩

def step (next : NodeId → List NodeId) (t : Traversal) : Traversal :=
  match t.stack with
  | [] => t
  | (n, []) :: below => { t with stack := below, finished := n :: t.finished }
  | (n, target :: targets) :: below =>
    if t.seen.get target then { t with stack := (n, targets) :: below }
    else
      { t with
        stack := (target, next target) :: (n, targets) :: below
        seen := t.seen.set target true }

def run (next : NodeId → List NodeId) : Nat → Traversal → Traversal
  | 0, t => t
  | fuel + 1, t => run next fuel (t.step next)

end Traversal

namespace Graph

variable {I : Type}

def flowTargets (g : Graph I) (direction : Direction) (n : NodeId) : List NodeId :=
  (g.flowSuccessors direction n).map Edge.node

/-- One step per node and one per edge: enough for every node to be entered and finished. -/
def traversalSteps (g : Graph I) (direction : Direction) : Nat :=
  (g.ids.flatMap fun n => n :: g.flowTargets direction n).length

def traverse (g : Graph I) (direction : Direction) : Traversal :=
  let next := g.flowTargets direction
  Traversal.run next (g.traversalSteps direction) (.enter next direction.root)

/-- The nodes reachable from the root, each before the nodes finished earlier. -/
def reversePostorder (g : Graph I) (direction : Direction) : List NodeId :=
  if g.contains direction.root then (g.traverse direction).finished else []

def postorder (g : Graph I) (direction : Direction) : List NodeId :=
  (g.reversePostorder direction).reverse

def reaches (g : Graph I) (direction : Direction) (n : NodeId) : Bool :=
  (g.reversePostorder direction).contains n

end Graph

end Dataflow
