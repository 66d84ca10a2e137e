/-!
Node identifiers. Node 0 is the start, node 1 the end, and the `i`-th instruction of a graph sits at
node `i + 2`.
-/

namespace Dataflow

structure NodeId where
  index : Nat
  deriving DecidableEq, Repr

namespace NodeId

def start : NodeId := ⟨0⟩

def finish : NodeId := ⟨1⟩

def text : NodeId → String
  | ⟨0⟩ => "start"
  | ⟨1⟩ => "end"
  | ⟨index⟩ => "n" ++ index.repr

end NodeId

end Dataflow
