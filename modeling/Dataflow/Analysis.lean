import Dataflow.Failure
import Dataflow.Graph
import Dataflow.Labeled

/-!
A client of the solver: the direction in which values travel, the lattice they live in, the value that
enters a graph, and what an instruction does to a value on each of the labels that leave it.
-/

namespace Dataflow

/-- `ε` is what a transfer function can report about an instruction. -/
structure Analysis (I α ε : Type) where
  direction : Direction
  ops : LatticeOps α
  entry : Graph I → α
  transfer : I → List Label → α → Except ε (Labeled α)

end Dataflow
