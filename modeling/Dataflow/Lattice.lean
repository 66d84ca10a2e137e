/-!
The lattice contract of the engine. An element type knows `join` and `precise`; `LatticeOps` is the
algebra that a run uses, with its bottom. The laws of a join-semilattice are not assumed here: the
engine runs with any operations, and `LatticeOps.Lawful` states what the theory asks for.
-/

namespace Dataflow

/-- Text shown to a reader. -/
class Display (α : Type) where
  text : α → String

/-- `precise a b` says that `a` carries at least as much information as `b`, that is, lies at or
below it; `join` is meant to be a least upper bound, and a copy to be the same value. -/
class LatticeElement (α : Type) where
  join : α → α → α
  precise : α → α → Bool
  copy : α → α := id

namespace LatticeElement

variable {α : Type} [LatticeElement α]

/-- Precision in both ways, which is equality in the lattice order. -/
def equivalent (a b : α) : Bool := precise a b && precise b a

end LatticeElement

/-- The operations of one run. `equivalent` decides whether a value has changed. -/
structure LatticeOps (α : Type) where
  bottom : α
  copy : α → α
  join : α → α → α
  precise : α → α → Bool
  equivalent : α → α → Bool

namespace LatticeOps

variable {α : Type}

/-- The operations of an element type over a chosen bottom. -/
def ofElement [LatticeElement α] (bottom : α) : LatticeOps α where
  bottom := LatticeElement.copy bottom
  copy := LatticeElement.copy
  join := LatticeElement.join
  precise := LatticeElement.precise
  equivalent := LatticeElement.equivalent

def joinAll (ops : LatticeOps α) (elements : List α) : α := elements.foldl ops.join ops.bottom

/-- A join-semilattice up to `equivalent`, with least element `bottom`, whose copies are faithful. -/
structure Lawful (ops : LatticeOps α) : Prop where
  copy : ∀ a, ops.copy a = a
  refl : ∀ a, ops.precise a a
  trans : ∀ a b c, ops.precise a b → ops.precise b c → ops.precise a c
  equivalent_iff : ∀ a b, ops.equivalent a b ↔ ops.precise a b ∧ ops.precise b a
  left : ∀ a b, ops.precise a (ops.join a b)
  right : ∀ a b, ops.precise b (ops.join a b)
  least : ∀ a b c, ops.precise a c → ops.precise b c → ops.precise (ops.join a b) c
  bottom_least : ∀ a, ops.precise ops.bottom a

end LatticeOps

end Dataflow
