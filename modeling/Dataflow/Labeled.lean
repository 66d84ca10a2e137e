import Dataflow.Label
import Dataflow.Lattice
import Dataflow.OrderedMap

/-!
Results with one value per edge label. A label without an override has the base value.
-/

namespace Dataflow

structure Labeled (α : Type) where
  base : α
  overrides : OrderedMap Label α

namespace Labeled

variable {α β : Type}

def single (value : α) : Labeled α := ⟨value, .empty⟩

/-- The same value on each of the labels, a copy stored for each. -/
def withLabels (ops : LatticeOps α) (labels : List Label) (value : α) : Labeled α :=
  ⟨value, .ofKeys labels fun _ => ops.copy value⟩

def get (r : Labeled α) (label : Label) : α := (r.overrides.get? label).getD r.base

def put (r : Labeled α) (label : Label) (value : α) : Labeled α :=
  { r with overrides := r.overrides.insert label value }

def isSingle (r : Labeled α) : Bool := r.overrides.isEmpty

/-- The labels with a value of their own; a single result counts as one for `normal`. -/
def labels (r : Labeled α) : List Label :=
  if r.isSingle then [.normal] else r.overrides.keys

def map (f : α → β) (r : Labeled α) : Labeled β := ⟨f r.base, r.overrides.map f⟩

/-- Joins label by label, on the labels that either side stores, and the base values. -/
def join (ops : LatticeOps α) (a b : Labeled α) : Labeled α where
  base := ops.join a.base b.base
  overrides := .ofKeys (a.overrides.keys ++ b.overrides.keys) fun label =>
    ops.join (a.get label) (b.get label)

/-- One value for all labels: the join of the stored values, or the base value if none is stored. -/
def collapse (ops : LatticeOps α) (r : Labeled α) : α :=
  match r.overrides.values with
  | [] => ops.copy r.base
  | value :: rest => rest.foldl ops.join (ops.copy value)

/-- Stores exactly the given labels, each with a copy of its value; without any label the result stays as it is. -/
def restrict (ops : LatticeOps α) (r : Labeled α) (labels : List Label) : Labeled α :=
  if labels.isEmpty then r
  else { r with overrides := .ofKeys labels fun label => ops.copy (r.get label) }

/-- Equivalence on the given labels, and of the base values if there are none. -/
def equivalent (ops : LatticeOps α) (a b : Labeled α) (labels : List Label) : Bool :=
  if labels.isEmpty then ops.equivalent a.base b.base
  else labels.all fun label => ops.equivalent (a.get label) (b.get label)

/-- The given labels on which the two results differ. -/
def changedLabels (ops : LatticeOps α) (a b : Labeled α) (labels : List Label) : List Label :=
  labels.filter fun label => !ops.equivalent (a.get label) (b.get label)

@[simp] theorem get_single (value : α) (label : Label) : (single value).get label = value := rfl

theorem get_put (r : Labeled α) (label other : Label) (value : α) :
    (r.put label value).get other = if other = label then value else r.get other := by
  simp only [get, put, OrderedMap.get?_insert]
  split <;> simp

@[simp] theorem base_put (r : Labeled α) (label : Label) (value : α) :
    (r.put label value).base = r.base := rfl

end Labeled

end Dataflow
