/-!
Edge labels and flow directions. A label tells which outcome of an instruction an edge stands for;
a direction tells along which end of the edges values travel.
-/

namespace Dataflow

inductive Label where
  | normal
  | whenTrue
  | whenFalse
  | exceptional
  deriving DecidableEq, Repr

namespace Label

/-- The four labels in the order in which they are declared. -/
def all : List Label := [.normal, .whenTrue, .whenFalse, .exceptional]

def name : Label → String
  | .normal => "normal"
  | .whenTrue => "true"
  | .whenFalse => "false"
  | .exceptional => "exceptional"

def ofName? (text : String) : Option Label :=
  all.find? (·.name = text)

theorem ofName?_name (label : Label) : ofName? label.name = some label := by
  cases label <;> decide

end Label

/-- A forward analysis follows edges from source to target, a backward one from target to source. -/
inductive Direction where
  | forward
  | backward
  deriving DecidableEq, Repr

def Direction.name : Direction → String
  | .forward => "forward"
  | .backward => "backward"

end Dataflow
