/-!
Solver configuration: how often a node may be visited, and in which discipline pending nodes are taken.
-/

namespace Dataflow

/-- Which pending node is taken next: the first in reverse postorder, the oldest, or the youngest. -/
inductive Discipline where
  | reversePostorder
  | fifo
  | lifo
  deriving DecidableEq, Repr

/-- Why a file's text could not be had. -/
inductive ReadFault where
  | missing
  | notText
  | other (cause : String)
  deriving DecidableEq, Repr

def ReadFault.message : ReadFault → String
  | .missing => "No such file or directory (os error 2)"
  | .notText => "stream did not contain valid UTF-8"
  | .other cause => cause

/-- Why there is no usable configuration. -/
inductive ConfigFault where
  | noVisits
  | unknownOrder (text : String)
  | unreadable (path : String) (fault : ReadFault)
  | unparsable (path : String)
  | unknownFormat (path : String)
  deriving DecidableEq, Repr

def ConfigFault.message : ConfigFault → String
  | .noVisits => "max_visits_per_node must be at least 1"
  | .unknownOrder text => "unknown worklist order '" ++ text ++ "'"
  | .unreadable path fault => "cannot read " ++ path ++ ": " ++ fault.message
  | .unparsable path => path ++ ": <parse error>"
  | .unknownFormat path => path ++ ": expected a .toml or .json file"

namespace Discipline

/-- The short name, for a reader. -/
def text : Discipline → String
  | .reversePostorder => "rpo"
  | .fifo => "fifo"
  | .lifo => "lifo"

/-- The name in a serialized configuration. -/
def fieldName : Discipline → String
  | .reversePostorder => "reverse_postorder"
  | .fifo => "fifo"
  | .lifo => "lifo"

/-- The names that a configuration file may use; case matters. -/
def ofFieldName? : String → Option Discipline
  | "reverse_postorder" | "rpo" => some .reversePostorder
  | "fifo" => some .fifo
  | "lifo" => some .lifo
  | _ => none

/-- Reads a name typed by a user. ASCII letters count the same in either case, and the refusal quotes
the text in lower case. -/
def parse (typed : String) : Except ConfigFault Discipline :=
  match typed.map Char.toLower with
  | "rpo" | "reverse_postorder" | "reverse-postorder" => .ok .reversePostorder
  | "fifo" => .ok .fifo
  | "lifo" => .ok .lifo
  | text => .error (.unknownOrder text)

end Discipline

structure SolverConfig where
  maxVisits : Nat
  order : Discipline
  deriving DecidableEq, Repr

namespace SolverConfig

/-- A thousand visits to each node, in reverse postorder. -/
def standard : SolverConfig := ⟨1000, .reversePostorder⟩

def validate (c : SolverConfig) : Except ConfigFault Unit :=
  if c.maxVisits = 0 then .error .noVisits else .ok ()

end SolverConfig

end Dataflow
