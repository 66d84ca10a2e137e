import Dataflow.Failure
import Dataflow.Graph.Codec
import Dataflow.Instruction.Codec
import Dataflow.Json.Reader

/-!
Unit files. A file holds a bundle, an object with a member `units`, or a single unit; a value that can
be read as a bundle is one. Loading stops at the first file or unit at fault.
-/

namespace Dataflow

/-- Why a list of files could not be loaded. -/
inductive LoadFault where
  | unreadable (path : String) (fault : ReadFault)
  /-- Not a JSON text. -/
  | malformed (path : String)
  /-- A JSON text of something else. -/
  | unfit (path : String)
  | invalid (unit path : String) (fault : GraphFault)
  deriving DecidableEq, Repr

def LoadFault.message : LoadFault → String
  | .unreadable path fault => "failed to read " ++ path ++ ": " ++ fault.message
  | .malformed path => path ++ " is not a valid unit file: <syntax error>"
  | .unfit path =>
    path ++ " is not a valid unit file: data did not match any variant of untagged enum UnitFile"
  | .invalid unit path fault =>
    "unit '" ++ unit ++ "' in " ++ path ++ ": " ++ fault.complaint

namespace UnitFile

/-- How many containers may be nested in a unit file. -/
def room : Nat := 127

def unit? (j : Json) : Option (Description Instruction) :=
  (Description.ofJson (Instruction.ofJson .byNameOrPosition) j).toOption

def bundle? : Json → Option (List (Description Instruction))
  | .obj members =>
    match Json.knownMembers? ["units"] members with
    | some [(_, .arr units)] => units.mapM unit?
    | _ => none
  | _ => none

def ofJson? (j : Json) : Option (List (Description Instruction)) :=
  match bundle? j with
  | some units => some units
  | none => (unit? j).map ([·])

/-- The units described by the text of a file. A number that overflows is no JSON here;
text after a value counts only once the value itself is in order. -/
def ofText (path text : String) : Except LoadFault (List (Description Instruction)) :=
  match Json.readFront? .kept room text with
  | none => .error (.malformed path)
  | some (j, rest) =>
    if j.fitsDouble then
      match ofJson? j with
      | none => .error (.unfit path)
      | some units => if Json.onlyBlank rest then .ok units else .error (.malformed path)
    else .error (.malformed path)

def graphOf (path : String) (d : Description Instruction) : Except LoadFault (Graph Instruction) :=
  d.toGraph.mapError (.invalid d.name path)

/-- The graphs of one file. -/
def load (read : String → Except ReadFault String) (path : String) :
    Except LoadFault (List (Graph Instruction)) := do
  let text ← (read path).mapError (.unreadable path)
  let units ← ofText path text
  units.mapM (graphOf path)

/-- The graphs of all files, in order. -/
def loadAll (read : String → Except ReadFault String) (paths : List String) :
    Except LoadFault (List (Graph Instruction)) := do
  let graphs ← paths.mapM (load read)
  return graphs.flatten

end UnitFile

end Dataflow
