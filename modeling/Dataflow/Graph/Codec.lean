import Dataflow.Graph.Description
import Dataflow.Json.Decode

/-!
Descriptions as JSON. The instructions are written and read by functions that the caller supplies.
-/

namespace Dataflow

/-- Positions are 64-bit. -/
def positionLimit : Nat := UInt64.size

namespace Endpoint

def toJson : Endpoint → Json
  | .start => .str "start"
  | .finish => .str "end"
  | .instruction position => .int position

def ofName? : String → Option Endpoint
  | "start" => some .start
  | "end" => some .finish
  | _ => none

/-- A position or one of the two names, read as a whole first. -/
def ofJson (j : Json) : Except Misfit Endpoint :=
  match j.nat? positionLimit with
  | some position => .ok (.instruction position)
  | none => if j.fitsDouble then Json.required (Json.choose? ofName? j) else .error .token

end Endpoint

namespace EdgeDescription

def toJson (e : EdgeDescription) : Json :=
  .obj [("from", e.source.toJson), ("to", e.target.toJson), ("label", .str e.label.name)]

/-- The fields of an edge read so far. -/
structure Draft where
  source : Option Endpoint
  target : Option Endpoint
  label : Option Label

def Draft.empty : Draft := ⟨none, none, none⟩

def Draft.read (d : Draft) (key : String) (value : Json) : Except Misfit Draft :=
  match key with
  | "from" => do return { d with source := some (← Endpoint.ofJson value) }
  | "to" => do return { d with target := some (← Endpoint.ofJson value) }
  | _ => do return { d with label := some (← Json.choose Label.ofName? value) }

/-- An edge without a label is a normal one. -/
def Draft.finish (d : Draft) : Except Misfit EdgeDescription := do
  let source ← Json.required d.source
  let target ← Json.required d.target
  return ⟨source, target, d.label.getD .normal⟩

def ofJson : Json → Except Misfit EdgeDescription
  | .obj members => do
    let draft ← Json.foldMembers ["from", "to", "label"] Draft.read [] .empty members
    draft.finish
  | .arr items => do
    let (source, items) ← Json.nextField Endpoint.ofJson items
    let (target, items) ← Json.nextField Endpoint.ofJson items
    let (label, items) ← Json.nextFieldOr .normal (Json.choose Label.ofName?) items
    Json.noMoreFields items
    return ⟨source, target, label⟩
  | j => .error j.misplaced

end EdgeDescription

namespace Description

variable {I : Type}

def toJson (instruction : I → Json) (d : Description I) : Json :=
  .obj [("name", .str d.name), ("instructions", .arr (d.instructions.map instruction)),
    ("edges", .arr (d.edges.map EdgeDescription.toJson))]

/-- The fields of a description read so far. -/
structure Draft (I : Type) where
  name : Option String
  instructions : Option (List I)
  edges : Option (List EdgeDescription)

def Draft.empty : Draft I := ⟨none, none, none⟩

def Draft.read (instruction : Json → Except Misfit I) (d : Draft I) (key : String) (value : Json) :
    Except Misfit (Draft I) :=
  match key with
  | "name" => do return { d with name := some (← value.text) }
  | "instructions" => do return { d with instructions := some (← Json.listOf instruction value) }
  | _ => do return { d with edges := some (← Json.listOf EdgeDescription.ofJson value) }

def Draft.finish (d : Draft I) : Except Misfit (Description I) := do
  let name ← Json.required d.name
  let instructions ← Json.required d.instructions
  let edges ← Json.required d.edges
  return ⟨name, instructions, edges⟩

def ofJson (instruction : Json → Except Misfit I) : Json → Except Misfit (Description I)
  | .obj members => do
    let draft ← Json.foldMembers ["name", "instructions", "edges"] (Draft.read instruction) [] .empty
      members
    draft.finish
  | .arr items => do
    let (name, items) ← Json.nextField Json.text items
    let (instructions, items) ← Json.nextField (Json.listOf instruction) items
    let (edges, items) ← Json.nextField (Json.listOf EdgeDescription.ofJson) items
    Json.noMoreFields items
    return ⟨name, instructions, edges⟩
  | j => .error j.misplaced

end Description

end Dataflow
