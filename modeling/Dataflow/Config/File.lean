import Dataflow.Config
import Dataflow.Json.Decode
import Dataflow.Json.Reader
import Dataflow.Toml.Reader

/-!
Configuration files, in TOML or JSON by the extension of their path. A setting that is left out has its
standard value and an unknown one is ignored.
-/

namespace Dataflow.SolverConfig

/-- Visit bounds in a JSON file are 64-bit. -/
def visitLimit : Nat := UInt64.size

/-- The part of a file's name after its last dot; none if there is no dot but at the front. -/
def extension? (path : String) : Option String :=
  let name := (path.toList.reverse.dropWhile (· = '/')).takeWhile (· ≠ '/')
  let after := name.takeWhile (· ≠ '.')
  let before := (name.drop after.length).drop 1
  if before.isEmpty || after.length = name.length then none
  else some (String.ofList after.reverse)

/-- The settings read so far. -/
structure Draft where
  maxVisits : Option Nat
  order : Option Discipline

def Draft.empty : Draft := ⟨none, none⟩

def Draft.read (d : Draft) (key : String) (value : Json) : Except Misfit Draft :=
  match key with
  | "max_visits_per_node" => do
    return { d with maxVisits := some (← Json.required (value.nat? visitLimit)) }
  | _ => do return { d with order := some (← Json.choose Discipline.ofFieldName? value) }

def Draft.finish (d : Draft) : SolverConfig :=
  ⟨d.maxVisits.getD standard.maxVisits, d.order.getD standard.order⟩

def ofJson : Json → Except Misfit SolverConfig
  | .obj members => do
    let draft ← Json.foldMembers ["max_visits_per_node", "order"] Draft.read [] .empty members
    return draft.finish
  | .arr items => do
    let visits (j : Json) := Json.required (j.nat? visitLimit)
    let (maxVisits, items) ← Json.nextFieldOr standard.maxVisits visits items
    let (order, items) ← Json.nextFieldOr standard.order (Json.choose Discipline.ofFieldName?) items
    Json.noMoreFields items
    return ⟨maxVisits, order⟩
  | _ => .error .value

/-- Only the settings are kept of the text; what stands under other keys is passed over. -/
def ofJsonText? (text : String) : Option SolverConfig :=
  (Json.read? (.outline ["max_visits_per_node", "order"]) text.length text).bind fun j =>
    (ofJson j).toOption

/-- A discipline by its name, or by a table with an empty entry under its name. -/
def disciplineOfItem? : Toml.Item → Option Discipline
  | .text name => Discipline.ofFieldName? name
  | .table _ [(name, item)] => if item.isEmpty then Discipline.ofFieldName? name else none
  | _ => none

def visitsOfItem? : Toml.Item → Option Nat
  | .int (.ofNat n) => some n
  | _ => none

def ofTomlText? (text : String) : Option SolverConfig := do
  let entries ← Toml.read? text
  let maxVisits ← match entries.get? "max_visits_per_node" with
    | none => some standard.maxVisits
    | some item => visitsOfItem? item
  let order ← match entries.get? "order" with
    | none => some standard.order
    | some item => disciplineOfItem? item
  return ⟨maxVisits, order⟩

/-- Reads a configuration. A file that cannot be read is reported before its extension is looked at. -/
def load (read : String → Except ReadFault String) (path : String) :
    Except ConfigFault SolverConfig := do
  let text ← (read path).mapError (.unreadable path)
  let parsed ← match extension? path with
    | some "toml" => .ok (ofTomlText? text)
    | some "json" => .ok (ofJsonText? text)
    | _ => .error (.unknownFormat path)
  match parsed with
  | none => .error (.unparsable path)
  | some config =>
    config.validate
    return config

end Dataflow.SolverConfig
