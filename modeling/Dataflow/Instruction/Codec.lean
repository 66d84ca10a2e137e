import Dataflow.Instruction
import Dataflow.Json.Decode

/-!
Instructions as JSON: an object whose member `op` names the kind, beside the fields of that kind; or an
array that starts with the kind. Operands are written plainly: null, an integer, or a variable's name.
-/

namespace Dataflow

namespace Operand

def toJson : Operand → Json
  | .null => .null
  | .int value => .int value.toInt
  | .var name => .str name

def ofJson? : Json → Option Operand
  | .null => some .null
  | .int n => (ArithOp.fit? n).map .int
  | .str name => some (.var name)
  | _ => none

end Operand

namespace Instruction

/-- The kinds with their fields, in order. -/
def kinds : List (String × List String) := [
  ("new", ["dst"]),
  ("copy", ["dst", "src"]),
  ("const", ["dst", "value"]),
  ("arith", ["dst", "kind", "lhs", "rhs"]),
  ("compare", ["cmp", "lhs", "rhs"]),
  ("load", ["dst", "object", "field"]),
  ("store", ["object", "field", "value"]),
  ("call", ["dst", "receiver", "method", "args"]),
  ("return", ["value"]),
  ("nop", [])]

def toJson : Instruction → Json
  | .new dst => .obj [("op", .str "new"), ("dst", .str dst)]
  | .copy dst src => .obj [("op", .str "copy"), ("dst", .str dst), ("src", .str src)]
  | .const dst value => .obj [("op", .str "const"), ("dst", .str dst), ("value", value.toJson)]
  | .arith dst kind lhs rhs =>
    .obj [("op", .str "arith"), ("dst", .str dst), ("kind", .str kind.name), ("lhs", lhs.toJson),
      ("rhs", rhs.toJson)]
  | .compare cmp lhs rhs =>
    .obj [("op", .str "compare"), ("cmp", .str cmp.name), ("lhs", lhs.toJson), ("rhs", rhs.toJson)]
  | .load dst object field =>
    .obj [("op", .str "load"), ("dst", .str dst), ("object", .str object), ("field", .str field)]
  | .store object field value =>
    .obj [("op", .str "store"), ("object", .str object), ("field", .str field),
      ("value", value.toJson)]
  | .call dst receiver method args =>
    .obj [("op", .str "call"), ("dst", (dst.map Json.str).getD .null),
      ("receiver", (receiver.map Json.str).getD .null), ("method", .str method),
      ("args", .arr (args.map Operand.toJson))]
  | .ret value => .obj [("op", .str "return"), ("value", (value.map Operand.toJson).getD .null)]
  | .nop => .obj [("op", .str "nop")]

/-- The fields of an instruction under their names. -/
abbrev Fields := List (String × Json)

namespace Fields

def get? (fields : Fields) (name : String) : Option Json := fields.lookup name

def text? (fields : Fields) (name : String) : Option String :=
  match fields.get? name with
  | some (.str text) => some text
  | _ => none

/-- A text that may be left out or be null. -/
def optionalText? (fields : Fields) (name : String) : Option (Option String) :=
  match fields.get? name with
  | none | some .null => some none
  | some (.str text) => some (some text)
  | some _ => none

def operand? (fields : Fields) (name : String) : Option Operand :=
  (fields.get? name).bind Operand.ofJson?

/-- An operand that may be left out; null counts as left out. -/
def optionalOperand? (fields : Fields) (name : String) : Option (Option Operand) :=
  match fields.get? name with
  | none | some .null => some none
  | some j => (Operand.ofJson? j).map some

/-- A list that may be left out, but not be null. -/
def operands? (fields : Fields) (name : String) : Option (List Operand) :=
  match fields.get? name with
  | none => some []
  | some (.arr items) => items.mapM Operand.ofJson?
  | some _ => none

def arithOp? (fields : Fields) (name : String) : Option ArithOp :=
  (fields.get? name).bind (Json.chooseWithin? ArithOp.ofName?)

/-- A comparison that is equality if left out. -/
def comparison? (fields : Fields) (name : String) : Option Comparison :=
  match fields.get? name with
  | none => some .eq
  | some j => Json.chooseWithin? Comparison.ofName? j

end Fields

def ofFields? (kind : String) (fields : Fields) : Option Instruction :=
  match kind with
  | "new" => do return .new (← fields.text? "dst")
  | "copy" => do return .copy (← fields.text? "dst") (← fields.text? "src")
  | "const" => do return .const (← fields.text? "dst") (← fields.operand? "value")
  | "arith" => do
    return .arith (← fields.text? "dst") (← fields.arithOp? "kind") (← fields.operand? "lhs")
      (← fields.operand? "rhs")
  | "compare" => do
    return .compare (← fields.comparison? "cmp") (← fields.operand? "lhs") (← fields.operand? "rhs")
  | "load" => do
    return .load (← fields.text? "dst") (← fields.text? "object") (← fields.text? "field")
  | "store" => do
    return .store (← fields.text? "object") (← fields.text? "field") (← fields.operand? "value")
  | "call" => do
    return .call (← fields.optionalText? "dst") (← fields.optionalText? "receiver")
      (← fields.text? "method") (← fields.operands? "args")
  | "return" => do return .ret (← fields.optionalOperand? "value")
  | "nop" => some .nop
  | _ => none

/-- How a kind may be written: only by its name, or also by its position among `kinds`. -/
inductive KindStyle where
  | byName
  | byNameOrPosition
  deriving DecidableEq, Repr

/-- A kind and the names of its fields. -/
def kind? (style : KindStyle) : Json → Option (String × List String)
  | .str name => kinds.find? fun k => decide (k.1 = name)
  | .int (.ofNat position) =>
    match style with
    | .byName => none
    | .byNameOrPosition => kinds[position]?
  | _ => none

/-- The kind named by the member `op`, which has to be there once. The other members are read as a
whole, so a number that overflows counts if it stands before a fault of `op`. -/
def taggedKind (style : KindStyle) :
    Option (String × List String) → Fields → Except Misfit (String × List String)
  | found, [] => Json.required found
  | found, (key, value) :: rest =>
    if key = "op" then
      match found, kind? style value with
      | none, some kind => taggedKind style (some kind) rest
      | none, none => .error value.misplaced
      | some _, _ => .error .value
    else if value.fitsDouble then taggedKind style found rest
    else .error .token

def ofJson (style : KindStyle) : Json → Except Misfit Instruction
  | .obj members => do
    let (kind, known) ← taggedKind style none members
    let fields ← Json.required (Json.knownMembers? known members)
    Json.required (ofFields? kind fields)
  | .arr (tag :: items) =>
    match kind? style tag with
    | none => .error tag.misplaced
    | some (kind, known) =>
      if Json.itemsFit items then do
        let fields ← Json.required (Json.namedItems? known items)
        Json.required (ofFields? kind fields)
      else .error .token
  | j => .error j.misplaced

end Instruction

end Dataflow
