import Dataflow.Decimal

/-!
JSON values and their text. An object keeps its pairs in order, repeated keys included, and a number
keeps apart whether it was written as an integer, because readers of a document may care.
-/

namespace Dataflow

inductive Json where
  | null
  | bool (value : Bool)
  | int (value : Int)
  /-- A number written with a fraction or an exponent, or as `-0`. -/
  | real (number : Decimal)
  | str (text : String)
  | arr (items : List Json)
  | obj (members : List (String × Json))
  deriving Repr, BEq, Inhabited

namespace Json

def hexDigit (n : Nat) : Char := if n < 10 then Char.ofNat (48 + n) else Char.ofNat (87 + n)

/-- A character of a string as it is written between quotes. -/
def escape (c : Char) : List Char :=
  if c = '"' then ['\\', '"']
  else if c = '\\' then ['\\', '\\']
  else if c.toNat = 8 then ['\\', 'b']
  else if c.toNat = 12 then ['\\', 'f']
  else if c = '\n' then ['\\', 'n']
  else if c = '\r' then ['\\', 'r']
  else if c = '\t' then ['\\', 't']
  else if c.toNat < 32 then ['\\', 'u', '0', '0', hexDigit (c.toNat / 16), hexDigit (c.toNat % 16)]
  else [c]

def quote (text : String) : String :=
  String.ofList ('"' :: text.toList.flatMap escape ++ ['"'])

mutual

/-- The text without any blank. -/
def compact : Json → String
  | .null => "null"
  | .bool true => "true"
  | .bool false => "false"
  | .int value => toString value
  | .real number => number.text
  | .str text => quote text
  | .arr items => "[" ++ ",".intercalate (compactItems items) ++ "]"
  | .obj members => "\x7b" ++ ",".intercalate (compactMembers members) ++ "\x7d"

def compactItems : List Json → List String
  | [] => []
  | item :: rest => item.compact :: compactItems rest

def compactMembers : List (String × Json) → List String
  | [] => []
  | (key, value) :: rest => (quote key ++ ":" ++ value.compact) :: compactMembers rest

end

def indent (depth : Nat) : String := String.ofList (List.replicate (2 * depth) ' ')

/-- Lines between two brackets, one step further in than the brackets; nothing between them if there
is no line. -/
def block (opening closing : String) (depth : Nat) (lines : List String) : String :=
  if lines.isEmpty then opening ++ closing
  else
    opening ++ "\n" ++ ",\n".intercalate (lines.map (indent (depth + 1) ++ ·)) ++ "\n" ++ indent depth ++
      closing

mutual

/-- The text with one item or member a line, indented by two blanks a level. -/
def prettyAt (depth : Nat) : Json → String
  | .null => "null"
  | .bool true => "true"
  | .bool false => "false"
  | .int value => toString value
  | .real number => number.text
  | .str text => quote text
  | .arr items => block "[" "]" depth (prettyItems (depth + 1) items)
  | .obj members => block "\x7b" "\x7d" depth (prettyMembers (depth + 1) members)

def prettyItems (depth : Nat) : List Json → List String
  | [] => []
  | item :: rest => item.prettyAt depth :: prettyItems depth rest

def prettyMembers (depth : Nat) : List (String × Json) → List String
  | [] => []
  | (key, value) :: rest => (quote key ++ ": " ++ value.prettyAt depth) :: prettyMembers depth rest

end

def pretty (value : Json) : String := value.prettyAt 0

/-- Whether a value is a number that overflows when it is read in double precision. -/
def overflows : Json → Bool
  | .int value => !decide (value.natAbs < UInt64.size) && (Decimal.ofInt value).overflows
  | .real number => number.overflows
  | .null | .bool _ | .str _ | .arr _ | .obj _ => false

mutual

/-- Whether no number in a value overflows. -/
def fitsDouble : Json → Bool
  | .arr items => itemsFit items
  | .obj members => membersFit members
  | value => !value.overflows

def itemsFit : List Json → Bool
  | [] => true
  | item :: rest => item.fitsDouble && itemsFit rest

def membersFit : List (String × Json) → Bool
  | [] => true
  | (_, value) :: rest => value.fitsDouble && membersFit rest

end

end Json

end Dataflow
