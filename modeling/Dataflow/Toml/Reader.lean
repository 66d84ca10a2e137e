import Dataflow.Toml.Scalar

/-!
Reading TOML text: lines that assign values to keys, headers that open tables, and comments. Keys have
fewer than eighty parts, and fewer than eighty arrays and tables in braces may be nested.
-/

namespace Dataflow.Toml

/-- Keys are shorter and values less deep than this. -/
def depthLimit : Nat := 80

def isBare (c : Char) : Bool := c.isAlphanum || c = '_' || c = '-'

/-- One part of a key. -/
def keyPart? (cs : List Char) : Option (String × List Char) :=
  match cs with
  | '"' :: rest => basic? (cs.length + 1) [] rest
  | '\'' :: rest => literal? rest
  | _ =>
    let bare := cs.takeWhile isBare
    if bare.isEmpty then none else some (String.ofList bare, cs.dropWhile isBare)

/-- The parts of a key, divided by dots. -/
def keyParts? : Nat → List Char → Option (List String × List Char)
  | 0, _ => none
  | fuel + 1, cs =>
    match keyPart? (skipSpace cs) with
    | none => none
    | some (part, rest) =>
      match skipSpace rest with
      | '.' :: rest => (keyParts? fuel rest).map fun (parts, rest) => (part :: parts, rest)
      | rest => some ([part], rest)

/-- A key: where its table is, and its name there. -/
structure Key where
  path : List String
  name : String
  deriving DecidableEq, Repr

def key? (cs : List Char) : Option (Key × List Char) := do
  let (parts, rest) ← keyParts? (cs.length + 1) cs
  let name ← parts.getLast?
  if parts.length < depthLimit then return (⟨parts.dropLast, name⟩, rest) else none

/-- A key before an equals sign. -/
def keyBefore? (cs : List Char) : Option (Key × List Char) := do
  let (key, rest) ← key? cs
  let rest ← after? '=' rest
  return (key, skipSpace rest)

mutual

/-- A value, with room for that many nested arrays and tables. -/
def value? : Nat → Nat → List Char → Option (Item × List Char)
  | 0, _, _ => none
  | fuel + 1, room, cs =>
    match cs with
    | '"' :: _ | '\'' :: _ => (string? cs).map fun (text, rest) => (.text text, rest)
    | 't' :: 'r' :: 'u' :: 'e' :: rest | 'f' :: 'a' :: 'l' :: 's' :: 'e' :: rest => some (.other, rest)
    | '[' :: rest =>
      match room with
      | 0 => none
      | room + 1 => (items? fuel room rest).map fun (items, rest) => (.array items, rest)
    | '{' :: rest =>
      match room, skipSpace rest with
      | 0, _ => none
      | _ + 1, '}' :: rest => some (.table .inline [], rest)
      | room + 1, rest =>
        (members? fuel room [] rest).map fun (entries, rest) => (.table .inline entries, rest)
    | _ =>
      match dateTime? cs with
      | some rest => some (.other, rest)
      | none => number? cs

/-- The rest of an array after its opening bracket, or after a comma in it. -/
def items? : Nat → Nat → List Char → Option (List Item × List Char)
  | 0, _, _ => none
  | fuel + 1, room, cs =>
    match skipLines? (cs.length + 1) cs with
    | none => none
    | some (']' :: rest) => some ([], rest)
    | some cs =>
      match value? fuel room cs with
      | none => none
      | some (item, rest) =>
        match skipLines? (rest.length + 1) rest with
        | some (',' :: rest) => (items? fuel room rest).map fun (items, rest) => (item :: items, rest)
        | some (']' :: rest) => some ([item], rest)
        | _ => none

/-- The rest of a table in braces; `entries` are those that it has so far. -/
def members? : Nat → Nat → Entries → List Char → Option (Entries × List Char)
  | 0, _, _, _ => none
  | fuel + 1, room, entries, cs =>
    match keyBefore? cs with
    | none => none
    | some (key, rest) =>
      match value? fuel room rest with
      | none => none
      | some (item, rest) =>
        match entries.assign? key.path key.name item, skipSpace rest with
        | some entries, ',' :: rest => members? fuel room entries rest
        | some entries, '}' :: rest => some (entries, rest)
        | _, _ => none

end

/-- What a document holds so far, and the table that is open in it. -/
structure Document where
  entries : Entries
  table : List String

def Document.empty : Document := ⟨[], []⟩

/-- A line of a document, after its leading blanks. -/
def line? (d : Document) (cs : List Char) : Option (Document × List Char) := do
  match cs with
  | '[' :: '[' :: rest =>
    let (key, rest) ← key? rest
    let rest ← lineEnd? (← after? ']' (← after? ']' rest))
    let entries ← d.entries.openItem? key.path key.name
    return (⟨entries, key.path ++ [key.name]⟩, rest)
  | '[' :: rest =>
    let (key, rest) ← key? rest
    let rest ← lineEnd? (← after? ']' rest)
    let entries ← d.entries.openTable? key.path key.name
    return (⟨entries, key.path ++ [key.name]⟩, rest)
  | _ =>
    let (key, rest) ← keyBefore? cs
    let (item, rest) ← value? (2 * rest.length + 2) (depthLimit - 1) rest
    let rest ← lineEnd? rest
    let entries ← d.entries.assignIn? d.table key.path key.name item
    return (⟨entries, d.table⟩, rest)

def document? : Nat → Document → List Char → Option Document
  | 0, _, _ => none
  | fuel + 1, d, cs =>
    match skipSpace cs with
    | [] => some d
    | '\n' :: rest | '\r' :: '\n' :: rest => document? fuel d rest
    | '#' :: rest =>
      match lineEnd? ('#' :: rest) with
      | some rest => document? fuel d rest
      | none => none
    | cs =>
      match line? d cs with
      | some (next, rest) => document? fuel next rest
      | none => none

/-- Reads a text; a byte-order mark in front is skipped. -/
def read? (text : String) : Option Entries :=
  let cs := match text.toList with
    | c :: rest => if c.toNat = 0xFEFF then rest else c :: rest
    | [] => []
  (document? (cs.length + 1) .empty cs).map Document.entries

end Dataflow.Toml
