/-!
TOML documents as trees. A table remembers how it came about, because that decides who may add to it
later: a header opens a table once, keys with dots add only to tables that such keys have made, and a
table written as a value is complete.
-/

namespace Dataflow.Toml

/-- How a table came about. -/
inductive Origin where
  /-- Written in braces. -/
  | inline
  /-- Opened by a header, or the document itself. -/
  | header
  /-- On the way to a table that a header opens. -/
  | passed
  /-- On the way of a key with dots. -/
  | dotted
  deriving DecidableEq, Repr

inductive Item where
  | text (value : String)
  | int (value : Int)
  /-- A float, a boolean, a date or a time, of which only the form matters. -/
  | other
  | array (items : List Item)
  | table (origin : Origin) (entries : List (String × Item))
  /-- Tables opened one after the other by headers in double brackets. -/
  | tables (earlier : List (List (String × Item))) (last : List (String × Item))
  deriving Repr, Inhabited

abbrev Entries := List (String × Item)

namespace Item

/-- An array or a table without anything in it. -/
def isEmpty : Item → Bool
  | .array [] | .table _ [] => true
  | _ => false

end Item

namespace Entries

def get? (entries : Entries) (key : String) : Option Item := entries.lookup key

def replace (entries : Entries) (key : String) (item : Item) : Entries :=
  entries.map fun e => if e.1 = key then (key, item) else e

/-- Adds a key that is not there yet. -/
def add? (entries : Entries) (key : String) (item : Item) : Option Entries :=
  match entries.get? key with
  | none => some (entries ++ [(key, item)])
  | some _ => none

/-- Changes the table at the end of a path. Missing tables on the way are made with the given origin;
the last of several tables stands for all of them; a key with dots does not enter a table that a header
has opened. -/
def changeAt? (made : Origin) (change : Origin → Entries → Option Entries) :
    Origin → List String → Entries → Option Entries
  | origin, [], entries => change origin entries
  | _, key :: path, entries =>
    match entries.get? key with
    | none => do
      let inner ← changeAt? made change made path []
      return entries ++ [(key, .table made inner)]
    | some (.table origin inner) =>
      if origin = .inline || (made = .dotted && origin = .header) then none
      else do
        let inner ← changeAt? made change origin path inner
        return entries.replace key (.table origin inner)
    | some (.tables earlier last) => do
      let last ← changeAt? made change .header path last
      return entries.replace key (.tables earlier last)
    | some _ => none

/-- Adds a value under a key. With dots in the key, the table it ends in must have been made so. -/
def assign? (entries : Entries) (path : List String) (key : String) (item : Item) : Option Entries :=
  changeAt? .dotted
    (fun origin inner => if origin = .dotted || path.isEmpty then inner.add? key item else none)
    .header path entries

/-- Opens a table by its header; it may have been passed before, but not opened or made otherwise. -/
def openTable? (entries : Entries) (path : List String) (key : String) : Option Entries :=
  changeAt? .passed
    (fun _ parent =>
      match parent.get? key with
      | none => some (parent ++ [(key, .table .header [])])
      | some (.table .passed inner) => some (parent.replace key (.table .header inner))
      | some _ => none)
    .header path entries

/-- Opens one more of several tables. -/
def openItem? (entries : Entries) (path : List String) (key : String) : Option Entries :=
  changeAt? .passed
    (fun _ parent =>
      match parent.get? key with
      | none => some (parent ++ [(key, .tables [] [])])
      | some (.tables earlier last) => some (parent.replace key (.tables (earlier ++ [last]) []))
      | some _ => none)
    .header path entries

/-- Adds a value to the table at a path that is there, as `assign?` does. -/
def assignIn? (entries : Entries) (table path : List String) (key : String) (item : Item) :
    Option Entries :=
  changeAt? .passed (fun _ inner => inner.assign? path key item) .header table entries

end Entries

end Dataflow.Toml
