import Dataflow.Json

/-!
Taking JSON values apart. A record is written as an object, in any order and with unknown members
ignored, or as an array of its fields in order. A choice between names is written as the name, or as an
object from the name to null.
-/

namespace Dataflow

/-- How a JSON value fails to be what a reader expects. The first fault in the order of the text counts.
-/
inductive Misfit where
  /-- A value of the wrong type or range, an unknown name, a missing or repeated field. -/
  | value
  /-- A token that can neither begin nor continue what is read: a choice that is not written as one, an
  array that goes on after the last field, or a number that overflows. -/
  | token
  deriving DecidableEq, Repr

namespace Json

variable {α σ : Type}

/-- A choice whose names are read by `ofName?`. -/
def choose (ofName? : String → Option α) : Json → Except Misfit α
  | .str text =>
    match ofName? text with
    | some a => .ok a
    | none => .error .value
  | .obj ((key, value) :: rest) =>
    match ofName? key, value with
    | some a, .null => if rest.isEmpty then .ok a else .error .token
    | _, _ => .error .value
  | _ => .error .token

/-- A choice inside a value that is read as a whole before it is taken apart; there the name may also
stand before an object without members. -/
def chooseWithin? (ofName? : String → Option α) : Json → Option α
  | .str name | .obj [(name, .null)] | .obj [(name, .obj [])] => ofName? name
  | _ => none

def choose? (ofName? : String → Option α) (j : Json) : Option α := (choose ofName? j).toOption

/-- The fault of a value of another type than expected: a number that overflows is no token at all. -/
def misplaced (j : Json) : Misfit := if j.overflows then .token else .value

def text : Json → Except Misfit String
  | .str text => .ok text
  | j => .error j.misplaced

def listOf (item : Json → Except Misfit α) : Json → Except Misfit (List α)
  | .arr items => items.mapM item
  | j => .error j.misplaced

/-- The first field of a record written as an array, and the fields after it. -/
def nextField (read : Json → Except Misfit α) : List Json → Except Misfit (α × List Json)
  | [] => .error .value
  | field :: rest => do
    let a ← read field
    return (a, rest)

/-- As `nextField`, for a field that may be left out together with all fields after it. -/
def nextFieldOr (missing : α) (read : Json → Except Misfit α) :
    List Json → Except Misfit (α × List Json)
  | [] => .ok (missing, [])
  | field :: rest => do
    let a ← read field
    return (a, rest)

def noMoreFields : List Json → Except Misfit Unit
  | [] => .ok ()
  | _ :: _ => .error .token

/-- Reads the known members of an object one after the other; a known member may not be repeated. -/
def foldMembers (known : List String) (read : σ → String → Json → Except Misfit σ) :
    List String → σ → List (String × Json) → Except Misfit σ
  | _, s, [] => .ok s
  | seen, s, (key, value) :: rest =>
    if known.contains key then
      if seen.contains key then .error .value
      else
        match read s key value with
        | .ok next => foldMembers known read (key :: seen) next rest
        | .error misfit => .error misfit
    else foldMembers known read seen s rest

/-- A field that has to be there. -/
def required : Option α → Except Misfit α
  | some a => .ok a
  | none => .error .value

/-- The members of an object with one of the given keys; none if such a key is repeated. -/
def knownMembers? (known : List String) (members : List (String × Json)) :
    Option (List (String × Json)) :=
  let kept := members.filter fun m => known.contains m.1
  if (kept.map Prod.fst).Nodup then some kept else none

/-- The fields of a record written as an array, under their names; none if there are too many. -/
def namedItems? (known : List String) (items : List Json) : Option (List (String × Json)) :=
  if items.length ≤ known.length then some (known.zip items) else none

def nat? (limit : Nat) : Json → Option Nat
  | .int (.ofNat n) => if n < limit then some n else none
  | _ => none

end Json

end Dataflow
