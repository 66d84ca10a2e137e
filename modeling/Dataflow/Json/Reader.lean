import Dataflow.Json

/-!
Reading JSON text. The reader is strict: no comments, no trailing commas, no raw control characters in
strings, and no more nested containers than it is given room for. Strings that are kept hold no lone
surrogates. It returns the value at the front of a text together with what follows it.
-/

namespace Dataflow.Json

/-- How closely a value is looked at. -/
inductive Reading where
  | kept
  /-- Passed over: a lone surrogate in a string does not matter. -/
  | skipped
  /-- An object of which only the members with these keys are kept. -/
  | outline (known : List String)
  deriving DecidableEq, Repr

namespace Reading

/-- How the text of a string, or of a key, is looked at. -/
def keepsText : Reading → Bool
  | .kept | .outline _ => true
  | .skipped => false

def ofItem : Reading → Reading
  | .skipped => .skipped
  | .kept | .outline _ => .kept

def ofMember : Reading → String → Reading
  | .kept, _ => .kept
  | .skipped, _ => .skipped
  | .outline known, key => if known.contains key then .kept else .skipped

end Reading

def isBlank (c : Char) : Bool := c = ' ' || c = '\t' || c = '\n' || c = '\r'

def skipBlank (cs : List Char) : List Char := cs.dropWhile isBlank

def isDigit (c : Char) : Bool := '0' ≤ c && c ≤ '9'

def digitValue (c : Char) : Nat := c.toNat - 48

def hexValue? (c : Char) : Option Nat :=
  if '0' ≤ c && c ≤ '9' then some (c.toNat - 48)
  else if 'a' ≤ c && c ≤ 'f' then some (c.toNat - 87)
  else if 'A' ≤ c && c ≤ 'F' then some (c.toNat - 55)
  else none

def digitValues (ds : List Char) : List Nat := ds.map digitValue

/-- The four hexadecimal digits of an escape. -/
def hexUnit? : List Char → Option (Nat × List Char)
  | a :: b :: c :: d :: rest => do
    let a ← hexValue? a
    let b ← hexValue? b
    let c ← hexValue? c
    let d ← hexValue? d
    return (((16 * a + b) * 16 + c) * 16 + d, rest)
  | _ => none

/-- The character of a numeric escape. In a text that is kept a high surrogate needs a low one right
after it; elsewhere each escape stands alone, and a surrogate for no character in particular. -/
def codePoint? (keepsText : Bool) (cs : List Char) : Option (Char × List Char) := do
  let (unit, rest) ← hexUnit? cs
  if !keepsText then return (Char.ofNat unit, rest)
  else if 0xD800 ≤ unit && unit < 0xDC00 then
    match rest with
    | '\\' :: 'u' :: more => do
      let (low, rest) ← hexUnit? more
      if 0xDC00 ≤ low && low < 0xE000 then
        return (Char.ofNat (0x10000 + (unit - 0xD800) * 0x400 + (low - 0xDC00)), rest)
      else none
    | _ => none
  else if 0xDC00 ≤ unit && unit < 0xE000 then none
  else return (Char.ofNat unit, rest)

/-- The character of an escape, after its backslash. -/
def escaped? (keepsText : Bool) : List Char → Option (Char × List Char)
  | [] => none
  | c :: rest =>
    if c = '"' || c = '\\' || c = '/' then some (c, rest)
    else if c = 'b' then some (Char.ofNat 8, rest)
    else if c = 'f' then some (Char.ofNat 12, rest)
    else if c = 'n' then some ('\n', rest)
    else if c = 'r' then some ('\r', rest)
    else if c = 't' then some ('\t', rest)
    else if c = 'u' then codePoint? keepsText rest
    else none

/-- The rest of a string after its opening quote; `read` holds the characters so far, last first. -/
def stringTail? (keepsText : Bool) : Nat → List Char → List Char → Option (String × List Char)
  | 0, _, _ => none
  | _, _, [] => none
  | fuel + 1, read, c :: rest =>
    if c = '"' then some (String.ofList read.reverse, rest)
    else if c = '\\' then
      match escaped? keepsText rest with
      | some (c, rest) => stringTail? keepsText fuel (c :: read) rest
      | none => none
    else if c.toNat < 32 then none
    else stringTail? keepsText fuel (c :: read) rest

/-- A string after its opening quote, with fuel for at least as many characters as follow. -/
def string? (keepsText : Bool) (fuel : Nat) (cs : List Char) : Option (String × List Char) :=
  stringTail? keepsText fuel [] cs

/-- The digits before a fraction: a single zero, or digits that start with another one. -/
def wholeDigits? (cs : List Char) : Option (List Char × List Char) :=
  match cs with
  | '0' :: rest => if rest.head?.any isDigit then none else some (['0'], rest)
  | _ =>
    let ds := cs.takeWhile isDigit
    if ds.isEmpty then none else some (ds, cs.dropWhile isDigit)

/-- The digits of a fraction, none if there is no point. -/
def fraction? (cs : List Char) : Option (List Char × List Char) :=
  match cs with
  | '.' :: rest =>
    let ds := rest.takeWhile isDigit
    if ds.isEmpty then none else some (ds, rest.dropWhile isDigit)
  | _ => some ([], cs)

def signedDigits? (negative : Bool) (cs : List Char) : Option (Int × List Char) :=
  let ds := cs.takeWhile isDigit
  if ds.isEmpty then none
  else
    let n : Int := Decimal.natOfDigits (digitValues ds)
    some (if negative then -n else n, cs.dropWhile isDigit)

/-- The exponent of a number, if it has one. -/
def exponent? (cs : List Char) : Option (Option Int × List Char) :=
  match cs with
  | c :: rest =>
    if c = 'e' || c = 'E' then
      match rest with
      | '+' :: rest => (signedDigits? false rest).map fun (n, rest) => (some n, rest)
      | '-' :: rest => (signedDigits? true rest).map fun (n, rest) => (some n, rest)
      | _ => (signedDigits? false rest).map fun (n, rest) => (some n, rest)
    else some (none, cs)
  | [] => some (none, [])

def unsigned? (negative : Bool) (cs : List Char) : Option (Json × List Char) := do
  let (whole, rest) ← wholeDigits? cs
  let (fraction, rest) ← fraction? rest
  let (exponent, rest) ← exponent? rest
  let number : Decimal := ⟨negative, digitValues whole, digitValues fraction, exponent⟩
  let magnitude : Int := Decimal.natOfDigits number.whole
  if fraction.isEmpty && exponent.isNone && !(negative && decide (magnitude = 0)) then
    return (.int (if negative then -magnitude else magnitude), rest)
  else return (.real number, rest)

def number? (cs : List Char) : Option (Json × List Char) :=
  match cs with
  | '-' :: rest => unsigned? true rest
  | _ => unsigned? false cs

mutual

/-- The value at the front of a text, with room for that many nested containers. Fuel of twice the
characters and two more is enough: a character is spent for every two calls that follow it. -/
def value? (reading : Reading) : Nat → Nat → List Char → Option (Json × List Char)
  | 0, _, _ => none
  | fuel + 1, room, cs =>
    match skipBlank cs with
    | 'n' :: 'u' :: 'l' :: 'l' :: rest => some (.null, rest)
    | 't' :: 'r' :: 'u' :: 'e' :: rest => some (.bool true, rest)
    | 'f' :: 'a' :: 'l' :: 's' :: 'e' :: rest => some (.bool false, rest)
    | '"' :: rest => (string? reading.keepsText fuel rest).map fun (text, rest) => (.str text, rest)
    | '[' :: rest =>
      match room, skipBlank rest with
      | 0, _ => none
      | _ + 1, ']' :: rest => some (.arr [], rest)
      | room + 1, rest => (items? reading.ofItem fuel room rest).map fun (items, rest) => (.arr items, rest)
    | '{' :: rest =>
      match room, skipBlank rest with
      | 0, _ => none
      | _ + 1, '}' :: rest => some (.obj [], rest)
      | room + 1, rest => (members? reading fuel room rest).map fun (members, rest) => (.obj members, rest)
    | cs => number? cs

/-- The items of an array up to its closing bracket. -/
def items? (reading : Reading) : Nat → Nat → List Char → Option (List Json × List Char)
  | 0, _, _ => none
  | fuel + 1, room, cs =>
    match value? reading fuel room cs with
    | none => none
    | some (item, rest) =>
      match skipBlank rest with
      | ',' :: rest => (items? reading fuel room rest).map fun (items, rest) => (item :: items, rest)
      | ']' :: rest => some ([item], rest)
      | _ => none

/-- The members of an object up to its closing brace. -/
def members? (reading : Reading) : Nat → Nat → List Char → Option (List (String × Json) × List Char)
  | 0, _, _ => none
  | fuel + 1, room, cs =>
    match skipBlank cs with
    | '"' :: rest =>
      match string? reading.keepsText fuel rest with
      | none => none
      | some (key, rest) =>
        match skipBlank rest with
        | ':' :: rest =>
          match value? (reading.ofMember key) fuel room rest with
          | none => none
          | some (value, rest) =>
            match skipBlank rest with
            | ',' :: rest =>
              (members? reading fuel room rest).map fun (members, rest) => ((key, value) :: members, rest)
            | '}' :: rest => some ([(key, value)], rest)
            | _ => none
        | _ => none
    | _ => none

end

/-- The value at the front of a text and what follows it. -/
def readFront? (reading : Reading) (room : Nat) (text : String) : Option (Json × String) :=
  let cs := text.toList
  (value? reading (2 * cs.length + 2) room cs).map fun (value, rest) => (value, String.ofList rest)

/-- Whether a text holds nothing but blanks. -/
def onlyBlank (text : String) : Bool := text.toList.all isBlank

/-- A text that holds one value and nothing else. -/
def read? (reading : Reading) (room : Nat) (text : String) : Option Json :=
  match readFront? reading room text with
  | some (value, rest) => if onlyBlank rest then some value else none
  | none => none

end Dataflow.Json
