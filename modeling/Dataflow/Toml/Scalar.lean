import Dataflow.Decimal
import Dataflow.Json.Reader
import Dataflow.Toml

/-!
The parts of a TOML text that hold no others: blanks and comments, strings, numbers, dates and times.
Each reader takes what it understands off the front of a text.
-/

namespace Dataflow.Toml

def isSpace (c : Char) : Bool := c = ' ' || c = '\t'

def isControl (c : Char) : Bool := (c.toNat < 32 && c ≠ '\t') || c.toNat = 127

def skipSpace (cs : List Char) : List Char := cs.dropWhile isSpace

/-- The text after a line end. -/
def newline? : List Char → Option (List Char)
  | '\n' :: rest | '\r' :: '\n' :: rest => some rest
  | _ => none

/-- A comment up to the end of its line; none if it holds a control character. -/
def skipComment? (cs : List Char) : Option (List Char) :=
  match cs with
  | '#' :: rest =>
    let after := rest.dropWhile fun c => !isControl c
    if after.isEmpty || (newline? after).isSome then some after else none
  | _ => some cs

/-- The text after the end of a line, or the end of the text. -/
def lineEnd? (cs : List Char) : Option (List Char) := do
  let after ← skipComment? (skipSpace cs)
  if after.isEmpty then return [] else newline? after

/-- Blanks, line ends and comments, as they may stand inside an array. -/
def skipLines? : Nat → List Char → Option (List Char)
  | 0, _ => none
  | fuel + 1, cs =>
    match skipSpace cs with
    | '\n' :: rest | '\r' :: '\n' :: rest => skipLines? fuel rest
    | '#' :: rest =>
      match skipComment? ('#' :: rest) with
      | some rest => skipLines? fuel rest
      | none => none
    | rest => some rest

/-- Blanks and line ends, as a backslash at the end of a line joins them. -/
def skipJoined : List Char → List Char
  | '\n' :: rest | '\r' :: '\n' :: rest | ' ' :: rest | '\t' :: rest => skipJoined rest
  | cs => cs

/-- Reads `count` hexadecimal digits. -/
def hex? : Nat → Nat → List Char → Option (Nat × List Char)
  | 0, n, cs => some (n, cs)
  | _ + 1, _, [] => none
  | count + 1, n, c :: rest =>
    match Json.hexValue? c with
    | some d => hex? count (16 * n + d) rest
    | none => none

def codePoint? (count : Nat) (cs : List Char) : Option (Char × List Char) := do
  let (n, rest) ← hex? count 0 cs
  if n.isValidChar then return (Char.ofNat n, rest) else none

/-- The character of an escape, after its backslash. -/
def escaped? : List Char → Option (Char × List Char)
  | [] => none
  | c :: rest =>
    if c = '"' || c = '\\' then some (c, rest)
    else if c = 'b' then some (Char.ofNat 8, rest)
    else if c = 't' then some ('\t', rest)
    else if c = 'n' then some ('\n', rest)
    else if c = 'f' then some (Char.ofNat 12, rest)
    else if c = 'r' then some ('\r', rest)
    else if c = 'u' then codePoint? 4 rest
    else if c = 'U' then codePoint? 8 rest
    else none

/-- The rest of a basic string on one line; `read` holds the characters so far, last first. -/
def basic? : Nat → List Char → List Char → Option (String × List Char)
  | 0, _, _ => none
  | _, _, [] => none
  | fuel + 1, read, c :: rest =>
    if c = '"' then some (String.ofList read.reverse, rest)
    else if c = '\\' then
      match escaped? rest with
      | some (c, rest) => basic? fuel (c :: read) rest
      | none => none
    else if isControl c then none
    else basic? fuel (c :: read) rest

/-- The rest of a literal string on one line. -/
def literal? (cs : List Char) : Option (String × List Char) :=
  let body := cs.takeWhile fun c => c ≠ '\'' && !isControl c
  match cs.drop body.length with
  | '\'' :: rest => some (String.ofList body, rest)
  | _ => none

/-- Up to two quotes may stand right before the three that close a string of several lines. -/
def extraQuotes (quote : Char) (cs : List Char) : List Char × List Char :=
  match cs with
  | a :: b :: rest =>
    if a = quote && b = quote then ([a, b], rest)
    else if a = quote then ([a], b :: rest)
    else ([], cs)
  | [a] => if a = quote then ([a], []) else ([], cs)
  | [] => ([], [])

/-- The rest of a string of several lines. -/
def lines? (quote : Char) : Nat → List Char → List Char → Option (String × List Char)
  | 0, _, _ => none
  | _, _, [] => none
  | fuel + 1, read, c :: rest =>
    match decide (c = quote), rest with
    | true, a :: b :: more =>
      if a = quote && b = quote then
        let (extra, after) := extraQuotes quote more
        some (String.ofList (read.reverse ++ extra), after)
      else lines? quote fuel (c :: read) rest
    | _, _ =>
      if c = '\\' && quote = '"' then
        match escaped? rest, newline? (skipSpace rest) with
        | some (c, rest), _ => lines? quote fuel (c :: read) rest
        | none, some rest => lines? quote fuel read (skipJoined rest)
        | none, none => none
      else
        match newline? (c :: rest) with
        | some rest => lines? quote fuel ('\n' :: read) rest
        | none => if isControl c then none else lines? quote fuel (c :: read) rest

/-- A line end right after the opening quotes is not part of the string. -/
def dropFirstLineEnd (cs : List Char) : List Char := (newline? cs).getD cs

def string? (cs : List Char) : Option (String × List Char) :=
  match cs with
  | '"' :: '"' :: '"' :: rest => lines? '"' (cs.length + 1) [] (dropFirstLineEnd rest)
  | '\'' :: '\'' :: '\'' :: rest => lines? '\'' (cs.length + 1) [] (dropFirstLineEnd rest)
  | '"' :: rest => basic? (cs.length + 1) [] rest
  | '\'' :: rest => literal? rest
  | _ => none

/-- Digits that may be grouped by single underscores. -/
def digits? (isDigit : Char → Bool) (cs : List Char) : Option (List Char × List Char) :=
  let run := cs.takeWhile fun c => isDigit c || c = '_'
  let grouped := (run.zip (run.drop 1)).all fun (a, b) => !(a = '_' && b = '_')
  if run.head?.any isDigit && run.getLast?.any isDigit && grouped then
    some (run.filter isDigit, cs.drop run.length)
  else none

/-- Integers are 64-bit. -/
def inRange (n : Int) : Option Item :=
  if Int64.minValue.toInt ≤ n ∧ n ≤ Int64.maxValue.toInt then some (.int n) else none

def based? (base : Nat) (cs : List Char) : Option (Item × List Char) := do
  let valid (c : Char) := (Json.hexValue? c).any fun d => decide (d < base)
  let (ds, rest) ← digits? valid cs
  let n := ds.foldl (fun n d => base * n + (Json.hexValue? d).getD 0) 0
  let value ← inRange n
  return (value, rest)

/-- The exponent of a float, if there is one. -/
def exponent? (cs : List Char) : Option (Option Int × List Char) :=
  match cs with
  | c :: rest =>
    if c = 'e' || c = 'E' then do
      let (sign, unsigned) : Int × List Char := match rest with
        | '+' :: more => (1, more)
        | '-' :: more => (-1, more)
        | _ => (1, rest)
      let (ds, rest) ← digits? Json.isDigit unsigned
      return (some (sign * Decimal.natOfDigits (Json.digitValues ds)), rest)
    else some (none, cs)
  | [] => some (none, [])

/-- The digits after a point, none if there is no point. -/
def fraction? (cs : List Char) : Option (List Char × List Char) :=
  match cs with
  | '.' :: rest => digits? Json.isDigit rest
  | _ => some ([], cs)

/-- An integer or a float. A float may be too small for double precision or fall to minus infinity, but
not rise to infinity. -/
def decimal? (negative : Bool) (cs : List Char) : Option (Item × List Char) := do
  let (ds, rest) ← digits? Json.isDigit cs
  if decide (1 < ds.length) && ds.head? = some '0' then none
  else
    let (fraction, rest) ← fraction? rest
    let (exponent, rest) ← exponent? rest
    let number : Decimal := ⟨negative, Json.digitValues ds, Json.digitValues fraction, exponent⟩
    if fraction.isEmpty && exponent.isNone then
      let n : Int := Decimal.natOfDigits number.whole
      let value ← inRange (if negative then -n else n)
      return (value, rest)
    else if !negative && number.roundsToInfinity then none
    else return (.other, rest)

def unsigned? (negative : Bool) (cs : List Char) : Option (Item × List Char) :=
  match cs with
  | 'i' :: 'n' :: 'f' :: rest | 'n' :: 'a' :: 'n' :: rest => some (.other, rest)
  | _ => decimal? negative cs

def number? (cs : List Char) : Option (Item × List Char) :=
  match cs with
  | '0' :: 'x' :: rest => based? 16 rest
  | '0' :: 'o' :: rest => based? 8 rest
  | '0' :: 'b' :: rest => based? 2 rest
  | '+' :: rest => unsigned? false rest
  | '-' :: rest => unsigned? true rest
  | _ => unsigned? false cs

/-- A number of exactly `count` digits between two bounds. -/
def field? (count low high : Nat) (cs : List Char) : Option (Nat × List Char) :=
  let ds := cs.take count
  let n := Decimal.natOfDigits (Json.digitValues ds)
  if ds.length = count && ds.all Json.isDigit && decide (low ≤ n) && decide (n ≤ high) then
    some (n, cs.drop count)
  else none

/-- The text after a given character. -/
def after? (c : Char) : List Char → Option (List Char)
  | [] => none
  | d :: rest => if d = c then some rest else none

def isLeapYear (year : Nat) : Bool := year % 4 = 0 && (year % 100 ≠ 0 || year % 400 = 0)

def daysInMonth (year month : Nat) : Nat :=
  match month with
  | 2 => if isLeapYear year then 29 else 28
  | 4 | 6 | 9 | 11 => 30
  | _ => 31

/-- The text after a date. -/
def date? (cs : List Char) : Option (List Char) := do
  let (year, rest) ← field? 4 0 9999 cs
  let (month, rest) ← field? 2 1 12 (← after? '-' rest)
  let (_, rest) ← field? 2 1 (daysInMonth year month) (← after? '-' rest)
  return rest

/-- The text after a fraction of a second, if there is one. -/
def skipSecondFraction (cs : List Char) : List Char :=
  match cs with
  | '.' :: rest => if rest.head?.any Json.isDigit then rest.dropWhile Json.isDigit else cs
  | _ => cs

/-- The text after a time of day; a minute may have a leap second. -/
def time? (cs : List Char) : Option (List Char) := do
  let (_, rest) ← field? 2 0 23 cs
  let (_, rest) ← field? 2 0 59 (← after? ':' rest)
  let (_, rest) ← field? 2 0 60 (← after? ':' rest)
  return skipSecondFraction rest

/-- The text after an offset from universal time. -/
def offset? (cs : List Char) : Option (List Char) :=
  match cs with
  | 'Z' :: rest | 'z' :: rest => some rest
  | '+' :: rest | '-' :: rest => do
    let (_, rest) ← field? 2 0 23 rest
    let (_, rest) ← field? 2 0 59 (← after? ':' rest)
    return rest
  | _ => none

/-- The time of day after a date, with an offset or without. -/
def timeAfterDate? (cs : List Char) : Option (List Char) :=
  match cs with
  | 'T' :: rest | 't' :: rest | ' ' :: rest => (time? rest).map fun rest => (offset? rest).getD rest
  | _ => none

/-- The text after a date, a time, or both. -/
def dateTime? (cs : List Char) : Option (List Char) :=
  match date? cs with
  | some rest => some ((timeAfterDate? rest).getD rest)
  | none => time? cs

end Dataflow.Toml
