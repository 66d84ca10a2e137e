import Dataflow.Config
import Dataflow.Report

/-!
Command-line arguments. A command has files and options in any order; an option with a value is given at
most once, its value joined by an equals sign or as the next argument. Arguments are read from left to
right, and whichever comes first decides: an argument that cannot be accepted, or a request for help or
for the version. Only a file that is missing is noticed at the end.
-/

namespace Dataflow.CommandLine

inductive Format where
  | text
  | json
  deriving DecidableEq, Repr

/-- Solver settings: a file, and what overrides it. -/
structure SolverFlags where
  config : Option String
  maxVisits : Option Nat
  order : Option Discipline
  deriving DecidableEq, Repr

inductive Command where
  | analyze (files : List String) (kind : AnalysisKind) (solver : SolverFlags) (format : Format)
  | check (files : List String) (solver : SolverFlags) (format : Format)
  | dot (file : String) (kind : AnalysisKind) (solver : SolverFlags) (output : Option String)
  deriving DecidableEq, Repr

/-- Why the arguments do not name a command to run. -/
inductive Stop where
  | usage
  | help
  | version
  deriving DecidableEq, Repr

/-- The options that take a value. -/
inductive Flag where
  | analysis
  | config
  | maxVisits
  | order
  | format
  | output
  deriving DecidableEq, Repr

namespace Flag

def ofLong? : String → Option Flag
  | "analysis" => some .analysis
  | "config" => some .config
  | "max-visits" => some .maxVisits
  | "order" => some .order
  | "format" => some .format
  | "output" => some .output
  | _ => none

def ofShort? : Char → Option Flag
  | 'a' => some .analysis
  | 'o' => some .output
  | _ => none

end Flag

/-- What a command takes: options that have a value, and one file or any number of them. -/
structure Intake where
  flags : List Flag
  manyFiles : Bool

/-- What has been read of a command's arguments. -/
structure Draft where
  files : List String
  analysis : Option AnalysisKind
  config : Option String
  maxVisits : Option Nat
  order : Option Discipline
  format : Option Format
  output : Option String

def Draft.empty : Draft := ⟨[], none, none, none, none, none, none⟩

/-- A 64-bit count in decimal digits, with a plus sign or without. -/
def count? (typed : String) : Option Nat :=
  let ds := match typed.toList with
    | '+' :: rest => rest
    | cs => cs
  let n : Nat := ds.foldl (fun n d => 10 * n + (d.toNat - 48)) 0
  if !ds.isEmpty && ds.all (fun c => '0' ≤ c && c ≤ '9') && decide (n < UInt64.size) then some n else none

/-- A path, which is not empty. -/
def path? (typed : String) : Option String := if typed.isEmpty then none else some typed

def format? : String → Option Format
  | "text" => some .text
  | "json" => some .json
  | _ => none

/-- Keeps a value that has not been given before. -/
def once {α : Type} (before new : Option α) : Except Stop (Option α) :=
  match before, new with
  | none, some a => .ok (some a)
  | _, _ => .error .usage

def Draft.store (d : Draft) (flag : Flag) (typed : String) : Except Stop Draft :=
  match flag with
  | .analysis => do return { d with analysis := ← once d.analysis (AnalysisKind.ofName? typed) }
  | .config => do return { d with config := ← once d.config (path? typed) }
  | .maxVisits => do return { d with maxVisits := ← once d.maxVisits (count? typed) }
  | .order => do return { d with order := ← once d.order (Discipline.parse typed).toOption }
  | .format => do return { d with format := ← once d.format (format? typed) }
  | .output => do return { d with output := ← once d.output (path? typed) }

/-- Adds a file, unless the command takes one and has it. -/
def Draft.addFile (takes : Intake) (d : Draft) (typed : String) : Except Stop Draft :=
  match path? typed with
  | some file =>
    if takes.manyFiles || d.files.isEmpty then .ok { d with files := d.files ++ [file] }
    else .error .usage
  | none => .error .usage

def Draft.addFiles (takes : Intake) (d : Draft) : List String → Except Stop Draft
  | [] => .ok d
  | file :: rest => do (← d.addFile takes file).addFiles takes rest

/-- An argument that cannot be a value: it starts with a dash and is longer than that. -/
def looksLikeOption (typed : String) : Bool :=
  match typed.toList with
  | '-' :: _ :: _ => true
  | _ => false

/-- Short options written together; the last may take the rest as its value, or wait for one. -/
def shorts (takes : Intake) (d : Draft) : List Char → Except Stop (Draft × Option Flag)
  | [] => .ok (d, none)
  | 'v' :: rest => shorts takes d rest
  | 'h' :: _ => .error .help
  | c :: rest =>
    match Flag.ofShort? c with
    | none => .error .usage
    | some flag =>
      if takes.flags.contains flag then
        match rest with
        | [] => .ok (d, some flag)
        | '=' :: value => do return (← d.store flag (String.ofList value), none)
        | value => do return (← d.store flag (String.ofList value), none)
      else .error .usage

/-- A long option without its dashes. -/
def long (takes : Intake) (d : Draft) (cs : List Char) : Except Stop (Draft × Option Flag) :=
  let name := String.ofList (cs.takeWhile (· ≠ '='))
  match name, cs.dropWhile (· ≠ '=') with
  | "verbose", [] => .ok (d, none)
  | "help", [] => .error .help
  | name, attached =>
    match Flag.ofLong? name with
    | none => .error .usage
    | some flag =>
      if takes.flags.contains flag then
        match attached with
        | [] => .ok (d, some flag)
        | _ :: value => do return (← d.store flag (String.ofList value), none)
      else .error .usage

/-- Reads the arguments of a command. The first argument is an option whose value comes next, if one is
waiting for it; after two dashes everything is a file. -/
def scan (takes : Intake) : Option Flag → Draft → List String → Except Stop Draft
  | none, d, [] => .ok d
  | some _, _, [] => .error .usage
  | some flag, d, arg :: rest =>
    if looksLikeOption arg then .error .usage
    else do scan takes none (← d.store flag arg) rest
  | none, d, arg :: rest =>
    match arg.toList with
    | ['-', '-'] => d.addFiles takes rest
    | '-' :: '-' :: cs => do
      let (d, waiting) ← long takes d cs
      scan takes waiting d rest
    | '-' :: c :: cs => do
      let (d, waiting) ← shorts takes d (c :: cs)
      scan takes waiting d rest
    | _ => do scan takes none (← d.addFile takes arg) rest

def Draft.solver (d : Draft) : SolverFlags := ⟨d.config, d.maxVisits, d.order⟩

def solverFlags : List Flag := [.config, .maxVisits, .order]

def analyze (args : List String) : Except Stop Command := do
  let d ← scan ⟨.analysis :: .format :: solverFlags, true⟩ none .empty args
  if d.files.isEmpty then .error .usage
  else return .analyze d.files (d.analysis.getD .nullness) d.solver (d.format.getD .text)

def check (args : List String) : Except Stop Command := do
  let d ← scan ⟨.format :: solverFlags, true⟩ none .empty args
  if d.files.isEmpty then .error .usage
  else return .check d.files d.solver (d.format.getD .text)

def dot (args : List String) : Except Stop Command := do
  let d ← scan ⟨.analysis :: .output :: solverFlags, false⟩ none .empty args
  match d.files with
  | [file] => return .dot file (d.analysis.getD .nullness) d.solver d.output
  | _ => .error .usage

/-- Short options before the command. -/
def leadingShorts : List Char → Except Stop Unit
  | [] => .ok ()
  | 'v' :: rest => leadingShorts rest
  | 'h' :: _ => .error .help
  | 'V' :: _ => .error .version
  | _ => .error .usage

/-- Help on one of the commands, or on all. -/
def helpOn : List String → Stop
  | [] | ["analyze"] | ["check"] | ["dot"] | ["help"] => .help
  | _ => .usage

def parse : List String → Except Stop Command
  | [] => .error .usage
  | "--verbose" :: rest => parse rest
  | "--help" :: _ => .error .help
  | "--version" :: _ => .error .version
  | "analyze" :: rest => analyze rest
  | "check" :: rest => check rest
  | "dot" :: rest => dot rest
  | "help" :: rest => .error (helpOn rest)
  | arg :: rest =>
    match arg.toList with
    | '-' :: c :: cs => do
      leadingShorts (c :: cs)
      parse rest
    | _ => .error .usage

end Dataflow.CommandLine
