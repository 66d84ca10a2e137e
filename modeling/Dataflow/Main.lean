import Dataflow.CommandLine.Run

/-!
The command line: reads the files that the arguments name, runs the command on them, prints what it
says and writes what it leaves.
-/

namespace Dataflow.CommandLine

def usageText : String :=
  "Dataflow fixpoint analyses over serialized CFGs\n\nUsage: flowfix [-v]... <COMMAND>\n\n" ++
  "Commands:\n" ++
  "  analyze <FILES>... [-a ANALYSIS] [--config FILE] [--max-visits N] [--order ORDER] [--format FORMAT]\n" ++
  "  check <FILES>... [--config FILE] [--max-visits N] [--order ORDER] [--format FORMAT]\n" ++
  "  dot <FILE> [-a ANALYSIS] [--config FILE] [--max-visits N] [--order ORDER] [-o FILE]\n" ++
  "  help\n"

/-- The cause of a failed access, with its usual number. -/
def causeOf : IO.Error → String
  | .noFileOrDirectory _ _ _ => ReadFault.missing.message
  | .permissionDenied _ _ _ => "Permission denied (os error 13)"
  | .inappropriateType _ _ _ => "Is a directory (os error 21)"
  | error => toString error

def readText (path : String) : IO (Except ReadFault String) := do
  try
    let bytes ← IO.FS.readBinFile path
    match String.fromUTF8? bytes with
    | some text => return .ok text
    | none => return .error .notText
  catch error => return .error (.other (causeOf error))

def refusalOf (path content : String) : IO (Option String) := do
  try
    IO.FS.writeFile path content
    return none
  catch error => return some (causeOf error)

/-- Runs a command, and once more with the reason if a file that it leaves cannot be written. -/
def execute (command : Command) (color : Bool) : IO Outcome := do
  let texts ← command.inputs.mapM fun path => do return (path, ← readText path)
  let read (path : String) := (texts.lookup path).getD (.error .missing)
  let outcome := command.run ⟨read, fun _ => none⟩ color
  for (path, content) in outcome.written do
    if let some cause ← refusalOf path content then
      return command.run ⟨read, fun _ => some cause⟩ color
  return outcome

end Dataflow.CommandLine

open Dataflow.CommandLine in
def main (args : List String) : IO UInt32 := do
  match parse args with
  | .error .usage =>
    IO.eprint usageText
    return 2
  | .error .help =>
    IO.print usageText
    return 0
  | .error .version =>
    IO.print versionText
    return 0
  | .ok command =>
    let color := (← IO.getEnv "NO_COLOR").isNone && (← (← IO.getStdout).isTty)
    let outcome ← execute command color
    IO.print outcome.out
    IO.eprint outcome.err
    return outcome.code.toUInt32
