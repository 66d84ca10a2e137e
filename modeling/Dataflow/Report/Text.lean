import Dataflow.Report

/-!
Reports as text for a terminal, in colour or plain.
-/

namespace Dataflow

inductive Style where
  | bold
  | dimmed
  | yellow
  | green
  | boldRed
  | boldYellow
  deriving DecidableEq, Repr

namespace Style

def code : Style → String
  | .bold => "1"
  | .dimmed => "2"
  | .yellow => "33"
  | .green => "32"
  | .boldRed => "1;31"
  | .boldYellow => "1;33"

def opening (style : Style) : String := "\x1b[" ++ style.code ++ "m"

def closing : String := "\x1b[0m"

/-- The text between the codes that switch the style on and off; where the text itself switches styles
off, the style is switched on again. -/
def paint (style : Style) (color : Bool) (text : String) : String :=
  if color then
    style.opening ++ text.replace closing (closing ++ style.opening) ++ closing
  else text

end Style

/-- Blanks up to a width counted in characters. -/
def padTo (width : Nat) (text : String) : String :=
  text ++ String.ofList (List.replicate (width - text.length) ' ')

namespace UnitReport

/-- The width of the node column: the largest head, counted in bytes. -/
def width (r : UnitReport) : Nat :=
  r.nodes.foldl (fun w n => max w (n.node.utf8ByteSize + n.instruction.utf8ByteSize + 2)) 0

def nodeLine (color : Bool) (width : Nat) (n : NodeReport) : String :=
  let head := "  " ++ padTo width (n.node ++ "  " ++ n.instruction) ++ "  "
  match n.before, n.after with
  | some before, some after =>
    head ++ Style.dimmed.paint color "before:" ++ " " ++ before ++ "  " ++
      Style.dimmed.paint color "after:" ++ " " ++ after ++ "\n"
  | _, _ => head ++ Style.yellow.paint color "unreachable" ++ "\n"

def text (color : Bool) (r : UnitReport) : String :=
  Style.bold.paint color "unit" ++ " " ++ Style.bold.paint color r.unit ++ " (" ++ r.analysis ++ ", " ++
    r.direction.name ++ ", " ++ r.iterations.repr ++ " iterations)\n" ++
    String.join (r.nodes.map (nodeLine color r.width))

end UnitReport

def Severity.tag (color : Bool) : Severity → String
  | .definite => Style.boldRed.paint color "error"
  | .possible => Style.boldYellow.paint color "warning"

def CheckReport.text (color : Bool) (r : CheckReport) : String :=
  if r.findings.isEmpty then
    Style.bold.paint color "unit" ++ " " ++ Style.bold.paint color r.unit ++ ": " ++
      Style.green.paint color "ok" ++ "\n"
  else
    String.join (r.findings.map fun f =>
      f.severity.tag color ++ ": " ++ f.text ++ " in unit " ++ r.unit ++ "\n")

def FailedUnit.text (color : Bool) (f : FailedUnit) : String :=
  Style.boldRed.paint color "error:" ++ " unit " ++ Style.bold.paint color f.unit ++ ": " ++
    f.error ++ "\n"

end Dataflow
