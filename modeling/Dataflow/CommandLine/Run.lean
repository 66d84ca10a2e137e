import Dataflow.CommandLine.Arguments
import Dataflow.Config.File
import Dataflow.Dot
import Dataflow.Report.Text
import Dataflow.UnitFile

/-!
Running a command over a disk that is given as a function. `analyze` and `check` account for every
loaded unit, as a report or as a failure; `dot` draws the first unit of a file.
-/

namespace Dataflow.CommandLine

/-- What a command sees of the files around it. -/
structure Disk where
  read : String → Except ReadFault String
  /-- Why a file cannot be written, if it cannot. -/
  refusal : String → Option String

/-- What a command leaves behind. -/
structure Outcome where
  code : Nat
  out : String
  err : String
  written : List (String × String)
  deriving DecidableEq, Repr

/-- Why a command has nothing to report on. -/
inductive Abort where
  | configuration (fault : ConfigFault)
  | loading (fault : LoadFault)
  | noUnits (path : String)
  | unwritable (path cause : String)
  deriving DecidableEq, Repr

def Abort.message : Abort → String
  | .configuration fault => fault.complaint
  | .loading fault => fault.message
  | .noUnits path => path ++ " contains no units"
  | .unwritable path cause => "failed to write " ++ path ++ ": " ++ cause

/-- The settings of the file, if one is named, with the overrides; both must be valid. -/
def SolverFlags.resolve (flags : SolverFlags) (read : String → Except ReadFault String) :
    Except ConfigFault SolverConfig := do
  let base ← match flags.config with
    | none => .ok SolverConfig.standard
    | some path => SolverConfig.load read path
  let config : SolverConfig := ⟨flags.maxVisits.getD base.maxVisits, flags.order.getD base.order⟩
  config.validate
  return config

/-- Configuration first, then the units of all files. -/
def prepare (disk : Disk) (flags : SolverFlags) (files : List String) :
    Except Abort (SolverConfig × List (Graph Instruction)) := do
  let config ← (flags.resolve disk.read).mapError .configuration
  let graphs ← (UnitFile.loadAll disk.read files).mapError .loading
  return (config, graphs)

/-- What comes of every unit: it is solved in a session of its own, and then the session is asked. -/
def outcomes {α ρ : Type} (a : Analysis Instruction α TupleFault) (config : SolverConfig)
    (asked : Graph Instruction → Session Instruction α TupleFault → Except (Failure TupleFault) ρ)
    (graphs : List (Graph Instruction)) : List (Except FailedUnit ρ) :=
  ((solveUnits graphs (fun _ => a) config none fun _ => .never).zip graphs).map fun (solved, g) =>
    (solved.bind (asked g)).mapError fun failure => ⟨g.name, failure.message⟩

def analyzeUnits {α : Type} [Display α] (a : Analysis Instruction α TupleFault) (kind : AnalysisKind)
    (config : SolverConfig) (graphs : List (Graph Instruction)) : List (Except FailedUnit UnitReport) :=
  outcomes a config (fun _ s => (s.report kind.name fun _ => .never).2) graphs

def checkUnits (config : SolverConfig) (graphs : List (Graph Instruction)) :
    List (Except FailedUnit CheckReport) :=
  outcomes Nullness.analysis config
    (fun g s => (NullCheck.check s fun _ => .never).2.map fun findings => ⟨g.name, findings⟩) graphs

def drawUnit {α : Type} [Display α] (a : Analysis Instruction α TupleFault) (config : SolverConfig)
    (g : Graph Instruction) : Except FailedUnit String :=
  (Dot.render ((Session.new g a).withConfig config) fun _ => .never).2.mapError fun failure =>
    ⟨g.name, failure.message⟩

/-- Reports and failures, each in the order of the units. -/
structure Account (ρ : Type) where
  units : List ρ
  failures : List FailedUnit

def account {ρ : Type} (outcomes : List (Except FailedUnit ρ)) : Account ρ where
  units := outcomes.filterMap Except.toOption
  failures := outcomes.filterMap fun outcome =>
    match outcome with
    | .ok _ => none
    | .error failure => some failure

def Account.toJson {ρ : Type} (report : ρ → Json) (a : Account ρ) : Json :=
  .obj [("units", .arr (a.units.map report)), ("failures", .arr (a.failures.map FailedUnit.toJson))]

/-- Text goes to both channels, reports to the first and failures to the second; JSON to the first. -/
def emit {ρ : Type} (format : Format) (color : Bool) (json : ρ → Json) (text : Bool → ρ → String)
    (clean : Bool) (outcomes : List (Except FailedUnit ρ)) : Outcome :=
  let a := account outcomes
  let code := if a.failures.isEmpty && clean then 0 else 1
  match format with
  | .json => ⟨code, (a.toJson json).pretty ++ "\n", "", []⟩
  | .text =>
    ⟨code, String.join (a.units.map (text color)), String.join (a.failures.map (FailedUnit.text color)),
      []⟩

/-- Whether there is no finding in a unit; in one that failed there is none. -/
def foundNothing : Except FailedUnit CheckReport → Bool
  | .ok report => report.findings.isEmpty
  | .error _ => true

/-- The picture of the first unit, on the output or in a file. -/
def draw (disk : Disk) (color : Bool) (file : String) (kind : AnalysisKind) (solver : SolverFlags)
    (output : Option String) : Except Abort Outcome := do
  let (config, graphs) ← prepare disk solver [file]
  match graphs with
  | [] => .error (.noUnits file)
  | g :: _ =>
    let rendered :=
      match kind with
      | .nullness => drawUnit Nullness.analysis config g
      | .constants => drawUnit Constant.analysis config g
      | .liveness => drawUnit Liveness.analysis config g
    match rendered with
    | .error failure => return ⟨1, "", failure.text color, []⟩
    | .ok picture =>
      match output with
      | none => return ⟨0, picture, "", []⟩
      | some path =>
        match disk.refusal path with
        | some cause => .error (.unwritable path cause)
        | none => return ⟨0, "", "", [(path, picture)]⟩

def Command.perform (disk : Disk) (color : Bool) : Command → Except Abort Outcome
  | .analyze files kind solver format => do
    let (config, graphs) ← prepare disk solver files
    let reports :=
      match kind with
      | .nullness => analyzeUnits Nullness.analysis kind config graphs
      | .constants => analyzeUnits Constant.analysis kind config graphs
      | .liveness => analyzeUnits Liveness.analysis kind config graphs
    return emit format color UnitReport.toJson UnitReport.text true reports
  | .check files solver format => do
    let (config, graphs) ← prepare disk solver files
    let reports := checkUnits config graphs
    return emit format color CheckReport.toJson CheckReport.text (reports.all foundNothing) reports
  | .dot file kind solver output => draw disk color file kind solver output

/-- Runs a command; one that is aborted leaves its reason and the code 2. -/
def Command.run (disk : Disk) (color : Bool) (command : Command) : Outcome :=
  match command.perform disk color with
  | .ok outcome => outcome
  | .error abort =>
    ⟨2, "", Style.boldRed.paint color "error:" ++ " " ++ abort.message ++ "\n", []⟩

def versionText : String := "flowfix 0.4.0\n"

/-- The files that a command may read. -/
def Command.inputs : Command → List String
  | .analyze files _ solver _ | .check files solver _ => solver.config.toList ++ files
  | .dot file _ solver _ => solver.config.toList ++ [file]

end Dataflow.CommandLine
