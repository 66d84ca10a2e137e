import Dataflow.CommandLine.Run
import Dataflow.Proofs.Loading
import Dataflow.Proofs.UnitSafety

/-! What the commands `analyze` and `check` leave behind. They are refused exactly if the configuration cannot be
resolved or a file cannot be loaded. Otherwise they account for every unit, in order: its report if its own run
succeeds, its failure if not. The code tells whether all went well, in either format. -/

namespace Dataflow

/-! Sessions of a batch. -/

namespace Session

section

variable {I α ε : Type}

/-- A session that has been solved. -/
def solved (g : Graph I) (a : Analysis I α ε) (config : SolverConfig) (r : Solution α) : Session I α ε :=
  ⟨g, a, config, none, some r⟩

theorem solveUnits_eq (graphs : List (Graph I)) (a : Analysis I α ε) (config : SolverConfig)
    (signals : Token → Signal) :
    solveUnits graphs (fun _ => a) config none signals =
      graphs.map fun g => (a.solve g config .never).map (solved g a config) := by
  apply List.map_congr_left
  intro g _
  have heard : ((new g a).withConfig config).heard signals = .never := rfl
  have blank : ((new g a).withConfig config).cache = none := rfl
  simp only [Option.map_none, Option.getD_none, Session.solve, blank, heard]
  simp only [withConfig, new]
  cases a.solve g config .never <;> rfl

/-- Where solved sessions answer with the report, so do those of a batch; no failure is added to those of the
runs. -/
theorem solveUnits_asked {ρ : Type} {a : Analysis I α ε} {report : Graph I → Solution α → ρ}
    {asked : (Token → Signal) → Session I α ε → Except (Failure ε) ρ} {graphs : List (Graph I)}
    (asks : ∀ g ∈ graphs, ∀ signals config r, asked signals (solved g a config r) = .ok (report g r))
    (config : SolverConfig) (signals : Token → Signal) :
    (solveUnits graphs (fun _ => a) config none signals).map (· >>= asked signals) =
      graphs.map fun g => (a.solve g config .never).map (report g) := by
  rw [solveUnits_eq, List.map_map]
  apply List.map_congr_left
  intro g member
  cases run : a.solve g config .never with
  | ok r => simpa [run, Except.map, bind, Except.bind] using asks g member signals config r
  | error failure => simp [run, Except.map, bind, Except.bind]

end

theorem report_solved {α ε : Type} [Display α] (name : String) (signals : Token → Signal) (g : Graph Instruction)
    (a : Analysis Instruction α ε) (config : SolverConfig) (r : Solution α) :
    (solved g a config r).report name signals = (solved g a config r, .ok (UnitReport.ofSolution name a g r)) := by
  rw [report_eq, solve_remembered rfl]
  rfl

end Session

theorem NullCheck.check_solved {g : Graph Instruction} (wellFormed : g.WellFormed) (config : SolverConfig)
    (r : Solution Nullness.State) (signals : Token → Signal) :
    check (.solved g Nullness.analysis config r) signals =
      (.solved g Nullness.analysis config r, .ok (findings g r)) := by
  rw [check_eq (s := .solved g Nullness.analysis config r) rfl wellFormed, Session.solve_remembered rfl]
  split
  · rfl
  · rename_i idle
    have nothing : findings g r = [] := findings_eq_nil (idle_of_not_any idle)
    rw [nothing]

namespace CommandLine

/-! Configuration. -/

section

variable {read : String → Except ReadFault String} {path : String}

/-- What the text of a configuration file comes to in the format that the extension names. -/
def Parses (path text : String) (parsed : Option SolverConfig) : Prop :=
  SolverConfig.extension? path = some "toml" ∧ SolverConfig.ofTomlText? text = parsed ∨
    SolverConfig.extension? path = some "json" ∧ SolverConfig.ofJsonText? text = parsed

/-- A configuration file settles what its text says, and that allows at least one visit. -/
def Settles (read : String → Except ReadFault String) (path : String) (config : SolverConfig) : Prop :=
  ∃ text, read path = .ok text ∧ Parses path text (some config) ∧ config.maxVisits ≠ 0

/-- What can be wrong with a configuration file: it cannot be read, its extension is neither of the two, its text
does not parse, or it allows no visits. -/
inductive Unusable (read : String → Except ReadFault String) (path : String) : Prop where
  | unreadable {fault : ReadFault} : read path = .error fault → Unusable read path
  | foreign : SolverConfig.extension? path ≠ some "toml" → SolverConfig.extension? path ≠ some "json" →
      Unusable read path
  | unparsable {text : String} : read path = .ok text → Parses path text none → Unusable read path
  | unvisited {text : String} {config : SolverConfig} : read path = .ok text → Parses path text (some config) →
      config.maxVisits = 0 → Unusable read path

theorem load_of_parses {text : String} {parsed : Option SolverConfig} (readable : read path = .ok text)
    (parses : Parses path text parsed) : SolverConfig.load read path =
      parsed.elim (.error (.unparsable path)) fun config =>
        if config.maxVisits = 0 then .error .noVisits else .ok config := by
  have validated (config : SolverConfig) : (do config.validate; return config) =
      if config.maxVisits = 0 then .error ConfigFault.noVisits else .ok config := by
    unfold SolverConfig.validate
    split <;> rfl
  have begun : SolverConfig.load read path =
      parsed.elim (.error (.unparsable path)) fun config => do config.validate; return config := by
    rcases parses with ⟨extension, comes⟩ | ⟨extension, comes⟩
    all_goals
      simp only [SolverConfig.load, readable, extension, Except.mapError, bind, Except.bind, comes]
      cases parsed <;> rfl
  cases parsed with
  | none => exact begun
  | some config => exact begun.trans (validated config)

theorem load_of_foreign (notToml : SolverConfig.extension? path ≠ some "toml")
    (notJson : SolverConfig.extension? path ≠ some "json") : ∃ fault, SolverConfig.load read path = .error fault := by
  unfold SolverConfig.load
  cases read path with
  | error fault => exact ⟨_, rfl⟩
  | ok text =>
    refine ⟨.unknownFormat path, ?_⟩
    split <;> simp_all [bind, Except.bind, Except.mapError]

theorem Settles.load {config : SolverConfig} (settles : Settles read path config) :
    SolverConfig.load read path = .ok config := by
  obtain ⟨text, readable, parses, visits⟩ := settles
  rw [load_of_parses readable parses, Option.elim_some, if_neg visits]

theorem Unusable.load (unusable : Unusable read path) : ∃ fault, SolverConfig.load read path = .error fault := by
  cases unusable with
  | unreadable failed =>
    rw [SolverConfig.load, failed]
    exact ⟨_, rfl⟩
  | foreign notToml notJson => exact load_of_foreign notToml notJson
  | unparsable readable parses => exact ⟨_, load_of_parses readable parses⟩
  | unvisited readable parses none =>
    rw [load_of_parses readable parses, Option.elim_some, if_pos none]
    exact ⟨_, rfl⟩

/-- A configuration file can be used or something is wrong with it. -/
theorem settles_or_unusable (read : String → Except ReadFault String) (path : String) :
    (∃ config, Settles read path config) ∨ Unusable read path := by
  have decided {text : String} (readable : read path = .ok text) {parsed : Option SolverConfig}
      (parses : Parses path text parsed) : (∃ config, Settles read path config) ∨ Unusable read path := by
    cases parsed with
    | none => exact .inr (.unparsable readable parses)
    | some config =>
      by_cases visits : config.maxVisits = 0
      · exact .inr (.unvisited readable parses visits)
      · exact .inl ⟨config, text, readable, parses, visits⟩
  cases readable : read path with
  | error fault => exact .inr (.unreadable readable)
  | ok text =>
    by_cases toml : SolverConfig.extension? path = some "toml"
    · exact decided readable (.inl ⟨toml, rfl⟩)
    · by_cases json : SolverConfig.extension? path = some "json"
      · exact decided readable (.inr ⟨json, rfl⟩)
      · exact .inr (.foreign toml json)

end

namespace SolverFlags

variable {flags : SolverFlags} {read : String → Except ReadFault String}

/-- The settings of the file, or the standard ones if no file is named. -/
inductive Base (flags : SolverFlags) (read : String → Except ReadFault String) : SolverConfig → Prop where
  | standard : flags.config = none → Base flags read .standard
  | file {path : String} {base : SolverConfig} : flags.config = some path → Settles read path base →
      Base flags read base

/-- A flag comes before the file. -/
def applyTo (flags : SolverFlags) (base : SolverConfig) : SolverConfig :=
  ⟨flags.maxVisits.getD base.maxVisits, flags.order.getD base.order⟩

/-- The file that is named cannot be used, or a flag allows no visits. -/
def Unresolvable (flags : SolverFlags) (read : String → Except ReadFault String) : Prop :=
  (∃ path, flags.config = some path ∧ Unusable read path) ∨ flags.maxVisits = some 0

theorem Base.valid {base : SolverConfig} (settings : flags.Base read base) : base.maxVisits ≠ 0 := by
  cases settings with
  | standard => simp [SolverConfig.standard]
  | file _ settles => exact settles.choose_spec.2.2

theorem resolve_of_base {base : SolverConfig} (settings : flags.Base read base) : flags.resolve read =
    if flags.maxVisits = some 0 then .error .noVisits else .ok (flags.applyTo base) := by
  have begun : flags.resolve read = do
      (flags.applyTo base).validate
      return flags.applyTo base := by
    cases settings with
    | standard none =>
      rw [resolve, none]
      rfl
    | file named settles =>
      simp only [resolve, named, settles.load]
      rfl
  have noVisits : (flags.applyTo base).maxVisits = 0 ↔ flags.maxVisits = some 0 := by
    cases given : flags.maxVisits <;> simp [applyTo, given, settings.valid]
  rw [begun, SolverConfig.validate]
  simp only [noVisits]
  split <;> rfl

theorem resolve_of_unusable {path : String} (named : flags.config = some path) (unusable : Unusable read path) :
    ∃ fault, flags.resolve read = .error fault := by
  obtain ⟨fault, failed⟩ := unusable.load
  refine ⟨fault, ?_⟩
  simp only [resolve, named, failed]
  rfl

theorem base_or_unusable (flags : SolverFlags) (read : String → Except ReadFault String) :
    (∃ base, flags.Base read base) ∨ ∃ path, flags.config = some path ∧ Unusable read path := by
  cases named : flags.config with
  | none => exact .inl ⟨_, .standard named⟩
  | some path =>
    rcases settles_or_unusable read path with ⟨base, settles⟩ | unusable
    · exact .inl ⟨base, .file named settles⟩
    · exact .inr ⟨path, rfl, unusable⟩

theorem resolve_eq_ok {config : SolverConfig} : flags.resolve read = .ok config ↔
    flags.maxVisits ≠ some 0 ∧ ∃ base, flags.Base read base ∧ config = flags.applyTo base := by
  constructor
  · intro resolved
    rcases base_or_unusable flags read with ⟨base, settings⟩ | ⟨path, named, unusable⟩
    · rw [resolve_of_base settings] at resolved
      split at resolved
      · contradiction
      · cases resolved
        exact ⟨‹_›, base, settings, rfl⟩
    · obtain ⟨fault, failed⟩ := resolve_of_unusable named unusable
      cases failed.symm.trans resolved
  · rintro ⟨visits, base, settings, rfl⟩
    rw [resolve_of_base settings, if_neg visits]

theorem resolve_fails : (∃ fault, flags.resolve read = .error fault) ↔ flags.Unresolvable read := by
  constructor
  · rintro ⟨fault, failed⟩
    rcases base_or_unusable flags read with ⟨base, settings⟩ | unusable
    · rw [resolve_of_base settings] at failed
      split at failed
      · exact .inr ‹_›
      · contradiction
    · exact .inl unusable
  · rintro (⟨path, named, unusable⟩ | none)
    · exact resolve_of_unusable named unusable
    · rcases base_or_unusable flags read with ⟨base, settings⟩ | ⟨path, named, unusable⟩
      · exact ⟨.noVisits, by rw [resolve_of_base settings, if_pos none]⟩
      · exact resolve_of_unusable named unusable

end SolverFlags

/-! Preparation. -/

section

variable {disk : Disk} {flags : SolverFlags} {files : List String}

/-- Nothing can be reported on: there is no configuration, or a file cannot be loaded. -/
def Refused (disk : Disk) (flags : SolverFlags) (files : List String) : Prop :=
  flags.Unresolvable disk.read ∨ ∃ path ∈ files, ¬UnitFile.Loadable disk.read path

theorem prepare_eq_ok {config : SolverConfig} {graphs : List (Graph Instruction)} :
    prepare disk flags files = .ok (config, graphs) ↔
      flags.resolve disk.read = .ok config ∧ UnitFile.loadAll disk.read files = .ok graphs := by
  simp only [prepare, bind_eq_ok, mapError_eq_ok]
  constructor
  · rintro ⟨_, resolved, _, loaded, ⟨⟩⟩
    exact ⟨resolved, loaded⟩
  · rintro ⟨resolved, loaded⟩
    exact ⟨config, resolved, graphs, loaded, rfl⟩

theorem prepare_fails : (∃ abort, prepare disk flags files = .error abort) ↔ Refused disk flags files := by
  have unloaded : (∃ path ∈ files, ¬UnitFile.Loadable disk.read path) ↔
      ¬∃ graphs, UnitFile.loadAll disk.read files = .ok graphs := by
    simp [UnitFile.loadAll_succeeds]
  rw [Refused, ← SolverFlags.resolve_fails, unloaded, prepare]
  cases flags.resolve disk.read <;> cases UnitFile.loadAll disk.read files <;>
    simp [bind, Except.bind, Except.mapError, pure, Except.pure]

end

/-! Accounts. -/

/-- The units in order, each of them reported or failed by what its own run gives. -/
inductive Accounts {σ ρ : Type} (run : Graph Instruction → Except (Failure TupleFault) σ)
    (report : Graph Instruction → σ → ρ) : List (Graph Instruction) → List ρ → List FailedUnit → Prop where
  | nil : Accounts run report [] [] []
  | reported {g : Graph Instruction} {s : σ} {rest : List (Graph Instruction)} {units : List ρ}
      {failures : List FailedUnit} : run g = .ok s → Accounts run report rest units failures →
      Accounts run report (g :: rest) (report g s :: units) failures
  | failed {g : Graph Instruction} {failure : Failure TupleFault} {rest : List (Graph Instruction)}
      {units : List ρ} {failures : List FailedUnit} : run g = .error failure →
      Accounts run report rest units failures →
      Accounts run report (g :: rest) units (⟨g.name, failure.message⟩ :: failures)

/-- What comes of every unit, by what its run gives. -/
def results {σ ρ : Type} (run : Graph Instruction → Except (Failure TupleFault) σ)
    (report : Graph Instruction → σ → ρ) (graphs : List (Graph Instruction)) : List (Except FailedUnit ρ) :=
  graphs.map fun g => ((run g).map (report g)).mapError fun failure => ⟨g.name, failure.message⟩

theorem account_accounts {σ ρ : Type} (run : Graph Instruction → Except (Failure TupleFault) σ)
    (report : Graph Instruction → σ → ρ) (graphs : List (Graph Instruction)) :
    let a := account (results run report graphs)
    Accounts run report graphs a.units a.failures := by
  induction graphs with
  | nil => exact .nil
  | cons g rest ih =>
    cases here : run g with
    | ok s =>
      have first : results run report (g :: rest) = .ok (report g s) :: results run report rest := by
        simp [results, here, Except.map, Except.mapError]
      rw [first]
      exact ih.reported here
    | error failure =>
      have first : results run report (g :: rest) =
          .error ⟨g.name, failure.message⟩ :: results run report rest := by
        simp [results, here, Except.map, Except.mapError]
      rw [first]
      exact ih.failed here

/-- An entry of the output names its unit under `unit` and nowhere else. -/
def Names (unit : String) (entry : Json) : Prop :=
  ∃ members, entry = .obj (("unit", .str unit) :: members) ∧ "unit" ∉ members.map Prod.fst

/-- The entries name the units that ran and the units that failed, each in order. -/
theorem Accounts.names {σ ρ : Type} {run : Graph Instruction → Except (Failure TupleFault) σ}
    {report : Graph Instruction → σ → ρ} {graphs : List (Graph Instruction)} {units : List ρ}
    {failures : List FailedUnit} (accounts : Accounts run report graphs units failures) {json : ρ → Json}
    (named : ∀ g s, Names g.name (json (report g s))) :
    List.Forall₂ (fun g entry => Names g.name entry) (graphs.filter fun g => (run g).isOk) (units.map json) ∧
    List.Forall₂ (fun g entry => Names g.name entry) (graphs.filter fun g => !(run g).isOk)
      (failures.map FailedUnit.toJson) := by
  induction accounts with
  | nil => exact ⟨.nil, .nil⟩
  | @reported g s _ _ _ here _ ih =>
    have ran : (run g).isOk = true := by simp [here, Except.isOk, Except.toBool]
    simp only [List.filter_cons, ran, Bool.not_true, Bool.false_eq_true, if_true, if_false]
    exact ⟨.cons (named g s) ih.1, ih.2⟩
  | @failed g failure _ _ _ here _ ih =>
    have ran : (run g).isOk = false := by simp [here, Except.isOk, Except.toBool]
    simp only [List.filter_cons, ran, Bool.not_false, Bool.false_eq_true, if_true, if_false]
    exact ⟨ih.1, .cons ⟨_, rfl, by simp⟩ ih.2⟩

/-- There is only one way to account for the units. -/
theorem Accounts.unique {σ ρ : Type} {run : Graph Instruction → Except (Failure TupleFault) σ}
    {report : Graph Instruction → σ → ρ} {graphs : List (Graph Instruction)} {units others : List ρ}
    {failures causes : List FailedUnit} (accounts : Accounts run report graphs units failures)
    (again : Accounts run report graphs others causes) : units = others ∧ failures = causes := by
  induction accounts generalizing others causes with
  | nil =>
    cases again
    exact ⟨rfl, rfl⟩
  | reported here _ ih =>
    cases again with
    | reported there later =>
      cases here.symm.trans there
      simpa using ih later
    | failed there _ => cases here.symm.trans there
  | failed here _ ih =>
    cases again with
    | reported there _ => cases here.symm.trans there
    | failed there later =>
      cases here.symm.trans there
      simpa using ih later

/-! Both commands. -/

section

variable {α ρ : Type}

/-- Where solved sessions answer with the report, every unit comes to what its run gives. -/
theorem outcomes_eq {a : Analysis Instruction α TupleFault} {report : Graph Instruction → Solution α → ρ}
    {asked : Graph Instruction → Session Instruction α TupleFault → Except (Failure TupleFault) ρ}
    {graphs : List (Graph Instruction)} {config : SolverConfig}
    (asks : ∀ g ∈ graphs, ∀ r, asked g (.solved g a config r) = .ok (report g r)) :
    outcomes a config asked graphs = results (fun g => a.solve g config .never) report graphs := by
  rw [outcomes, Session.solveUnits_eq, results, ← List.map_prod_right_eq_zip, List.map_map]
  apply List.map_congr_left
  intro g member
  cases run : a.solve g config .never with
  | ok r => simp [run, asks g member r, Except.map, Except.bind, Except.mapError]
  | error failure => simp [run, Except.map, Except.bind, Except.mapError]

/-- What the two commands have in common: the units are prepared, run and accounted for. -/
def survey (disk : Disk) (color : Bool) (flags : SolverFlags) (files : List String)
    (a : Analysis Instruction α TupleFault) (report : Graph Instruction → Solution α → ρ) (json : ρ → Json)
    (text : Bool → ρ → String) (clean : ρ → Bool) (format : Format) : Except Abort Outcome := do
  let (config, graphs) ← prepare disk flags files
  let reports := results (fun g => a.solve g config .never) report graphs
  return emit format color json text ((account reports).units.all clean) reports

theorem perform_analyze [Display α] {kind : AnalysisKind} {a : Analysis Instruction α TupleFault} {disk : Disk}
    {color : Bool} {flags : SolverFlags} {files : List String} {format : Format}
    (performs : (Command.analyze files kind flags format).perform disk color = do
      let (config, graphs) ← prepare disk flags files
      return emit format color UnitReport.toJson UnitReport.text true (analyzeUnits a kind config graphs)) :
    (Command.analyze files kind flags format).perform disk color =
      survey disk color flags files a (UnitReport.ofSolution kind.name a) UnitReport.toJson UnitReport.text
        (fun _ => true) format := by
  have always (units : List UnitReport) : (units.all fun _ => true) = true := by simp
  have reports (config : SolverConfig) (graphs : List (Graph Instruction)) : analyzeUnits a kind config graphs =
      results (fun g => a.solve g config .never) (UnitReport.ofSolution kind.name a) graphs := by
    refine outcomes_eq fun g _ r => ?_
    rw [Session.report_solved]
  simp only [performs, survey, always, reports]

theorem perform_check (disk : Disk) (color : Bool) (flags : SolverFlags) (files : List String) (format : Format) :
    (Command.check files flags format).perform disk color =
      survey disk color flags files Nullness.analysis (fun g r => ⟨g.name, NullCheck.findings g r⟩)
        CheckReport.toJson CheckReport.text (fun r => r.findings.isEmpty) format := by
  have quiet (reports : List (Except FailedUnit CheckReport)) :
      (account reports).units.all (fun r => r.findings.isEmpty) = reports.all foundNothing := by
    rw [account, List.all_filterMap]
    congr 1
    funext outcome
    cases outcome <;> rfl
  cases prepared : prepare disk flags files with
  | error abort => simp [Command.perform, survey, prepared, bind, Except.bind]
  | ok found =>
    obtain ⟨config, graphs⟩ := found
    have built := UnitFile.loadAll_built (prepare_eq_ok.mp prepared).2
    have reports : checkUnits config graphs =
        results (fun g => Nullness.analysis.solve g config .never) (fun g r => ⟨g.name, NullCheck.findings g r⟩)
          graphs := by
      refine outcomes_eq fun g member r => ?_
      rw [NullCheck.check_solved (built g member).wellFormed]
      rfl
    simp only [Command.perform, survey, prepared, reports, quiet, bind, Except.bind]

/-- A command that accounts for its units in both formats. The units of a report are those that ran, the others are
failures, and the code is 2, 0 or 1: nothing to account for, all well and clean, or not. -/
structure Accountable (disk : Disk) (color : Bool) (flags : SolverFlags) (files : List String)
    (command : Format → Command) (a : Analysis Instruction α TupleFault)
    (report : Graph Instruction → Solution α → ρ)
    (asked : (Token → Signal) → Session Instruction α TupleFault → Except (Failure TupleFault) ρ)
    (json : ρ → Json) (clean : ρ → Prop) : Prop where
  refused : ∀ format, ((command format).run disk color).code = 2 ↔ Refused disk flags files
  accounted : ¬Refused disk flags files → ∃ base graphs units failures,
    flags.Base disk.read base ∧ UnitFile.loadAll disk.read files = .ok graphs ∧
    Accounts (fun g => a.solve g (flags.applyTo base) .never) report graphs units failures ∧
    List.Forall₂ (fun g entry => Names g.name entry)
      (graphs.filter fun g => (a.solve g (flags.applyTo base) .never).isOk) (units.map json) ∧
    List.Forall₂ (fun g entry => Names g.name entry)
      (graphs.filter fun g => !(a.solve g (flags.applyTo base) .never).isOk) (failures.map FailedUnit.toJson) ∧
    (∀ room, Json.read? .kept (room + 5) ((command .json).run disk color).out =
      some (.obj [("units", .arr (units.map json)), ("failures", .arr (failures.map FailedUnit.toJson))])) ∧
    ∀ format, (((command format).run disk color).code = 0 ↔ failures = [] ∧ ∀ r ∈ units, clean r) ∧
      (((command format).run disk color).code = 1 ↔ ¬(failures = [] ∧ ∀ r ∈ units, clean r))
  /-- Solving the units as a batch and asking their sessions again gives no other reports and no more failures. -/
  questioned : ∀ graphs, (∀ g ∈ graphs, g.Built) → ∀ config signals,
    (solveUnits graphs (fun _ => a) config none signals).map (· >>= asked signals) =
      graphs.map fun g => (a.solve g config .never).map (report g)
  formats : ((command .text).run disk color).code = ((command .json).run disk color).code

variable {disk : Disk} {color : Bool} {flags : SolverFlags} {files : List String} {command : Format → Command}
  {a : Analysis Instruction α TupleFault} {report : Graph Instruction → Solution α → ρ}
  {asked : (Token → Signal) → Session Instruction α TupleFault → Except (Failure TupleFault) ρ} {json : ρ → Json}
  {text : Bool → ρ → String}

theorem code_emit (format : Format) (color : Bool) (json : ρ → Json) (text : Bool → ρ → String)
    (clean : Bool) (outcomes : List (Except FailedUnit ρ)) :
    (emit format color json text clean outcomes).code =
      if (account outcomes).failures = [] ∧ clean = true then 0 else 1 := by
  cases format <;> simp [emit]

theorem plain_failedUnit (room : Nat) (f : FailedUnit) : Json.Plain (room + 1) f.toJson := by
  refine .obj ?_
  simp [Json.Plain.str]

theorem read_emit {json : ρ → Json} (plain : ∀ room r, Json.Plain (room + 3) (json r)) (color : Bool)
    (text : Bool → ρ → String) (clean : Bool) (outcomes : List (Except FailedUnit ρ)) (room : Nat) :
    Json.read? .kept (room + 5) (emit .json color json text clean outcomes).out =
      some ((account outcomes).toJson json) := by
  have written : Json.Plain (room + 5) ((account outcomes).toJson json) := by
    refine .obj ?_
    simp [Json.plain_list, plain, plain_failedUnit]
  have newline : Json.Blank "\n".toList := Json.blank_newline Json.blank_nil
  exact Json.read?_of_readAs (Json.readAs_prettyAt written 0) newline

theorem zero_or_one (p : Prop) [Decidable p] :
    ((if p then 0 else 1) = 0 ↔ p) ∧ ((if p then 0 else 1) = 1 ↔ ¬p) := by
  split <;> simp [*]

theorem accountable_of_survey {cleanly : ρ → Bool} {clean : ρ → Prop}
    (performs : ∀ format, (command format).perform disk color =
      survey disk color flags files a report json text cleanly format)
    (plain : ∀ room r, Json.Plain (room + 3) (json r)) (named : ∀ g r, Names g.name (json (report g r)))
    (asks : ∀ g : Graph Instruction, g.Built → ∀ signals config r,
      asked signals (.solved g a config r) = .ok (report g r))
    (decides : ∀ r, cleanly r = true ↔ clean r) :
    Accountable disk color flags files command a report asked json clean := by
  have questioned (graphs : List (Graph Instruction)) (built : ∀ g ∈ graphs, g.Built) :=
    Session.solveUnits_asked fun g member => asks g (built g member)
  cases prepared : prepare disk flags files with
  | error abort =>
    have refused : Refused disk flags files := prepare_fails.mp ⟨abort, prepared⟩
    have code (format : Format) : ((command format).run disk color).code = 2 := by
      have aborted : (command format).perform disk color = .error abort := by
        rw [performs, survey, prepared]
        rfl
      rw [Command.run, aborted]
    exact ⟨fun format => by simp [code, refused], fun some => absurd refused some, questioned, by simp only [code]⟩
  | ok found =>
    obtain ⟨config, graphs⟩ := found
    obtain ⟨resolved, loaded⟩ := prepare_eq_ok.mp prepared
    obtain ⟨_, base, settings, rfl⟩ := SolverFlags.resolve_eq_ok.mp resolved
    have some : ¬Refused disk flags files := by
      rw [← prepare_fails, prepared]
      simp
    simp only [survey, prepared, bind, Except.bind, pure, Except.pure] at performs
    have accounts := account_accounts (fun g => a.solve g (flags.applyTo base) .never) report graphs
    generalize results (fun g => a.solve g (flags.applyTo base) .never) report graphs = reports at accounts performs
    have fine : (account reports).units.all cleanly = true ↔ ∀ r ∈ (account reports).units, clean r := by
      simp [decides]
    have code (format : Format) : ((command format).run disk color).code =
        if (account reports).failures = [] ∧ (account reports).units.all cleanly = true then 0 else 1 := by
      rw [Command.run, performs, ← code_emit format color json text]
    refine ⟨fun format => ?_, fun _ => ?_, questioned, by simp only [code]⟩
    · rw [code]
      split <;> simp [some]
    · obtain ⟨ran, failed⟩ := accounts.names named
      refine ⟨base, graphs, _, _, settings, loaded, accounts, ran, failed, fun room => ?_, fun format => ?_⟩
      · rw [Command.run, performs]
        exact read_emit plain color text _ reports room
      · rw [code, ← fine]
        exact zero_or_one _

theorem plain_unitReport (room : Nat) (r : UnitReport) : Json.Plain (room + 3) r.toJson := by
  have optional (room : Nat) (state : Option String) : Json.Plain room (optionalText state) := by
    cases state with
    | none => exact .null room
    | some text => exact .str room text
  have row (room : Nat) (n : NodeReport) : Json.Plain (room + 1) n.toJson := by
    refine .obj ?_
    simp [optional, Json.Plain.str]
  refine .obj ?_
  simp [Json.Plain.str, Json.Plain.int, Json.plain_list, row]

theorem analyze_accountable [Display α] {kind : AnalysisKind}
    (performs : ∀ format, (Command.analyze files kind flags format).perform disk color = do
      let (config, graphs) ← prepare disk flags files
      return emit format color UnitReport.toJson UnitReport.text true (analyzeUnits a kind config graphs)) :
    Accountable disk color flags files (.analyze files kind flags) a (UnitReport.ofSolution kind.name a)
      (fun signals s => (s.report kind.name signals).2) UnitReport.toJson (fun _ => True) := by
  refine accountable_of_survey (fun format => perform_analyze (performs format)) plain_unitReport
    (fun _ _ => ⟨_, rfl, by simp⟩) (fun g _ signals config r => ?_) (by simp)
  rw [Session.report_solved]

theorem plain_checkReport (room : Nat) (r : CheckReport) : Json.Plain (room + 3) r.toJson := by
  have finding (room : Nat) (f : Finding) : Json.Plain (room + 1) f.toJson := by
    refine .obj ?_
    simp [Json.Plain.str, Json.Plain.int]
  refine .obj ?_
  simp [Json.Plain.str, Json.plain_list, finding]

end

/-- Whatever the disk, the files and the settings: `analyze` accounts for all units under each of the analyses and
asks for nothing more, and `check` accounts for them and asks that nothing be found. -/
theorem commands_accountable (disk : Disk) (color : Bool) (flags : SolverFlags) (files : List String) :
    Accountable disk color flags files (.analyze files .nullness flags) Nullness.analysis
      (UnitReport.ofSolution "nullness" Nullness.analysis) (fun signals s => (s.report "nullness" signals).2)
      UnitReport.toJson (fun _ => True) ∧
    Accountable disk color flags files (.analyze files .constants flags) Constant.analysis
      (UnitReport.ofSolution "constants" Constant.analysis) (fun signals s => (s.report "constants" signals).2)
      UnitReport.toJson (fun _ => True) ∧
    Accountable disk color flags files (.analyze files .liveness flags) Liveness.analysis
      (UnitReport.ofSolution "liveness" Liveness.analysis) (fun signals s => (s.report "liveness" signals).2)
      UnitReport.toJson (fun _ => True) ∧
    Accountable disk color flags files (.check files flags) Nullness.analysis
      (fun g r => ⟨g.name, NullCheck.findings g r⟩)
      (fun signals s => (NullCheck.check s signals).2.map (⟨s.graph.name, ·⟩)) CheckReport.toJson
      (fun r => r.findings = []) := by
  refine ⟨analyze_accountable fun _ => rfl, analyze_accountable fun _ => rfl, analyze_accountable fun _ => rfl, ?_⟩
  refine accountable_of_survey (perform_check disk color flags files) plain_checkReport
    (fun _ _ => ⟨_, rfl, by simp⟩) (fun g built signals config r => ?_) (by simp)
  rw [NullCheck.check_solved built.wellFormed]
  rfl

/-- A unit with a finding, one that goes round, and one with neither. -/
def desk : String → Except ReadFault String
  | "null" => .ok (UnitFile.unitText (.compact, ⟨"null", [.const "x" .null, .load "y" "x" "f"],
      [⟨.start, .instruction 0, .normal⟩, ⟨.instruction 0, .instruction 1, .normal⟩]⟩))
  | "round" => .ok (UnitFile.unitText (.indented, ⟨"round", [.nop],
      [⟨.start, .instruction 0, .normal⟩, ⟨.instruction 0, .instruction 0, .normal⟩]⟩))
  | "plain" => .ok (UnitFile.unitText (.compact, ⟨"plain", [], []⟩))
  | _ => .error .missing

theorem commands_accountable_desk :
    let disk : Disk := ⟨desk, fun _ => none⟩
    let check (files : List String) (format : Format) :=
      (Command.check files ⟨none, some 1, none⟩ format).run disk false
    let units : List CheckReport := [⟨"null", [⟨⟨3⟩, "x", .definite, "y = x.f"⟩]⟩, ⟨"plain", []⟩]
    let failures : List FailedUnit := [⟨"round", (Failure.nonConvergent ⟨2⟩ 1 : Failure TupleFault).message⟩]
    (check ["null", "round", "plain"] .text).code = 1 ∧
    Json.read? .kept 5 (check ["null", "round", "plain"] .json).out =
      some (.obj [("units", .arr (units.map CheckReport.toJson)),
        ("failures", .arr (failures.map FailedUnit.toJson))]) ∧
    (check ["plain"] .text).code = 0 ∧ (check ["plain", "nowhere"] .json).code = 2 := by
  intro disk check units failures
  have accountable (files : List String) := (commands_accountable disk false ⟨none, some 1, none⟩ files).2.2.2
  have checked (files : List String) (graphs : List (Graph Instruction))
      (loaded : UnitFile.loadAll desk files = .ok graphs) :
      let a := account (results (fun g => Nullness.analysis.solve g ⟨1, .reversePostorder⟩ .never)
        (fun g r => (⟨g.name, NullCheck.findings g r⟩ : CheckReport)) graphs)
      Json.read? .kept 5 (check files .json).out = some (a.toJson CheckReport.toJson) ∧
        ((check files .text).code = 0 ↔ a.failures = [] ∧ ∀ r ∈ a.units, r.findings = []) ∧
        ((check files .text).code = 1 ↔ ¬(a.failures = [] ∧ ∀ r ∈ a.units, r.findings = [])) := by
    have prepared : ¬Refused disk ⟨none, some 1, none⟩ files := by
      rintro (unresolvable | ⟨path, member, unloadable⟩)
      · simp [SolverFlags.Unresolvable] at unresolvable
      · exact unloadable (UnitFile.loadAll_succeeds.mp ⟨graphs, loaded⟩ path member)
    obtain ⟨base, _, _, _, settings, loaded', accounts, _, _, read, codes⟩ := (accountable files).accounted prepared
    cases loaded.symm.trans loaded'
    cases settings with
    | file named _ => cases named
    | standard =>
      obtain ⟨rfl, rfl⟩ := accounts.unique (account_accounts _ _ graphs)
      exact ⟨read 0, codes .text⟩
  have null : UnitFile.Holds desk "null" _ := UnitFile.holds_written (by decide) rfl
  have round : UnitFile.Holds desk "round" _ := UnitFile.holds_written (by decide) rfl
  have plain : UnitFile.Holds desk "plain" _ := UnitFile.holds_written (by decide) rfl
  have mixed := checked ["null", "round", "plain"] _
    (UnitFile.loadAll_eq_ok.mpr ⟨_, .cons null (.cons round (.cons plain .nil)), rfl⟩)
  have alone := checked ["plain"] _ (UnitFile.loadAll_eq_ok.mpr ⟨_, .cons plain .nil, rfl⟩)
  have written (a : Account CheckReport) (reported : a.units = units) (failed : a.failures = failures) :
      a.toJson CheckReport.toJson = .obj [("units", .arr (units.map CheckReport.toJson)),
        ("failures", .arr (failures.map FailedUnit.toJson))] := by
    rw [Account.toJson, reported, failed]
  refine ⟨mixed.2.2.mpr (by decide +kernel), ?_, alone.2.1.mpr (by decide +kernel), ?_⟩
  · exact mixed.1.trans (congrArg some (written _ (by decide +kernel) (by decide +kernel)))
  · refine ((accountable ["plain", "nowhere"]).refused .json).mpr (.inr ⟨"nowhere", by simp, ?_⟩)
    rintro ⟨_, ⟨_, ⟨_, readable, _⟩, _⟩, _⟩
    simp [disk, desk] at readable

end CommandLine

end Dataflow
