import Dataflow.Proofs.CacheCoherence
import Dataflow.Proofs.Traversal
import Dataflow.Report

/-! A session that is asked one thing after another. The first question that needs a solution runs the analysis,
and the later ones are answered from what the session remembers then. So a report and a check say what one solution
says, and fail only where a single run fails. -/

namespace Dataflow

namespace Session

variable {I α ε β γ : Type} {s : Session I α ε} {signals : Token → Signal}

theorem solve_remembered {r : Solution α} (remembered : s.cache = some r) (signals : Token → Signal) :
    s.solve signals = (s, .ok r) := by
  simp [solve, remembered]

theorem collect_steady {visit : γ → Session I α ε → Reply I α ε β} {value : γ → β} {items : List γ}
    (steady : ∀ x ∈ items, visit x s = (s, .ok (value x))) :
    s.collect visit items = (s, .ok (items.map value)) := by
  induction items with
  | nil => rfl
  | cons x rest ih =>
    obtain ⟨first, later⟩ := List.forall_mem_cons.mp steady
    rw [collect, first, Reply.andThen_ok, ih later, Reply.map_ok, List.map_cons]

/-- Visits that solve the session if at all come to one run, on which all values are read; where the session is not
asked, the value does not depend on a solution. -/
theorem collect_lazy {visit : γ → Session I α ε → Reply I α ε β} {asks : γ → Bool} {read : γ → Solution α → β}
    {other : γ → β} {items : List γ}
    (visits : ∀ x ∈ items, ∀ cache, visit x { s with cache } =
      if asks x then (({ s with cache } : Session I α ε).solve signals).map (read x)
      else ({ s with cache }, .ok (other x)))
    (quiet : ∀ x ∈ items, asks x = false → ∀ r, read x r = other x) :
    s.collect visit items =
      if items.any asks then (s.solve signals).map fun r => items.map (read · r)
      else (s, .ok (items.map other)) := by
  induction items with
  | nil => rfl
  | cons x rest ih =>
    obtain ⟨first, later⟩ := List.forall_mem_cons.mp visits
    obtain ⟨silent, laterSilent⟩ := List.forall_mem_cons.mp quiet
    have here : visit x s = _ := first s.cache
    cases asked : asks x with
    | false =>
      rw [asked] at here
      simp only [collect, here, Bool.false_eq_true, if_false, Reply.andThen_ok, ih later laterSilent, List.any_cons,
        asked, Bool.false_or]
      split
      · rcases s.solve_cases signals with ⟨r, _, found⟩ | ⟨failure, _, _, found⟩
        · simp [found, silent asked r]
        · simp [found]
      · rfl
    | true =>
      rw [asked] at here
      simp only [collect, here, if_true, List.any_cons, asked, Bool.true_or]
      rcases s.solve_cases signals with ⟨r, _, found⟩ | ⟨failure, _, _, found⟩
      · -- From here on the session remembers the solution.
        have steady (y : γ) (member : y ∈ rest) : visit y { s with cache := some r } =
            ({ s with cache := some r }, .ok (read y r)) := by
          rw [later y member (some r)]
          cases asking : asks y with
          | false => simp [laterSilent y member asking r]
          | true =>
            rw [if_pos rfl, solve_remembered rfl]
            rfl
        simp only [found, Reply.map_ok, Reply.andThen_ok, collect_steady steady, List.map_cons]
      · simp only [found, Reply.map_error, Reply.andThen_error]

end Session

/-! Reports. -/

/-- What a solution says about a unit. -/
def UnitReport.ofSolution {α ε : Type} [Display α] (name : String) (a : Analysis Instruction α ε)
    (g : Graph Instruction) (r : Solution α) : UnitReport where
  unit := g.name
  analysis := name
  direction := a.direction
  iterations := r.iterations
  nodes := g.ids.map fun n =>
    { node := n.text
      instruction := nodeLabel g n
      before := (r.before a.ops n).map Display.text
      after := (r.after a.ops n).map Display.text }

theorem Session.report_eq {α ε : Type} [Display α] (s : Session Instruction α ε) (name : String)
    (signals : Token → Signal) :
    s.report name signals = (s.solve signals).map (UnitReport.ofSolution name s.analysis s.graph) := by
  unfold report
  rcases s.solve_cases signals with ⟨r, _, found⟩ | ⟨failure, _, _, found⟩
  · rw [found]
    have steady (d : Node Instruction) : nodeReport signals d { s with cache := some r } =
        ({ s with cache := some r },
          .ok ⟨d.id.text, nodeLabel s.graph d.id, (r.before s.analysis.ops d.id).map Display.text,
            (r.after s.analysis.ops d.id).map Display.text⟩) := rfl
    have rows := collect_steady fun d (_ : d ∈ s.graph.nodes.toList) => steady d
    rw [Reply.andThen_ok, rows, Reply.map_ok, Reply.map_ok, UnitReport.ofSolution, Graph.ids, List.map_map]
    rfl
  · rw [found]
    rfl

/-- The report on a graph by a session with the given history. -/
def Analysis.reportAfter {α ε : Type} [Display α] (a : Analysis Instruction α ε) (name : String)
    (g : Graph Instruction) (events : List Event) (meanwhile : List (Nat × Token)) :
    Reply Instruction α ε UnitReport :=
  let s := (Scene.new g a).performAll events
  s.session.report name (s.signals meanwhile)

section

variable {α ε : Type} [Display α] {a : Analysis Instruction α ε} {g : Graph Instruction} {name : String}
  {events : List Event} {meanwhile : List (Nat × Token)}

theorem Analysis.reportAfter_eq :
    let s := (Scene.new g a).performAll events
    a.reportAfter name g events meanwhile =
      (s.session.solve (s.signals meanwhile)).map (UnitReport.ofSolution name a g) := by
  intro s
  have coherent : s.Coherent g a events := Scene.performAll_coherent g a events
  have reported := s.session.report_eq name (s.signals meanwhile)
  rwa [coherent.analysis, coherent.graph] at reported

/-- Whatever the session has been through, its report says what the solution under the configuration given last
says. -/
theorem Analysis.reportAfter_ok {x : UnitReport} (reported : (a.reportAfter name g events meanwhile).2 = .ok x) :
    ∃ r, a.solve g (configAfter events) .never = .ok r ∧ UnitReport.ofSolution name a g r = x := by
  have coherent := Scene.performAll_coherent g a events
  rw [reportAfter_eq] at reported
  rcases coherent.solve_cases meanwhile with ⟨r, solved, told⟩ | ⟨failure, _, _, told⟩
  · rw [told] at reported
    cases reported
    exact ⟨r, solved, rfl⟩
  · rw [told] at reported
    cases reported

end

/-! Findings. -/

namespace NullCheck

/-- The finding at one node that a solution gives. -/
def findingAt? (g : Graph Instruction) (r : Solution Nullness.State) (n : NodeId) : Option Finding := do
  let i ← g.instruction? n
  let x ← i.dereferenced
  finding? n i x (r.before Nullness.analysis.ops n)

/-- The findings that a solution gives, in the order of the nodes. -/
def findings (g : Graph Instruction) (r : Solution Nullness.State) : List Finding :=
  g.ids.filterMap (findingAt? g r)

def dereferences (g : Graph Instruction) (n : NodeId) : Bool :=
  ((g.instruction? n).bind Instruction.dereferenced).isSome

variable {g : Graph Instruction} {r : Solution Nullness.State}

theorem findingAt?_iff {n : NodeId} {finding : Finding} :
    findingAt? g r n = some finding ↔ ∃ i, g.instruction? n = some i ∧ ∃ x, i.dereferenced = some x ∧
      ∃ before, r.before Nullness.analysis.ops n = some before ∧
      ∃ severity, Severity.ofNullness? (before.get x) = some severity ∧
        ⟨n, x, severity, i.text⟩ = finding := by
  simp [findingAt?, finding?, Option.bind_eq_some_iff]

/-- Where nothing is dereferenced, nothing is found. -/
theorem findingAt?_eq_none {n : NodeId} (idle : dereferences g n = false) (r : Solution Nullness.State) :
    findingAt? g r n = none := by
  cases found : findingAt? g r n with
  | none => rfl
  | some finding =>
    obtain ⟨i, here, x, receives, _⟩ := findingAt?_iff.mp found
    simp [dereferences, here, receives] at idle

theorem idle_of_not_any (idle : ¬g.ids.any (dereferences g) = true) : ∀ n ∈ g.ids, dereferences g n = false := by
  simpa using idle

theorem findings_eq_nil (idle : ∀ n ∈ g.ids, dereferences g n = false) : findings g r = [] := by
  rw [findings, List.filterMap_eq_nil_iff]
  exact fun n member => findingAt?_eq_none (idle n member) r

theorem instruction?_of_mem (wellFormed : g.WellFormed) {d : Node Instruction} (member : d ∈ g.nodes.toList) :
    g.instruction? d.id = d.kind.instruction? := by
  obtain ⟨i, found⟩ := Array.mem_iff_getElem?.mp (Array.mem_toList_iff.mp member)
  have present : g.node? ⟨i⟩ = some d := found
  rw [wellFormed.numbered ⟨i⟩ d present, Graph.instruction?, present, Option.bind_some]

section

variable {s : Session Instruction Nullness.State TupleFault} (nullness : s.analysis = Nullness.analysis)
  (wellFormed : s.graph.WellFormed) (signals : Token → Signal)

include nullness wellFormed

theorem inspect_eq {d : Node Instruction} (member : d ∈ s.graph.nodes.toList) :
    inspect signals d s =
      if dereferences s.graph d.id then (s.solve signals).map fun r => findingAt? s.graph r d.id
      else (s, .ok none) := by
  unfold inspect dereferences findingAt?
  rw [instruction?_of_mem wellFormed member]
  cases d.kind.instruction? with
  | none => rfl
  | some i =>
    cases receives : i.dereferenced with
    | none => simp [receives]
    | some x => simp [receives, Session.before, nullness, Reply.map_map]

/-- A check of a session solves it and says what the solution gives, if there is anything to check at all. -/
theorem check_eq : check s signals =
    if s.graph.ids.any (dereferences s.graph) then (s.solve signals).map (findings s.graph)
    else (s, .ok []) := by
  have visits (d : Node Instruction) (member : d ∈ s.graph.nodes.toList) (cache : Option (Solution Nullness.State)) :
      inspect signals d { s with cache } = if dereferences s.graph d.id then _ else _ :=
    inspect_eq (s := { s with cache }) nullness wellFormed signals member
  have collected := Session.collect_lazy visits fun d _ idle r => findingAt?_eq_none idle r
  rw [check, collected, Graph.ids, List.any_map]
  simp only [Function.comp_def]
  split
  · have listed (r : Solution Nullness.State) :
        (s.graph.nodes.toList.map fun d => findingAt? s.graph r d.id).filterMap id = findings s.graph r := by
      rw [findings, Graph.ids, List.filterMap_map, List.filterMap_map]
      rfl
    simp only [Reply.map_map, listed]
  · simp

end

/-- The null check in a session with the given history. -/
def checkAfter (g : Graph Instruction) (events : List Event) (meanwhile : List (Nat × Token)) :
    Reply Instruction Nullness.State TupleFault (List Finding) :=
  let s := (Scene.new g Nullness.analysis).performAll events
  check s.session (s.signals meanwhile)

section

variable {events : List Event} {meanwhile : List (Nat × Token)} (wellFormed : g.WellFormed)

include wellFormed

theorem checkAfter_eq :
    let s := (Scene.new g Nullness.analysis).performAll events
    checkAfter g events meanwhile =
      if g.ids.any (dereferences g) then (s.session.solve (s.signals meanwhile)).map (findings g)
      else (s.session, .ok []) := by
  intro s
  have coherent : s.Coherent g Nullness.analysis events := Scene.performAll_coherent g _ events
  have checked := check_eq coherent.analysis (by rwa [coherent.graph]) (s.signals meanwhile)
  rwa [coherent.graph] at checked

/-- Whatever the session has been through, a check that succeeds says what the solution under the configuration
given last gives, or there is nothing to check. -/
theorem checkAfter_ok {found : List Finding} (checked : (checkAfter g events meanwhile).2 = .ok found) :
    (∀ n ∈ g.ids, dereferences g n = false) ∧ found = [] ∨
      ∃ r, Nullness.analysis.solve g (configAfter events) .never = .ok r ∧ found = findings g r := by
  have coherent := Scene.performAll_coherent g Nullness.analysis events
  rw [checkAfter_eq wellFormed] at checked
  split at checked
  · rcases coherent.solve_cases meanwhile with ⟨r, solved, told⟩ | ⟨failure, _, _, told⟩
    · rw [told] at checked
      cases checked
      exact .inr ⟨r, solved, rfl⟩
    · rw [told] at checked
      cases checked
  · rename_i idle
    cases checked
    exact .inl ⟨idle_of_not_any idle, rfl⟩

/-- Where the run that a question would start converges, the check succeeds. -/
theorem checkAfter_converges {r : Solution Nullness.State}
    (solved : Nullness.analysis.solve g (configAfter events) (heardAfter events meanwhile) = .ok r) :
    (checkAfter g events meanwhile).2 = .ok (findings g r) := by
  have coherent := Scene.performAll_coherent g Nullness.analysis events
  rw [checkAfter_eq wellFormed]
  split
  · rcases coherent.solve_cases meanwhile with ⟨r', solved', told⟩ | ⟨failure, failed, _, told⟩
    · cases (Analysis.solve_never solved).symm.trans solved'
      rw [told]
      rfl
    · cases solved.symm.trans failed
  · rename_i idle
    rw [findings_eq_nil (idle_of_not_any idle)]

end

end NullCheck

end Dataflow
