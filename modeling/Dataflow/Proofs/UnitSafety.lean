import Dataflow.Proofs.Accounting
import Dataflow.Proofs.CacheCoherence
import Dataflow.Proofs.CheckedAccess
import Dataflow.Proofs.Descriptions
import Dataflow.Proofs.Monotone
import Dataflow.Proofs.NullnessSoundness
import Dataflow.Report
import Mathlib.Data.List.Forall2

/-! Nothing goes wrong on an accepted unit. Three things could: a store into a dead tuple, in a transfer or in a
join; an access to a cell that does not exist; a question about a node that does not exist or is not reached. The
transfers of the clients never store into a dead tuple, the accesses are checked on cells, and for all that is
asked of a session, a report or the null check there is an answer, or a failure that the run accounts for. -/

namespace Dataflow

variable {I α β κ ε : Type}

/-! Joins. -/

namespace Tuple

variable [DecidableEq κ]

/-- Stores under one key after the other. -/
def putAll (value : κ → α) (keys : List κ) (t : Tuple κ α) : Except TupleFault (Tuple κ α) :=
  keys.foldlM (fun t k => t.put k (value k)) t

/-- The join, its entries stored one by one into a tuple that has none. -/
def joinByKeys [LatticeElement α] (a b : Tuple κ α) : Except TupleFault (Tuple κ α) :=
  if a.isBottom && b.isBottom then .ok a.bottomLike
  else a.emptyLike.putAll (fun k => LatticeElement.join (a.get k) (b.get k)) (a.keys ++ b.keys).eraseDups

theorem putAll_fresh (value : κ → α) {keys : List κ} (distinct : keys.Nodup) (t : Tuple κ α)
    {m : OrderedMap κ α} (live : t.entries = some m) (fresh : ∀ k ∈ keys, k ∉ m.keys) :
    ∃ m', t.putAll value keys = .ok { t with entries := some m' } ∧
      m'.entries = m.entries ++ keys.map fun k => (k, value k) := by
  induction keys generalizing t m with
  | nil => exact ⟨m, by simp [putAll, ← live, pure, Except.pure], by simp⟩
  | cons k rest ih =>
    obtain ⟨absent, others⟩ := List.forall_mem_cons.mp fresh
    obtain ⟨notLater, laterDistinct⟩ := List.nodup_cons.mp distinct
    have stored : (m.insert k (value k)).entries = m.entries ++ [(k, value k)] := by
      rw [OrderedMap.insert, dif_neg (show k ∉ m.entries.map Prod.fst from absent)]
    have laterFresh (j : κ) (later : j ∈ rest) : j ∉ (m.insert k (value k)).keys := by
      rw [OrderedMap.mem_keys_insert]
      rintro (rfl | old)
      · exact notLater later
      · exact others j later old
    obtain ⟨m', put, entries⟩ := ih laterDistinct { t with entries := some (m.insert k (value k)) } rfl laterFresh
    refine ⟨m', ?_, by simp [entries, stored]⟩
    simpa [putAll, Tuple.put, live, bind, Except.bind] using put

/-- A join stores into a live tuple all along. -/
theorem joinByKeys_eq [LatticeElement α] (a b : Tuple κ α) : a.joinByKeys b = .ok (a.join b) := by
  unfold joinByKeys join
  by_cases dead : (a.isBottom && b.isBottom) = true
  · obtain ⟨bottom, fallback, entries⟩ := a
    simp_all [bottomLike, isBottom]
  · obtain ⟨m, put, entries⟩ := putAll_fresh (fun k => LatticeElement.join (a.get k) (b.get k))
      (OrderedMap.nodup_eraseDups (a.keys ++ b.keys)) a.emptyLike rfl (by simp)
    rw [if_neg dead, if_neg dead, put]
    have same : m = .ofKeys (a.keys ++ b.keys) fun k => LatticeElement.join (a.get k) (b.get k) :=
      OrderedMap.ext (by simpa [OrderedMap.empty, OrderedMap.ofKeys] using entries)
    rw [same]
    rfl

end Tuple

/-! Failures. -/

namespace Analysis

/-- The failures of a run in which nothing has gone wrong: the configuration allows no visit at all, the run was
cancelled where it stood, or some node was taken once too often. -/
inductive Foreseen (a : Analysis I α ε) (g : Graph I) (config : SolverConfig) (signal : Signal) :
    Failure ε → Prop where
  | refused : config.maxVisits = 0 → Foreseen a g config signal (.configuration .noVisits)
  | cancelled : signal (a.taken g config signal).length = true →
      Foreseen a g config signal (.cancelled (a.taken g config signal).length)
  | exceeded {n : NodeId} {bound : Nat} : a.Exceeds g config signal n bound →
      Foreseen a g config signal (.nonConvergent n bound)

variable {a : Analysis I α ε} {g : Graph I} {config : SolverConfig} {signal : Signal}

/-- A client that is never refused leaves a run no other failures. -/
theorem solve_foreseen (wellFormed : g.WellFormed)
    (total : ∀ i labels x, ∃ result, a.transfer i labels x = .ok result) {failure : Failure ε}
    (failed : a.solve g config signal = .error failure) : a.Foreseen g config signal failure := by
  by_cases valid : 1 ≤ config.maxVisits
  · obtain ⟨taken, final, last, steps, stops, took⟩ := a.solve_run wellFormed valid signal
    rw [failed] at stops
    cases stops with
    | cancelled cancelled =>
      have count : final.iterations = (a.taken g config signal).length := by
        rw [steps.iterations_begin, took, List.append_nil]
      have heard := turn_cancelled cancelled
      rw [count] at heard ⊢
      exact .cancelled heard
    | @failed n _ turned =>
      obtain ⟨rest, _, ⟨_, rfl⟩ | ⟨_, fault, refused, rfl⟩⟩ := turn_failed turned
      · exact .exceeded (exceeds_of_stops wellFormed steps (.failed turned) took)
      · -- The client would have to be refused here, which it never is.
        obtain ⟨outgoing, left⟩ := leaving_total total g n (a.arriving g final.facts n)
        cases left.symm.trans refused
  · obtain ⟨bound, order⟩ := config
    obtain rfl : bound = 0 := by
      change ¬1 ≤ bound at valid
      omega
    cases (a.solve_unvisited g order signal).symm.trans failed
    exact .refused rfl

end Analysis

/-- A computation that comes to a good end or fails in a way that was foreseen. -/
def Orderly (foreseen : Failure ε → Prop) (good : β → Prop) : Except (Failure ε) β → Prop
  | .ok value => good value
  | .error failure => foreseen failure

theorem Orderly.map {γ : Type} {foreseen : Failure ε → Prop} {good : β → Prop} {better : γ → Prop}
    {outcome : Except (Failure ε) β} (orderly : Orderly foreseen good outcome) {f : β → γ}
    (preserves : ∀ value, good value → better (f value)) : Orderly foreseen better (outcome.map f) := by
  cases outcome with
  | ok value => exact preserves value orderly
  | error failure => exact orderly

/-! Solutions and questions. -/

/-- The nodes that there is something to say about. -/
def Graph.Reached (g : Graph I) (direction : Direction) (n : NodeId) : Prop :=
  g.contains n = true ∧ g.Reachable direction n

/-- What a solution on a graph has to offer: all of it is in cells of the graph, and something is there for
exactly the nodes that exist and are reached; no other node has been visited. -/
structure Solution.Covers (a : Analysis I α ε) (g : Graph I) (r : Solution α) : Prop where
  cells : ∀ n, (r.cut g.size).facts? n = r.facts.get n
  facts : ∀ n, (r.facts.get n).isSome = true ↔ g.Reached a.direction n
  visits : ∀ n, ¬g.Reached a.direction n → r.visits.get n = 0

/-- An answer of the kind that a question asks for, with a value for exactly the nodes that are reached. -/
def Answer.Fits (a : Analysis I α ε) (g : Graph I) : Query → Answer α → Prop
  | .solution, .solution r => r.Covers a g
  | .labeledBefore n, .labeled value | .labeledAfter n, .labeled value =>
    value.isSome = true ↔ g.Reached a.direction n
  | .before n, .state value | .after n, .state value => value.isSome = true ↔ g.Reached a.direction n
  | .atStart, .state value => value.isSome = true ↔ g.Reached a.direction .start
  | .atEnd, .state value => value.isSome = true ↔ g.Reached a.direction .finish
  | _, _ => False

namespace Solution

variable {a : Analysis I α ε} {g : Graph I} {r : Solution α}

theorem Covers.before (covers : r.Covers a g) (n : NodeId) :
    (r.before a.ops n).isSome = true ↔ g.Reached a.direction n := by
  rw [← covers.facts]
  simp [Solution.before, labeledBefore]

theorem Covers.after (covers : r.Covers a g) (n : NodeId) :
    (r.after a.ops n).isSome = true ↔ g.Reached a.direction n := by
  rw [← covers.facts]
  simp [Solution.after, labeledAfter]

theorem Covers.answer (covers : r.Covers a g) (query : Query) : (query.answer a.ops r).Fits a g query := by
  cases query with
  | solution => exact covers
  | labeledBefore n | labeledAfter n =>
    simpa [Query.answer, Answer.Fits, labeledBefore, labeledAfter] using covers.facts n
  | before n => exact covers.before n
  | after n => exact covers.after n
  | atStart => exact covers.after .start
  | atEnd => exact covers.before .finish

end Solution

section

variable {a : Analysis I α ε} {g : Graph I} (wellFormed : g.WellFormed)
  (total : ∀ i labels x, ∃ result, a.transfer i labels x = .ok result)

include wellFormed total

theorem Analysis.solve_orderly (config : SolverConfig) (signal : Signal) :
    Orderly (a.Foreseen g config signal) (Solution.Covers a g) (a.solve g config signal) := by
  cases solved : a.solve g config signal with
  | error failure => exact solve_foreseen wellFormed total solved
  | ok r =>
    have accounts := accounts_of_solve wellFormed solved
    have reached (n : NodeId) : g.Reached a.direction n ↔ g.Reachable a.direction n :=
      ⟨And.right, fun reachable => ⟨reachable.inside wellFormed, reachable⟩⟩
    refine ⟨facts?_cut wellFormed solved, fun n => ?_, fun n unreached => ?_⟩
    · rw [Option.isSome_iff_exists, accounts.facts n, reached]
    · exact accounts.unreached n (mt (reached n).mpr unreached)

namespace Scene

variable {events : List Event} {s : Scene I α ε}

/-- What a session finds is the solution under the configuration given last, or the failure of its run. -/
theorem Coherent.solve_orderly (coherent : Coherent g a events s) (meanwhile : List (Nat × Token)) :
    Orderly (a.Foreseen g (configAfter events) (heardAfter events meanwhile)) (Solution.Covers a g)
      (s.session.solve (s.signals meanwhile)).2 := by
  rcases coherent.solve_cases meanwhile with ⟨r, solved, told⟩ | ⟨failure, failed, _, told⟩
  · have orderly := Analysis.solve_orderly wellFormed total (configAfter events) .never
    rw [solved] at orderly
    rwa [told]
  · have orderly := Analysis.solve_orderly wellFormed total (configAfter events) (heardAfter events meanwhile)
    rw [failed] at orderly
    rwa [told]

theorem Coherent.ask_orderly (coherent : Coherent g a events s) (query : Query) (meanwhile : List (Nat × Token)) :
    Orderly (a.Foreseen g (configAfter events) (heardAfter events meanwhile)) (Answer.Fits a g query)
      (s.ask query meanwhile).2 := by
  rw [ask, Session.ask, coherent.analysis]
  exact (coherent.solve_orderly wellFormed total meanwhile).map fun r covers => covers.answer query

end Scene

end

/-! Reports and the null check. -/

/-- The row of a node in a report has states for exactly the nodes that are reached. -/
structure NodeReport.Describes (g : Graph Instruction) (direction : Direction) (n : NodeId) (row : NodeReport) :
    Prop where
  node : row.node = n.text
  before : row.before.isSome = true ↔ g.Reached direction n
  after : row.after.isSome = true ↔ g.Reached direction n

theorem UnitReport.ofSolution_describes [Display α] {a : Analysis Instruction α ε} {g : Graph Instruction}
    {r : Solution α} (covers : r.Covers a g) (name : String) :
    List.Forall₂ (NodeReport.Describes g a.direction) g.ids (ofSolution name a g r).nodes := by
  rw [ofSolution, List.forall₂_map_right_iff, List.forall₂_same]
  intro n _
  refine ⟨rfl, ?_, ?_⟩
  · simpa using covers.before n
  · simpa using covers.after n

namespace NullCheck

variable {g : Graph Instruction}

theorem findings_reached {r : Solution Nullness.State} (covers : r.Covers Nullness.analysis g) :
    ∀ f ∈ findings g r, g.Reached .forward f.node := by
  intro f member
  obtain ⟨n, _, found⟩ := List.mem_filterMap.mp member
  obtain ⟨i, _, x, _, before, known, severity, _, rfl⟩ := findingAt?_iff.mp found
  exact (covers.before n).mp (by simp [known])

end NullCheck

/-! Units. -/

/-- What can be relied on when an analysis is run on a graph: no transfer is refused, whatever arrives; no access
of a run is at fault; and every run, question and report has an orderly outcome, after any history of the session
and whatever it hears. -/
structure Analysis.Safe [Display α] (a : Analysis Instruction α ε) (g : Graph Instruction) : Prop where
  transfers : ∀ i labels x, ∃ result, a.transfer i labels x = .ok result
  accesses : ∀ config signal,
    Checked.solve a g config signal = .ok ((a.solve g config signal).map (·.cut g.size))
  runs : ∀ config signal,
    Orderly (a.Foreseen g config signal) (Solution.Covers a g) (a.solve g config signal)
  questions : ∀ events query meanwhile,
    Orderly (a.Foreseen g (configAfter events) (heardAfter events meanwhile)) (Answer.Fits a g query)
      (((Scene.new g a).performAll events).ask query meanwhile).2
  reports : ∀ events meanwhile name,
    Orderly (a.Foreseen g (configAfter events) (heardAfter events meanwhile))
      (fun report => List.Forall₂ (NodeReport.Describes g a.direction) g.ids report.nodes)
      (a.reportAfter name g events meanwhile).2

theorem Analysis.safe [Display α] {a : Analysis Instruction α ε} {g : Graph Instruction}
    (wellFormed : g.WellFormed) (total : ∀ i labels x, ∃ result, a.transfer i labels x = .ok result) :
    a.Safe g where
  transfers := total
  accesses := solve_cut a wellFormed
  runs := solve_orderly wellFormed total
  questions events := (Scene.performAll_coherent g a events).ask_orderly wellFormed total
  reports events meanwhile name := by
    have coherent := Scene.performAll_coherent g a events
    rw [reportAfter_eq]
    exact (coherent.solve_orderly wellFormed total meanwhile).map fun r covers =>
      UnitReport.ofSolution_describes covers name

/-- The same of the null check: it finds nothing at nodes that are not reached, and it leaves the session as it was
or as a question leaves it. -/
structure NullCheck.Safe (g : Graph Instruction) : Prop where
  findings : ∀ events meanwhile,
    Orderly (Nullness.analysis.Foreseen g (configAfter events) (heardAfter events meanwhile))
      (fun found => ∀ f ∈ found, g.Reached .forward f.node) (checkAfter g events meanwhile).2
  session : ∀ events meanwhile,
    let s := (Scene.new g Nullness.analysis).performAll events
    (checkAfter g events meanwhile).1 = s.session ∨
      (checkAfter g events meanwhile).1 = (s.ask .solution meanwhile).1.session

theorem NullCheck.safe {g : Graph Instruction} (wellFormed : g.WellFormed) : NullCheck.Safe g where
  findings events meanwhile := by
    have coherent := Scene.performAll_coherent g Nullness.analysis events
    rw [checkAfter_eq wellFormed]
    split
    · exact (coherent.solve_orderly wellFormed Nullness.transfer_total meanwhile).map fun r => findings_reached
    · exact List.forall_mem_nil _
  session events meanwhile := by
    intro s
    rw [checkAfter_eq wellFormed]
    split
    · exact .inr rfl
    · exact .inl rfl

theorem Analysis.Safe.covers [Display α] {a : Analysis Instruction α ε}
    {g : Graph Instruction} (safe : a.Safe g) {config : SolverConfig} {signal : Signal} {r : Solution α}
    (solved : a.solve g config signal = .ok r) : r.Covers a g := by
  have orderly := safe.runs config signal
  rwa [solved] at orderly

/-- On an accepted unit no store is refused, no access is at fault and nothing that is asked goes without an
orderly outcome; for a node that does not exist or is not reached there is nothing. -/
theorem Description.toGraph_safe {d : Description Instruction} {g : Graph Instruction}
    (accepted : d.toGraph = .ok g) :
    (∀ direction, Checked.reversePostorder g direction = .ok (g.reversePostorder direction)) ∧
    (∀ s t : Nullness.State, s.joinByKeys t = .ok (Nullness.analysis.ops.join s t)) ∧
    (∀ s t : Constant.State, s.joinByKeys t = .ok (Constant.analysis.ops.join s t)) ∧
    Nullness.analysis.Safe g ∧ Constant.analysis.Safe g ∧ Liveness.analysis.Safe g ∧ NullCheck.Safe g := by
  have wellFormed := (toGraph_built accepted).wellFormed
  refine ⟨Graph.reversePostorder_checked wellFormed, Tuple.joinByKeys_eq, Tuple.joinByKeys_eq, ?_, ?_, ?_, ?_⟩
  · exact Analysis.safe wellFormed Nullness.transfer_total
  · exact Analysis.safe wellFormed Constant.transfer_total
  · exact Analysis.safe wellFormed fun _ _ _ => ⟨_, rfl⟩
  · exact NullCheck.safe wellFormed

/-- Compares a variable that holds null with null, reads through it where it is null, writes through it where it
is not, and has an instruction that nothing leads to. -/
def Description.hazardous : Description Instruction where
  name := "hazardous"
  instructions := [.const "p" .null, .compare .eq (.var "p") .null, .load "v" "p" "f", .store "p" "f" (.int 1),
    .copy "v" "p"]
  edges := [⟨.start, .instruction 0, .normal⟩, ⟨.instruction 0, .instruction 1, .normal⟩,
    ⟨.instruction 1, .instruction 2, .whenTrue⟩, ⟨.instruction 1, .instruction 3, .whenFalse⟩,
    ⟨.instruction 2, .finish, .normal⟩, ⟨.instruction 2, .finish, .exceptional⟩,
    ⟨.instruction 3, .finish, .normal⟩, ⟨.instruction 4, .finish, .normal⟩]

def Graph.hazardous : Graph Instruction := Description.hazardous.edges.foldl connect Description.hazardous.nodes.1

/-- A dead tuple reaches node 5 and is its state there; node 6 has no state, nor has a node that does not exist. -/
theorem Description.toGraph_safe_hazardous : hazardous.toGraph = .ok .hazardous ∧
    ∃ r, Nullness.analysis.solve .hazardous ⟨2, .lifo⟩ .never = .ok r ∧
      Checked.solve Nullness.analysis .hazardous ⟨2, .lifo⟩ .never = .ok (.ok (r.cut Graph.hazardous.size)) ∧
      (r.before Nullness.analysis.ops ⟨5⟩).map Tuple.isBottom = some true ∧
      r.before Nullness.analysis.ops ⟨6⟩ = none ∧ r.before Nullness.analysis.ops ⟨99⟩ = none := by
  have accepted : hazardous.toGraph = .ok .hazardous := rfl
  have wellFormed := (toGraph_built accepted).wellFormed
  obtain ⟨_, _, _, safe, _⟩ := toGraph_safe accepted
  have shown : (Nullness.analysis.solve .hazardous ⟨2, .lifo⟩ .never).toOption.map
      (fun r => (r.before Nullness.analysis.ops ⟨5⟩).map Tuple.isBottom) = some (some true) := by decide +kernel
  obtain ⟨r, solved, dead⟩ := exists_of_shown shown
  have checked := safe.accesses ⟨2, .lifo⟩ .never
  rw [solved] at checked
  have covers := safe.covers solved
  have absent {n : NodeId} (unreached : ¬Graph.hazardous.Reached .forward n) :
      r.before Nullness.analysis.ops n = none :=
    Option.not_isSome_iff_eq_none.mp fun present => unreached ((covers.before n).mp present)
  refine ⟨accepted, r, solved, checked, dead, absent ?_, absent ?_⟩
  · rintro ⟨_, reachable⟩
    have listed := (Graph.mem_reversePostorder wellFormed .forward ⟨6⟩).mpr reachable
    exact absurd listed (by decide +kernel)
  · rintro ⟨inside, _⟩
    exact absurd inside (by decide +kernel)

end Dataflow
