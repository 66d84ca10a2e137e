import Dataflow.Proofs.Stability
import Mathlib.Data.List.Basic

/-! Dead code has no influence. Two graphs with the same live part are traversed alike, and their runs hold
the same state after every turn: an edge out of a dead node carries nothing, since a dead node never has
facts. The graphs may differ in size and in everything that their dead nodes are and lead to. -/

namespace Dataflow

namespace Traversal

variable {next next' : NodeId → List NodeId} {inside : NodeId → Prop}

/-- A step asks for the targets of a node only when it enters that node. -/
theorem step_congr (closed : ∀ n, inside n → ∀ m ∈ next n, inside m)
    (same : ∀ n, inside n → next n = next' n) {t : Traversal} (valid : Invariant next t)
    (confined : Confined inside t) : t.step next = t.step next' := by
  obtain ⟨stack, seen, finished⟩ := t
  cases stack with
  | nil => rfl
  | cons frame below =>
    obtain ⟨n, targets⟩ := frame
    cases targets with
    | nil => rfl
    | cons target targets =>
      have current : inside n := confined n ((valid.entered n).mpr (by simp))
      have ahead : target ∈ next n :=
        (valid.suffixes (n, target :: targets) (by simp)).subset List.mem_cons_self
      simp only [step, same target (closed n current target ahead)]

theorem run_congr (closed : ∀ n, inside n → ∀ m ∈ next n, inside m)
    (same : ∀ n, inside n → next n = next' n) (fuel : Nat) {t : Traversal} (valid : Invariant next t)
    (confined : Confined inside t) : run next fuel t = run next' fuel t := by
  induction fuel generalizing t with
  | zero => rfl
  | succ fuel ih =>
    rw [run, run, ← step_congr closed same valid confined]
    exact ih (step_invariant valid) (step_confined closed valid confined)

end Traversal

namespace Graph

variable {I : Type}

/-- The edges along which values arrive at a node from nodes that have any. -/
def livePredecessors (g : Graph I) (direction : Direction) (n : NodeId) : List Edge :=
  (g.flowPredecessors direction n).filter fun e => g.reaches direction e.node

/-- Two graphs with the same live part: the same nodes are reachable, they are of the same kind, the same
edges lead on from them, and the same edges lead to them from reachable nodes. -/
structure SameLive (g g' : Graph I) (direction : Direction) : Prop where
  reachable : ∀ n, g.Reachable direction n ↔ g'.Reachable direction n
  kinds : ∀ n, g.Reachable direction n → (g.node? n).map Node.kind = (g'.node? n).map Node.kind
  successors : ∀ n, g.Reachable direction n → g.flowSuccessors direction n = g'.flowSuccessors direction n
  predecessors : ∀ n, g.Reachable direction n →
    g.livePredecessors direction n = g'.livePredecessors direction n

variable {g g' : Graph I} {direction : Direction}

/-- Whether two graphs have the same live part can be checked along their reverse postorders. -/
theorem sameLive_of_order (wellFormed : g.WellFormed) (wellFormed' : g'.WellFormed)
    (order : g.reversePostorder direction = g'.reversePostorder direction)
    (alike : ∀ n ∈ g.reversePostorder direction,
      (g.node? n).map Node.kind = (g'.node? n).map Node.kind ∧
      g.flowSuccessors direction n = g'.flowSuccessors direction n ∧
      g.livePredecessors direction n = g'.livePredecessors direction n) : g.SameLive g' direction := by
  have listed := mem_reversePostorder wellFormed direction
  have listed' := mem_reversePostorder wellFormed' direction
  refine ⟨fun n => ?_, fun n reachable => ?_, fun n reachable => ?_, fun n reachable => ?_⟩
  · rw [← listed, ← listed', order]
  · exact (alike n ((listed n).mpr reachable)).1
  · exact (alike n ((listed n).mpr reachable)).2.1
  · exact (alike n ((listed n).mpr reachable)).2.2

theorem SameLive.instruction? (live : g.SameLive g' direction) {n : NodeId}
    (reachable : g.Reachable direction n) : g.instruction? n = g'.instruction? n := by
  rw [instruction?_eq, instruction?_eq, live.kinds n reachable]

theorem SameLive.labels (live : g.SameLive g' direction) {n : NodeId}
    (reachable : g.Reachable direction n) : g.labels direction n = g'.labels direction n := by
  rw [Graph.labels, Graph.labels, live.successors n reachable]

/-- The fuel of a traversal depends on the whole graph, but what is left over does nothing. -/
theorem SameLive.traverse (live : g.SameLive g' direction) (wellFormed : g.WellFormed)
    (wellFormed' : g'.WellFormed) : g.traverse direction = g'.traverse direction := by
  have same (n : NodeId) (reachable : g.Reachable direction n) :
      g.flowTargets direction n = g'.flowTargets direction n := by
    rw [flowTargets, flowTargets, live.successors n reachable]
  have entered : Traversal.enter (g.flowTargets direction) direction.root =
      Traversal.enter (g'.flowTargets direction) direction.root := by
    rw [Traversal.enter, Traversal.enter, same _ .root]
  calc g.traverse direction
      = Traversal.run (g.flowTargets direction) (g'.traversalSteps direction) (g.traverse direction) :=
        (Traversal.run_idle _ _ (traverse_finishes wellFormed direction)).symm
    _ = Traversal.run (g.flowTargets direction) (g.traversalSteps direction + g'.traversalSteps direction)
          (.enter (g.flowTargets direction) direction.root) := (Traversal.run_add _ _ _ _).symm
    _ = Traversal.run (g'.flowTargets direction) (g'.traversalSteps direction + g.traversalSteps direction)
          (.enter (g'.flowTargets direction) direction.root) := by
        rw [Traversal.run_congr (fun n reachable m target => reachable.target target) same _
          (Traversal.enter_invariant _ _) (Traversal.enter_confined .root), entered, Nat.add_comm]
    _ = Traversal.run (g'.flowTargets direction) (g.traversalSteps direction) (g'.traverse direction) :=
        Traversal.run_add _ _ _ _
    _ = g'.traverse direction := Traversal.run_idle _ _ (traverse_finishes wellFormed' direction)

theorem SameLive.reversePostorder (live : g.SameLive g' direction) (wellFormed : g.WellFormed)
    (wellFormed' : g'.WellFormed) : g.reversePostorder direction = g'.reversePostorder direction := by
  rw [reversePostorder_eq wellFormed, reversePostorder_eq wellFormed', live.traverse wellFormed wellFormed']

end Graph

namespace Analysis

variable {I α ε : Type} {a : Analysis I α ε} {g g' : Graph I}

/-- Only live predecessors send anything. -/
theorem contributions_live (wellFormed : g.WellFormed) {s : Run α} (tracks : a.Tracks g s) (n : NodeId) :
    a.contributions g s.facts n = (g.livePredecessors a.direction n).filterMap (sent s.facts) := by
  rw [contributions, Graph.livePredecessors, List.filterMap_filter]
  apply List.filterMap_congr
  intro e _
  split
  · rfl
  · rename_i dead
    have absent : s.facts.get e.node = none := by
      cases stored : s.facts.get e.node with
      | none => rfl
      | some f =>
        have reachable := (tracks.facts e.node).mp ⟨f, stored⟩
        rw [← Graph.mem_reversePostorder wellFormed] at reachable
        exact absurd (List.contains_iff_mem.mpr reachable) dead
    simp [sent, absent]

section

variable (live : g.SameLive g' a.direction) (wellFormed : g.WellFormed) (wellFormed' : g'.WellFormed)
  (entry : a.entry g = a.entry g')

include live

theorem Tracks.sameLive {s : Run α} (tracks : a.Tracks g s) : a.Tracks g' s where
  coherent := tracks.coherent
  pending n member := (live.reachable n).mp (tracks.pending n member)
  facts n := (tracks.facts n).trans (live.reachable n)

theorem leaving_sameLive {n : NodeId} (reachable : g.Reachable a.direction n) (x : α) :
    a.leaving g n x = a.leaving g' n x := by
  rw [leaving, leaving, live.instruction? reachable, live.labels reachable]

theorem affected_sameLive {n : NodeId} (reachable : g.Reachable a.direction n)
    (facts : NodeMap (Option (Facts α))) (outgoing : Labeled α) :
    a.affected g n (a.changed g facts n outgoing) = a.affected g' n (a.changed g' facts n outgoing) := by
  rw [affected, affected, changed, changed, live.labels reachable, live.successors n reachable]

include wellFormed wellFormed' entry

theorem arriving_sameLive {s : Run α} (tracks : a.Tracks g s) {n : NodeId}
    (reachable : g.Reachable a.direction n) : a.arriving g s.facts n = a.arriving g' s.facts n := by
  rw [arriving_eq_foldl, arriving_eq_foldl, contributions_live wellFormed tracks,
    contributions_live wellFormed' (tracks.sameLive live), live.predecessors n reachable, origin, origin,
    entry]

theorem turn_sameLive (limit : Nat) (signal : Signal) {s : Run α} (tracks : a.Tracks g s) :
    a.turn g limit signal s = a.turn g' limit signal s := by
  cases popped : s.worklist.pop? with
  | none => simp only [turn, popped]
  | some taken =>
    obtain ⟨n, rest⟩ := taken
    have reachable : g.Reachable a.direction n :=
      tracks.pending n (by simp [Worklist.pending_of_pop popped])
    simp only [turn, popped, visit, arriving_sameLive live wellFormed wellFormed' entry tracks reachable,
      leaving_sameLive live reachable, affected_sameLive live reachable]

/-- The two runs hold the same state after every turn, so they take the same nodes and end alike. -/
theorem runWithin_sameLive (limit : Nat) (signal : Signal) (turns : Nat) {s : Run α}
    (tracks : a.Tracks g s) :
    a.runWithin g limit signal turns s = a.runWithin g' limit signal turns s ∧
      a.takenWithin g limit signal turns s = a.takenWithin g' limit signal turns s := by
  induction turns generalizing s with
  | zero => exact ⟨rfl, rfl⟩
  | succ turns ih =>
    have same := turn_sameLive live wellFormed wellFormed' entry limit signal tracks
    rw [runWithin, runWithin, takenWithin, takenWithin, ← same]
    cases turned : a.turn g limit signal s with
    | cancelled | finished | failed => exact ⟨rfl, rfl⟩
    | visited n next =>
      obtain ⟨ran, took⟩ := ih (visited_tracks tracks turned)
      exact ⟨ran, congrArg (n :: ·) took⟩

end

/-- Graphs with the same live part and the same entry value have the same outcome under every
configuration and signal: the same failure, or the same facts, visit counts and iterations. -/
theorem solve_ignores_dead (a : Analysis I α ε) {g g' : Graph I} (built : g.Built) (built' : g'.Built)
    (live : g.SameLive g' a.direction) (entry : a.entry g = a.entry g') (config : SolverConfig)
    (signal : Signal) :
    a.solve g config signal = a.solve g' config signal ∧
      a.taken g config signal = a.taken g' config signal := by
  have order := live.reversePostorder built.wellFormed built'.wellFormed
  have begins : a.begin g config.order = a.begin g' config.order := by
    rw [begin, begin, seed, seed, order]
  obtain ⟨ran, took⟩ := runWithin_sameLive live built.wellFormed built'.wellFormed entry config.maxVisits
    signal (a.turnBound g config.maxVisits) (begin_tracks a built.wellFormed config.order)
  have bound : a.turnBound g config.maxVisits = a.turnBound g' config.maxVisits := by
    rw [turnBound, turnBound, order]
  rw [begins, bound] at ran took
  constructor
  · rw [solve, solve, begins, bound, ran]
  · rw [taken, taken, begins, bound, took]

end Analysis

/-- The counting loop with an exit into a handler that never ends, so that nothing flows back from it. -/
def Graph.strayingLoop : Graph Instruction :=
  .build [.instruction (.const "x" (.int 0)), .instruction (.compare .ne (.var "x") (.int 3)),
    .instruction (.arith "x" .add (.var "x") (.int 1)), .instruction (.load "y" "z" "field"),
    .edge .start ⟨2⟩ .normal, .edge ⟨2⟩ ⟨3⟩ .normal, .edge ⟨3⟩ ⟨5⟩ .exceptional,
    .edge ⟨3⟩ ⟨4⟩ .whenTrue, .edge ⟨4⟩ ⟨3⟩ .normal, .edge ⟨5⟩ ⟨5⟩ .normal,
    .edge ⟨3⟩ .finish .whenFalse]

theorem Graph.strayingLoop_built : strayingLoop.Built := ⟨_, rfl⟩

theorem Graph.countingLoop_straying : countingLoop.SameLive strayingLoop .backward := by
  apply sameLive_of_order countingLoop_built.wellFormed strayingLoop_built.wellFormed
  · decide
  · decide

/-- What is live in the loop does not depend on what the handler reads. -/
theorem Analysis.solve_ignores_dead_straying : ∃ r,
    Liveness.analysis.solve .countingLoop ⟨5, .lifo⟩ .never = .ok r ∧
      Liveness.analysis.solve .strayingLoop ⟨5, .lifo⟩ .never = .ok r := by
  have succeeds : (Liveness.analysis.solve .countingLoop ⟨5, .lifo⟩ .never).isOk = true := by
    decide +kernel
  obtain ⟨r, solved⟩ := exists_of_isOk succeeds
  obtain ⟨same, _⟩ := Analysis.solve_ignores_dead Liveness.analysis Graph.countingLoop_built
    Graph.strayingLoop_built Graph.countingLoop_straying rfl ⟨5, .lifo⟩ .never
  exact ⟨r, solved, same.symm.trans solved⟩

end Dataflow
