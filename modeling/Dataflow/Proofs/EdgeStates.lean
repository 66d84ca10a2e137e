import Dataflow.Proofs.CacheCoherence
import Dataflow.Proofs.LeastSolution
import Dataflow.Proofs.OutgoingLabels

/-! The states at the two ends of an edge, as a session tells them. The end that an edge leaves in flow order
holds a value for the edge's label; the state at the other end covers it, and so does the collapsed state of
the same end. In program order that is the state after the source for a forward analysis and the state before
the target for a backward one. -/

namespace Dataflow

variable {I α ε : Type} {carrier : α → Prop}

namespace Analysis

variable {a : Analysis I α ε} {g : Graph I} {config : SolverConfig} {signal : Signal} {r : Solution α}

/-- Every label that leaves a reachable node is stored there. -/
theorem solve_stores (wellFormed : g.WellFormed) (solved : a.solve g config signal = .ok r) {n m : NodeId}
    {label : Label} (edge : ⟨m, label⟩ ∈ g.flowSuccessors a.direction n) {f : Facts α}
    (stored : r.facts.get n = some f) : label ∈ f.outgoing.overrides.keys := by
  have listed := Graph.mem_labels edge
  have reachable := (solve_facts wellFormed solved n).mp ⟨f, stored⟩
  obtain ⟨f', stored', left⟩ := solve_left wellFormed solved reachable
  cases stored.symm.trans stored'
  obtain ⟨result, _, restricted⟩ := leaving_eq_ok left
  rw [restricted, g.keys_restrict_labels a.direction a.ops result (List.ne_nil_of_mem listed)]
  exact listed

/-- An edge out of a node with facts leads to a node with facts, and what it carries is at least as precise as
what arrives there and as the collapsed result it was taken from. -/
theorem solve_edge (wellFormed : g.WellFormed) (lawful : a.ops.LawfulOn carrier) (closed : a.Closed g carrier)
    (solved : a.solve g config signal = .ok r) {n m : NodeId} {label : Label}
    (edge : ⟨m, label⟩ ∈ g.flowSuccessors a.direction n) {f : Facts α} (stored : r.facts.get n = some f) :
    ∃ h, r.facts.get m = some h ∧ a.ops.precise (f.outgoing.get label) h.incoming = true ∧
      a.ops.precise (f.outgoing.get label) (f.outgoing.collapse a.ops) = true := by
  have facts := solve_facts wellFormed solved
  have reachable : g.Reachable a.direction n := (facts n).mp ⟨f, stored⟩
  have onward : g.Reachable a.direction m := .edge reachable edge
  obtain ⟨h, arrived⟩ := (facts m).mpr onward
  refine ⟨h, arrived, ?_, ?_⟩
  · have arrives := (solve_solves wellFormed lawful closed solved).arrives m onward ⟨n, label⟩
      ((Graph.flow_mirrored wellFormed a.direction n m label).mp edge) reachable
    rwa [Assignment.incoming_ofFacts arrived, Assignment.outgoing_ofFacts stored] at arrives
  · apply Labeled.get_precise_collapse lawful (solve_within closed solved n f stored).2.2
    exact solve_stores wellFormed solved edge stored

end Analysis

namespace Scene

/-- What a scene tells about an edge, whatever is tripped while it is asked: a state label by label, the same
state collapsed and the state at the other end, both of which cover the value on the label of the edge. -/
def Covers (s : Scene I α ε) (ops : LatticeOps α) (label : Label) (labeled collapsed other : Query) : Prop :=
  ∃ side whole far,
    (∀ meanwhile, (s.ask labeled meanwhile).2 = .ok (.labeled (some side)) ∧
      (s.ask collapsed meanwhile).2 = .ok (.state (some whole)) ∧
      (s.ask other meanwhile).2 = .ok (.state (some far))) ∧
    ops.precise (side.get label) far = true ∧ ops.precise (side.get label) whole = true

/-- However a session has come to its solution, the states it tells at the two ends of an edge of the graph fit
together, as soon as the edge starts in flow order at a node that has facts. -/
theorem performAll_edge {a : Analysis I α ε} (lawful : a.ops.LawfulOn carrier) {g : Graph I}
    (closed : a.Closed g carrier) (built : g.Built) (events : List Event) {r : Solution α}
    (remembered : ((new g a).performAll events).session.cache = some r) {u v : NodeId} {label : Label}
    (edge : ⟨v, label⟩ ∈ g.successors u) :
    (a.direction = .forward → (∃ f, r.facts.get u = some f) →
      Covers ((new g a).performAll events) a.ops label (.labeledAfter u) (.after u) (.before v)) ∧
    (a.direction = .backward → (∃ f, r.facts.get v = some f) →
      Covers ((new g a).performAll events) a.ops label (.labeledBefore v) (.before v) (.after u)) := by
  have coherent := performAll_coherent g a events
  have solved := coherent.cached r remembered
  have told (query : Query) (meanwhile : List (Nat × Token)) :
      (((new g a).performAll events).ask query meanwhile).2 = .ok (query.answer a.ops r) := by
    rw [(ask_remembered remembered query meanwhile).2, coherent.analysis]
  have direction := Analysis.solve_direction solved
  have wellFormed := built.wellFormed
  have faithful {n : NodeId} {f : Facts α} (stored : r.facts.get n = some f) :=
    Analysis.solve_faithful lawful closed solved stored
  constructor
  · rintro forward ⟨f, stored⟩
    have leads : ⟨v, label⟩ ∈ g.flowSuccessors a.direction u := by rwa [forward]
    obtain ⟨h, arrived, onward, collapsed⟩ := Analysis.solve_edge wellFormed lawful closed solved leads stored
    rw [forward] at direction
    refine ⟨f.outgoing, _, h.incoming, fun meanwhile => ⟨?_, ?_, ?_⟩, onward, collapsed⟩
    · rw [told, Query.answer, Solution.labeledAfter_forward stored (faithful stored).2 direction]
    · rw [told, Query.answer, Solution.after_forward stored (faithful stored).2 direction]
    · rw [told, Query.answer, Solution.before_forward arrived (faithful arrived).1 direction]
  · rintro backward ⟨f, stored⟩
    have leads : ⟨u, label⟩ ∈ g.flowSuccessors a.direction v := by
      rw [backward]
      exact (wellFormed.mirrored u v label).mp edge
    obtain ⟨h, arrived, onward, collapsed⟩ := Analysis.solve_edge wellFormed lawful closed solved leads stored
    rw [backward] at direction
    refine ⟨f.outgoing, _, h.incoming, fun meanwhile => ⟨?_, ?_, ?_⟩, onward, collapsed⟩
    · rw [told, Query.answer, Solution.labeledBefore_backward stored (faithful stored).2 direction]
    · rw [told, Query.answer, Solution.before_backward stored (faithful stored).2 direction]
    · rw [told, Query.answer, Solution.after_backward arrived (faithful arrived).1 direction]

/-- The true branch of the loop, live variables read against it and null values along it. -/
theorem performAll_edge_loop :
    Covers ((new .countingLoop Liveness.analysis).performAll interrupted) Liveness.analysis.ops .whenTrue
      (.labeledBefore ⟨4⟩) (.before ⟨4⟩) (.after ⟨3⟩) ∧
    Covers ((new .countingLoop Nullness.analysis).performAll interrupted) Nullness.analysis.ops .whenTrue
      (.labeledAfter ⟨3⟩) (.after ⟨3⟩) (.before ⟨4⟩) := by
  have edge : ⟨⟨4⟩, .whenTrue⟩ ∈ Graph.countingLoop.successors ⟨3⟩ := by decide
  constructor
  · have computed : ((new .countingLoop Liveness.analysis).performAll interrupted).session.cache.map
        (fun r => (r.facts.get ⟨4⟩).isSome) = some true := by decide +kernel
    obtain ⟨r, remembered, present⟩ := Option.map_eq_some_iff.mp computed
    have covers := performAll_edge LiveSet.lawful.on (Analysis.closed_true Liveness.analysis _)
      Graph.countingLoop_built interrupted remembered edge
    exact covers.2 rfl (Option.isSome_iff_exists.mp present)
  · have computed : ((new .countingLoop Nullness.analysis).performAll interrupted).session.cache.map
        (fun r => (r.facts.get ⟨3⟩).isSome) = some true := by decide +kernel
    obtain ⟨r, remembered, present⟩ := Option.map_eq_some_iff.mp computed
    have covers := performAll_edge Nullness.lawfulOn (Nullness.closed _) Graph.countingLoop_built interrupted
      remembered edge
    exact covers.1 rfl (Option.isSome_iff_exists.mp present)

end Scene

end Dataflow
