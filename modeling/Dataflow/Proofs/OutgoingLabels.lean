import Dataflow.Proofs.Accounting
import Dataflow.Proofs.Clients
import Dataflow.Proofs.Stability

/-! The labels of what leaves a node. Every visit restricts the node's result to the labels of its outgoing
edges in flow order, so a solution stores these labels, in their order, and no others. Restriction to no label
at all keeps the result as it is: a node without such edges holds the single form only if its result has it.
No law of the lattice and no property of the transfer function is used. -/

namespace Dataflow

variable {I α ε : Type}

theorem eraseDups_of_nodup {β : Type} [BEq β] [LawfulBEq β] {l : List β} (distinct : l.Nodup) :
    l.eraseDups = l := by
  induction l with
  | nil => rfl
  | cons x rest ih =>
    obtain ⟨fresh, distinct⟩ := List.nodup_cons.mp distinct
    have others : rest.filter (fun y => !y == x) = rest := by
      apply List.filter_eq_self.mpr
      intro y member
      have apart : y ≠ x := fun same => fresh (same ▸ member)
      simpa using apart
    rw [List.eraseDups_cons, others, ih distinct]

/-- The labels of a node are distinct, so restriction to them stores them as they are listed. -/
theorem Graph.keys_restrict_labels (g : Graph I) (direction : Direction) {n : NodeId} (ops : LatticeOps α)
    (result : Labeled α) (edges : g.labels direction n ≠ []) :
    (result.restrict ops (g.labels direction n)).overrides.keys = g.labels direction n := by
  rw [Labeled.keys_restrict _ edges]
  exact eraseDups_of_nodup (OrderedMap.nodup_eraseDups _)

namespace Solution

/-- The collapsed state on the far side of a node in flow order: after it in a forward solution, before it
in a backward one. -/
def beyond (r : Solution α) (ops : LatticeOps α) (n : NodeId) : Option α :=
  match r.direction with
  | .forward => r.after ops n
  | .backward => r.before ops n

theorem beyond_eq {r : Solution α} {n : NodeId} {f : Facts α} (stored : r.facts.get n = some f)
    (ops : LatticeOps α) : r.beyond ops n = some ((f.outgoing.map ops.copy).collapse ops) := by
  cases direction : r.direction with
  | forward => simp [beyond, after, labeledAfter, stored, direction]
  | backward => simp [beyond, before, labeledBefore, stored, direction]

end Solution

namespace Analysis

variable {a : Analysis I α ε} {g : Graph I}

/-- A solution has taken every reachable node at least once, and what it stores is from the last time. -/
theorem solve_left (wellFormed : g.WellFormed) {config : SolverConfig} {signal : Signal} {r : Solution α}
    (solved : a.solve g config signal = .ok r) {n : NodeId} (reachable : g.Reachable a.direction n) :
    ∃ f, r.facts.get n = some f ∧ a.leaving g n f.incoming = .ok f.outgoing := by
  obtain ⟨final, moment, idle, rfl⟩ := solve_ok solved
  obtain ⟨f, stored⟩ := ((moment.tracks wellFormed).facts n).mpr reachable
  refine ⟨f, stored, ?_⟩
  rcases moment.fresh_or_left stored with ⟨unvisited, _⟩ | left
  · rcases (moment.counted wellFormed).begun n reachable with waiting | visited
    · rw [idle] at waiting
      contradiction
    · omega
  · exact left

/-- How a solution holds the result of a node: copied under the labels of the node's edges, and as it came from
the node where there are none. -/
structure Relabels (a : Analysis I α ε) (g : Graph I) (r : Solution α) (n : NodeId) (outgoing result : Labeled α) :
    Prop where
  base : outgoing.base = result.base
  listed : ∀ label ∈ g.labels a.direction n, outgoing.get label = a.ops.copy (result.get label)
  keys : outgoing.overrides.keys = g.labels a.direction n ↔
    (g.labels a.direction n = [] → result.isSingle = true)
  dropped : g.labels a.direction n ≠ [] →
    ∀ label, label ∉ g.labels a.direction n → outgoing.get label = result.base
  whole : g.labels a.direction n = [] → outgoing = result
  collapsed : g.labels a.direction n = [] → r.beyond a.ops n = some ((result.map a.ops.copy).collapse a.ops)
  single : g.labels a.direction n = [] → result.isSingle = true →
    r.beyond a.ops n = some (a.ops.copy (a.ops.copy result.base))

theorem relabels_restrict {r : Solution α} {n : NodeId} {f : Facts α} (stored : r.facts.get n = some f)
    {result : Labeled α} (restricted : f.outgoing = result.restrict a.ops (g.labels a.direction n)) :
    a.Relabels g r n f.outgoing result := by
  have whole (deadEnd : g.labels a.direction n = []) : f.outgoing = result := by
    rw [restricted, deadEnd]
    rfl
  have keys (edges : g.labels a.direction n ≠ []) : f.outgoing.overrides.keys = g.labels a.direction n := by
    rw [restricted]
    exact g.keys_restrict_labels a.direction a.ops result edges
  have collapsed (deadEnd : g.labels a.direction n = []) :
      r.beyond a.ops n = some ((result.map a.ops.copy).collapse a.ops) := by
    rw [r.beyond_eq stored, whole deadEnd]
  refine ⟨?_, ?_, ?_, ?_, whole, collapsed, ?_⟩
  · rw [restricted, Labeled.base_restrict]
  · intro label listed
    rw [restricted, result.get_restrict listed]
  · by_cases deadEnd : g.labels a.direction n = []
    · simp [deadEnd, whole deadEnd, Labeled.isSingle_iff]
    · simp [deadEnd, keys deadEnd]
  · intro edges label unlisted
    rw [← keys edges] at unlisted
    rw [Labeled.get_of_not_mem_keys unlisted, restricted, Labeled.base_restrict]
  · intro deadEnd single
    rw [collapsed deadEnd, Labeled.collapse_of_isSingle ((result.isSingle_map _).trans single)]
    rfl

/-- Whatever the graph, the direction, the order, the bound and the transfer function: a solution holds what
every reachable node made of a copy of its incoming value under exactly the labels of the node's edges, unless
the node has no edge and a result with labels. -/
theorem solve_relabels (a : Analysis I α ε) {g : Graph I} (built : g.Built) {config : SolverConfig}
    {signal : Signal} {r : Solution α} (solved : a.solve g config signal = .ok r) {n : NodeId}
    (reachable : g.Reachable a.direction n) :
    ∃ f result, r.facts.get n = some f ∧ a.yielded g n (a.ops.copy f.incoming) = .ok result ∧
      a.Relabels g r n f.outgoing result := by
  obtain ⟨f, stored, left⟩ := solve_left built.wellFormed solved reachable
  obtain ⟨result, made, restricted⟩ := leaving_eq_ok left
  exact ⟨f, result, stored, made, relabels_restrict stored restricted⟩

/-- Leaves a comparison first where it fails, then where it holds. -/
def failsFirst : Graph Instruction :=
  .build [.instruction (.compare .eq (.var "x") .null), .edge .start ⟨2⟩ .normal,
    .edge ⟨2⟩ .finish .whenFalse, .edge ⟨2⟩ .finish .whenTrue]

theorem failsFirst_built : failsFirst.Built := ⟨_, rfl⟩

theorem solve_relabels_failsFirst : ∃ r f result,
    Nullness.analysis.solve failsFirst ⟨2, .lifo⟩ .never = .ok r ∧ r.facts.get ⟨2⟩ = some f ∧
      Nullness.analysis.yielded failsFirst ⟨2⟩ (Nullness.analysis.ops.copy f.incoming) = .ok result ∧
      Nullness.analysis.Relabels failsFirst r ⟨2⟩ f.outgoing result ∧
      f.outgoing.overrides.keys = [.whenFalse, .whenTrue] := by
  have succeeds : (Nullness.analysis.solve failsFirst ⟨2, .lifo⟩ .never).isOk = true := by decide +kernel
  obtain ⟨r, solved⟩ := exists_of_isOk succeeds
  have entered : ⟨⟨2⟩, .normal⟩ ∈ failsFirst.flowSuccessors .forward .start := by decide
  have reachable : failsFirst.Reachable Nullness.analysis.direction ⟨2⟩ := .edge .root entered
  obtain ⟨f, result, stored, made, relabels⟩ :=
    solve_relabels Nullness.analysis failsFirst_built solved reachable
  have labels : failsFirst.labels Nullness.analysis.direction ⟨2⟩ = [.whenFalse, .whenTrue] := by decide
  have keys := relabels.keys
  rw [labels] at keys
  exact ⟨r, f, result, solved, stored, made, relabels, keys.mpr fun deadEnd => by contradiction⟩

/-- Ends in a comparison that nothing leaves. -/
def failsNowhere : Graph Instruction :=
  .build [.instruction (.compare .eq (.var "x") .null), .edge .start ⟨2⟩ .normal]

/-- The comparison keeps its two labels although no edge has them, and the state after it has an entry that
its base value lacks. -/
theorem outgoing_keeps_labels : ∃ r f after,
    failsNowhere.Reachable Nullness.analysis.direction ⟨2⟩ ∧
    failsNowhere.labels Nullness.analysis.direction ⟨2⟩ = [] ∧
    Nullness.analysis.solve failsNowhere ⟨1, .reversePostorder⟩ .never = .ok r ∧ r.facts.get ⟨2⟩ = some f ∧
      f.outgoing.overrides.keys = [.whenTrue, .whenFalse] ∧ f.outgoing.isSingle = false ∧
      r.after Nullness.analysis.ops ⟨2⟩ = some after ∧ after.keys = ["x"] ∧ f.outgoing.base.keys = [] := by
  have computed : (Nullness.analysis.solve failsNowhere ⟨1, .reversePostorder⟩ .never).toOption.map (fun r =>
      ((r.facts.get ⟨2⟩).map fun f => (f.outgoing.overrides.keys, f.outgoing.isSingle, f.outgoing.base.keys),
        (r.after Nullness.analysis.ops ⟨2⟩).map Tuple.keys)) =
      some (some ([.whenTrue, .whenFalse], false, []), some ["x"]) := by decide +kernel
  obtain ⟨r, solved, shown⟩ := exists_of_shown computed
  obtain ⟨facts, after⟩ := Prod.mk.inj shown
  obtain ⟨f, stored, outgoing⟩ := Option.map_eq_some_iff.mp facts
  obtain ⟨state, reached, entries⟩ := Option.map_eq_some_iff.mp after
  obtain ⟨keys, rest⟩ := Prod.mk.inj outgoing
  obtain ⟨single, base⟩ := Prod.mk.inj rest
  have entered : ⟨⟨2⟩, .normal⟩ ∈ failsNowhere.flowSuccessors .forward .start := by decide
  exact ⟨r, f, state, .edge .root entered, by decide, solved, stored, keys, single, reached, entries, base⟩

end Analysis

end Dataflow
