import Dataflow.Proofs.Descriptions
import Dataflow.Proofs.Monotone
import Dataflow.Proofs.NullnessSoundness

/-! The order of the edges. Rearranging the edges of a unit changes adjacency lists, traversal, ranks and the
sequence of visits, so two runs have no turn in common. They have a least solution in common: the dataflow
inequalities speak of the edges as a set, and a solution of either graph solves those of the other. -/

namespace Dataflow

variable {I α ε : Type} {carrier : α → Prop}

namespace Graph

/-- Two graphs with the same nodes and the same set of edges. -/
structure SameEdges (g g' : Graph I) : Prop where
  size : g.size = g'.size
  kinds : ∀ n, (g.node? n).map Node.kind = (g'.node? n).map Node.kind
  successors : ∀ n e, e ∈ g.successors n ↔ e ∈ g'.successors n

theorem SameEdges.symm {g g' : Graph I} (same : g.SameEdges g') : g'.SameEdges g where
  size := same.size.symm
  kinds n := (same.kinds n).symm
  successors n e := (same.successors n e).symm

section

variable {g g' : Graph I} (same : g.SameEdges g') (wellFormed : g.WellFormed) (wellFormed' : g'.WellFormed)

include same

theorem SameEdges.instruction? (n : NodeId) : g.instruction? n = g'.instruction? n := by
  rw [instruction?_eq, instruction?_eq, same.kinds n]

include wellFormed wellFormed'

theorem SameEdges.flowSuccessors (direction : Direction) (n : NodeId) (e : Edge) :
    e ∈ g.flowSuccessors direction n ↔ e ∈ g'.flowSuccessors direction n := by
  cases direction with
  | forward => exact same.successors n e
  | backward =>
    exact (wellFormed.mirrored e.node n e.label).symm.trans
      ((same.successors e.node _).trans (wellFormed'.mirrored e.node n e.label))

theorem SameEdges.flowPredecessors (direction : Direction) (n : NodeId) (e : Edge) :
    e ∈ g.flowPredecessors direction n ↔ e ∈ g'.flowPredecessors direction n :=
  (flow_mirrored wellFormed direction e.node n e.label).symm.trans
    ((same.flowSuccessors wellFormed wellFormed' direction e.node _).trans
      (flow_mirrored wellFormed' direction e.node n e.label))

theorem SameEdges.labels (direction : Direction) (n : NodeId) (label : Label) :
    label ∈ g.labels direction n ↔ label ∈ g'.labels direction n := by
  simp only [Graph.labels, List.mem_eraseDups, List.mem_map,
    same.flowSuccessors wellFormed wellFormed' direction n]

theorem SameEdges.reachable {direction : Direction} {n : NodeId} (reachable : g.Reachable direction n) :
    g'.Reachable direction n := by
  induction reachable with
  | root => exact .root
  | edge _ member ih => exact ih.edge ((same.flowSuccessors wellFormed wellFormed' direction _ _).mp member)

end

end Graph

namespace Analysis

/-- A client to which the labels of a node are a set: neither their order nor repetition matters. -/
def ReadsLabelSet (a : Analysis I α ε) : Prop :=
  ∀ i labels labels' x, (∀ label, label ∈ labels ↔ label ∈ labels') →
    a.transfer i labels x = a.transfer i labels' x

section

variable {a : Analysis I α ε} {g g' : Graph I} (same : g.SameEdges g') (wellFormed : g.WellFormed)
  (wellFormed' : g'.WellFormed) (reads : a.ReadsLabelSet)

include same wellFormed wellFormed' reads

theorem yielded_sameEdges (n : NodeId) (x : α) : a.yielded g n x = a.yielded g' n x := by
  unfold yielded
  rw [same.instruction? n]
  cases g'.instruction? n with
  | none => rfl
  | some i => exact reads i _ _ x (same.labels wellFormed wellFormed' a.direction n)

/-- The dataflow inequalities of the two graphs are the same. -/
theorem Solves.sameEdges (entry : a.entry g = a.entry g') {v : Assignment α} (solves : a.Solves g v) :
    a.Solves g' v := by
  have back {n : NodeId} (reachable : g'.Reachable a.direction n) : g.Reachable a.direction n :=
    same.symm.reachable wellFormed' wellFormed reachable
  refine solves_of_yields wellFormed' ?_ ?_ ?_
  · rw [← entry]
    exact solves.entry
  · intro n reachable e edge source
    exact solves.arrives n (back reachable) e
      ((same.flowPredecessors wellFormed wellFormed' a.direction n e).mpr edge) (back source)
  · intro n reachable
    obtain ⟨result, made, below⟩ := solves.yields wellFormed (back reachable)
    rw [yielded_sameEdges same wellFormed wellFormed' reads] at made
    refine ⟨result, made, fun label listed => ?_⟩
    exact below label ((same.labels wellFormed wellFormed' a.direction n label).mpr listed)

/-- Solutions of the two graphs agree, whatever orders, bounds and signals they were found with. -/
theorem solve_agree_sameEdges (entry : a.entry g = a.entry g') (lawful : a.ops.LawfulOn carrier)
    (closed : a.Closed g carrier) (closed' : a.Closed g' carrier) (monotone : a.MonotoneOn g carrier)
    (monotone' : a.MonotoneOn g' carrier) {config config' : SolverConfig} {signal signal' : Signal}
    {r r' : Solution α} (solved : a.solve g config signal = .ok r)
    (solved' : a.solve g' config' signal' = .ok r') (n : NodeId) : a.AgreeAt g r.facts r'.facts n := by
  have labels := same.labels wellFormed wellFormed' a.direction
  have within := solve_within closed solved
  have within' := solve_within closed' solved'
  -- Each solution satisfies the inequalities of its own graph, hence those of the other.
  have solves : a.Solves g' (.ofFacts a.ops r.facts) :=
    (solve_solves wellFormed lawful closed solved).sameEdges same wellFormed wellFormed' reads entry
  have solves' : a.Solves g (.ofFacts a.ops r'.facts) :=
    (solve_solves wellFormed' lawful closed' solved').sameEdges same.symm wellFormed' wellFormed reads
      entry.symm
  have below := solve_below wellFormed lawful closed monotone solved
    (Assignment.ofFacts_within closed.bottom within') solves'
  have below' := solve_below wellFormed' lawful closed' monotone' solved'
    (Assignment.ofFacts_within closed.bottom within) solves
  apply agreeAt_of_below lawful within within' below
  · intro m f stored
    obtain ⟨incoming, outgoing⟩ := below' m f stored
    exact ⟨incoming, fun label listed => outgoing label ((labels m label).mp listed)⟩
  · rw [solve_facts wellFormed solved n, solve_facts wellFormed' solved' n]
    exact ⟨same.reachable wellFormed wellFormed', same.symm.reachable wellFormed' wellFormed⟩

end

end Analysis

theorem Nullness.readsLabelSet : analysis.ReadsLabelSet := by
  intro i labels labels' s same
  have contained : labels.contains .exceptional = labels'.contains .exceptional := by
    rw [Bool.eq_iff_iff, List.contains_iff_mem, List.contains_iff_mem, same]
  have stepped : step s labels i = step s labels' i := by
    simp only [step, dereference, contained]
  simp only [analysis, transfer, stepped]

namespace NullCheck

variable {g g' : Graph Instruction} {r r' : Solution Nullness.State}

/-- A finding depends on the instruction at its node and on what the state before it says of the variable
that is dereferenced. -/
theorem findingAt?_congr {n : NodeId} (instruction : g.instruction? n = g'.instruction? n)
    (before : r.before Nullness.analysis.ops n = none ∧ r'.before Nullness.analysis.ops n = none ∨
      ∃ s s', r.before Nullness.analysis.ops n = some s ∧ r'.before Nullness.analysis.ops n = some s' ∧
        s.Same s') :
    findingAt? g r n = findingAt? g' r' n := by
  rcases before with ⟨absent, absent'⟩ | ⟨s, s', known, known', same⟩
  · simp only [findingAt?, instruction, absent, absent']
  · simp only [findingAt?, finding?, instruction, known, known', Option.bind_eq_bind, Option.bind_some, same.2]

/-- Two solutions that agree at a node give the same finding there. -/
theorem findingAt?_agree (same : g.SameEdges g') (direction : r.direction = .forward)
    (direction' : r'.direction = .forward) (within : Analysis.Within Nullness.Proper r.facts)
    (within' : Analysis.Within Nullness.Proper r'.facts) {n : NodeId}
    (agree : Nullness.analysis.AgreeAt g r.facts r'.facts n) : findingAt? g r n = findingAt? g' r' n := by
  apply findingAt?_congr (same.instruction? n)
  rcases agree with ⟨absent, absent'⟩ | ⟨f, f', stored, stored', equivalent, _⟩
  · left
    exact ⟨Solution.before_unreached absent _, Solution.before_unreached absent' _⟩
  · right
    refine ⟨f.incoming, f'.incoming, before_eq direction stored, before_eq direction' stored', ?_⟩
    exact Nullness.flat.same Nullness.lawful (within n f stored).1 (within' n f' stored').1 equivalent

section

variable (same : g.SameEdges g') (wellFormed : g.WellFormed) (wellFormed' : g'.WellFormed)

include same wellFormed wellFormed'

theorem findings_sameEdges {config config' : SolverConfig} {signal signal' : Signal}
    (solved : Nullness.analysis.solve g config signal = .ok r)
    (solved' : Nullness.analysis.solve g' config' signal' = .ok r') : findings g r = findings g' r' := by
  have closed := Nullness.closed g
  have closed' := Nullness.closed g'
  have agree := Analysis.solve_agree_sameEdges same wellFormed wellFormed' Nullness.readsLabelSet rfl
    Nullness.lawfulOn closed closed' (Nullness.monotone g) (Nullness.monotone g') solved solved'
  have found : findingAt? g r = findingAt? g' r' := by
    funext n
    exact findingAt?_agree same (Analysis.solve_direction solved) (Analysis.solve_direction solved')
      (Analysis.solve_within closed solved) (Analysis.solve_within closed' solved') (agree n)
  rw [findings, findings, found, Graph.ids_eq wellFormed, Graph.ids_eq wellFormed', same.size]

/-- Checks of the two graphs that succeed find the same, whatever the sessions have been through. -/
theorem checkAfter_sameEdges {events events' : List Event} {meanwhile meanwhile' : List (Nat × Token)}
    {found found' : List Finding} (checked : (checkAfter g events meanwhile).2 = .ok found)
    (checked' : (checkAfter g' events' meanwhile').2 = .ok found') : found = found' := by
  have dereferences (n : NodeId) : dereferences g n = dereferences g' n := by
    rw [NullCheck.dereferences, same.instruction?, NullCheck.dereferences]
  have ids : g.ids = g'.ids := by
    rw [Graph.ids_eq wellFormed, Graph.ids_eq wellFormed', same.size]
  rcases checkAfter_ok wellFormed checked with ⟨idle, rfl⟩ | ⟨r, solved, rfl⟩
  · rcases checkAfter_ok wellFormed' checked' with ⟨_, rfl⟩ | ⟨r', _, rfl⟩
    · rfl
    · refine (findings_eq_nil fun n member => ?_).symm
      rw [← dereferences]
      exact idle n (ids ▸ member)
  · rcases checkAfter_ok wellFormed' checked' with ⟨idle, rfl⟩ | ⟨r', solved', rfl⟩
    · refine findings_eq_nil fun n member => ?_
      rw [dereferences]
      exact idle n (ids ▸ member)
    · exact findings_sameEdges same wellFormed wellFormed' solved solved'

end

end NullCheck

namespace Description

/-- The same unit with its edges in another order, some of them perhaps listed more than once. -/
structure Rearranges (d d' : Description I) : Prop where
  name : d'.name = d.name
  instructions : d'.instructions = d.instructions
  edges : ∀ e, e ∈ d'.edges ↔ e ∈ d.edges

/-- A rearranged unit is accepted if the unit is, and describes the same nodes and edges. -/
theorem Rearranges.sameEdges {d d' : Description I} (rearranges : d.Rearranges d') {g : Graph I}
    (accepted : d.toGraph = .ok g) : ∃ g', d'.toGraph = .ok g' ∧ g.SameEdges g' := by
  obtain ⟨valid, built⟩ := toGraph_eq_ok.mp accepted
  have nodes : d'.nodes = d.nodes := by
    rw [Description.nodes, Description.nodes, rearranges.name, rearranges.instructions]
  have accepted' : d'.toGraph = .ok (d'.edges.foldl Graph.connect d'.nodes.1) := by
    refine toGraph_eq_ok.mpr ⟨fun e member => ?_, rfl⟩
    rw [rearranges.instructions]
    exact valid e ((rearranges.edges e).mp member)
  refine ⟨_, accepted', ?_, fun n => ?_, fun n x => ?_⟩
  · rw [built, Graph.size_connectAll, Graph.size_connectAll, nodes]
  · rw [built, Graph.kind_connectAll, Graph.kind_connectAll, nodes]
  · rw [mem_successors accepted, mem_successors accepted']
    simp only [rearranges.edges]

end Description

namespace NullCheck

/-- What the null check finds depends on the instructions and on the set of edges alone: neither the order
of the edges, nor how often they are listed, nor the configuration and the history of the two sessions shows in it.
Where both runs converge the two checks return one list, and so do any two checks that succeed. -/
theorem check_rearranged {d d' : Description Instruction} (rearranges : d.Rearranges d')
    {g : Graph Instruction} (accepted : d.toGraph = .ok g) :
    ∃ g', d'.toGraph = .ok g' ∧ ∀ events events' meanwhile meanwhile',
      (∀ r r', Nullness.analysis.solve g (configAfter events) (heardAfter events meanwhile) = .ok r →
        Nullness.analysis.solve g' (configAfter events') (heardAfter events' meanwhile') = .ok r' →
        ∃ found, (checkAfter g events meanwhile).2 = .ok found ∧
          (checkAfter g' events' meanwhile').2 = .ok found ∧ found = findings g r) ∧
      ∀ found found', (checkAfter g events meanwhile).2 = .ok found →
        (checkAfter g' events' meanwhile').2 = .ok found' → found = found' := by
  obtain ⟨g', accepted', same⟩ := rearranges.sameEdges accepted
  have wellFormed := (Description.toGraph_built accepted).wellFormed
  have wellFormed' := (Description.toGraph_built accepted').wellFormed
  refine ⟨g', accepted', fun events events' meanwhile meanwhile' => ⟨fun r r' solved solved' => ?_, ?_⟩⟩
  · refine ⟨findings g r, checkAfter_converges wellFormed solved, ?_, rfl⟩
    rw [findings_sameEdges same wellFormed wellFormed' solved solved']
    exact checkAfter_converges wellFormed' solved'
  · intro found found' checked checked'
    exact checkAfter_sameEdges same wellFormed wellFormed' checked checked'

/-- A loop that reads a field of `p` and then, on some rounds, sets `p` to null. -/
def forgetful : Description Instruction where
  name := "forgetful"
  instructions := [.new "p", .load "v" "p" "f", .const "p" .null, .nop]
  edges := [⟨.start, .instruction 0, .normal⟩, ⟨.instruction 0, .instruction 1, .normal⟩,
    ⟨.instruction 1, .instruction 2, .normal⟩, ⟨.instruction 1, .instruction 3, .exceptional⟩,
    ⟨.instruction 2, .instruction 1, .normal⟩, ⟨.instruction 3, .finish, .normal⟩]

/-- The edges the other way round, and two of them listed again. -/
def shuffled : Description Instruction :=
  { forgetful with edges := forgetful.edges.reverse ++ forgetful.edges.take 2 }

theorem forgetful_shuffled : forgetful.Rearranges shuffled where
  name := rfl
  instructions := rfl
  edges e := by
    rw [shuffled, List.mem_append, List.mem_reverse]
    exact or_iff_left_of_imp List.mem_of_mem_take

/-- The check behind what a unit is found to hold. -/
theorem exists_check {d : Description Instruction} {events : List Event} {found : List Finding}
    (computed : d.toGraph.toOption.bind (fun g => (checkAfter g events []).2.toOption) = some found) :
    ∃ g, d.toGraph = .ok g ∧ (checkAfter g events []).2 = .ok found := by
  cases accepted : d.toGraph with
  | error fault => simp [accepted, Except.toOption] at computed
  | ok g =>
    rw [accepted] at computed
    refine ⟨g, rfl, ?_⟩
    cases checked : (checkAfter g events []).2 with
    | error failure => simp [checked, Except.toOption] at computed
    | ok found' =>
      simp only [checked, Except.toOption, Option.bind_some, Option.some.injEq] at computed
      rw [computed]

theorem check_rearranged_shuffled : ∃ g g' found, forgetful.toGraph = .ok g ∧ shuffled.toGraph = .ok g' ∧
    (checkAfter g [.configure ⟨9, .fifo⟩] []).2 = .ok [⟨⟨3⟩, "p", .possible, "v = p.f"⟩] ∧
    (checkAfter g' [.configure ⟨7, .lifo⟩, .ask .atEnd []] []).2 = .ok found ∧
    [⟨⟨3⟩, "p", .possible, "v = p.f"⟩] = found := by
  obtain ⟨g, accepted, checked⟩ : ∃ g, forgetful.toGraph = .ok g ∧
      (checkAfter g [.configure ⟨9, .fifo⟩] []).2 = .ok [⟨⟨3⟩, "p", .possible, "v = p.f"⟩] :=
    exists_check (by decide +kernel)
  obtain ⟨g', accepted', checked'⟩ : ∃ g, shuffled.toGraph = .ok g ∧
      (checkAfter g [.configure ⟨7, .lifo⟩, .ask .atEnd []] []).2 = .ok [⟨⟨3⟩, "p", .possible, "v = p.f"⟩] :=
    exists_check (by decide +kernel)
  obtain ⟨other, acceptedOther, same⟩ := check_rearranged forgetful_shuffled accepted
  cases accepted'.symm.trans acceptedOther
  exact ⟨g, g', _, accepted, accepted', checked, checked', (same _ _ [] []).2 _ _ checked checked'⟩

end NullCheck

end Dataflow
