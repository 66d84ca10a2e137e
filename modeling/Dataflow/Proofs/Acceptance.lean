import Dataflow.Proofs.Construction

/-! Which descriptions are accepted, what the graph of an accepted one looks like, and what is said of one that
is refused. The graph is exact: its nodes are the instructions behind the start and the end, and its adjacency
lists are the described edges in order, each at its first mention. A refusal speaks of the first edge that is
not valid and of the first check that this edge fails. -/

namespace Dataflow

variable {I : Type}

instance (count : Nat) : (e : Endpoint) → Decidable (e.Within count)
  | .start | .finish => isTrue trivial
  | .instruction position => inferInstanceAs (Decidable (position < count))

namespace EdgeDescription

instance (count : Nat) (e : EdgeDescription) : Decidable (e.Valid count) :=
  decidable_of_iff
    (e.source.Within count ∧ e.target.Within count ∧ e.target ≠ .start ∧ e.source ≠ .finish)
    ⟨fun ⟨source, target, enters, leaves⟩ => ⟨source, target, enters, leaves⟩,
      fun valid => ⟨valid.source, valid.target, valid.enters, valid.leaves⟩⟩

def arc (e : EdgeDescription) : Arc := ⟨e.source.node, e.target.node, e.label⟩

/-- The check that an edge at the given place of the list fails, with the fault that is reported. Each check is
made only where those before it are passed. -/
inductive Fails (count place : Nat) (e : EdgeDescription) : GraphFault → Prop where
  | source {position : Nat} : e.source = .instruction position → count ≤ position →
      Fails count place e (.noInstruction place position count)
  | target {position : Nat} : e.source.Within count → e.target = .instruction position → count ≤ position →
      Fails count place e (.noInstruction place position count)
  | enters : e.source.Within count → e.target = .start → Fails count place e (.entersStart place)
  | leaves : e.target.Within count → e.target ≠ .start → e.source = .finish →
      Fails count place e (.leavesEnd place)

/-- The checks are complete: an edge that fails none of them is valid. -/
theorem valid_or_fails (count place : Nat) (e : EdgeDescription) :
    e.Valid count ∨ ∃ fault, e.Fails count place fault := by
  have within_or (x : Endpoint) : x.Within count ∨ ∃ position, x = .instruction position ∧ count ≤ position := by
    cases x with
    | start | finish => exact .inl trivial
    | instruction position =>
      rcases Nat.lt_or_ge position count with inside | beyond
      · exact .inl inside
      · exact .inr ⟨position, rfl, beyond⟩
  rcases within_or e.source with source | ⟨position, same, beyond⟩
  · rcases within_or e.target with target | ⟨position, same, beyond⟩
    · by_cases enters : e.target = .start
      · exact .inr ⟨_, .enters source enters⟩
      · by_cases leaves : e.source = .finish
        · exact .inr ⟨_, .leaves target enters leaves⟩
        · exact .inl ⟨source, target, enters, leaves⟩
    · exact .inr ⟨_, .target source same beyond⟩
  · exact .inr ⟨_, .source same beyond⟩

end EdgeDescription

namespace Description

theorem addEdge_of_fails {count place : Nat} {e : EdgeDescription} {fault : GraphFault}
    (fails : e.Fails count place fault) (g : Graph I) :
    addEdge (Endpoint.places count) place g e = .error fault := by
  have resolves (x : Endpoint) (within : x.Within count) :
      x.resolve (Endpoint.places count) place = .ok x.node :=
    Endpoint.resolve_eq_ok.mpr ⟨within, rfl⟩
  have refuses (x : Endpoint) (position : Nat) (same : x = .instruction position) (beyond : count ≤ position) :
      x.resolve (Endpoint.places count) place = .error (.noInstruction place position count) := by
    have absent : (Endpoint.places count)[position]? = none := List.getElem?_eq_none (by simpa using beyond)
    rw [same, Endpoint.resolve, absent, Endpoint.length_places]
  cases fails with
  | source same beyond => simp [addEdge, refuses _ _ same beyond, bind, Except.bind]
  | target source same beyond =>
    simp [addEdge, resolves _ source, refuses _ _ same beyond, bind, Except.bind]
  | enters source enters =>
    have target : e.target.Within count := by simp [enters, Endpoint.Within]
    have node : e.target.node = .start := Endpoint.node_eq_start.mpr enters
    simp [addEdge, resolves _ source, resolves _ target, bind, Except.bind, node]
  | leaves target enters leaves =>
    have source : e.source.Within count := by simp [leaves, Endpoint.Within]
    have node : e.target.node ≠ .start := fun same => enters (Endpoint.node_eq_start.mp same)
    have node' : e.source.node = .finish := Endpoint.node_eq_finish.mpr leaves
    simp [addEdge, resolves _ source, resolves _ target, bind, Except.bind, node, node']

/-- A refusal is that of the first edge that is not valid; `place` is the place of the first edge of all. -/
theorem addEdges_eq_error {count place : Nat} {g : Graph I} {edges : List EdgeDescription}
    {fault : GraphFault} (extent : g.size = count + 2) :
    addEdges (Endpoint.places count) place g edges = .error fault ↔ ∃ before e after, edges = before ++ e :: after ∧
      (∀ x ∈ before, x.Valid count) ∧ e.Fails count (place + before.length) fault := by
  induction edges generalizing g place with
  | nil => simp [addEdges]
  | cons e rest ih =>
    rcases e.valid_or_fails count place with valid | ⟨cause, fails⟩
    · have kept : (g.connect e).size = count + 2 := by simpa using extent
      simp only [addEdges, addEdge_of_valid valid place extent, ih kept]
      constructor
      · rintro ⟨before, x, after, rfl, earlier, fails⟩
        refine ⟨e :: before, x, after, rfl, List.forall_mem_cons.mpr ⟨valid, earlier⟩, ?_⟩
        rwa [List.length_cons, Nat.add_comm before.length, ← Nat.add_assoc]
      · rintro ⟨_ | ⟨first, before⟩, x, after, split, earlier, fails⟩
        · cases split
          cases (addEdge_of_valid valid place extent).symm.trans (addEdge_of_fails fails g)
        · cases split
          refine ⟨before, x, after, rfl, fun y member => earlier y (List.mem_cons_of_mem _ member), ?_⟩
          rwa [List.length_cons, Nat.add_comm before.length, ← Nat.add_assoc] at fails
    · simp only [addEdges, addEdge_of_fails fails g, Except.error.injEq]
      constructor
      · rintro rfl
        exact ⟨[], e, rest, rfl, by simp, fails⟩
      · rintro ⟨_ | ⟨first, before⟩, x, after, split, earlier, other⟩
        · cases split
          exact Except.error.inj ((addEdge_of_fails fails g).symm.trans (addEdge_of_fails other g))
        · cases split
          have valid := earlier e List.mem_cons_self
          cases (addEdge_of_valid valid place extent).symm.trans (addEdge_of_fails fails g)

end Description

namespace Graph

theorem name_connectAll (g : Graph I) (edges : List EdgeDescription) :
    (edges.foldl connect g).name = g.name := by
  induction edges generalizing g with
  | nil => rfl
  | cons e rest ih =>
    have kept : (g.connect e).name = g.name := by
      rw [connect, link]
      split <;> rfl
    rw [List.foldl_cons, ih, kept]

theorem name_addInstructions (g : Graph I) (instructions : List I) :
    (g.addInstructions instructions).1.name = g.name := by
  induction instructions generalizing g with
  | nil => rfl
  | cons i rest ih => exact ih (g.addInstruction i).1

theorem kinds_addInstructions (g : Graph I) (instructions : List I) :
    (g.addInstructions instructions).1.kinds = g.kinds ++ instructions.map .instruction := by
  induction instructions generalizing g with
  | nil => simp [addInstructions]
  | cons i rest ih =>
    have added : (g.addInstruction i).1.kinds = g.kinds ++ [.instruction i] := g.kinds_perform (.instruction i)
    rw [addInstructions, ih, added, List.map_cons, List.append_assoc, List.singleton_append]

theorem addInstructions_records {g : Graph I} {arcs : List Arc} (records : g.Records arcs)
    (instructions : List I) : (g.addInstructions instructions).1.Records arcs := by
  induction instructions generalizing g with
  | nil => exact records
  | cons i rest ih => exact ih (addInstruction_records records i)

/-- Valid edges are recorded as described, in order. -/
theorem connectAll_records {g : Graph I} {arcs : List Arc} (records : g.Records arcs) {count : Nat}
    (extent : g.size = count + 2) {edges : List EdgeDescription} (valid : ∀ e ∈ edges, e.Valid count) :
    (edges.foldl connect g).Records (arcs ++ edges.map EdgeDescription.arc) := by
  induction edges generalizing g arcs with
  | nil => simpa using records
  | cons e rest ih =>
    obtain ⟨first, later⟩ := List.forall_mem_cons.mp valid
    have fromInside : g.contains e.source.node = true := by
      rw [contains_iff, extent]
      exact first.source.bound
    have toInside : g.contains e.target.node = true := by
      rw [contains_iff, extent]
      exact first.target.bound
    have linked : (g.connect e).Records (arcs ++ [e.arc]) := link_records records fromInside toInside e.label
    simpa using ih linked (by simpa using extent) later

end Graph

namespace Description

/-- The graph is exactly what the description says: its nodes, and at every node its edges, each once and in the
order of first mention. -/
structure Depicts (d : Description I) (g : Graph I) : Prop where
  name : g.name = d.name
  kinds : ∀ i, (g.node? ⟨i⟩).map Node.kind = (.start :: .finish :: d.instructions.map .instruction)[i]?
  instructions : ∀ i, g.instruction? (.ofInstruction i) = d.instructions[i]?
  edges : ∀ u v label, ⟨v, label⟩ ∈ g.successors u ↔
    ∃ e ∈ d.edges, e.source.node = u ∧ e.target.node = v ∧ e.label = label
  successors : ∀ n, g.successors n = ((d.edges.map EdgeDescription.arc).filterMap (Arc.leaving? n)).eraseDups
  predecessors : ∀ n,
    g.predecessors n = ((d.edges.map EdgeDescription.arc).filterMap (Arc.entering? n)).eraseDups
  start : g.predecessors .start = []
  finish : g.successors .finish = []

theorem toGraph_records {d : Description I} {g : Graph I} (accepted : d.toGraph = .ok g) :
    g.Records (d.edges.map EdgeDescription.arc) := by
  obtain ⟨valid, rfl⟩ := toGraph_eq_ok.mp accepted
  have blank : d.nodes.1.Records [] :=
    Graph.addInstructions_records (Graph.rename_records Graph.empty_records d.name) d.instructions
  exact Graph.connectAll_records blank d.size_nodes valid

theorem kinds_toGraph {d : Description I} {g : Graph I} (accepted : d.toGraph = .ok g) (i : Nat) :
    (g.node? ⟨i⟩).map Node.kind = (.start :: .finish :: d.instructions.map .instruction)[i]? := by
  obtain ⟨_, rfl⟩ := toGraph_eq_ok.mp accepted
  rw [Graph.kind_connectAll, ← Graph.getElem?_kinds, nodes, Graph.kinds_addInstructions]
  rfl

theorem toGraph_depicts {d : Description I} {g : Graph I} (accepted : d.toGraph = .ok g) : d.Depicts g := by
  have records := toGraph_records accepted
  have valid := (toGraph_eq_ok.mp accepted).1
  constructor
  · obtain ⟨_, rfl⟩ := toGraph_eq_ok.mp accepted
    rw [Graph.name_connectAll, nodes, Graph.name_addInstructions]
    rfl
  · exact kinds_toGraph accepted
  · intro i
    rw [Graph.instruction?_eq, NodeId.ofInstruction, kinds_toGraph accepted]
    simp [NodeKind.instruction?, Option.bind_map, Function.comp_def]
  · intro u v label
    rw [records.mem_successors]
    simp [EdgeDescription.arc]
  · exact records.successors
  · exact records.predecessors
  · apply List.eq_nil_iff_forall_not_mem.mpr
    intro x member
    obtain ⟨e, listed, same⟩ := List.mem_map.mp (records.mem_predecessors.mp member)
    exact (valid e listed).enters (Endpoint.node_eq_start.mp (congrArg Arc.target same))
  · apply List.eq_nil_iff_forall_not_mem.mpr
    intro x member
    obtain ⟨e, listed, same⟩ := List.mem_map.mp (records.mem_successors.mp member)
    exact (valid e listed).leaves (Endpoint.node_eq_finish.mp (congrArg Arc.source same))

/-- A description is accepted exactly when all of its edges are valid. The graph is then what it describes;
otherwise the fault is that of the first edge that is not valid, by the first check that it fails. -/
theorem toGraph_exact (d : Description I) :
    ((∃ g, d.toGraph = .ok g) ↔ ∀ e ∈ d.edges, e.Valid d.instructions.length) ∧
    (∀ g, d.toGraph = .ok g → d.Depicts g) ∧
    ∀ fault, d.toGraph = .error fault ↔ ∃ before e after, d.edges = before ++ e :: after ∧
      (∀ x ∈ before, x.Valid d.instructions.length) ∧
      e.Fails d.instructions.length before.length fault := by
  refine ⟨?_, fun g => toGraph_depicts, fun fault => ?_⟩
  · constructor
    · rintro ⟨g, accepted⟩
      exact (toGraph_eq_ok.mp accepted).1
    · exact fun valid => ⟨_, toGraph_eq_ok.mpr ⟨valid, rfl⟩⟩
  · rw [toGraph_eq, addEdges_eq_error d.size_nodes]
    simp only [Nat.zero_add]

/-- Two instructions with three edges between them, one of them listed twice. -/
def doubled : Description Unit where
  name := "doubled"
  instructions := [(), ()]
  edges := [⟨.start, .instruction 0, .normal⟩, ⟨.instruction 0, .instruction 1, .exceptional⟩,
    ⟨.instruction 0, .instruction 1, .normal⟩, ⟨.instruction 0, .instruction 1, .exceptional⟩,
    ⟨.instruction 1, .instruction 1, .whenTrue⟩, ⟨.instruction 1, .finish, .whenFalse⟩]

/-- The same with two more edges: one leaves the end for an instruction that does not exist, the other leaves
such an instruction for the start. -/
def misled : Description Unit :=
  { doubled with
    edges := doubled.edges ++ [⟨.finish, .instruction 2, .normal⟩, ⟨.instruction 7, .start, .normal⟩] }

/-- The first edge at fault is told by its target, because its source exists and that it leaves the end is asked
last. -/
theorem toGraph_exact_doubled :
    (∃ g, doubled.toGraph = .ok g ∧
      g.successors ⟨2⟩ = [⟨⟨3⟩, .exceptional⟩, ⟨⟨3⟩, .normal⟩] ∧ g.predecessors .start = []) ∧
    misled.toGraph = .error (.noInstruction 6 2 2) := by
  obtain ⟨accepts, depicts, _⟩ := doubled.toGraph_exact
  obtain ⟨_, _, refuses⟩ := misled.toGraph_exact
  have valid : ∀ e ∈ doubled.edges, e.Valid 2 := by decide
  obtain ⟨g, accepted⟩ := accepts.mpr valid
  have depicted := depicts g accepted
  refine ⟨⟨g, accepted, (depicted.successors ⟨2⟩).trans (by decide), depicted.start⟩, ?_⟩
  exact (refuses _).mpr ⟨doubled.edges, _, _, rfl, valid, .target trivial rfl (Nat.le_refl 2)⟩

end Description

end Dataflow
