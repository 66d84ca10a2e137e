import Dataflow.Graph.Description

/-! The arena behind a graph. Every edge stays inside the graph and is stored at both of its ends, after
any sequence of construction steps, refused ones included. A description is accepted by the same steps,
so what holds of every built graph holds of every described unit. -/

namespace Dataflow

variable {I : Type}

/-- Where the instructions of a graph stand: behind the start and the end. -/
def NodeId.ofInstruction (position : Nat) : NodeId := ⟨position + 2⟩

namespace Graph

/-- What the solver relies on: a node carries the identifier it is found under, the first two nodes are the
start and the end and the others are instructions, edges lead to nodes of the graph, and each edge can be
read off either of its ends. -/
structure WellFormed (g : Graph I) : Prop where
  ends : 2 ≤ g.size
  numbered : ∀ n d, g.node? n = some d → d.id = n
  kinds : ∀ n d, g.node? n = some d →
    (d.kind = .start ↔ n = .start) ∧ (d.kind = .finish ↔ n = .finish)
  bounded : ∀ n e, e ∈ g.successors n → g.contains e.node = true
  mirrored : ∀ u v label, ⟨v, label⟩ ∈ g.successors u ↔ ⟨u, label⟩ ∈ g.predecessors v

theorem contains_iff (g : Graph I) (n : NodeId) : g.contains n = true ↔ n.index < g.size := by
  simp [contains]

theorem contains_of_mem_successors {g : Graph I} {n : NodeId} {e : Edge} (member : e ∈ g.successors n) :
    g.contains n = true := by
  rw [contains_iff]
  refine Nat.lt_of_not_le fun outside => ?_
  have absent : g.node? n = none := Array.getElem?_eq_none outside
  simp [successors, absent] at member

@[simp] theorem size_rename (g : Graph I) (name : String) : (g.rename name).size = g.size := rfl

@[simp] theorem size_addInstruction (g : Graph I) (i : I) : (g.addInstruction i).1.size = g.size + 1 := by
  simp [size, addInstruction]

@[simp] theorem size_link (g : Graph I) (source target : NodeId) (label : Label) :
    (g.link source target label).size = g.size := by
  unfold link
  split
  · rfl
  · simp [size]

@[simp] theorem successors_addInstruction (g : Graph I) (i : I) (n : NodeId) :
    (g.addInstruction i).1.successors n = g.successors n := by
  simp only [successors, node?, addInstruction, Array.getElem?_push]
  split
  · simp_all
  · rfl

@[simp] theorem predecessors_addInstruction (g : Graph I) (i : I) (n : NodeId) :
    (g.addInstruction i).1.predecessors n = g.predecessors n := by
  simp only [predecessors, node?, addInstruction, Array.getElem?_push]
  split
  · simp_all
  · rfl

/-- A new edge is seen from its two ends and from no other node. -/
theorem node?_link {g : Graph I} {source target : NodeId} {label : Label}
    (fresh : ⟨target, label⟩ ∉ g.successors source) (n : NodeId) :
    (g.link source target label).node? n = (g.node? n).map fun d =>
      { d with
        successors := if n = source then d.successors ++ [⟨target, label⟩] else d.successors
        predecessors := if n = target then d.predecessors ++ [⟨source, label⟩] else d.predecessors } := by
  have index (m : NodeId) : m.index = n.index ↔ n = m := by
    constructor
    · intro same
      cases n; cases m
      simpa using same.symm
    · rintro rfl; rfl
  rw [link, if_neg fresh]
  simp only [node?, Array.getElem?_modify, index]
  cases g.nodes[n.index]? with
  | none => simp
  | some d => split <;> split <;> simp

theorem mem_successors_link {g : Graph I} {source : NodeId} (inside : g.contains source = true)
    (target : NodeId) (label : Label) (n : NodeId) (e : Edge) :
    e ∈ (g.link source target label).successors n ↔
      n = source ∧ e = ⟨target, label⟩ ∨ e ∈ g.successors n := by
  by_cases fresh : ⟨target, label⟩ ∈ g.successors source
  · rw [link, if_pos fresh]
    grind
  · rw [contains_iff] at inside
    by_cases here : n = source
    · have present : g.node? source = some g.nodes[source.index] := Array.getElem?_eq_getElem inside
      simp [successors, node?_link fresh, here, present, or_comm]
    · simp [successors, node?_link fresh, here, Function.comp_def]

theorem mem_predecessors_link {g : Graph I} (wellFormed : g.WellFormed) (source : NodeId)
    {target : NodeId} (inside : g.contains target = true) (label : Label) (n : NodeId) (e : Edge) :
    e ∈ (g.link source target label).predecessors n ↔
      n = target ∧ e = ⟨source, label⟩ ∨ e ∈ g.predecessors n := by
  by_cases fresh : ⟨target, label⟩ ∈ g.successors source
  · have stored := (wellFormed.mirrored _ _ _).mp fresh
    rw [link, if_pos fresh]
    grind
  · rw [contains_iff] at inside
    by_cases here : n = target
    · have present : g.node? target = some g.nodes[target.index] := Array.getElem?_eq_getElem inside
      simp [predecessors, node?_link fresh, here, present, or_comm]
    · simp [predecessors, node?_link fresh, here, Function.comp_def]

theorem empty_wellFormed : (empty : Graph I).WellFormed := by
  have numbered (n : NodeId) (d : Node I) (present : empty.node? n = some d) : d.id = n := by
    obtain ⟨_ | _ | i⟩ := n
    · cases present; rfl
    · cases present; rfl
    · simp [empty, node?] at present
  have kinds (n : NodeId) (d : Node I) (present : empty.node? n = some d) :
      (d.kind = .start ↔ n = .start) ∧ (d.kind = .finish ↔ n = .finish) := by
    obtain ⟨_ | _ | i⟩ := n
    · cases present; simp [empty, NodeId.start, NodeId.finish]
    · cases present; simp [empty, NodeId.start, NodeId.finish]
    · simp [empty, node?] at present
  have alone (n : NodeId) : (empty : Graph I).successors n = [] ∧ (empty : Graph I).predecessors n = [] := by
    obtain ⟨_ | _ | i⟩ := n <;> simp [empty, successors, predecessors, node?]
  refine ⟨by simp [size, empty], numbered, kinds, ?_, ?_⟩
  · intro n e member
    simp [(alone n).1] at member
  · intro u v label
    simp [(alone u).1, (alone v).2]

theorem rename_wellFormed {g : Graph I} (wellFormed : g.WellFormed) (name : String) :
    (g.rename name).WellFormed :=
  ⟨wellFormed.ends, wellFormed.numbered, wellFormed.kinds, wellFormed.bounded, wellFormed.mirrored⟩

theorem addInstruction_wellFormed {g : Graph I} (wellFormed : g.WellFormed) (i : I) :
    (g.addInstruction i).1.WellFormed := by
  have ends := wellFormed.ends
  constructor
  · simp; omega
  · intro n d present
    simp only [node?, addInstruction, Array.getElem?_push] at present
    split at present
    · rename_i last
      cases present
      cases n
      exact congrArg NodeId.mk last.symm
    · exact wellFormed.numbered n d present
  · intro n d present
    simp only [node?, addInstruction, Array.getElem?_push] at present
    split at present
    · rename_i last
      cases present
      have start : n ≠ .start := by rintro rfl; simp [NodeId.start, size] at last ends; omega
      have finish : n ≠ .finish := by rintro rfl; simp [NodeId.finish, size] at last ends; omega
      simp [start, finish]
    · exact wellFormed.kinds n d present
  · intro n e member
    rw [successors_addInstruction] at member
    have bound := wellFormed.bounded n e member
    rw [contains_iff] at bound ⊢
    simp; omega
  · intro u v label
    rw [successors_addInstruction, predecessors_addInstruction]
    exact wellFormed.mirrored u v label

theorem link_wellFormed {g : Graph I} (wellFormed : g.WellFormed) {source target : NodeId}
    (fromInside : g.contains source = true) (toInside : g.contains target = true) (label : Label) :
    (g.link source target label).WellFormed := by
  have extent (m : NodeId) : (g.link source target label).contains m = g.contains m := by
    simp [contains]
  have old (n : NodeId) (d : Node I) (present : (g.link source target label).node? n = some d) :
      ∃ before, g.node? n = some before ∧ d.id = before.id ∧ d.kind = before.kind := by
    by_cases fresh : ⟨target, label⟩ ∈ g.successors source
    · rw [link, if_pos fresh] at present
      exact ⟨d, present, rfl, rfl⟩
    · rw [node?_link fresh] at present
      obtain ⟨before, stored, rfl⟩ := Option.map_eq_some_iff.mp present
      exact ⟨before, stored, rfl, rfl⟩
  constructor
  · simpa using wellFormed.ends
  · intro n d present
    obtain ⟨before, stored, id, _⟩ := old n d present
    exact id.trans (wellFormed.numbered n before stored)
  · intro n d present
    obtain ⟨before, stored, _, kind⟩ := old n d present
    rw [kind]
    exact wellFormed.kinds n before stored
  · intro n e member
    rw [extent]
    rcases (mem_successors_link fromInside target label n e).mp member with ⟨_, rfl⟩ | old
    · exact toInside
    · exact wellFormed.bounded n e old
  · intro u v other
    rw [mem_successors_link fromInside, mem_predecessors_link wellFormed source toInside,
      wellFormed.mirrored u v other]
    simp only [Edge.mk.injEq]
    grind

theorem addEdge_wellFormed {g next : Graph I} (wellFormed : g.WellFormed) {source target : NodeId}
    {label : Label} (added : g.addEdge source target label = .ok next) : next.WellFormed := by
  unfold addEdge at added
  split at added
  · rename_i inside
    simp only [Bool.and_eq_true] at inside
    cases added
    exact link_wellFormed wellFormed inside.1 inside.2 label
  · contradiction

/-- A refused path keeps the edges before the refusal, and they are well formed too. -/
theorem addPath_wellFormed {g : Graph I} (wellFormed : g.WellFormed) (path : List (NodeId × NodeId)) :
    (g.addPath path).1.WellFormed := by
  induction path generalizing g with
  | nil => exact wellFormed
  | cons edge rest ih =>
    obtain ⟨source, target⟩ := edge
    unfold addPath
    split
    · rename_i next added
      exact ih (addEdge_wellFormed wellFormed added)
    · exact wellFormed

theorem perform_wellFormed {g : Graph I} (wellFormed : g.WellFormed) (step : BuildStep I) :
    (g.perform step).1.WellFormed := by
  cases step with
  | rename name => exact rename_wellFormed wellFormed name
  | instruction i => exact addInstruction_wellFormed wellFormed i
  | edge source target label =>
    simp only [perform]
    split
    · rename_i next added
      exact addEdge_wellFormed wellFormed added
    · exact wellFormed
  | sequence nodes =>
    have path := addPath_wellFormed wellFormed ((NodeId.start :: nodes).zip (nodes ++ [NodeId.finish]))
    simp only [perform, addSequence]
    split <;> simp_all

theorem performAll_wellFormed {g : Graph I} (wellFormed : g.WellFormed) (steps : List (BuildStep I)) :
    (g.performAll steps).1.WellFormed := by
  induction steps generalizing g with
  | nil => exact wellFormed
  | cons step rest ih => exact ih (perform_wellFormed wellFormed step)

/-- The graphs that construction steps can make. -/
def Built (g : Graph I) : Prop := ∃ steps, build steps = g

theorem Built.wellFormed {g : Graph I} (built : g.Built) : g.WellFormed := by
  obtain ⟨steps, rfl⟩ := built
  exact performAll_wellFormed empty_wellFormed steps

theorem flow_mirrored {g : Graph I} (wellFormed : g.WellFormed) (direction : Direction) (u v : NodeId)
    (label : Label) :
    ⟨v, label⟩ ∈ g.flowSuccessors direction u ↔ ⟨u, label⟩ ∈ g.flowPredecessors direction v := by
  cases direction with
  | forward => exact wellFormed.mirrored u v label
  | backward => exact (wellFormed.mirrored v u label).symm

theorem flow_bounded {g : Graph I} (wellFormed : g.WellFormed) {direction : Direction} {n : NodeId}
    {e : Edge} (member : e ∈ g.flowSuccessors direction n) : g.contains e.node = true := by
  cases direction with
  | forward => exact wellFormed.bounded n e member
  | backward => exact contains_of_mem_successors ((wellFormed.mirrored e.node n e.label).mpr member)

theorem contains_root {g : Graph I} (wellFormed : g.WellFormed) (direction : Direction) :
    g.contains direction.root = true := by
  have := wellFormed.ends
  rw [contains_iff]
  cases direction <;> simp [Direction.root, NodeId.start, NodeId.finish] <;> omega

theorem mem_labels {g : Graph I} {direction : Direction} {n m : NodeId} {label : Label}
    (edge : ⟨m, label⟩ ∈ g.flowSuccessors direction n) : label ∈ g.labels direction n :=
  List.mem_eraseDups.mpr (List.mem_map.mpr ⟨⟨m, label⟩, edge, rfl⟩)

theorem instruction?_eq (g : Graph I) (n : NodeId) :
    g.instruction? n = ((g.node? n).map Node.kind).bind NodeKind.instruction? := by
  rw [instruction?, Option.bind_map]
  rfl

theorem instruction?_eq_none {g : Graph I} (wellFormed : g.WellFormed) {n : NodeId}
    (inside : g.contains n = true) : g.instruction? n = none ↔ n = .start ∨ n = .finish := by
  rw [contains_iff] at inside
  have present : g.node? n = some g.nodes[n.index] := Array.getElem?_eq_getElem inside
  obtain ⟨start, finish⟩ := wellFormed.kinds n _ present
  rw [← start, ← finish]
  cases kind : g.nodes[n.index].kind <;> simp [instruction?, present, kind, NodeKind.instruction?]

theorem performAll_append (g : Graph I) (first second : List (BuildStep I)) :
    (g.performAll (first ++ second)).1 = ((g.performAll first).1.performAll second).1 := by
  induction first generalizing g with
  | nil => rfl
  | cons step rest ih => exact ih (g.perform step).1

theorem Built.perform {g : Graph I} (built : g.Built) (step : BuildStep I) : (g.perform step).1.Built := by
  obtain ⟨steps, rfl⟩ := built
  exact ⟨steps ++ [step], performAll_append empty steps [step]⟩

theorem Built.addInstructions {g : Graph I} (built : g.Built) (instructions : List I) :
    (g.addInstructions instructions).1.Built := by
  induction instructions generalizing g with
  | nil => exact built
  | cons i rest ih => exact ih (built.perform (.instruction i))

theorem size_addInstructions (g : Graph I) (instructions : List I) :
    (g.addInstructions instructions).1.size = g.size + instructions.length := by
  induction instructions generalizing g with
  | nil => rfl
  | cons i rest ih =>
    rw [addInstructions, ih, size_addInstruction, List.length_cons]
    omega

/-- Instructions are told the identifiers that follow, one after the other. -/
theorem ids_addInstructions (g : Graph I) (instructions : List I) :
    (g.addInstructions instructions).2 = (List.range' g.size instructions.length).map NodeId.mk := by
  induction instructions generalizing g with
  | nil => rfl
  | cons i rest ih =>
    have later := ih (g.addInstruction i).1
    rw [size_addInstruction] at later
    rw [List.length_cons, List.range'_succ, List.map_cons, ← later]
    rfl

/-- The nodes carry their own positions. -/
theorem ids_eq {g : Graph I} (wellFormed : g.WellFormed) : g.ids = (List.range g.size).map NodeId.mk := by
  apply List.ext_getElem?
  intro i
  rw [ids, List.getElem?_map, Array.getElem?_toList, List.getElem?_map]
  by_cases inside : i < g.size
  · have present : g.node? ⟨i⟩ = some g.nodes[i] := Array.getElem?_eq_getElem inside
    rw [List.getElem?_range inside, Array.getElem?_eq_getElem inside]
    exact congrArg some (wellFormed.numbered ⟨i⟩ _ present)
  · rw [List.getElem?_eq_none (by simpa using inside), Array.getElem?_eq_none (by simpa [size] using inside)]
    rfl

end Graph

namespace Endpoint

/-- The node that an endpoint stands for. -/
def node : Endpoint → NodeId
  | .start => .start
  | .finish => .finish
  | .instruction position => .ofInstruction position

/-- Whether a description with so many instructions has the endpoint. -/
def Within (count : Nat) : Endpoint → Prop
  | .start | .finish => True
  | .instruction position => position < count

/-- Where the instructions of a description stand. -/
def places (count : Nat) : List NodeId := (List.range count).map NodeId.ofInstruction

@[simp] theorem length_places (count : Nat) : (places count).length = count := by
  simp [places]

theorem resolve_eq_ok {e : Endpoint} {count edge : Nat} {n : NodeId} :
    e.resolve (places count) edge = .ok n ↔ e.Within count ∧ n = e.node := by
  cases e with
  | start | finish => simp [resolve, Within, node, eq_comm]
  | instruction position =>
    by_cases bound : position < count
    · simp [resolve, places, Within, node, bound, eq_comm]
    · simp [resolve, places, Within, bound]

theorem node_eq_start {e : Endpoint} : e.node = .start ↔ e = .start := by
  cases e <;> simp [node, NodeId.start, NodeId.finish, NodeId.ofInstruction]

theorem node_eq_finish {e : Endpoint} : e.node = .finish ↔ e = .finish := by
  cases e <;> simp [node, NodeId.start, NodeId.finish, NodeId.ofInstruction]

theorem Within.bound {e : Endpoint} {count : Nat} (within : e.Within count) : e.node.index < count + 2 := by
  cases e with
  | start => simp [node, NodeId.start]
  | finish => simp [node, NodeId.finish]
  | instruction position => exact Nat.add_lt_add_right within 2

end Endpoint

namespace Description

theorem size_nodes (d : Description I) : d.nodes.1.size = d.instructions.length + 2 := by
  rw [nodes, Graph.size_addInstructions, Graph.size_rename]
  simp [Graph.size, Graph.empty]
  omega

/-- The identifiers that the instructions are told are their places. -/
theorem ids_nodes (d : Description I) : d.nodes.2 = Endpoint.places d.instructions.length := by
  rw [nodes, Graph.ids_addInstructions, Endpoint.places, List.range'_eq_map_range, List.map_map]
  apply List.map_congr_left
  intro i _
  exact congrArg NodeId.mk (Nat.add_comm 2 i)

theorem addEdge_ok {ids : List NodeId} {edge : Nat} {g next : Graph I} {e : EdgeDescription}
    (added : addEdge ids edge g e = .ok next) :
    ∃ source target, e.source.resolve ids edge = .ok source ∧ e.target.resolve ids edge = .ok target ∧
      target ≠ .start ∧ source ≠ .finish ∧ g.addEdge source target e.label = .ok next := by
  unfold addEdge at added
  cases resolvedSource : e.source.resolve ids edge with
  | error fault => simp [resolvedSource, bind, Except.bind] at added
  | ok source =>
    cases resolvedTarget : e.target.resolve ids edge with
    | error fault => simp [resolvedSource, resolvedTarget, bind, Except.bind] at added
    | ok target =>
      simp only [resolvedSource, resolvedTarget, bind, Except.bind] at added
      split at added
      · contradiction
      · rename_i enters
        split at added
        · contradiction
        · rename_i leaves
          refine ⟨source, target, rfl, rfl, enters, leaves, ?_⟩
          cases stored : g.addEdge source target e.label with
          | ok final =>
            rw [stored] at added
            cases added
            rfl
          | error fault =>
            rw [stored] at added
            cases added

theorem addEdges_built {ids : List NodeId} {edge : Nat} {g final : Graph I} {edges : List EdgeDescription}
    (built : g.Built) (added : addEdges ids edge g edges = .ok final) : final.Built := by
  induction edges generalizing g edge with
  | nil =>
    cases added
    exact built
  | cons e rest ih =>
    unfold addEdges at added
    split at added
    · rename_i next accepted
      obtain ⟨source, target, _, _, _, _, stored⟩ := addEdge_ok accepted
      have performed := built.perform (.edge source target e.label)
      simp only [Graph.perform, stored] at performed
      exact ih performed added
    · contradiction

/-- Every accepted description is the outcome of construction steps. -/
theorem toGraph_built {d : Description I} {g : Graph I} (accepted : d.toGraph = .ok g) : g.Built := by
  have blank : (Graph.empty.rename d.name : Graph I).Built := ⟨[.rename d.name], rfl⟩
  exact addEdges_built (blank.addInstructions d.instructions) accepted

end Description

end Dataflow
