import Dataflow.Proofs.Arena

/-! What a description describes. A description is accepted exactly when every one of its edges is valid,
and the graph then has the described instructions at its nodes and the described edges between them. In
what order the edges stand in the graph is not said here. -/

namespace Dataflow

variable {I : Type}

namespace EdgeDescription

/-- An edge between endpoints that exist, neither into the start nor out of the end. -/
structure Valid (count : Nat) (e : EdgeDescription) : Prop where
  source : e.source.Within count
  target : e.target.Within count
  enters : e.target ≠ .start
  leaves : e.source ≠ .finish

end EdgeDescription

namespace Graph

/-- The graph with a described edge. -/
def connect (g : Graph I) (e : EdgeDescription) : Graph I := g.link e.source.node e.target.node e.label

@[simp] theorem size_connect (g : Graph I) (e : EdgeDescription) : (g.connect e).size = g.size := by
  simp [connect]

/-- What a node is does not depend on the edges at it. -/
theorem kind_link (g : Graph I) (source target : NodeId) (label : Label) (n : NodeId) :
    ((g.link source target label).node? n).map Node.kind = (g.node? n).map Node.kind := by
  by_cases present : ⟨target, label⟩ ∈ g.successors source
  · rw [link, if_pos present]
  · rw [node?_link present, Option.map_map]
    rfl

theorem size_connectAll (g : Graph I) (edges : List EdgeDescription) :
    (edges.foldl connect g).size = g.size := by
  induction edges generalizing g with
  | nil => rfl
  | cons e rest ih => rw [List.foldl_cons, ih, size_connect]

theorem kind_connectAll (g : Graph I) (edges : List EdgeDescription) (n : NodeId) :
    ((edges.foldl connect g).node? n).map Node.kind = (g.node? n).map Node.kind := by
  induction edges generalizing g with
  | nil => rfl
  | cons e rest ih => rw [List.foldl_cons, ih, connect, kind_link]

theorem mem_successors_connectAll {g : Graph I} {count : Nat} (extent : g.size = count + 2)
    {edges : List EdgeDescription} (valid : ∀ e ∈ edges, e.Valid count) (n : NodeId) (x : Edge) :
    x ∈ (edges.foldl connect g).successors n ↔
      (∃ e ∈ edges, e.source.node = n ∧ x = ⟨e.target.node, e.label⟩) ∨ x ∈ g.successors n := by
  induction edges generalizing g with
  | nil => simp
  | cons e rest ih =>
    have inside : g.contains e.source.node = true := by
      rw [contains_iff, extent]
      exact (valid e List.mem_cons_self).source.bound
    rw [List.foldl_cons, ih (by simpa using extent) fun e member => valid e (List.mem_cons_of_mem _ member),
      connect, mem_successors_link inside]
    simp only [List.mem_cons, exists_eq_or_imp, eq_comm (a := n)]
    exact or_assoc.symm.trans (or_congr_left or_comm)

end Graph

namespace Description

theorem addEdge_of_valid {count : Nat} {e : EdgeDescription} (valid : e.Valid count) (edge : Nat)
    {g : Graph I} (extent : g.size = count + 2) :
    addEdge (Endpoint.places count) edge g e = .ok (g.connect e) := by
  have source : e.source.resolve (Endpoint.places count) edge = .ok e.source.node :=
    Endpoint.resolve_eq_ok.mpr ⟨valid.source, rfl⟩
  have target : e.target.resolve (Endpoint.places count) edge = .ok e.target.node :=
    Endpoint.resolve_eq_ok.mpr ⟨valid.target, rfl⟩
  have stored : g.addEdge e.source.node e.target.node e.label = .ok (g.connect e) := by
    simp [Graph.addEdge, Graph.contains, extent, valid.source.bound, valid.target.bound, Graph.connect]
  simp only [addEdge, source, target, stored, bind, Except.bind, Endpoint.node_eq_start, valid.enters,
    Endpoint.node_eq_finish, valid.leaves, if_false]
  rfl

theorem valid_of_addEdge {count edge : Nat} {g next : Graph I} {e : EdgeDescription}
    (added : addEdge (Endpoint.places count) edge g e = .ok next) : e.Valid count := by
  obtain ⟨source, target, fromSource, toTarget, enters, leaves, _⟩ := addEdge_ok added
  obtain ⟨sourceWithin, rfl⟩ := Endpoint.resolve_eq_ok.mp fromSource
  obtain ⟨targetWithin, rfl⟩ := Endpoint.resolve_eq_ok.mp toTarget
  exact ⟨sourceWithin, targetWithin, mt Endpoint.node_eq_start.mpr enters, mt Endpoint.node_eq_finish.mpr leaves⟩

theorem addEdges_eq_ok {count edge : Nat} {g final : Graph I} {edges : List EdgeDescription}
    (extent : g.size = count + 2) :
    addEdges (Endpoint.places count) edge g edges = .ok final ↔
      (∀ e ∈ edges, e.Valid count) ∧ final = edges.foldl Graph.connect g := by
  induction edges generalizing g edge with
  | nil => simp [addEdges, eq_comm]
  | cons e rest ih =>
    rw [List.forall_mem_cons, List.foldl_cons]
    cases added : addEdge (Endpoint.places count) edge g e with
    | ok next =>
      have valid := valid_of_addEdge added
      cases (addEdge_of_valid valid edge extent).symm.trans added
      have kept : (g.connect e).size = count + 2 := by simpa using extent
      simp only [addEdges, added, ih kept, valid, true_and]
    | error fault =>
      have invalid : ¬e.Valid count := fun valid => by
        cases (addEdge_of_valid valid edge extent).symm.trans added
      simp [addEdges, added, invalid]

theorem toGraph_eq (d : Description I) :
    d.toGraph = addEdges (Endpoint.places d.instructions.length) 0 d.nodes.1 d.edges := by
  rw [← d.ids_nodes]
  rfl

/-- A description is accepted exactly when all its edges are valid; its graph is then the instructions
with the edges connected one after the other. -/
theorem toGraph_eq_ok {d : Description I} {g : Graph I} :
    d.toGraph = .ok g ↔
      (∀ e ∈ d.edges, e.Valid d.instructions.length) ∧ g = d.edges.foldl Graph.connect d.nodes.1 := by
  rw [toGraph_eq]
  exact addEdges_eq_ok d.size_nodes

theorem successors_nodes (d : Description I) (n : NodeId) : d.nodes.1.successors n = [] := by
  have blank : (Graph.empty.rename d.name : Graph I).successors n = [] := by
    obtain ⟨_ | _ | i⟩ := n <;> simp [Graph.empty, Graph.rename, Graph.successors, Graph.node?]
  rw [nodes]
  generalize (Graph.empty.rename d.name : Graph I) = g at blank
  induction d.instructions generalizing g with
  | nil => exact blank
  | cons i rest ih => exact ih (g.addInstruction i).1 (by rwa [Graph.successors_addInstruction])

/-- The edges of the graph are the described ones. -/
theorem mem_successors {d : Description I} {g : Graph I} (accepted : d.toGraph = .ok g) (n : NodeId)
    (x : Edge) :
    x ∈ g.successors n ↔ ∃ e ∈ d.edges, e.source.node = n ∧ x = ⟨e.target.node, e.label⟩ := by
  obtain ⟨valid, rfl⟩ := toGraph_eq_ok.mp accepted
  rw [Graph.mem_successors_connectAll d.size_nodes valid, successors_nodes]
  simp

end Description

end Dataflow
