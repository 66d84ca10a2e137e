import Dataflow.OrderedMap
import Dataflow.Proofs.Descriptions

/-! What construction steps leave behind, read off the steps alone. The history of a graph is the list of the
edges that were successfully inserted, repetitions included; every adjacency list is the part of the history
that concerns its node, each edge at its first insertion. Whether an edge is new is decided at its source, and
the history makes sure that its target would decide the same. -/

namespace Dataflow

variable {I : Type}

/-- A labelled edge with both of its ends. -/
structure Arc where
  source : NodeId
  target : NodeId
  label : Label
  deriving DecidableEq, Repr

namespace Arc

/-- The edge as seen from `n`, if it leaves `n`. -/
def leaving? (n : NodeId) (arc : Arc) : Option Edge :=
  if arc.source = n then some ⟨arc.target, arc.label⟩ else none

/-- The edge as seen from `n`, if it enters `n`. -/
def entering? (n : NodeId) (arc : Arc) : Option Edge :=
  if arc.target = n then some ⟨arc.source, arc.label⟩ else none

/-- Whether a graph of so many nodes has both ends. -/
def inside (count : Nat) (arc : Arc) : Bool :=
  decide (arc.source.index < count) && decide (arc.target.index < count)

theorem leaving?_eq_some {n : NodeId} {arc : Arc} {e : Edge} :
    arc.leaving? n = some e ↔ arc = ⟨n, e.node, e.label⟩ := by
  obtain ⟨source, target, label⟩ := arc
  obtain ⟨m, other⟩ := e
  simp [leaving?]

theorem entering?_eq_some {n : NodeId} {arc : Arc} {e : Edge} :
    arc.entering? n = some e ↔ arc = ⟨e.node, n, e.label⟩ := by
  obtain ⟨source, target, label⟩ := arc
  obtain ⟨m, other⟩ := e
  simp only [entering?, Option.ite_none_right_eq_some, Option.some.injEq, Edge.mk.injEq, mk.injEq]
  grind

/-- From one node, two edges never look the same. -/
theorem leaving?_faithful (n : NodeId) (x y : Arc) (e : Edge) (first : x.leaving? n = some e)
    (second : y.leaving? n = some e) : x = y :=
  (leaving?_eq_some.mp first).trans (leaving?_eq_some.mp second).symm

theorem entering?_faithful (n : NodeId) (x y : Arc) (e : Edge) (first : x.entering? n = some e)
    (second : y.entering? n = some e) : x = y :=
  (entering?_eq_some.mp first).trans (entering?_eq_some.mp second).symm

/-- An edge is among those that leave its source exactly when it was inserted. -/
theorem mem_leaving {arcs : List Arc} {n : NodeId} {e : Edge} :
    e ∈ arcs.filterMap (leaving? n) ↔ ⟨n, e.node, e.label⟩ ∈ arcs := by
  simp only [List.mem_filterMap, leaving?_eq_some, exists_eq_right]

/-- An edge is among those that enter its target exactly when it was inserted. -/
theorem mem_entering {arcs : List Arc} {n : NodeId} {e : Edge} :
    e ∈ arcs.filterMap (entering? n) ↔ ⟨e.node, n, e.label⟩ ∈ arcs := by
  simp only [List.mem_filterMap, entering?_eq_some, exists_eq_right]

end Arc

/-- What is seen of a list with one more element, each thing once: nothing new if the element is a repetition,
and otherwise what is seen of it comes last. -/
theorem eraseDups_filterMap_concat {β γ : Type} [DecidableEq β] [DecidableEq γ] {f : β → Option γ}
    (faithful : ∀ x y e, f x = some e → f y = some e → x = y) (l : List β) (x : β) :
    ((l ++ [x]).filterMap f).eraseDups =
      if x ∈ l then (l.filterMap f).eraseDups else (l.filterMap f).eraseDups ++ (f x).toList := by
  rw [List.filterMap_append, List.eraseDups_append]
  cases seen : f x with
  | none => simp [seen]
  | some e =>
    have repeated : e ∈ l.filterMap f ↔ x ∈ l := by
      rw [List.mem_filterMap]
      constructor
      · rintro ⟨y, member, same⟩
        exact faithful x y e seen same ▸ member
      · exact fun member => ⟨x, member, seen⟩
    have once : [e].eraseDups = [e] := by simp [List.eraseDups_cons]
    rw [List.filterMap_cons_some seen, List.filterMap_nil, List.cons_removeAll, List.nil_removeAll]
    by_cases known : x ∈ l
    · simp only [List.contains_eq_mem, repeated, known]
      simp
    · simp only [List.contains_eq_mem, repeated, known]
      simp [once]

namespace BuildStep

def instruction? : BuildStep I → Option I
  | .instruction i => some i
  | .rename _ | .edge _ _ _ | .sequence _ => none

/-- The edges that a step asks for, in order. -/
def requested : BuildStep I → List Arc
  | .rename _ | .instruction _ => []
  | .edge source target label => [⟨source, target, label⟩]
  | .sequence nodes =>
    ((NodeId.start :: nodes).zip (nodes ++ [NodeId.finish])).map fun e => ⟨e.1, e.2, .normal⟩

/-- The edges that a step inserts into a graph of so many nodes: all before the first with an end outside. -/
def inserted (count : Nat) (step : BuildStep I) : List Arc := step.requested.takeWhile (Arc.inside count)

end BuildStep

/-- The edges that steps insert one after the other, from a graph of so many nodes on. -/
def insertions (count : Nat) : List (BuildStep I) → List Arc
  | [] => []
  | step :: rest => step.inserted count ++ insertions (count + step.instruction?.toList.length) rest

def BuildAnswer.node? : BuildAnswer → Option NodeId
  | .added n => some n
  | .done | .refused _ => none

namespace Graph

/-- The adjacency lists are the history of the graph, told node by node. -/
structure Records (g : Graph I) (arcs : List Arc) : Prop where
  successors : ∀ n, g.successors n = (arcs.filterMap (Arc.leaving? n)).eraseDups
  predecessors : ∀ n, g.predecessors n = (arcs.filterMap (Arc.entering? n)).eraseDups

theorem empty_records : (empty : Graph I).Records [] := by
  constructor <;> rintro ⟨_ | _ | i⟩ <;> simp [empty, successors, predecessors, node?]

theorem rename_records {g : Graph I} {arcs : List Arc} (records : g.Records arcs) (name : String) :
    (g.rename name).Records arcs :=
  ⟨records.successors, records.predecessors⟩

theorem addInstruction_records {g : Graph I} {arcs : List Arc} (records : g.Records arcs) (i : I) :
    (g.addInstruction i).1.Records arcs where
  successors n := by rw [successors_addInstruction, records.successors]
  predecessors n := by rw [predecessors_addInstruction, records.predecessors]

/-- A new edge is appended to what its source sees, and nothing else changes among the successors. -/
theorem successors_link {g : Graph I} {source : NodeId} (inside : g.contains source = true) (target : NodeId)
    (label : Label) (n : NodeId) :
    (g.link source target label).successors n =
      if ⟨target, label⟩ ∈ g.successors source then g.successors n
      else g.successors n ++ (Arc.leaving? n ⟨source, target, label⟩).toList := by
  by_cases known : ⟨target, label⟩ ∈ g.successors source
  · rw [link, if_pos known, if_pos known]
  · rw [contains_iff] at inside
    rw [if_neg known, successors, node?_link known]
    by_cases here : n = source
    · subst here
      have present : g.node? n = some g.nodes[n.index] := Array.getElem?_eq_getElem inside
      simp [successors, present, Arc.leaving?]
    · simp [successors, here, Ne.symm here, Function.comp_def, Arc.leaving?]

theorem predecessors_link {g : Graph I} (source : NodeId) {target : NodeId}
    (inside : g.contains target = true) (label : Label) (n : NodeId) :
    (g.link source target label).predecessors n =
      if ⟨target, label⟩ ∈ g.successors source then g.predecessors n
      else g.predecessors n ++ (Arc.entering? n ⟨source, target, label⟩).toList := by
  by_cases known : ⟨target, label⟩ ∈ g.successors source
  · rw [link, if_pos known, if_pos known]
  · rw [contains_iff] at inside
    rw [if_neg known, predecessors, node?_link known]
    by_cases here : n = target
    · subst here
      have present : g.node? n = some g.nodes[n.index] := Array.getElem?_eq_getElem inside
      simp [predecessors, present, Arc.entering?]
    · simp [predecessors, here, Ne.symm here, Function.comp_def, Arc.entering?]

/-- An edge is found at its source exactly when it was inserted before. -/
theorem Records.mem_successors {g : Graph I} {arcs : List Arc} (records : g.Records arcs) {n : NodeId}
    {e : Edge} : e ∈ g.successors n ↔ ⟨n, e.node, e.label⟩ ∈ arcs := by
  rw [records.successors, List.mem_eraseDups, Arc.mem_leaving]

theorem Records.mem_predecessors {g : Graph I} {arcs : List Arc} (records : g.Records arcs) {n : NodeId}
    {e : Edge} : e ∈ g.predecessors n ↔ ⟨e.node, n, e.label⟩ ∈ arcs := by
  rw [records.predecessors, List.mem_eraseDups, Arc.mem_entering]

/-- One insertion more. Whether the edge is a repetition is asked at its source; the target has to append it in
the same case, and does, because both of them tell the same history. -/
theorem link_records {g : Graph I} {arcs : List Arc} (records : g.Records arcs) {source target : NodeId}
    (fromInside : g.contains source = true) (toInside : g.contains target = true) (label : Label) :
    (g.link source target label).Records (arcs ++ [⟨source, target, label⟩]) := by
  have repeated : ⟨target, label⟩ ∈ g.successors source ↔ ⟨source, target, label⟩ ∈ arcs :=
    records.mem_successors
  constructor
  · intro n
    rw [successors_link fromInside, eraseDups_filterMap_concat (Arc.leaving?_faithful n), ← records.successors]
    simp only [repeated]
  · intro n
    rw [predecessors_link source toInside, eraseDups_filterMap_concat (Arc.entering?_faithful n),
      ← records.predecessors]
    simp only [repeated]

theorem addEdge_eq (g : Graph I) (source target : NodeId) (label : Label) :
    g.addEdge source target label =
      if (Arc.mk source target label).inside g.size = true then .ok (g.link source target label)
      else .error ⟨source, target⟩ := rfl

theorem addPath_records {g : Graph I} {arcs : List Arc} (records : g.Records arcs)
    (path : List (NodeId × NodeId)) :
    (g.addPath path).1.Records
      (arcs ++ (path.map fun e => ⟨e.1, e.2, .normal⟩).takeWhile (Arc.inside g.size)) := by
  induction path generalizing g arcs with
  | nil => simpa [addPath] using records
  | cons e rest ih =>
    obtain ⟨source, target⟩ := e
    rw [List.map_cons, List.takeWhile_cons, addPath, addEdge_eq]
    by_cases inside : (Arc.mk source target .normal).inside g.size = true
    · obtain ⟨fromInside, toInside⟩ := Bool.and_eq_true_iff.mp inside
      have later := ih (link_records records fromInside toInside .normal)
      rw [size_link, List.append_assoc] at later
      rw [if_pos inside, if_pos inside]
      exact later
    · rw [if_neg inside, if_neg inside, List.append_nil]
      exact records

/-- A step records the edges that it inserts, also where it is refused later on. -/
theorem perform_records {g : Graph I} {arcs : List Arc} (records : g.Records arcs) (step : BuildStep I) :
    (g.perform step).1.Records (arcs ++ step.inserted g.size) := by
  cases step with
  | rename name => simpa [perform, BuildStep.inserted, BuildStep.requested] using rename_records records name
  | instruction i =>
    simpa [perform, BuildStep.inserted, BuildStep.requested] using addInstruction_records records i
  | edge source target label =>
    rw [BuildStep.inserted, BuildStep.requested, List.takeWhile_cons, perform, addEdge_eq]
    by_cases inside : (Arc.mk source target label).inside g.size = true
    · obtain ⟨fromInside, toInside⟩ := Bool.and_eq_true_iff.mp inside
      rw [if_pos inside, if_pos inside]
      exact link_records records fromInside toInside label
    · rw [if_neg inside, if_neg inside, List.append_nil]
      exact records
  | sequence nodes =>
    have path := addPath_records records ((NodeId.start :: nodes).zip (nodes ++ [NodeId.finish]))
    rw [perform, addSequence]
    split <;> simp_all [BuildStep.inserted, BuildStep.requested]

/-- What the nodes are, in the order of their identifiers. -/
def kinds (g : Graph I) : List (NodeKind I) := g.nodes.toList.map Node.kind

theorem getElem?_kinds (g : Graph I) (i : Nat) : g.kinds[i]? = (g.node? ⟨i⟩).map Node.kind := by
  simp [kinds, node?]

theorem length_kinds (g : Graph I) : g.kinds.length = g.size := by
  simp [kinds, size]

@[simp] theorem kinds_link (g : Graph I) (source target : NodeId) (label : Label) :
    (g.link source target label).kinds = g.kinds := by
  apply List.ext_getElem?
  intro i
  rw [getElem?_kinds, getElem?_kinds, kind_link]

theorem kinds_addPath (g : Graph I) (path : List (NodeId × NodeId)) : (g.addPath path).1.kinds = g.kinds := by
  induction path generalizing g with
  | nil => rfl
  | cons e rest ih =>
    rw [addPath, addEdge_eq]
    split
    · rename_i next added
      split at added
      · cases added
        rw [ih, kinds_link]
      · contradiction
    · rfl

/-- An instruction is added at the end, and no other step changes what the nodes are. -/
theorem kinds_perform (g : Graph I) (step : BuildStep I) :
    (g.perform step).1.kinds = g.kinds ++ step.instruction?.toList.map .instruction := by
  cases step with
  | rename name => simp [perform, BuildStep.instruction?, kinds, rename]
  | instruction i => simp [perform, BuildStep.instruction?, kinds, addInstruction]
  | edge source target label =>
    rw [perform, addEdge_eq]
    by_cases inside : (Arc.mk source target label).inside g.size = true
    · simp [inside, BuildStep.instruction?]
    · simp [inside, BuildStep.instruction?]
  | sequence nodes =>
    have path := g.kinds_addPath ((NodeId.start :: nodes).zip (nodes ++ [NodeId.finish]))
    rw [perform, addSequence]
    split <;> simp_all [BuildStep.instruction?]

theorem size_perform (g : Graph I) (step : BuildStep I) :
    (g.perform step).1.size = g.size + step.instruction?.toList.length := by
  rw [← length_kinds, kinds_perform, List.length_append, List.length_map, length_kinds]

theorem performAll_records {g : Graph I} {arcs : List Arc} (records : g.Records arcs)
    (steps : List (BuildStep I)) : (g.performAll steps).1.Records (arcs ++ insertions g.size steps) := by
  induction steps generalizing g arcs with
  | nil => simpa [performAll, insertions] using records
  | cons step rest ih =>
    have later := ih (perform_records records step)
    rwa [size_perform, List.append_assoc] at later

theorem kinds_performAll (g : Graph I) (steps : List (BuildStep I)) :
    (g.performAll steps).1.kinds = g.kinds ++ (steps.filterMap BuildStep.instruction?).map .instruction := by
  induction steps generalizing g with
  | nil => simp [performAll]
  | cons step rest ih =>
    have later := ih (g.perform step).1
    rw [kinds_perform, List.append_assoc, ← List.map_append] at later
    rw [performAll, later]
    cases added : step.instruction? <;> simp [added]

/-- Instructions are told the identifiers that follow, one after the other. -/
theorem answers_performAll (g : Graph I) (steps : List (BuildStep I)) :
    (g.performAll steps).2.filterMap BuildAnswer.node? =
      (List.range' g.size (steps.filterMap BuildStep.instruction?).length).map NodeId.mk := by
  induction steps generalizing g with
  | nil => rfl
  | cons step rest ih =>
    have later := ih (g.perform step).1
    rw [size_perform] at later
    have told : (g.perform step).2.node? = step.instruction?.map fun _ => ⟨g.size⟩ := by
      cases step with
      | rename | instruction => rfl
      | edge source target label =>
        rw [perform]
        split <;> rfl
      | sequence nodes =>
        rw [perform]
        split <;> rfl
    rw [performAll]
    cases added : step.instruction? with
    | none => simpa [added, told] using later
    | some i => simpa [added, told, List.range'_succ] using later

/-- What the arena of a graph owes to the steps that made it. -/
structure Arena (steps : List (BuildStep I)) (g : Graph I) : Prop where
  numbered : ∀ i < g.size, (g.node? ⟨i⟩).map Node.id = some ⟨i⟩
  kinds : ∀ i, (g.node? ⟨i⟩).map Node.kind =
    (.start :: .finish :: (steps.filterMap BuildStep.instruction?).map .instruction)[i]?
  bounded : ∀ n e, e ∈ g.successors n ∨ e ∈ g.predecessors n → g.contains n = true ∧ g.contains e.node = true
  distinct : ∀ n, (g.successors n).Nodup ∧ (g.predecessors n).Nodup
  mirrored : ∀ u v label, ⟨v, label⟩ ∈ g.successors u ↔ ⟨u, label⟩ ∈ g.predecessors v
  ordered : ∀ n, g.successors n = ((insertions 2 steps).filterMap (Arc.leaving? n)).eraseDups ∧
    g.predecessors n = ((insertions 2 steps).filterMap (Arc.entering? n)).eraseDups

/-- Whatever the steps and however many of them are refused: instructions stand behind the start and the end in
the order in which they were added, at the identifiers they were told, and both ends of every edge know it once,
in the order of first insertion. -/
theorem build_arena (steps : List (BuildStep I)) :
    (empty.performAll steps).2.filterMap BuildAnswer.node? =
      (List.range (steps.filterMap BuildStep.instruction?).length).map NodeId.ofInstruction ∧
    Arena steps (build steps) := by
  have wellFormed : (build steps).WellFormed := performAll_wellFormed empty_wellFormed steps
  have records : (build steps).Records (insertions 2 steps) := performAll_records empty_records steps
  refine ⟨?_, ?_, ?_, ?_, ?_, wellFormed.mirrored, fun n => ⟨records.successors n, records.predecessors n⟩⟩
  · rw [answers_performAll, List.range'_eq_map_range, List.map_map]
    apply List.map_congr_left
    intro i _
    exact congrArg NodeId.mk (Nat.add_comm 2 i)
  · intro i bound
    have present : (build steps).node? ⟨i⟩ = some (build steps).nodes[i] := Array.getElem?_eq_getElem bound
    rw [present, Option.map_some, wellFormed.numbered ⟨i⟩ _ present]
  · intro i
    rw [← getElem?_kinds, build, kinds_performAll]
    rfl
  · rintro n e (leaves | enters)
    · exact ⟨contains_of_mem_successors leaves, wellFormed.bounded n e leaves⟩
    · have leaves := (wellFormed.mirrored e.node n e.label).mpr enters
      exact ⟨wellFormed.bounded _ _ leaves, contains_of_mem_successors leaves⟩
  · intro n
    rw [records.successors, records.predecessors]
    exact ⟨OrderedMap.nodup_eraseDups _, OrderedMap.nodup_eraseDups _⟩

-- A sequence that leads through a node outside the graph keeps its edges up to there.
example : insertions 2 [.instruction (), .sequence [⟨2⟩, ⟨5⟩, ⟨2⟩], .edge ⟨2⟩ ⟨2⟩ .normal] =
    [⟨.start, ⟨2⟩, .normal⟩, ⟨⟨2⟩, ⟨2⟩, .normal⟩] := by
  decide

end Graph

end Dataflow
