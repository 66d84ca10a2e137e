import Dataflow.Proofs.Labeled
import Dataflow.Proofs.Lattice
import Dataflow.Proofs.Traversal
import Dataflow.Proofs.Worklist
import Dataflow.Solver

/-! The runs of the solver. `turn_visited` says once what a turn does; what every turn keeps holds at
every moment of a run, and a solution is read off its last moment. No law of the lattice is used here. -/

namespace Dataflow

variable {I α ε : Type}

namespace Analysis

/-- What a node starts from before anything arrives along its edges. -/
def origin (a : Analysis I α ε) (g : Graph I) (n : NodeId) : α :=
  if n = a.direction.root then a.ops.copy (a.entry g) else a.ops.bottom

/-- What a node that has facts sends along one of its edges: its value on the label of the edge. -/
def sent (facts : NodeMap (Option (Facts α))) (e : Edge) : Option α :=
  (facts.get e.node).map fun f => f.outgoing.get e.label

/-- What the flow predecessors of a node send to it, edge by edge. -/
def contributions (a : Analysis I α ε) (g : Graph I) (facts : NodeMap (Option (Facts α))) (n : NodeId) :
    List α :=
  (g.flowPredecessors a.direction n).filterMap (sent facts)

theorem arriving_eq_foldl (a : Analysis I α ε) (g : Graph I) (facts : NodeMap (Option (Facts α)))
    (n : NodeId) :
    a.arriving g facts n = (a.contributions g facts n).foldl a.ops.join (a.origin g n) := by
  unfold arriving contributions origin
  generalize (if n = a.direction.root then a.ops.copy (a.entry g) else a.ops.bottom) = start
  induction g.flowPredecessors a.direction n generalizing start with
  | nil => rfl
  | cons e rest ih =>
    rw [List.foldl_cons, ih]
    cases present : facts.get e.node <;> simp [sent, present]

theorem mem_contributions {a : Analysis I α ε} {g : Graph I} {facts : NodeMap (Option (Facts α))}
    {n : NodeId} {value : α} :
    value ∈ a.contributions g facts n ↔ ∃ e ∈ g.flowPredecessors a.direction n,
      ∃ f, facts.get e.node = some f ∧ f.outgoing.get e.label = value := by
  simp [contributions, sent]

/-- Everything a turn that visits a node has done. -/
theorem turn_visited {a : Analysis I α ε} {g : Graph I} {limit : Nat} {signal : Signal} {s next : Run α}
    {n : NodeId} (visited : a.turn g limit signal s = .visited n next) :
    ∃ rest outgoing, s.worklist.pop? = some (n, rest) ∧ s.visits.get n + 1 ≤ limit ∧
      a.leaving g n (a.arriving g s.facts n) = .ok outgoing ∧
      next =
        { facts := s.facts.set n (some ⟨a.arriving g s.facts n, outgoing⟩)
          visits := s.visits.set n (s.visits.get n + 1)
          worklist := rest.pushAll (a.affected g n (a.changed g s.facts n outgoing))
          iterations := s.iterations + 1 } := by
  unfold turn at visited
  split at visited
  · contradiction
  · split at visited
    · contradiction
    · rename_i m rest popped
      unfold visit at visited
      split at visited
      · contradiction
      · rename_i within
        split at visited
        · contradiction
        · rename_i outgoing left
          cases visited
          exact ⟨rest, outgoing, popped, Nat.le_of_not_lt within, left, rfl⟩

theorem turn_finished {a : Analysis I α ε} {g : Graph I} {limit : Nat} {signal : Signal} {s : Run α}
    (finished : a.turn g limit signal s = .finished) : s.worklist.pending = [] := by
  unfold turn at finished
  split at finished
  · contradiction
  · split at finished
    · exact Worklist.pop_eq_none_iff.mp ‹_›
    · unfold visit at finished
      split at finished
      · contradiction
      · split at finished <;> contradiction

/-- A turn fails at the node that it has taken: its visits are used up, or its transfer is refused. -/
theorem turn_failed {a : Analysis I α ε} {g : Graph I} {limit : Nat} {signal : Signal} {s : Run α}
    {n : NodeId} {failure : Failure ε} (failed : a.turn g limit signal s = .failed n failure) :
    ∃ rest, s.worklist.pop? = some (n, rest) ∧
      (limit < s.visits.get n + 1 ∧ failure = .nonConvergent n limit ∨
        s.visits.get n + 1 ≤ limit ∧ ∃ fault,
          a.leaving g n (a.arriving g s.facts n) = .error fault ∧ failure = .transfer n fault) := by
  unfold turn at failed
  split at failed
  · contradiction
  · split at failed
    · contradiction
    · rename_i m rest popped
      unfold visit at failed
      split at failed
      · rename_i exceeded
        cases failed
        exact ⟨rest, popped, .inl ⟨exceeded, rfl⟩⟩
      · rename_i within
        split at failed
        · rename_i fault refused
          cases failed
          exact ⟨rest, popped, .inr ⟨Nat.le_of_not_lt within, fault, refused, rfl⟩⟩
        · contradiction

theorem turn_cancelled {a : Analysis I α ε} {g : Graph I} {limit : Nat} {signal : Signal} {s : Run α}
    (cancelled : a.turn g limit signal s = .cancelled) : signal s.iterations = true := by
  unfold turn at cancelled
  split at cancelled
  · assumption
  · split at cancelled
    · contradiction
    · unfold visit at cancelled
      split at cancelled
      · contradiction
      · split at cancelled <;> contradiction

/-- The states that a run passes through, the first and the last included. -/
inductive Moment (a : Analysis I α ε) (g : Graph I) (config : SolverConfig) (signal : Signal) :
    Run α → Prop where
  | begin : Moment a g config signal (a.begin g config.order)
  | visited {s next : Run α} {n : NodeId} : Moment a g config signal s →
      a.turn g config.maxVisits signal s = .visited n next → Moment a g config signal next

theorem runWithin_ok {a : Analysis I α ε} {g : Graph I} {config : SolverConfig} {signal : Signal}
    {turns : Nat} {s : Run α} {r : Solution α} (moment : a.Moment g config signal s)
    (ended : a.runWithin g config.maxVisits signal turns s = some (.ok r)) :
    ∃ final, a.Moment g config signal final ∧ final.worklist.pending = [] ∧
      r = ⟨a.direction, final.facts, final.visits, final.iterations⟩ := by
  induction turns generalizing s with
  | zero => contradiction
  | succ turns ih =>
    unfold runWithin at ended
    split at ended
    · simp at ended
    · rename_i finished
      simp only [Option.some.injEq, Except.ok.injEq] at ended
      exact ⟨s, moment, turn_finished finished, ended.symm⟩
    · simp at ended
    · rename_i n next visited
      exact ih (moment.visited visited) ended

/-- A solution is what the run holds when nothing is pending any more. -/
theorem solve_ok {a : Analysis I α ε} {g : Graph I} {config : SolverConfig} {signal : Signal}
    {r : Solution α} (solved : a.solve g config signal = .ok r) :
    ∃ final, a.Moment g config signal final ∧ final.worklist.pending = [] ∧
      r = ⟨a.direction, final.facts, final.visits, final.iterations⟩ := by
  unfold solve at solved
  split at solved
  · contradiction
  · cases ended : a.runWithin g config.maxVisits signal (a.turnBound g config.maxVisits)
        (a.begin g config.order) with
    | none => simp [ended] at solved
    | some outcome =>
      rw [ended, Option.getD_some] at solved
      exact runWithin_ok .begin (ended.trans (congrArg some solved))

/-- A bound without visits is refused before the first turn. -/
theorem solve_unvisited (a : Analysis I α ε) (g : Graph I) (order : Discipline) (signal : Signal) :
    a.solve g ⟨0, order⟩ signal = .error (.configuration .noVisits) := rfl

theorem valid_of_solve {a : Analysis I α ε} {g : Graph I} {config : SolverConfig} {signal : Signal}
    {r : Solution α} (solved : a.solve g config signal = .ok r) : 1 ≤ config.maxVisits := by
  refine Nat.pos_of_ne_zero fun refused => ?_
  simp [solve, SolverConfig.validate, refused] at solved

theorem solve_direction {a : Analysis I α ε} {g : Graph I} {config : SolverConfig} {signal : Signal}
    {r : Solution α} (solved : a.solve g config signal = .ok r) : r.direction = a.direction := by
  obtain ⟨final, _, _, rfl⟩ := solve_ok solved
  rfl

theorem get_seed (a : Analysis I α ε) (g : Graph I) (n : NodeId) :
    (a.seed g).get n =
      if n ∈ g.reversePostorder a.direction then some ⟨a.ops.bottom, .single a.ops.bottom⟩ else none := by
  have general (order : List NodeId) (facts : NodeMap (Option (Facts α))) :
      (order.foldl (fun facts n => facts.set n (some ⟨a.ops.bottom, .single a.ops.bottom⟩)) facts).get n =
        if n ∈ order then some ⟨a.ops.bottom, .single a.ops.bottom⟩ else facts.get n := by
    induction order generalizing facts with
    | nil => simp
    | cons m rest ih =>
      rw [List.foldl_cons, ih, NodeMap.get_set]
      grind
  rw [seed, general, NodeMap.get_const]

/-- The bookkeeping of a run: the worklist is a set of reachable nodes, and exactly the reachable nodes
have facts. -/
structure Tracks (a : Analysis I α ε) (g : Graph I) (s : Run α) : Prop where
  coherent : s.worklist.Coherent
  pending : ∀ n ∈ s.worklist.pending, g.Reachable a.direction n
  facts : ∀ n, (∃ f, s.facts.get n = some f) ↔ g.Reachable a.direction n

theorem mem_affected {a : Analysis I α ε} {g : Graph I} {n m : NodeId} {labels : List Label} :
    m ∈ a.affected g n labels ↔ ∃ label ∈ labels, ⟨m, label⟩ ∈ g.flowSuccessors a.direction n := by
  simp only [affected, List.mem_map, List.mem_filter, List.contains_iff_mem]
  constructor
  · rintro ⟨e, ⟨member, changed⟩, rfl⟩
    exact ⟨e.label, changed, member⟩
  · rintro ⟨label, changed, member⟩
    exact ⟨⟨m, label⟩, ⟨member, changed⟩, rfl⟩

theorem begin_tracks (a : Analysis I α ε) {g : Graph I} (wellFormed : g.WellFormed) (order : Discipline) :
    a.Tracks g (a.begin g order) := by
  constructor
  · exact Worklist.seeded_coherent _ _
  · intro n member
    rw [begin, Worklist.mem_seeded] at member
    exact (Graph.mem_reversePostorder wellFormed _ _).mp member
  · intro n
    rw [begin, get_seed, ← Graph.mem_reversePostorder wellFormed]
    split <;> simp_all

theorem visited_tracks {a : Analysis I α ε} {g : Graph I} {limit : Nat} {signal : Signal} {s next : Run α}
    {n : NodeId} (tracks : a.Tracks g s) (visited : a.turn g limit signal s = .visited n next) :
    a.Tracks g next := by
  obtain ⟨rest, outgoing, popped, _, _, rfl⟩ := turn_visited visited
  have list := Worklist.pending_of_pop popped
  have coherent := Worklist.pop_coherent tracks.coherent popped
  have here : g.Reachable a.direction n := tracks.pending n (by simp [list])
  refine ⟨Worklist.pushAll_coherent coherent _, ?_, ?_⟩
  · intro m member
    rcases (Worklist.mem_pushAll coherent _ _).mp member with pushed | old
    · obtain ⟨label, _, edge⟩ := mem_affected.mp pushed
      exact here.edge edge
    · exact tracks.pending m (by simp [list, old])
  · intro m
    rw [NodeMap.get_set]
    split
    · rename_i same
      simpa [same] using here
    · exact tracks.facts m

theorem Moment.tracks {a : Analysis I α ε} {g : Graph I} {config : SolverConfig} {signal : Signal}
    {s : Run α} (wellFormed : g.WellFormed) (moment : a.Moment g config signal s) : a.Tracks g s := by
  induction moment with
  | begin => exact begin_tracks a wellFormed _
  | visited _ visited ih => exact visited_tracks ih visited

/-- The facts of a node are those of the start until it is visited, and the result of a visit from then
on. -/
theorem Moment.fresh_or_left {a : Analysis I α ε} {g : Graph I} {config : SolverConfig} {signal : Signal}
    {s : Run α} (moment : a.Moment g config signal s) {n : NodeId} {f : Facts α}
    (stored : s.facts.get n = some f) :
    s.visits.get n = 0 ∧ f = ⟨a.ops.bottom, .single a.ops.bottom⟩ ∨
      a.leaving g n f.incoming = .ok f.outgoing := by
  induction moment generalizing f with
  | begin =>
    rw [Analysis.begin, get_seed] at stored
    split at stored
    · cases stored
      exact .inl ⟨NodeMap.get_const 0 n, rfl⟩
    · contradiction
  | visited _ visited ih =>
    obtain ⟨rest, outgoing, _, _, left, rfl⟩ := turn_visited visited
    rw [NodeMap.get_set] at stored
    split at stored
    · rename_i same
      cases stored
      exact .inr (same ▸ left)
    · rename_i other
      rw [NodeMap.get_set_of_ne _ _ other]
      exact ih stored

/-- A set of values that neither the lattice operations nor the client leaves on this graph. -/
structure Closed (a : Analysis I α ε) (g : Graph I) (carrier : α → Prop) : Prop where
  bottom : carrier a.ops.bottom
  entry : carrier (a.entry g)
  copy : ∀ x, carrier x → carrier (a.ops.copy x)
  join : ∀ x y, carrier x → carrier y → carrier (a.ops.join x y)
  transfer : ∀ n i x result, g.instruction? n = some i → carrier x →
    a.transfer i (g.labels a.direction n) x = .ok result → result.All carrier

theorem closed_true (a : Analysis I α ε) (g : Graph I) : a.Closed g fun _ => True :=
  ⟨trivial, trivial, fun _ _ => trivial, fun _ _ _ _ => trivial, fun _ _ _ _ _ _ _ => ⟨trivial, fun _ => trivial⟩⟩

/-- All values stored at the nodes lie in the given set. -/
def Within (carrier : α → Prop) (facts : NodeMap (Option (Facts α))) : Prop :=
  ∀ n f, facts.get n = some f → carrier f.incoming ∧ f.outgoing.All carrier

variable {carrier : α → Prop}

theorem Within.weaken {weaker : α → Prop} {facts : NodeMap (Option (Facts α))}
    (within : Within carrier facts) (implies : ∀ x, carrier x → weaker x) : Within weaker facts := by
  intro n f stored
  obtain ⟨incoming, base, outgoing⟩ := within n f stored
  exact ⟨implies _ incoming, implies _ base, fun label => implies _ (outgoing label)⟩

theorem origin_carrier {a : Analysis I α ε} {g : Graph I} (closed : a.Closed g carrier) (n : NodeId) :
    carrier (a.origin g n) := by
  unfold origin
  split
  · exact closed.copy _ closed.entry
  · exact closed.bottom

theorem contributions_carrier {a : Analysis I α ε} {g : Graph I} {facts : NodeMap (Option (Facts α))}
    (within : Within carrier facts) (n : NodeId) : ∀ x ∈ a.contributions g facts n, carrier x := by
  intro x member
  obtain ⟨e, _, f, present, rfl⟩ := mem_contributions.mp member
  exact (within e.node f present).2.2 e.label

theorem arriving_carrier {a : Analysis I α ε} {g : Graph I} (closed : a.Closed g carrier)
    {facts : NodeMap (Option (Facts α))} (within : Within carrier facts) (n : NodeId) :
    carrier (a.arriving g facts n) := by
  rw [arriving_eq_foldl]
  exact LatticeOps.foldl_join_closed closed.join (origin_carrier closed n) (contributions_carrier within n)

/-- Two stores send related values along an edge, or both send nothing. -/
def Along (rel : α → α → Prop) (old new : NodeMap (Option (Facts α))) (e : Edge) : Prop :=
  (old.get e.node = none ∧ new.get e.node = none) ∨
  ∃ f f', old.get e.node = some f ∧ new.get e.node = some f' ∧
    rel (f.outgoing.get e.label) (f'.outgoing.get e.label)

/-- A relation that joins respect passes from what is sent to what arrives. -/
theorem arriving_related {a : Analysis I α ε} {g : Graph I} {rel : α → α → Prop}
    (closed : a.Closed g carrier) (refl : ∀ x, carrier x → rel x x)
    (join : ∀ x x' y y', carrier x → carrier x' → carrier y → carrier y' → rel x x' → rel y y' →
      rel (a.ops.join x y) (a.ops.join x' y'))
    {old new : NodeMap (Option (Facts α))} (oldWithin : Within carrier old)
    (newWithin : Within carrier new) {n : NodeId}
    (along : ∀ e ∈ g.flowPredecessors a.direction n, Along rel old new e) :
    rel (a.arriving g old n) (a.arriving g new n) := by
  have fold (edges : List Edge) (along : ∀ e ∈ edges, Along rel old new e) (x y : α) (inX : carrier x)
      (inY : carrier y) (start : rel x y) :
      rel ((edges.filterMap (sent old)).foldl a.ops.join x)
        ((edges.filterMap (sent new)).foldl a.ops.join y) := by
    induction edges generalizing x y with
    | nil => exact start
    | cons e rest ih =>
      have later := ih (fun e member => along e (List.mem_cons_of_mem _ member))
      rcases along e List.mem_cons_self with ⟨absent, absent'⟩ | ⟨f, f', present, present', agree⟩
      · simp only [List.filterMap_cons, sent, absent, absent', Option.map_none]
        exact later x y inX inY start
      · have inF := (oldWithin _ f present).2.2 e.label
        have inF' := (newWithin _ f' present').2.2 e.label
        simp only [List.filterMap_cons, sent, present, present', Option.map_some, List.foldl_cons]
        exact later _ _ (closed.join _ _ inX inF) (closed.join _ _ inY inF')
          (join _ _ _ _ inX inY inF inF' start agree)
  have first := origin_carrier closed n
  rw [arriving_eq_foldl, arriving_eq_foldl]
  exact fold _ along _ _ first first (refl _ first)

/-- New facts at one node relate all edges into a node if they relate those that lead there from it. -/
theorem along_set {g : Graph I} {direction : Direction} {rel : α → α → Prop} (wellFormed : g.WellFormed)
    (refl : ∀ x, carrier x → rel x x) {facts : NodeMap (Option (Facts α))} (within : Within carrier facts)
    {n m : NodeId} {old new : Facts α} (stored : facts.get n = some old)
    (related : ∀ label, ⟨m, label⟩ ∈ g.flowSuccessors direction n →
      rel (old.outgoing.get label) (new.outgoing.get label)) :
    ∀ e ∈ g.flowPredecessors direction m, Along rel facts (facts.set n (some new)) e := by
  intro e edge
  by_cases source : e.node = n
  · refine .inr ⟨old, new, by rw [source, stored], by simp [source], related e.label ?_⟩
    exact source ▸ (Graph.flow_mirrored wellFormed direction e.node m e.label).mpr edge
  · cases present : facts.get e.node with
    | none => exact .inl ⟨present, by simp [NodeMap.get_set_of_ne _ _ source, present]⟩
    | some f =>
      refine .inr ⟨f, f, present, by simp [NodeMap.get_set_of_ne _ _ source, present], ?_⟩
      exact refl _ ((within _ f present).2.2 e.label)

/-- What a node makes of the value that reaches it, on whatever labels it likes; the start and the end hand the
value on. -/
def yielded (a : Analysis I α ε) (g : Graph I) (n : NodeId) (value : α) : Except ε (Labeled α) :=
  match g.instruction? n with
  | none => .ok (.single value)
  | some i => a.transfer i (g.labels a.direction n) value

theorem yielded_of_none (a : Analysis I α ε) {g : Graph I} {n : NodeId} (absent : g.instruction? n = none)
    (x : α) : a.yielded g n x = .ok (.single x) := by
  rw [yielded, absent]

theorem yielded_of_instruction (a : Analysis I α ε) {g : Graph I} {n : NodeId} {i : I}
    (present : g.instruction? n = some i) (x : α) :
    a.yielded g n x = a.transfer i (g.labels a.direction n) x := by
  rw [yielded, present]

theorem yielded_carrier {a : Analysis I α ε} {g : Graph I} (closed : a.Closed g carrier) {n : NodeId}
    {x : α} (inside : carrier x) {result : Labeled α} (made : a.yielded g n x = .ok result) :
    result.All carrier := by
  cases present : g.instruction? n with
  | none =>
    rw [a.yielded_of_none present] at made
    cases made
    exact Labeled.all_single inside
  | some i =>
    rw [a.yielded_of_instruction present] at made
    exact closed.transfer n i x result present inside made

theorem yielded_total {a : Analysis I α ε} (total : ∀ i labels x, ∃ result, a.transfer i labels x = .ok result)
    (g : Graph I) (n : NodeId) (x : α) : ∃ result, a.yielded g n x = .ok result := by
  cases present : g.instruction? n with
  | none => exact ⟨_, a.yielded_of_none present x⟩
  | some i =>
    rw [a.yielded_of_instruction present]
    exact total i (g.labels a.direction n) x

/-- What leaves a node is what it makes of a copy of its value, restricted to its labels. -/
theorem leaving_eq (a : Analysis I α ε) (g : Graph I) (n : NodeId) (x : α) : a.leaving g n x =
    (a.yielded g n (a.ops.copy x)).map fun result => result.restrict a.ops (g.labels a.direction n) := by
  unfold leaving yielded
  cases g.instruction? n with
  | none => rfl
  | some i =>
    dsimp only
    cases a.transfer i (g.labels a.direction n) (a.ops.copy x) <;> rfl

theorem leaving_eq_ok {a : Analysis I α ε} {g : Graph I} {n : NodeId} {x : α} {outgoing : Labeled α}
    (left : a.leaving g n x = .ok outgoing) : ∃ result, a.yielded g n (a.ops.copy x) = .ok result ∧
      outgoing = result.restrict a.ops (g.labels a.direction n) := by
  rw [leaving_eq] at left
  cases made : a.yielded g n (a.ops.copy x) with
  | error fault => simp [made, Except.map] at left
  | ok result =>
    rw [made] at left
    exact ⟨result, rfl, (Except.ok.inj left).symm⟩

theorem leaving_carrier {a : Analysis I α ε} {g : Graph I} (closed : a.Closed g carrier) {n : NodeId}
    {x : α} (inside : carrier x) {outgoing : Labeled α} (left : a.leaving g n x = .ok outgoing) :
    outgoing.All carrier := by
  obtain ⟨result, made, rfl⟩ := leaving_eq_ok left
  exact Labeled.all_restrict closed.copy (yielded_carrier closed (closed.copy x inside) made) _

/-- Where copies are faithful, they do not show on the labels of a node. -/
theorem leaving_faithful {a : Analysis I α ε} {g : Graph I} (faithful : ∀ x, carrier x → a.ops.copy x = x)
    (closed : a.Closed g carrier) {n : NodeId} {x : α} (inside : carrier x) {outgoing : Labeled α}
    (left : a.leaving g n x = .ok outgoing) : ∃ result, a.yielded g n x = .ok result ∧
      outgoing = result.restrict a.ops (g.labels a.direction n) ∧
      ∀ label ∈ g.labels a.direction n, outgoing.get label = result.get label := by
  obtain ⟨result, made, rfl⟩ := leaving_eq_ok left
  rw [faithful x inside] at made
  refine ⟨result, made, rfl, fun label listed => ?_⟩
  rw [result.get_restrict listed]
  exact faithful _ ((yielded_carrier closed inside made).2 label)

/-- At every moment of a run all stored values lie in a set that the client does not leave. -/
theorem Moment.within {a : Analysis I α ε} {g : Graph I} {config : SolverConfig} {signal : Signal}
    {s : Run α} (closed : a.Closed g carrier) (moment : a.Moment g config signal s) :
    Within carrier s.facts := by
  induction moment with
  | begin =>
    intro n f present
    rw [Analysis.begin, get_seed] at present
    split at present
    · cases present
      exact ⟨closed.bottom, Labeled.all_single closed.bottom⟩
    · contradiction
  | visited _ visited ih =>
    obtain ⟨rest, outgoing, _, _, left, rfl⟩ := turn_visited visited
    intro m f present
    have arrived := arriving_carrier closed ih
    rw [NodeMap.get_set] at present
    split at present
    · cases present
      exact ⟨arrived _, leaving_carrier closed (arrived _) left⟩
    · exact ih m f present

end Analysis

/-! The two sides of a node in program order, which is flow order in a forward solution and its reverse in a
backward one. Only what leaves a node in flow order tells its labels apart. -/

namespace Solution

variable {r : Solution α} {n : NodeId} {f : Facts α}

theorem before_unreached (absent : r.facts.get n = none) (ops : LatticeOps α) : r.before ops n = none := by
  simp [before, labeledBefore, absent]

theorem after_unreached (absent : r.facts.get n = none) (ops : LatticeOps α) : r.after ops n = none := by
  simp [after, labeledAfter, absent]

/-! Where the values are their own copies, the copies that are handed out say what is stored. -/

section

variable {ops : LatticeOps α} (stored : r.facts.get n = some f) (incoming : ops.copy f.incoming = f.incoming)
  (outgoing : f.outgoing.All fun x => ops.copy x = x)

include stored incoming

theorem before_forward (forward : r.direction = .forward) : r.before ops n = some f.incoming := by
  simp [before, labeledBefore, stored, forward, incoming]

theorem after_backward (backward : r.direction = .backward) : r.after ops n = some f.incoming := by
  simp [after, labeledAfter, stored, backward, incoming]

omit incoming

include outgoing

theorem labeledAfter_forward (forward : r.direction = .forward) : r.labeledAfter ops n = some f.outgoing := by
  simp [labeledAfter, stored, forward, Labeled.map_of_fixed outgoing]

theorem after_forward (forward : r.direction = .forward) :
    r.after ops n = some (f.outgoing.collapse ops) := by
  simp [after, labeledAfter_forward stored outgoing forward]

theorem labeledBefore_backward (backward : r.direction = .backward) :
    r.labeledBefore ops n = some f.outgoing := by
  simp [labeledBefore, stored, backward, Labeled.map_of_fixed outgoing]

theorem before_backward (backward : r.direction = .backward) :
    r.before ops n = some (f.outgoing.collapse ops) := by
  simp [before, labeledBefore_backward stored outgoing backward]

end

end Solution

end Dataflow
