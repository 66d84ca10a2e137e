import Dataflow.Proofs.Clients

/-! What a solution says about its own graph. A node that is not pending holds the result of its own
incoming value, and that value is what its flow predecessors send now, up to equivalence. A predecessor
may be overwritten by an equivalent value without a new visit, so equality is not to be had. -/

namespace Dataflow

variable {I α ε : Type} {carrier : α → Prop}

namespace Analysis

/-- A visit changes what travels along an edge only where it makes the end of the edge pending. -/
theorem visited_along {a : Analysis I α ε} {g : Graph I} {limit : Nat} {signal : Signal}
    {s next : Run α} {n : NodeId} (wellFormed : g.WellFormed) (congruent : a.ops.CongruentOn carrier)
    (tracks : a.Tracks g s) (within : Within carrier s.facts) (nextWithin : Within carrier next.facts)
    (visited : a.turn g limit signal s = .visited n next) {m : NodeId}
    (idle : m ∉ next.worklist.pending) :
    ∀ e ∈ g.flowPredecessors a.direction m,
      Along (fun x y => a.ops.equivalent x y = true) s.facts next.facts e := by
  obtain ⟨rest, outgoing, popped, _, _, rfl⟩ := turn_visited visited
  have coherent := Worklist.pop_coherent tracks.coherent popped
  have here : g.Reachable a.direction n :=
    tracks.pending n (by simp [Worklist.pending_of_pop popped])
  obtain ⟨old, stored⟩ := (tracks.facts n).mpr here
  have same (label : Label) (leads : ⟨m, label⟩ ∈ g.flowSuccessors a.direction n) :
      a.ops.equivalent (old.outgoing.get label) (outgoing.get label) = true := by
    have listed := Graph.mem_labels leads
    have unchanged : label ∉ a.changed g s.facts n outgoing := fun changed =>
      idle ((Worklist.mem_pushAll coherent _ _).mpr (Or.inl (mem_affected.mpr ⟨_, changed, leads⟩)))
    simp only [changed, stored, Labeled.changedLabels, List.mem_filter, listed, true_and,
      Bool.not_eq_true', Bool.not_eq_false] at unchanged
    have inOld := (within n old stored).2.2 label
    have inNew := (nextWithin n _ (NodeMap.get_set_self _ _ _)).2.2 label
    exact congruent.symm _ _ inNew inOld unchanged
  exact along_set wellFormed congruent.refl within stored same

/-- What the facts of a node owe to the node itself and to its flow predecessors. -/
structure Settled (a : Analysis I α ε) (g : Graph I) (facts : NodeMap (Option (Facts α))) (n : NodeId)
    (f : Facts α) : Prop where
  leaves : a.leaving g n f.incoming = .ok f.outgoing
  arrives : a.ops.equivalent f.incoming (a.arriving g facts n) = true

/-- The invariant of a run: a reachable node is pending or settled. -/
theorem Moment.settled {a : Analysis I α ε} {g : Graph I} {config : SolverConfig} {signal : Signal}
    {s : Run α} (wellFormed : g.WellFormed) (congruent : a.ops.CongruentOn carrier)
    (closed : a.Closed g carrier) (moment : a.Moment g config signal s) {n : NodeId}
    (reachable : g.Reachable a.direction n) (idle : n ∉ s.worklist.pending) :
    ∃ f, s.facts.get n = some f ∧ a.Settled g s.facts n f := by
  induction moment generalizing n with
  | begin =>
    rw [Analysis.begin, Worklist.mem_seeded, Graph.mem_reversePostorder wellFormed] at idle
    contradiction
  | @visited s next visitedNode moment visited ih =>
    have tracks := moment.tracks wellFormed
    have within := moment.within closed
    have nextWithin := (moment.visited visited).within closed
    have agree := arriving_related closed congruent.refl congruent.join within nextWithin
      (visited_along wellFormed congruent tracks within nextWithin visited idle)
    have nextArrived := arriving_carrier closed nextWithin n
    obtain ⟨rest, outgoing, popped, _, left, rfl⟩ := turn_visited visited
    -- The visited node is settled by the visit itself, unless it made itself pending again.
    by_cases here : n = visitedNode
    · subst here
      exact ⟨⟨a.arriving g s.facts n, outgoing⟩, NodeMap.get_set_self _ _ _, left, agree⟩
    · have before : n ∉ s.worklist.pending := by
        rw [Worklist.pending_of_pop popped, List.mem_cons, not_or]
        refine ⟨here, fun old => idle ?_⟩
        exact (Worklist.mem_pushAll (Worklist.pop_coherent tracks.coherent popped) _ _).mpr (Or.inr old)
      obtain ⟨f, stored, settled⟩ := ih reachable before
      refine ⟨f, (NodeMap.get_set_of_ne _ _ here).trans stored, settled.leaves, ?_⟩
      exact congruent.trans _ _ _ (within n f stored).1 (arriving_carrier closed within n) nextArrived
        settled.arrives agree

theorem solve_settled {a : Analysis I α ε} {g : Graph I} {config : SolverConfig} {signal : Signal}
    {r : Solution α} (wellFormed : g.WellFormed) (congruent : a.ops.CongruentOn carrier)
    (closed : a.Closed g carrier) (solved : a.solve g config signal = .ok r) {n : NodeId}
    (reachable : g.Reachable a.direction n) :
    ∃ f, r.facts.get n = some f ∧ a.Settled g r.facts n f := by
  obtain ⟨final, moment, empty, rfl⟩ := solve_ok solved
  exact moment.settled wellFormed congruent closed reachable (by simp [empty])

theorem leaving_total {a : Analysis I α ε} (total : ∀ i labels x, ∃ result, a.transfer i labels x = .ok result)
    (g : Graph I) (n : NodeId) (x : α) : ∃ outgoing, a.leaving g n x = .ok outgoing := by
  obtain ⟨result, made⟩ := yielded_total total g n (a.ops.copy x)
  rw [leaving_eq, made]
  exact ⟨_, rfl⟩

/-- The equations of a fixpoint at one node: its result is the transfer of its incoming value on exactly
its own labels, or that value itself at the start and the end; its incoming value is the join of what it
starts from with what each flow predecessor holds on the label of the edge between them. -/
structure Stable (a : Analysis I α ε) (g : Graph I) (facts : NodeMap (Option (Facts α))) (n : NodeId)
    (f : Facts α) : Prop where
  transferred : n ≠ .start → n ≠ .finish → ∃ i result, g.instruction? n = some i ∧
    a.transfer i (g.labels a.direction n) f.incoming = .ok result ∧
    f.outgoing = result.restrict a.ops (g.labels a.direction n)
  passed : n = .start ∨ n = .finish →
    f.outgoing = (Labeled.single f.incoming).restrict a.ops (g.labels a.direction n)
  joined : a.ops.equivalent f.incoming
    ((a.contributions g facts n).foldl a.ops.join (a.origin g n)) = true
  carried : ∀ e ∈ g.flowPredecessors a.direction n, ⟨n, e.label⟩ ∈ g.flowSuccessors a.direction e.node

/-- Every reachable node of a solution is stable, for any client, monotone or not. -/
theorem solve_stable {a : Analysis I α ε} (congruent : a.ops.Congruent) {g : Graph I} (built : g.Built)
    {config : SolverConfig} {signal : Signal} {r : Solution α}
    (solved : a.solve g config signal = .ok r) {n : NodeId} (reachable : g.Reachable a.direction n) :
    ∃ f, r.facts.get n = some f ∧ a.Stable g r.facts n f := by
  have wellFormed := built.wellFormed
  obtain ⟨f, stored, settled⟩ :=
    solve_settled wellFormed congruent.on (a.closed_true g) solved reachable
  have synthetic := Graph.instruction?_eq_none wellFormed (reachable.inside wellFormed)
  obtain ⟨result, made, restricted, _⟩ :=
    leaving_faithful congruent.on.copy (a.closed_true g) trivial settled.leaves
  refine ⟨f, stored, ?_, ?_, ?_, ?_⟩
  · intro notStart notFinish
    cases present : g.instruction? n with
    | none => simp [present, notStart, notFinish] at synthetic
    | some i =>
      rw [a.yielded_of_instruction present] at made
      exact ⟨i, result, rfl, made, restricted⟩
  · intro ends
    rw [a.yielded_of_none (synthetic.mpr ends)] at made
    cases made
    exact restricted
  · rw [← arriving_eq_foldl]
    exact settled.arrives
  · exact fun e edge => (Graph.flow_mirrored wellFormed a.direction e.node n e.label).mpr edge

end Analysis

/-- Counts a variable up to a bound: node 3 compares, node 4 adds one and goes back. -/
def Graph.countingLoop : Graph Instruction :=
  .build [.instruction (.const "x" (.int 0)), .instruction (.compare .ne (.var "x") (.int 3)),
    .instruction (.arith "x" .add (.var "x") (.int 1)), .edge .start ⟨2⟩ .normal, .edge ⟨2⟩ ⟨3⟩ .normal,
    .edge ⟨3⟩ ⟨4⟩ .whenTrue, .edge ⟨4⟩ ⟨3⟩ .normal, .edge ⟨3⟩ .finish .whenFalse]

theorem Graph.countingLoop_built : countingLoop.Built := ⟨_, rfl⟩

theorem Graph.countingLoop_reachable : countingLoop.Reachable .backward ⟨3⟩ := by
  have exits : ⟨⟨3⟩, .whenFalse⟩ ∈ countingLoop.flowSuccessors .backward .finish := by decide
  exact .edge .root exits

/-- The comparison of the loop, which live variables reach from two sides. -/
theorem Analysis.solve_stable_loop : ∃ r f,
    Liveness.analysis.solve .countingLoop ⟨5, .fifo⟩ .never = .ok r ∧ r.facts.get ⟨3⟩ = some f ∧
      Liveness.analysis.Stable .countingLoop r.facts ⟨3⟩ f := by
  have succeeds : (Liveness.analysis.solve .countingLoop ⟨5, .fifo⟩ .never).isOk = true := by
    decide +kernel
  obtain ⟨r, solved⟩ := exists_of_isOk succeeds
  obtain ⟨f, stored, stable⟩ :=
    Analysis.solve_stable LiveSet.lawful.congruent Graph.countingLoop_built solved
      Graph.countingLoop_reachable
  exact ⟨r, f, solved, stored, stable⟩

end Dataflow
