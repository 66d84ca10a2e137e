import Dataflow.Proofs.Accounting
import Dataflow.Proofs.PendingOrder
import Dataflow.Proofs.Postorder

/-! Acyclic graphs. Every edge goes forward in reverse postorder, so what a visit makes pending is pending
already, and each discipline takes the nodes in that order, once each. A run is then the same as a single
sweep that knows neither discipline nor bound. No law of the lattice is used. -/

namespace Dataflow.Analysis

variable {I α ε : Type} {a : Analysis I α ε} {g : Graph I} {limit : Nat}

/-- One visit to each of the given nodes, in their order: the nodes taken, and the outcome. -/
def sweep (a : Analysis I α ε) (g : Graph I) :
    List NodeId → NodeMap (Option (Facts α)) → NodeMap Nat → Nat →
      List NodeId × Except (Failure ε) (Solution α)
  | [], facts, visits, iterations => ([], .ok ⟨a.direction, facts, visits, iterations⟩)
  | n :: rest, facts, visits, iterations =>
    match a.leaving g n (a.arriving g facts n) with
    | .error fault => ([n], .error (.transfer n fault))
    | .ok outgoing =>
      let later := a.sweep g rest (facts.set n (some ⟨a.arriving g facts n, outgoing⟩))
        (visits.set n (visits.get n + 1)) (iterations + 1)
      (n :: later.1, later.2)

/-- The next node to be taken has a visit left and leads to nodes that are pending already. -/
structure LeadsOn (a : Analysis I α ε) (g : Graph I) (limit : Nat) (s : Run α) (n : NodeId)
    (rest : Worklist) : Prop where
  popped : s.worklist.pop? = some (n, rest)
  coherent : rest.Coherent
  onward : ∀ m ∈ g.flowTargets a.direction n, m ∈ rest.pending
  within : s.visits.get n + 1 ≤ limit

theorem LeadsOn.pushAll {s : Run α} {n : NodeId} {rest : Worklist} (leads : a.LeadsOn g limit s n rest)
    (labels : List Label) : rest.pushAll (a.affected g n labels) = rest := by
  apply Worklist.pushAll_of_pending leads.coherent
  intro m pushed
  obtain ⟨label, _, edge⟩ := mem_affected.mp pushed
  exact leads.onward m (List.mem_map_of_mem edge)

theorem LeadsOn.turn_error {s : Run α} {n : NodeId} {rest : Worklist}
    (leads : a.LeadsOn g limit s n rest) {fault : ε}
    (refused : a.leaving g n (a.arriving g s.facts n) = .error fault) :
    a.turn g limit .never s = .failed n (.transfer n fault) := by
  simp [turn, Signal.never, leads.popped, visit, Nat.not_lt.mpr leads.within, refused]

theorem LeadsOn.turn_ok {s : Run α} {n : NodeId} {rest : Worklist} (leads : a.LeadsOn g limit s n rest)
    {outgoing : Labeled α} (left : a.leaving g n (a.arriving g s.facts n) = .ok outgoing) :
    a.turn g limit .never s = .visited n
      { facts := s.facts.set n (some ⟨a.arriving g s.facts n, outgoing⟩)
        visits := s.visits.set n (s.visits.get n + 1)
        worklist := rest
        iterations := s.iterations + 1 } := by
  simp [turn, Signal.never, leads.popped, visit, Nat.not_lt.mpr leads.within, left, leads.pushAll]

/-- While every edge goes forward in the list of pending nodes, a run does what a sweep over them does. -/
theorem runWithin_eq_sweep {order : List NodeId} (distinct : order.Nodup)
    (onward : ∀ n rest, n :: rest <:+ order → ∀ m ∈ g.flowTargets a.direction n, m ∈ rest)
    (valid : 1 ≤ limit) {todo : List NodeId} (part : todo <:+ order) {s : Run α}
    (coherent : s.worklist.Coherent) (pending : s.worklist.pending = todo)
    (unvisited : ∀ n ∈ todo, s.visits.get n = 0) {turns : Nat} (enough : todo.length < turns) :
    a.runWithin g limit .never turns s = some (a.sweep g todo s.facts s.visits s.iterations).2 ∧
      a.takenWithin g limit .never turns s = (a.sweep g todo s.facts s.visits s.iterations).1 := by
  induction todo generalizing s turns with
  | nil =>
    obtain ⟨turns, rfl⟩ := Nat.exists_eq_add_one.mpr enough
    have finished : a.turn g limit .never s = .finished := by
      simp [turn, Signal.never, Worklist.pop_eq_none_iff.mpr pending]
    simp [runWithin, takenWithin, finished, sweep]
  | cons n rest ih =>
    obtain ⟨turns, rfl⟩ := Nat.exists_eq_add_one.mpr (Nat.zero_lt_of_lt enough)
    have first := unvisited n List.mem_cons_self
    obtain ⟨others, popped, remaining⟩ := Worklist.pop_of_pending pending
    have coherent' := Worklist.pop_coherent coherent popped
    have leads : a.LeadsOn g limit s n others :=
      ⟨popped, coherent', fun m target => remaining ▸ onward n rest part m target, by omega⟩
    cases left : a.leaving g n (a.arriving g s.facts n) with
    | error fault => simp [runWithin, takenWithin, leads.turn_error left, sweep, left]
    | ok outgoing =>
      have fresh : n ∉ rest := (List.nodup_cons.mp (distinct.sublist part.sublist)).1
      have still (m : NodeId) (member : m ∈ rest) : (s.visits.set n (s.visits.get n + 1)).get m = 0 := by
        have other : m ≠ n := fun same => fresh (same ▸ member)
        rw [NodeMap.get_set_of_ne _ _ other]
        exact unvisited m (List.mem_cons_of_mem _ member)
      obtain ⟨ran, took⟩ := ih ((List.suffix_cons n rest).trans part)
        (s := ⟨s.facts.set n (some ⟨a.arriving g s.facts n, outgoing⟩),
          s.visits.set n (s.visits.get n + 1), others, s.iterations + 1⟩)
        coherent' remaining still (Nat.lt_of_succ_lt_succ enough)
      simp [runWithin, takenWithin, leads.turn_ok left, sweep, left, ran, took]

/-- A sweep visits every node once, or stops at the first one whose transfer is refused. -/
theorem sweep_cases (a : Analysis I α ε) (g : Graph I) (order : List NodeId)
    (facts : NodeMap (Option (Facts α))) (visits : NodeMap Nat) (iterations : Nat) :
    (∃ r, a.sweep g order facts visits iterations = (order, .ok r) ∧
      (∀ n, r.visits.get n = visits.get n + order.count n) ∧ r.iterations = iterations + order.length) ∨
    ∃ before n after fault, order = before ++ n :: after ∧
      a.sweep g order facts visits iterations = (before ++ [n], .error (.transfer n fault)) := by
  induction order generalizing facts visits iterations with
  | nil => exact .inl ⟨_, rfl, fun n => by simp, rfl⟩
  | cons n rest ih =>
    cases left : a.leaving g n (a.arriving g facts n) with
    | error fault => exact .inr ⟨[], n, rest, fault, rfl, by simp [sweep, left]⟩
    | ok outgoing =>
      rcases ih (facts.set n (some ⟨a.arriving g facts n, outgoing⟩)) (visits.set n (visits.get n + 1))
          (iterations + 1) with ⟨r, swept, counts, total⟩ | ⟨before, m, after, fault, parted, swept⟩
      · refine .inl ⟨r, by simp [sweep, left, swept], ?_, ?_⟩
        · intro m
          rw [counts, NodeMap.get_set, List.count_cons]
          by_cases same : m = n
          · subst same
            rw [if_pos rfl, if_pos (beq_self_eq_true m)]
            omega
          · simp [same, Ne.symm same]
        · rw [total, List.length_cons]
          omega
      · exact .inr ⟨n :: before, m, after, fault, by rw [parted]; rfl, by simp [sweep, left, swept]⟩

/-- On an acyclic graph `solve` is a sweep in reverse postorder, whatever the discipline and the bound. -/
theorem solve_eq_sweep (wellFormed : g.WellFormed) (acyclic : g.Acyclic a.direction)
    {config : SolverConfig} (valid : 1 ≤ config.maxVisits) :
    a.solve g config .never =
        (a.sweep g (g.reversePostorder a.direction) (a.seed g) (.const 0) 0).2 ∧
      a.taken g config .never =
        (a.sweep g (g.reversePostorder a.direction) (a.seed g) (.const 0) 0).1 := by
  have accepted : config.validate = .ok () := by
    rw [SolverConfig.validate, if_neg (Nat.ne_of_gt valid)]
  have distinct := Graph.reversePostorder_nodup wellFormed a.direction
  have enough : (g.reversePostorder a.direction).length < a.turnBound g config.maxVisits :=
    Nat.lt_succ_of_le (Nat.le_mul_of_pos_right _ valid)
  obtain ⟨ran, took⟩ := runWithin_eq_sweep distinct
    (fun _ _ suffix _ target => acyclic.descends wellFormed suffix target) valid List.suffix_rfl
    (s := a.begin g config.order) (Worklist.seeded_coherent _ _) (Worklist.pending_seeded _ distinct)
    (fun n _ => NodeMap.get_const 0 n) enough
  constructor
  · simp only [solve, accepted, ran, Option.getD_some]
    rfl
  · simp only [taken, accepted, took]
    rfl

/-- On an acyclic graph every configuration has the same outcome. Either the reachable nodes were taken in
reverse postorder, once each, or the run has stopped in that order at a refused transfer. -/
theorem solve_acyclic (a : Analysis I α ε) {g : Graph I} (built : g.Built) (acyclic : g.Acyclic a.direction)
    {config config' : SolverConfig} (valid : 1 ≤ config.maxVisits) (valid' : 1 ≤ config'.maxVisits) :
    a.solve g config .never = a.solve g config' .never ∧
    a.taken g config .never = a.taken g config' .never ∧
    (g.reversePostorder a.direction).Nodup ∧
    (∀ n, n ∈ g.reversePostorder a.direction ↔ g.Reachable a.direction n) ∧
    ((∃ r, a.solve g config .never = .ok r ∧
        a.taken g config .never = g.reversePostorder a.direction ∧
        (∀ n, g.Reachable a.direction n → r.visits.get n = 1) ∧
        (∀ n, ¬g.Reachable a.direction n → r.visits.get n = 0) ∧
        r.iterations = (g.reversePostorder a.direction).length) ∨
      ∃ before n after fault, a.solve g config .never = .error (.transfer n fault) ∧
        g.reversePostorder a.direction = before ++ n :: after ∧
        a.taken g config .never = before ++ [n]) := by
  have wellFormed := built.wellFormed
  have distinct := Graph.reversePostorder_nodup wellFormed a.direction
  have listed := Graph.mem_reversePostorder wellFormed a.direction
  obtain ⟨solved, took⟩ := solve_eq_sweep wellFormed acyclic valid
  obtain ⟨solved', took'⟩ := solve_eq_sweep wellFormed acyclic valid'
  refine ⟨solved.trans solved'.symm, took.trans took'.symm, distinct, listed, ?_⟩
  rcases a.sweep_cases g (g.reversePostorder a.direction) (a.seed g) (.const 0) 0 with
    ⟨r, swept, counts, total⟩ | ⟨before, n, after, fault, parted, swept⟩
  · left
    rw [swept] at solved took
    refine ⟨r, solved, took, ?_, ?_, by simpa using total⟩
    · intro n reachable
      rw [counts, NodeMap.get_const, List.count_eq_one_of_mem distinct ((listed n).mpr reachable)]
    · intro n unreachable
      rw [counts, NodeMap.get_const, List.count_eq_zero_of_not_mem (mt (listed n).mp unreachable)]
  · right
    rw [swept] at solved took
    exact ⟨before, n, after, fault, solved, parted, took⟩

/-- A branch whose arms meet again, where an arm that is never entered meets them too. -/
def diamond : Graph Unit :=
  .build [.instruction (), .instruction (), .instruction (), .instruction (), .edge .start ⟨2⟩ .normal,
    .edge ⟨2⟩ ⟨4⟩ .whenTrue, .edge ⟨2⟩ ⟨3⟩ .whenFalse, .edge ⟨3⟩ ⟨4⟩ .normal, .edge ⟨4⟩ .finish .normal,
    .edge ⟨5⟩ ⟨4⟩ .normal]

theorem diamond_built : diamond.Built := ⟨_, rfl⟩

theorem diamond_acyclic : diamond.Acyclic .forward := by
  apply Graph.acyclic_of_rank diamond_built.wellFormed fun n => if n = .finish then 5 else n.index
  decide

theorem solve_acyclic_diamond :
    flicker.solve diamond ⟨1, .fifo⟩ .never = flicker.solve diamond ⟨7, .lifo⟩ .never ∧
      flicker.taken diamond ⟨1, .fifo⟩ .never = [.start, ⟨2⟩, ⟨3⟩, ⟨4⟩, .finish] := by
  have valid : 1 ≤ (⟨1, .fifo⟩ : SolverConfig).maxVisits := by decide
  have valid' : 1 ≤ (⟨7, .lifo⟩ : SolverConfig).maxVisits := by decide
  obtain ⟨same, _, _, _, ⟨r, _, took, _⟩ | ⟨_, n, _, fault, failed, _⟩⟩ :=
    solve_acyclic flicker diamond_built diamond_acyclic valid valid'
  · exact ⟨same, took.trans (by decide)⟩
  · have succeeds : (flicker.solve diamond ⟨1, .fifo⟩ .never).isOk = true := by decide
    rw [failed] at succeeds
    contradiction

end Dataflow.Analysis
