import Dataflow.Proofs.Run
import Mathlib.Algebra.Order.BigOperators.Group.List
import Mathlib.Algebra.Order.Ring.Nat

/-! Every run ends, whatever the client and its lattice. The nodes that a run takes are balanced against
its visit counts turn by turn, and no node may be visited more often than the bound, so the turns allowed
by `solve` are never used up. No law of the lattice and no property of the transfer function is used. -/

namespace Dataflow

/-- Counting one node once more adds one to a sum over nodes that lists it once. -/
theorem sum_counts_set {nodes : List NodeId} (distinct : nodes.Nodup) (counts : NodeMap Nat) {n : NodeId}
    (listed : n ∈ nodes) :
    (nodes.map (counts.set n (counts.get n + 1)).get).sum = (nodes.map counts.get).sum + 1 := by
  have others : (nodes.erase n).map (counts.set n (counts.get n + 1)).get = (nodes.erase n).map counts.get :=
    List.map_congr_left fun m later => NodeMap.get_set_of_ne _ _ (distinct.mem_erase_iff.mp later).1
  rw [← List.sum_map_erase _ listed, ← List.sum_map_erase counts.get listed, others, NodeMap.get_set_self]
  omega

namespace Analysis

variable {I α ε : Type} {a : Analysis I α ε} {g : Graph I} {limit : Nat} {signal : Signal}

/-- The turns that lead from one state of a run to another, with the nodes that they visit. -/
inductive Steps (a : Analysis I α ε) (g : Graph I) (limit : Nat) (signal : Signal) :
    Run α → List NodeId → Run α → Prop where
  | refl (s : Run α) : Steps a g limit signal s [] s
  | visited {s next final : Run α} {n : NodeId} {taken : List NodeId} :
      a.turn g limit signal s = .visited n next → Steps a g limit signal next taken final →
      Steps a g limit signal s (n :: taken) final

/-- A turn that ends the run, with the node that it has taken, if any, and the outcome. -/
inductive Stops (a : Analysis I α ε) (g : Graph I) (limit : Nat) (signal : Signal) (s : Run α) :
    List NodeId → Except (Failure ε) (Solution α) → Prop where
  | cancelled : a.turn g limit signal s = .cancelled →
      Stops a g limit signal s [] (.error (.cancelled s.iterations))
  | finished : a.turn g limit signal s = .finished →
      Stops a g limit signal s [] (.ok ⟨a.direction, s.facts, s.visits, s.iterations⟩)
  | failed {n : NodeId} {failure : Failure ε} : a.turn g limit signal s = .failed n failure →
      Stops a g limit signal s [n] (.error failure)

theorem Steps.moment {config : SolverConfig} {s final : Run α} {taken : List NodeId}
    (moment : a.Moment g config signal s) (steps : a.Steps g config.maxVisits signal s taken final) :
    a.Moment g config signal final := by
  induction steps with
  | refl => exact moment
  | visited visited _ ih => exact ih (moment.visited visited)

/-- The balance of a run: the visits of a node are the times that it was taken. -/
theorem Steps.visits {s final : Run α} {taken : List NodeId} (steps : a.Steps g limit signal s taken final)
    (n : NodeId) : final.visits.get n = s.visits.get n + taken.count n := by
  induction steps with
  | refl => simp
  | @visited s next final m taken visited _ ih =>
    obtain ⟨rest, outgoing, _, _, _, rfl⟩ := turn_visited visited
    rw [ih, NodeMap.get_set, List.count_cons]
    by_cases same : n = m
    · subst same
      rw [if_pos rfl, if_pos (beq_self_eq_true n)]
      omega
    · simp [same, Ne.symm same]

theorem Steps.visits_begin {order : Discipline} {final : Run α} {taken : List NodeId}
    (steps : a.Steps g limit signal (a.begin g order) taken final) (n : NodeId) :
    final.visits.get n = taken.count n := by
  have balance := steps.visits n
  rwa [begin, NodeMap.get_const, Nat.zero_add] at balance

theorem Steps.iterations {s final : Run α} {taken : List NodeId}
    (steps : a.Steps g limit signal s taken final) :
    final.iterations = s.iterations + taken.length := by
  induction steps with
  | refl => simp
  | visited visited _ ih =>
    rw [ih, iterations_of_turn visited, List.length_cons]
    omega

theorem Steps.iterations_begin {order : Discipline} {final : Run α} {taken : List NodeId}
    (steps : a.Steps g limit signal (a.begin g order) taken final) : final.iterations = taken.length :=
  steps.iterations.trans (Nat.zero_add _)

/-- With any number of turns a run either stops before they are used up or visits a node in each. -/
theorem stops_or_steps (a : Analysis I α ε) (g : Graph I) (limit : Nat) (signal : Signal) (turns : Nat)
    (s : Run α) :
    (∃ taken final last outcome, a.Steps g limit signal s taken final ∧
      a.Stops g limit signal final last outcome ∧ taken.length < turns) ∨
    ∃ taken final, a.Steps g limit signal s taken final ∧ taken.length = turns := by
  induction turns generalizing s with
  | zero => exact .inr ⟨[], s, .refl s, rfl⟩
  | succ turns ih =>
    cases turned : a.turn g limit signal s with
    | cancelled => exact .inl ⟨[], s, _, _, .refl s, .cancelled turned, Nat.succ_pos _⟩
    | finished => exact .inl ⟨[], s, _, _, .refl s, .finished turned, Nat.succ_pos _⟩
    | failed n failure => exact .inl ⟨[], s, _, _, .refl s, .failed turned, Nat.succ_pos _⟩
    | visited n next =>
      rcases ih next with ⟨taken, final, last, outcome, steps, stops, short⟩ | ⟨taken, final, steps, all⟩
      · exact .inl ⟨n :: taken, final, last, outcome, .visited turned steps, stops, Nat.succ_lt_succ short⟩
      · exact .inr ⟨n :: taken, final, .visited turned steps, congrArg (· + 1) all⟩

/-- A run that stops has the same outcome with any number of turns that lets it stop. -/
theorem Steps.outcome {s final : Run α} {taken last : List NodeId} {outcome : Except (Failure ε) (Solution α)}
    (steps : a.Steps g limit signal s taken final) (stops : a.Stops g limit signal final last outcome)
    {turns : Nat} (enough : taken.length < turns) :
    a.runWithin g limit signal turns s = some outcome ∧
      a.takenWithin g limit signal turns s = taken ++ last := by
  induction steps generalizing turns with
  | refl s =>
    obtain ⟨turns, rfl⟩ := Nat.exists_eq_add_one.mpr enough
    cases stops with
    | cancelled turned => simp [runWithin, takenWithin, turned]
    | finished turned => simp [runWithin, takenWithin, turned]
    | failed turned => simp [runWithin, takenWithin, turned]
  | visited visited _ ih =>
    obtain ⟨turns, rfl⟩ := Nat.exists_eq_add_one.mpr (Nat.zero_lt_of_lt enough)
    have later := ih stops (Nat.lt_of_succ_lt_succ enough)
    simp [runWithin, takenWithin, visited, later]

theorem Steps.takenWithin {s final : Run α} {taken : List NodeId}
    (steps : a.Steps g limit signal s taken final) :
    a.takenWithin g limit signal taken.length s = taken := by
  induction steps with
  | refl => rfl
  | visited visited _ ih => simp [Analysis.takenWithin, visited, ih]

/-- The visit counts of a state: none above the bound, none at an unreachable node, at least one at a
reachable node that is no longer pending, and together as many as the turns so far. -/
structure Counted (a : Analysis I α ε) (g : Graph I) (limit : Nat) (s : Run α) : Prop where
  bounded : ∀ n, s.visits.get n ≤ limit
  begun : ∀ n, g.Reachable a.direction n → n ∈ s.worklist.pending ∨ 1 ≤ s.visits.get n
  unreached : ∀ n, ¬g.Reachable a.direction n → s.visits.get n = 0
  total : ∀ nodes : List NodeId, nodes.Nodup → (∀ n, g.Reachable a.direction n → n ∈ nodes) →
    s.iterations = (nodes.map s.visits.get).sum

theorem begin_counted (a : Analysis I α ε) {g : Graph I} (wellFormed : g.WellFormed) (limit : Nat)
    (order : Discipline) : a.Counted g limit (a.begin g order) := by
  have unvisited (n : NodeId) : (a.begin g order).visits.get n = 0 := NodeMap.get_const 0 n
  refine ⟨fun n => by simp [unvisited], ?_, fun n _ => unvisited n, ?_⟩
  · intro n reachable
    left
    rw [begin, Worklist.mem_seeded]
    exact (Graph.mem_reversePostorder wellFormed _ n).mpr reachable
  · intro nodes _ _
    have zero : (a.begin g order).visits.get = fun _ => 0 := funext unvisited
    rw [zero, List.sum_map_zero]
    rfl

theorem visited_counted {s next : Run α} {n : NodeId} (tracks : a.Tracks g s)
    (counted : a.Counted g limit s) (visited : a.turn g limit signal s = .visited n next) :
    a.Counted g limit next := by
  obtain ⟨rest, outgoing, popped, within, _, rfl⟩ := turn_visited visited
  have list := Worklist.pending_of_pop popped
  have coherent := Worklist.pop_coherent tracks.coherent popped
  have here : g.Reachable a.direction n := tracks.pending n (by simp [list])
  constructor
  · intro m
    rw [NodeMap.get_set]
    split
    · exact within
    · exact counted.bounded m
  · intro m reachable
    rw [NodeMap.get_set, Worklist.mem_pushAll coherent]
    by_cases same : m = n
    · right
      rw [if_pos same]
      omega
    · rw [if_neg same]
      have before := counted.begun m reachable
      rw [list, List.mem_cons] at before
      rcases before with (isNode | waiting) | already
      · exact absurd isNode same
      · exact .inl (.inr waiting)
      · exact .inr already
  · intro m unreachable
    have other : m ≠ n := fun same => unreachable (same ▸ here)
    rw [NodeMap.get_set_of_ne _ _ other]
    exact counted.unreached m unreachable
  · intro nodes distinct all
    rw [sum_counts_set distinct _ (all n here), ← counted.total nodes distinct all]

theorem Moment.counted {config : SolverConfig} {s : Run α} (wellFormed : g.WellFormed)
    (moment : a.Moment g config signal s) : a.Counted g config.maxVisits s := by
  induction moment with
  | begin => exact begin_counted a wellFormed _ _
  | visited moment visited ih => exact visited_counted (moment.tracks wellFormed) ih visited

/-- The budget: no run visits more nodes than it has reachable ones times the bound. -/
theorem Steps.length_le {config : SolverConfig} (wellFormed : g.WellFormed) {final : Run α}
    {taken : List NodeId}
    (steps : a.Steps g config.maxVisits signal (a.begin g config.order) taken final) :
    taken.length ≤ (g.reversePostorder a.direction).length * config.maxVisits := by
  have counted := (steps.moment .begin).counted wellFormed
  have total := counted.total _ (Graph.reversePostorder_nodup wellFormed a.direction)
    fun n => (Graph.mem_reversePostorder wellFormed a.direction n).mpr
  have balance : final.iterations = 0 + taken.length := steps.iterations
  have bound : ((g.reversePostorder a.direction).map final.visits.get).sum ≤
      (g.reversePostorder a.direction).length * config.maxVisits := by
    simpa using List.sum_le_card_nsmul ((g.reversePostorder a.direction).map final.visits.get) config.maxVisits
      (List.forall_mem_map.mpr fun n _ => counted.bounded n)
  omega

/-- A run that stops has the outcome of `solve`: its turns are within the budget. -/
theorem solve_of_stops (wellFormed : g.WellFormed) {config : SolverConfig} (valid : 1 ≤ config.maxVisits)
    {final : Run α} {taken last : List NodeId} {outcome : Except (Failure ε) (Solution α)}
    (steps : a.Steps g config.maxVisits signal (a.begin g config.order) taken final)
    (stops : a.Stops g config.maxVisits signal final last outcome) :
    a.solve g config signal = outcome ∧ a.taken g config signal = taken ++ last := by
  have accepted : config.validate = .ok () := by
    rw [SolverConfig.validate, if_neg (Nat.ne_of_gt valid)]
  have enough : taken.length < a.turnBound g config.maxVisits :=
    Nat.lt_succ_of_le (steps.length_le wellFormed)
  obtain ⟨ran, took⟩ := steps.outcome stops enough
  constructor
  · simp [solve, accepted, ran]
  · simp [Analysis.taken, accepted, took]

/-- The run that `solve` stands for: it stops within its budget, and its outcome is that of `solve`. -/
theorem solve_run (wellFormed : g.WellFormed) {config : SolverConfig} (valid : 1 ≤ config.maxVisits)
    (signal : Signal) : ∃ taken final last,
      a.Steps g config.maxVisits signal (a.begin g config.order) taken final ∧
      a.Stops g config.maxVisits signal final last (a.solve g config signal) ∧
      a.taken g config signal = taken ++ last := by
  rcases stops_or_steps a g config.maxVisits signal (a.turnBound g config.maxVisits)
      (a.begin g config.order) with
    ⟨taken, final, last, outcome, steps, stops, _⟩ | ⟨taken, final, steps, all⟩
  · obtain ⟨solved, took⟩ := solve_of_stops wellFormed valid steps stops
    exact ⟨taken, final, last, steps, solved ▸ stops, took⟩
  · have spent := steps.length_le wellFormed
    rw [all, turnBound] at spent
    omega

theorem Stops.ok {s : Run α} {last : List NodeId} {r : Solution α}
    (stops : a.Stops g limit signal s last (.ok r)) :
    last = [] ∧ s.worklist.pending = [] ∧ r = ⟨a.direction, s.facts, s.visits, s.iterations⟩ := by
  cases stops with
  | finished finished => exact ⟨rfl, turn_finished finished, rfl⟩

theorem Stops.nonConvergent {s : Run α} {last : List NodeId} {n : NodeId} {bound : Nat}
    (stops : a.Stops g limit signal s last (.error (.nonConvergent n bound))) :
    last = [n] ∧ bound = limit ∧ n ∈ s.worklist.pending ∧ limit < s.visits.get n + 1 := by
  cases stops with
  | failed failed =>
    obtain ⟨rest, popped, ⟨exceeded, same⟩ | ⟨_, fault, _, same⟩⟩ := turn_failed failed
    · cases same
      exact ⟨rfl, rfl, by simp [Worklist.pending_of_pop popped], exceeded⟩
    · cases same

/-- However many turns a run may have, it takes at most one node more than the budget; with more turns
than the budget it has ended, with the outcome of `solve`. -/
structure EndsWithin (a : Analysis I α ε) (g : Graph I) (config : SolverConfig) (signal : Signal)
    (budget : Nat) : Prop where
  taken : ∀ turns, (a.takenWithin g config.maxVisits signal turns (a.begin g config.order)).length ≤
    budget + 1
  ended : ∀ turns, budget < turns →
    a.runWithin g config.maxVisits signal turns (a.begin g config.order) =
      some (a.solve g config signal) ∧
    a.takenWithin g config.maxVisits signal turns (a.begin g config.order) = a.taken g config signal

theorem Stops.length_le {s : Run α} {last : List NodeId} {outcome : Except (Failure ε) (Solution α)}
    (stops : a.Stops g limit signal s last outcome) : last.length ≤ 1 := by
  cases stops <;> simp

theorem endsWithin (wellFormed : g.WellFormed) {config : SolverConfig} (valid : 1 ≤ config.maxVisits)
    (signal : Signal) :
    a.EndsWithin g config signal ((g.reversePostorder a.direction).length * config.maxVisits) := by
  constructor
  · intro turns
    rcases stops_or_steps a g config.maxVisits signal turns (a.begin g config.order) with
      ⟨taken, final, last, outcome, steps, stops, short⟩ | ⟨taken, final, steps, all⟩
    · have spent := steps.length_le wellFormed
      have one := stops.length_le
      rw [(steps.outcome stops short).2, List.length_append]
      omega
    · have spent := steps.length_le wellFormed
      rw [← all, steps.takenWithin]
      omega
  · intro turns enough
    obtain ⟨taken, final, last, steps, stops, took⟩ := a.solve_run wellFormed valid signal
    rw [took]
    exact steps.outcome stops (Nat.lt_of_le_of_lt (steps.length_le wellFormed) enough)

/-- What a solution says about the run that found it. -/
structure Accounts (a : Analysis I α ε) (g : Graph I) (config : SolverConfig) (signal : Signal)
    (r : Solution α) : Prop where
  facts : ∀ n, (∃ f, r.facts.get n = some f) ↔ g.Reachable a.direction n
  reached : ∀ n, g.Reachable a.direction n → 1 ≤ r.visits.get n ∧ r.visits.get n ≤ config.maxVisits
  unreached : ∀ n, ¬g.Reachable a.direction n → r.visits.get n = 0
  counts : ∀ n, r.visits.get n = (a.taken g config signal).count n
  iterations : r.iterations = (g.ids.map r.visits.get).sum

/-- What a run that has not converged was stopped by: one node, taken once too often. -/
structure Exceeds (a : Analysis I α ε) (g : Graph I) (config : SolverConfig) (signal : Signal)
    (n : NodeId) (bound : Nat) : Prop where
  bound : bound = config.maxVisits
  reachable : g.Reachable a.direction n
  once : (a.taken g config signal).count n = config.maxVisits + 1
  others : ∀ m, m ≠ n → (a.taken g config signal).count m ≤ config.maxVisits

theorem accounts_of_stops {config : SolverConfig} (wellFormed : g.WellFormed) {final : Run α}
    {taken last : List NodeId} {r : Solution α}
    (steps : a.Steps g config.maxVisits signal (a.begin g config.order) taken final)
    (stops : a.Stops g config.maxVisits signal final last (.ok r))
    (took : a.taken g config signal = taken ++ last) : a.Accounts g config signal r := by
  obtain ⟨rfl, idle, rfl⟩ := stops.ok
  have moment := steps.moment .begin
  have counted := moment.counted wellFormed
  constructor
  · exact (moment.tracks wellFormed).facts
  · intro n reachable
    refine ⟨?_, counted.bounded n⟩
    rcases counted.begun n reachable with waiting | already
    · simp [idle] at waiting
    · exact already
  · exact counted.unreached
  · intro n
    rw [took, List.append_nil]
    exact steps.visits_begin n
  · exact counted.total g.ids (Graph.ids_nodup wellFormed) fun n reachable =>
      (Graph.mem_ids wellFormed n).mpr (reachable.inside wellFormed)

theorem accounts_of_solve {config : SolverConfig} (wellFormed : g.WellFormed) {r : Solution α}
    (solved : a.solve g config signal = .ok r) : a.Accounts g config signal r := by
  have valid := valid_of_solve solved
  obtain ⟨taken, final, last, steps, stops, took⟩ := a.solve_run wellFormed valid signal
  exact accounts_of_stops wellFormed steps (solved ▸ stops) took

theorem exceeds_of_stops {config : SolverConfig} (wellFormed : g.WellFormed) {final : Run α}
    {taken last : List NodeId} {n : NodeId} {bound : Nat}
    (steps : a.Steps g config.maxVisits signal (a.begin g config.order) taken final)
    (stops : a.Stops g config.maxVisits signal final last (.error (.nonConvergent n bound)))
    (took : a.taken g config signal = taken ++ last) : a.Exceeds g config signal n bound := by
  obtain ⟨rfl, rfl, waiting, exceeded⟩ := stops.nonConvergent
  have moment := steps.moment .begin
  have counted := moment.counted wellFormed
  refine ⟨rfl, (moment.tracks wellFormed).pending n waiting, ?_, ?_⟩
  · have atBound := counted.bounded n
    rw [took, List.count_append, List.count_singleton_self, ← steps.visits_begin n]
    omega
  · intro m other
    rw [took, List.count_append, ← steps.visits_begin m]
    simpa [Ne.symm other] using counted.bounded m

/-- Every run ends within reachable nodes times allowed visits, and both of its kinds of outcome account
for the nodes that it took. -/
theorem solve_accounts (a : Analysis I α ε) {g : Graph I} (built : g.Built) {config : SolverConfig}
    (valid : 1 ≤ config.maxVisits) (signal : Signal) :
    ∃ reached : List NodeId, reached.Nodup ∧ (∀ n, n ∈ reached ↔ g.Reachable a.direction n) ∧
      a.EndsWithin g config signal (reached.length * config.maxVisits) ∧
      (∀ r, a.solve g config signal = .ok r → a.Accounts g config signal r) ∧
      ∀ n bound, a.solve g config signal = .error (.nonConvergent n bound) →
        a.Exceeds g config signal n bound := by
  have wellFormed := built.wellFormed
  obtain ⟨taken, final, last, steps, stops, took⟩ := a.solve_run wellFormed valid signal
  refine ⟨g.reversePostorder a.direction, Graph.reversePostorder_nodup wellFormed _,
    Graph.mem_reversePostorder wellFormed _, endsWithin wellFormed valid signal, ?_, ?_⟩
  · intro r solved
    exact accounts_of_stops wellFormed steps (solved ▸ stops) took
  · intro n bound failed
    exact exceeds_of_stops wellFormed steps (failed ▸ stops) took

/-- A client without laws: the last value wins a join, and every instruction negates it. -/
def flicker : Analysis Unit Bool String where
  direction := .forward
  ops := ⟨false, id, fun _ y => y, fun _ _ => true, fun x y => x == y⟩
  entry := fun _ => false
  transfer := fun _ _ x => .ok (.single (!x))

/-- One instruction that goes back to itself. -/
def selfLoop : Graph Unit :=
  .build [.instruction (), .edge .start ⟨2⟩ .normal, .edge ⟨2⟩ ⟨2⟩ .normal]

theorem solve_accounts_flicker :
    flicker.solve selfLoop ⟨3, .fifo⟩ .never = .error (.nonConvergent ⟨2⟩ 3) ∧
      flicker.Exceeds selfLoop ⟨3, .fifo⟩ .never ⟨2⟩ 3 := by
  have failed : flicker.solve selfLoop ⟨3, .fifo⟩ .never = .error (.nonConvergent ⟨2⟩ 3) := by rfl
  have valid : 1 ≤ (⟨3, .fifo⟩ : SolverConfig).maxVisits := by decide
  have built : selfLoop.Built := ⟨_, rfl⟩
  obtain ⟨_, _, _, _, _, exceeds⟩ := solve_accounts flicker built valid .never
  exact ⟨failed, exceeds _ _ failed⟩

end Analysis

end Dataflow
