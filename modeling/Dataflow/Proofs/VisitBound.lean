import Dataflow.Proofs.Accounting
import Dataflow.Proofs.Stability

/-! One run under two bounds. A turn asks the bound only whether the node that it takes may be visited once
more, so two bounds that both leave room for it make the same of the turn, and by induction of the whole run.
The bound therefore decides whether there is a result, never which. No law of the lattice and no property of
the transfer function is used. -/

namespace Dataflow

variable {I α ε : Type}

namespace Solution

/-- The largest number of visits among the given nodes. -/
def mostVisits (r : Solution α) (nodes : List NodeId) : Nat :=
  nodes.foldr (fun n most => max (r.visits.get n) most) 0

theorem lt_mostVisits {r : Solution α} {nodes : List NodeId} {bound : Nat} :
    bound < r.mostVisits nodes ↔ ∃ n ∈ nodes, bound < r.visits.get n := by
  induction nodes with
  | nil => simp [mostVisits]
  | cons n rest ih =>
    have step : r.mostVisits (n :: rest) = max (r.visits.get n) (r.mostVisits rest) := rfl
    simp only [List.mem_cons, exists_eq_or_imp, ← ih, step]
    omega

end Solution

namespace Analysis

variable {a : Analysis I α ε} {g : Graph I} {limit limit' : Nat} {signal : Signal}

/-- Two bounds with room for the node that is taken next make the same of a turn. -/
theorem turn_rebound {s : Run α}
    (room : ∀ n rest, s.worklist.pop? = some (n, rest) →
      s.visits.get n + 1 ≤ limit ∧ s.visits.get n + 1 ≤ limit') :
    a.turn g limit' signal s = a.turn g limit signal s := by
  unfold turn
  split
  · rfl
  · cases popped : s.worklist.pop? with
    | none => rfl
    | some head =>
      obtain ⟨n, rest⟩ := head
      obtain ⟨first, second⟩ := room n rest popped
      simp only [visit, if_neg (Nat.not_lt.mpr first), if_neg (Nat.not_lt.mpr second)]

/-- Visit counts never fall, so a bound with room for the counts at the end has room at every turn before. -/
theorem Steps.rebound {s final : Run α} {taken : List NodeId} (steps : a.Steps g limit signal s taken final)
    (room : ∀ n, final.visits.get n ≤ limit') : a.Steps g limit' signal s taken final := by
  induction steps with
  | refl s => exact .refl s
  | @visited s next final m taken visited later ih =>
    have count := (Steps.visited visited later).visits m
    rw [List.count_cons_self] at count
    have same : a.turn g limit' signal s = a.turn g limit signal s := by
      obtain ⟨rest, outgoing, popped, within, _, _⟩ := turn_visited visited
      apply turn_rebound
      intro n others popped'
      cases popped.symm.trans popped'
      have most := room m
      omega
    exact .visited (same.trans visited) (ih room)

/-- A run that its bound does not end had room for the node on which it ends. -/
theorem Stops.within {s : Run α} {last : List NodeId} {outcome : Except (Failure ε) (Solution α)}
    (stops : a.Stops g limit signal s last outcome)
    (other : ∀ n bound, outcome ≠ .error (.nonConvergent n bound)) :
    ∀ n ∈ last, s.visits.get n + 1 ≤ limit := by
  cases stops with
  | cancelled | finished => simp
  | @failed m failure failed =>
    obtain ⟨rest, _, ⟨_, rfl⟩ | ⟨within, _⟩⟩ := turn_failed failed
    · exact absurd rfl (other m limit)
    · simpa using within

theorem Stops.rebound {s : Run α} {last : List NodeId} {outcome : Except (Failure ε) (Solution α)}
    (stops : a.Stops g limit signal s last outcome)
    (other : ∀ n bound, outcome ≠ .error (.nonConvergent n bound))
    (room : ∀ n ∈ last, s.visits.get n + 1 ≤ limit') : a.Stops g limit' signal s last outcome := by
  have within := stops.within other
  cases stops with
  | cancelled cancelled =>
    -- The signal is asked before the worklist, so here no bound matters.
    have heard := turn_cancelled cancelled
    exact .cancelled (by simp [turn, heard])
  | finished finished =>
    have same : a.turn g limit' signal s = a.turn g limit signal s := by
      apply turn_rebound
      intro n rest popped
      have idle := turn_finished finished
      simp [Worklist.pending_of_pop popped] at idle
    exact .finished (same.trans finished)
  | @failed m failure failed =>
    have same : a.turn g limit' signal s = a.turn g limit signal s := by
      obtain ⟨rest, popped, _⟩ := turn_failed failed
      apply turn_rebound
      intro n others popped'
      cases popped.symm.trans popped'
      exact ⟨within m List.mem_cons_self, room m List.mem_cons_self⟩
    exact .failed (same.trans failed)

variable {order : Discipline} {bound bound' : Nat}

/-- A larger bound keeps every outcome but that of the bound itself. -/
theorem solve_of_le (wellFormed : g.WellFormed) (valid : 1 ≤ bound) (le : bound ≤ bound')
    (other : ∀ n limit, a.solve g ⟨bound, order⟩ signal ≠ .error (.nonConvergent n limit)) :
    a.solve g ⟨bound', order⟩ signal = a.solve g ⟨bound, order⟩ signal := by
  have accepted : 1 ≤ (SolverConfig.mk bound order).maxVisits := valid
  have accepted' : 1 ≤ (SolverConfig.mk bound' order).maxVisits := Nat.le_trans valid le
  obtain ⟨taken, final, last, steps, stops, _⟩ := a.solve_run wellFormed accepted signal
  have counted := (steps.moment .begin).counted wellFormed
  have steps' := steps.rebound fun n => Nat.le_trans (counted.bounded n) le
  have stops' := stops.rebound other fun n member => Nat.le_trans (stops.within other n member) le
  exact (solve_of_stops wellFormed accepted' steps' stops').1

/-- A solution is found under every bound with room for its visits. -/
theorem solve_of_visits (wellFormed : g.WellFormed) {r : Solution α}
    (solved : a.solve g ⟨bound, order⟩ signal = .ok r) (valid : 1 ≤ bound')
    (room : ∀ n, r.visits.get n ≤ bound') : a.solve g ⟨bound', order⟩ signal = .ok r := by
  have accepted' : 1 ≤ (SolverConfig.mk bound' order).maxVisits := valid
  obtain ⟨taken, final, last, steps, stops, _⟩ := a.solve_run wellFormed (valid_of_solve solved) signal
  rw [solved] at stops
  obtain ⟨rfl, _, rfl⟩ := stops.ok
  exact (solve_of_stops wellFormed accepted' (steps.rebound room) (stops.rebound (by simp) (by simp))).1

theorem limit_of_nonConvergent (wellFormed : g.WellFormed) (valid : 1 ≤ bound) {n : NodeId} {limit : Nat}
    (failed : a.solve g ⟨bound, order⟩ signal = .error (.nonConvergent n limit)) : limit = bound := by
  have accepted : 1 ≤ (SolverConfig.mk bound order).maxVisits := valid
  obtain ⟨taken, final, last, steps, stops, _⟩ := a.solve_run wellFormed accepted signal
  rw [failed] at stops
  exact stops.nonConvergent.2.1

/-- Where a solution needs more visits than a bound allows, the bound ends the run: it would otherwise end
in the same solution, for whose visits it has no room. -/
theorem solve_of_lt_visits (wellFormed : g.WellFormed) {r : Solution α}
    (solved : a.solve g ⟨bound, order⟩ signal = .ok r) (valid : 1 ≤ bound') {n : NodeId}
    (exceeded : bound' < r.visits.get n) :
    ∃ m, a.solve g ⟨bound', order⟩ signal = .error (.nonConvergent m bound') := by
  have fits {config : SolverConfig} (found : a.solve g config signal = .ok r) :
      r.visits.get n ≤ config.maxVisits := by
    obtain ⟨final, moment, _, rfl⟩ := solve_ok found
    exact (moment.counted wellFormed).bounded n
  have le : bound' ≤ bound := Nat.le_of_lt (Nat.lt_of_lt_of_le exceeded (fits solved))
  apply Classical.byContradiction
  intro never
  have other (m : NodeId) (limit : Nat) :
      a.solve g ⟨bound', order⟩ signal ≠ .error (.nonConvergent m limit) := by
    intro failed
    cases limit_of_nonConvergent wellFormed valid failed
    exact never ⟨m, failed⟩
  have same := solve_of_le wellFormed valid le other
  have room : r.visits.get n ≤ bound' := fits (same.symm.trans solved)
  omega

/-- The bound decides only failure. A solution whose nodes have at most `m` visits, and one of them `m`, is
found under every bound from `m` on, and under a smaller one the run does not converge; a fault of the client
is met under every larger bound. -/
theorem solve_bound_decides (a : Analysis I α ε) {g : Graph I} (built : g.Built) (order : Discipline)
    (signal : Signal) :
    (∀ bound r, a.solve g ⟨bound, order⟩ signal = .ok r → ∀ bound',
      (r.mostVisits g.ids ≤ bound' → a.solve g ⟨bound', order⟩ signal = .ok r) ∧
      (1 ≤ bound' → bound' < r.mostVisits g.ids →
        ∃ n, a.solve g ⟨bound', order⟩ signal = .error (.nonConvergent n bound'))) ∧
    ∀ bound n fault, a.solve g ⟨bound, order⟩ signal = .error (.transfer n fault) → ∀ bound', bound ≤ bound' →
      a.solve g ⟨bound', order⟩ signal = .error (.transfer n fault) := by
  have wellFormed := built.wellFormed
  constructor
  · intro bound r solved bound'
    have accounts := accounts_of_solve wellFormed solved
    constructor
    · intro enough
      have room (n : NodeId) : r.visits.get n ≤ bound' := by
        by_cases reachable : g.Reachable a.direction n
        · apply Nat.le_of_not_lt
          intro exceeded
          have listed : n ∈ g.ids := (Graph.mem_ids wellFormed n).mpr (reachable.inside wellFormed)
          have most := Solution.lt_mostVisits.mpr ⟨n, listed, exceeded⟩
          omega
        · rw [accounts.unreached n reachable]
          exact Nat.zero_le _
      -- The root is visited at least once, so the bound is a valid one.
      have valid : 1 ≤ bound' := Nat.le_trans (accounts.reached _ .root).1 (room _)
      exact solve_of_visits wellFormed solved valid room
    · intro valid few
      obtain ⟨n, _, exceeded⟩ := Solution.lt_mostVisits.mp few
      exact solve_of_lt_visits wellFormed solved valid exceeded
  · intro bound n fault failed bound' le
    have valid : 1 ≤ bound := by
      apply Nat.pos_of_ne_zero
      rintro rfl
      cases (a.solve_unvisited g order signal).symm.trans failed
    have same : a.solve g ⟨bound', order⟩ signal = a.solve g ⟨bound, order⟩ signal := by
      apply solve_of_le wellFormed valid le
      simp [failed]
    exact same.trans failed

/-- A client that holds on to what it has seen and gives up when a value comes back to it. -/
def stumbling : Analysis Unit Bool String where
  direction := .forward
  ops := ⟨false, id, fun x y => x || y, fun x y => !x || y, fun x y => x == y⟩
  entry := fun _ => false
  transfer := fun _ _ x => if x then .error "no transfer case" else .ok (.single true)

/-- The loop of live variables needs two visits to a node, and one is not enough. The second visit to a node
that goes back to itself is refused by the client, under a bound of two and under any other. -/
theorem solve_bound_decides_loop :
    (∃ r, Liveness.analysis.solve .countingLoop ⟨5, .fifo⟩ .never = .ok r ∧
      r.mostVisits Graph.countingLoop.ids = 2 ∧
      Liveness.analysis.solve .countingLoop ⟨2, .fifo⟩ .never = .ok r ∧
      ∃ n, Liveness.analysis.solve .countingLoop ⟨1, .fifo⟩ .never = .error (.nonConvergent n 1)) ∧
    stumbling.solve selfLoop ⟨2, .lifo⟩ .never = .error (.transfer ⟨2⟩ "no transfer case") ∧
      stumbling.solve selfLoop ⟨1000, .lifo⟩ .never = .error (.transfer ⟨2⟩ "no transfer case") := by
  have shown : (Liveness.analysis.solve .countingLoop ⟨5, .fifo⟩ .never).toOption.map
      (fun r => r.mostVisits Graph.countingLoop.ids) = some 2 := by decide +kernel
  have failed : stumbling.solve selfLoop ⟨2, .lifo⟩ .never = .error (.transfer ⟨2⟩ "no transfer case") := by rfl
  obtain ⟨r, solved, most⟩ := exists_of_shown shown
  have loop := (solve_bound_decides Liveness.analysis Graph.countingLoop_built .fifo .never).1 5 r solved
  have stumble := (solve_bound_decides stumbling ⟨_, rfl⟩ .lifo .never).2 2 ⟨2⟩ "no transfer case" failed
  exact ⟨⟨r, solved, most, (loop 2).1 (by omega), (loop 1).2 (by omega) (by omega)⟩, failed,
    stumble 1000 (by omega)⟩

end Analysis

end Dataflow
