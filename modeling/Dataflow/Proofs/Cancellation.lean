import Dataflow.Proofs.Accounting
import Dataflow.Proofs.Stability

/-! A run with a signal beside the run without. The signal is asked at the head of every turn, once, and a turn
that it lets pass is the turn of the run that nothing cancels. So the two runs go through the same states up to
the first answer that cancels, and an answer that no turn is left to hear changes nothing. -/

namespace Dataflow

variable {I α ε : Type}

namespace Analysis

/-- How many turns a run has that nothing cancels, among the given number: those that visit a node, and the one
that finds nothing pending or fails. -/
def turnsWithin (a : Analysis I α ε) (g : Graph I) (limit : Nat) : Nat → Run α → Nat
  | 0, _ => 0
  | turns + 1, s =>
    match a.turn g limit .never s with
    | .visited _ next => a.turnsWithin g limit turns next + 1
    | .cancelled | .finished | .failed _ _ => 1

/-- How often `solve` comes to the head of a turn if nothing cancels it. -/
def turnCount (a : Analysis I α ε) (g : Graph I) (config : SolverConfig) : Nat :=
  a.turnsWithin g config.maxVisits (a.turnBound g config.maxVisits) (a.begin g config.order)

variable {a : Analysis I α ε} {g : Graph I} {limit : Nat} {signal : Signal}

/-- A turn that the signal lets pass is the turn of the run that nothing cancels. -/
theorem turn_unheard {s : Run α} (silent : signal s.iterations = false) :
    a.turn g limit signal s = a.turn g limit .never s := by
  simp [turn, silent, Signal.never]

theorem turn_heard {s : Run α} (heard : signal s.iterations = true) :
    a.turn g limit signal s = .cancelled := by
  simp [turn, heard]

theorem Steps.unheard {s final : Run α} {taken : List NodeId} (steps : a.Steps g limit .never s taken final)
    (silent : ∀ i < taken.length, signal (s.iterations + i) = false) :
    a.Steps g limit signal s taken final := by
  induction steps with
  | refl s => exact .refl s
  | @visited s next final n taken visited _ ih =>
    have first : signal s.iterations = false := silent 0 (Nat.succ_pos _)
    refine .visited ((turn_unheard first).trans visited) (ih fun i bound => ?_)
    have later := silent (i + 1) (Nat.succ_lt_succ bound)
    rwa [iterations_of_turn visited, Nat.add_right_comm, Nat.add_assoc]

theorem Steps.unheard_begin {order : Discipline} {final : Run α} {taken : List NodeId}
    (steps : a.Steps g limit .never (a.begin g order) taken final)
    (silent : ∀ i < taken.length, signal i = false) : a.Steps g limit signal (a.begin g order) taken final := by
  apply steps.unheard
  intro i bound
  have early := silent i bound
  rwa [show (a.begin g order).iterations + i = i from Nat.zero_add i]

theorem Stops.unheard {s : Run α} {last : List NodeId} {outcome : Except (Failure ε) (Solution α)}
    (stops : a.Stops g limit .never s last outcome) (silent : signal s.iterations = false) :
    a.Stops g limit signal s last outcome := by
  have same : a.turn g limit signal s = a.turn g limit .never s := turn_unheard silent
  cases stops with
  | cancelled cancelled => exact .cancelled (same.trans cancelled)
  | finished finished => exact .finished (same.trans finished)
  | failed failed => exact .failed (same.trans failed)

/-- The first turns of a run are a run. -/
theorem Steps.take {s final : Run α} {taken : List NodeId} (steps : a.Steps g limit signal s taken final)
    (count : Nat) : ∃ mid, a.Steps g limit signal s (taken.take count) mid := by
  induction steps generalizing count with
  | refl s => exact ⟨s, by simpa using Steps.refl s⟩
  | @visited s _ _ n _ visited _ ih =>
    cases count with
    | zero => exact ⟨s, .refl s⟩
    | succ count =>
      obtain ⟨mid, first⟩ := ih count
      exact ⟨mid, .visited visited first⟩

/-- A run has one turn more than it visits nodes. -/
theorem Steps.turnsWithin {s final : Run α} {taken last : List NodeId}
    {outcome : Except (Failure ε) (Solution α)} (steps : a.Steps g limit .never s taken final)
    (stops : a.Stops g limit .never final last outcome) {turns : Nat} (enough : taken.length < turns) :
    a.turnsWithin g limit turns s = taken.length + 1 := by
  induction steps generalizing turns with
  | refl s =>
    obtain ⟨turns, rfl⟩ := Nat.exists_eq_add_one.mpr enough
    cases stops with
    | cancelled turned | finished turned | failed turned => simp [Analysis.turnsWithin, turned]
  | visited visited _ ih =>
    obtain ⟨turns, rfl⟩ := Nat.exists_eq_add_one.mpr (Nat.zero_lt_of_lt enough)
    simp [Analysis.turnsWithin, visited, ih stops (Nat.lt_of_succ_lt_succ enough)]

/-- The run that nothing cancels, with its turns counted: one for each node that it visits, and the last. -/
theorem solve_turns (wellFormed : g.WellFormed) {config : SolverConfig} (valid : 1 ≤ config.maxVisits) :
    ∃ taken final last, a.Steps g config.maxVisits .never (a.begin g config.order) taken final ∧
      a.Stops g config.maxVisits .never final last (a.solve g config .never) ∧
      a.taken g config .never = taken ++ last ∧ a.turnCount g config = taken.length + 1 := by
  obtain ⟨taken, final, last, steps, stops, took⟩ := a.solve_run wellFormed valid .never
  have enough : taken.length < a.turnBound g config.maxVisits :=
    Nat.lt_succ_of_le (steps.length_le wellFormed)
  exact ⟨taken, final, last, steps, stops, took, steps.turnsWithin stops enough⟩

/-- A run cancels at the first poll that says so, if a turn is left to ask it. -/
theorem solve_of_heard (wellFormed : g.WellFormed) {config : SolverConfig} (valid : 1 ≤ config.maxVisits)
    {i : Nat} (reached : i < a.turnCount g config) (heard : signal i = true)
    (silent : ∀ j < i, signal j = false) : a.solve g config signal = .error (.cancelled i) := by
  obtain ⟨taken, final, last, steps, _, _, count⟩ := a.solve_turns wellFormed valid
  obtain ⟨mid, first⟩ := steps.take i
  have length : (taken.take i).length = i := List.length_take_of_le (by omega)
  have asked : mid.iterations = i := first.iterations_begin.trans length
  have first : a.Steps g config.maxVisits signal (a.begin g config.order) (taken.take i) mid :=
    first.unheard_begin fun j bound => silent j (by omega)
  have stops : a.Stops g config.maxVisits signal mid [] (.error (.cancelled mid.iterations)) :=
    .cancelled (turn_heard (by rwa [asked]))
  rw [(solve_of_stops wellFormed valid first stops).1, asked]

/-- A signal that is silent at every turn of the run without it leaves the outcome as it is. -/
theorem solve_of_unheard (wellFormed : g.WellFormed) {config : SolverConfig} (valid : 1 ≤ config.maxVisits)
    (silent : ∀ i < a.turnCount g config, signal i = false) :
    a.solve g config signal = a.solve g config .never := by
  obtain ⟨taken, final, last, steps, stops, _, count⟩ := a.solve_turns wellFormed valid
  have asked := steps.iterations_begin
  have steps : a.Steps g config.maxVisits signal (a.begin g config.order) taken final :=
    steps.unheard_begin fun i bound => silent i (by omega)
  have stops : a.Stops g config.maxVisits signal final last (a.solve g config .never) :=
    stops.unheard (silent _ (by omega))
  exact (solve_of_stops wellFormed valid steps stops).1

/-- Cancellation never alters a result. The run without a signal comes to the head of as many turns as it takes
nodes, and of one more if it comes to rest. The first poll that cancels ends the run with its index, also where
nothing was pending any more; if none of these polls does, the outcome is that of the run without a signal. -/
theorem solve_heeds_signal (a : Analysis I α ε) {g : Graph I} (built : g.Built) {config : SolverConfig}
    (valid : 1 ≤ config.maxVisits) (signal : Signal) :
    (∀ r, a.solve g config .never = .ok r → a.turnCount g config = r.iterations + 1) ∧
    (∀ failure, a.solve g config .never = .error failure →
      a.turnCount g config = (a.taken g config .never).length) ∧
    (∀ i < a.turnCount g config, signal i = true → (∀ j < i, signal j = false) →
      a.solve g config signal = .error (.cancelled i)) ∧
    ((∀ i < a.turnCount g config, signal i = false) →
      a.solve g config signal = a.solve g config .never) := by
  have wellFormed := built.wellFormed
  obtain ⟨taken, final, last, steps, stops, took, count⟩ := a.solve_turns wellFormed valid
  refine ⟨?_, ?_, fun i => solve_of_heard wellFormed valid, solve_of_unheard wellFormed valid⟩
  · intro r solved
    rw [solved] at stops
    obtain ⟨_, _, rfl⟩ := stops.ok
    rw [count, ← steps.iterations_begin]
  · intro failure failed
    rw [failed] at stops
    rw [count, took, List.length_append]
    cases stops with
    | cancelled cancelled =>
      have heard := turn_cancelled cancelled
      contradiction
    | failed => rfl

end Analysis

/-- A token that is tripped before one of the polls of a run, and heard from that poll on. -/
def Signal.after (count : Nat) : Signal := fun poll => decide (count ≤ poll)

theorem Signal.after_first (count : Nat) :
    Signal.after count count = true ∧ ∀ poll < count, Signal.after count poll = false := by
  simp [Signal.after]

namespace Analysis

/-- The loop of live variables comes to rest after six visits: the poll of its seventh turn, which finds nothing
pending, is heard, and a later one is not. The flickering run fails in its fifth turn: a token that is tripped
before the poll of that turn cancels it, and one that is tripped after it does not keep it from failing. -/
theorem solve_heeds_signal_late :
    (∃ r, Liveness.analysis.solve .countingLoop ⟨5, .fifo⟩ .never = .ok r ∧ r.iterations = 6 ∧
      Liveness.analysis.solve .countingLoop ⟨5, .fifo⟩ (.after 6) = .error (.cancelled 6) ∧
      Liveness.analysis.solve .countingLoop ⟨5, .fifo⟩ (.after 7) = .ok r) ∧
    flicker.solve selfLoop ⟨3, .fifo⟩ (.after 4) = .error (.cancelled 4) ∧
    flicker.solve selfLoop ⟨3, .fifo⟩ (.after 5) = .error (.nonConvergent ⟨2⟩ 3) := by
  have shown : (Liveness.analysis.solve .countingLoop ⟨5, .fifo⟩ .never).toOption.map Solution.iterations =
      some 6 := by decide +kernel
  have failed : flicker.solve selfLoop ⟨3, .fifo⟩ .never = .error (.nonConvergent ⟨2⟩ 3) := by rfl
  have took : (flicker.taken selfLoop ⟨3, .fifo⟩ .never).length = 5 := by rfl
  have accepted : 1 ≤ (⟨5, .fifo⟩ : SolverConfig).maxVisits := by decide
  have accepted' : 1 ≤ (⟨3, .fifo⟩ : SolverConfig).maxVisits := by decide
  obtain ⟨r, solved, visits⟩ := exists_of_shown shown
  have loop := solve_heeds_signal Liveness.analysis Graph.countingLoop_built accepted
  have flickers := solve_heeds_signal flicker (g := selfLoop) ⟨_, rfl⟩ accepted'
  have rest := (loop .never).1 r solved
  have fails := (flickers .never).2.1 _ failed
  refine ⟨⟨r, solved, visits, ?_, ?_⟩, ?_, ?_⟩
  · exact (loop _).2.2.1 6 (by omega) (Signal.after_first 6).1 (Signal.after_first 6).2
  · rw [(loop _).2.2.2 fun i bound => (Signal.after_first 7).2 i (by omega), solved]
  · exact (flickers _).2.2.1 4 (by omega) (Signal.after_first 4).1 (Signal.after_first 4).2
  · rw [(flickers _).2.2.2 fun i bound => (Signal.after_first 5).2 i (by omega), failed]

end Analysis

end Dataflow
