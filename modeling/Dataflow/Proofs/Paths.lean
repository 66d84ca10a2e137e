import Dataflow.Proofs.LeastSolution

/-! Paths through a graph and the values that travel along them. A path is a list of edges, so it may go
round a cycle any number of times. What arrives along a path lies below every solution of the dataflow
inequalities; that some path attains the solution is not claimed, and joins may lose that. -/

namespace Dataflow

variable {I α ε : Type} {carrier : α → Prop}

namespace Graph

/-- A path in flow direction: every edge leaves the node that the edge before it leads to. -/
inductive FlowPath (g : Graph I) (direction : Direction) : NodeId → List Edge → NodeId → Prop where
  | here (n : NodeId) : FlowPath g direction n [] n
  | step {n m : NodeId} {e : Edge} {edges : List Edge} : e ∈ g.flowSuccessors direction n →
      FlowPath g direction e.node edges m → FlowPath g direction n (e :: edges) m

theorem FlowPath.reachable {g : Graph I} {direction : Direction} {n m : NodeId} {edges : List Edge}
    (path : g.FlowPath direction n edges m) (source : g.Reachable direction n) :
    g.Reachable direction m := by
  induction path with
  | here => exact source
  | step edge _ ih => exact ih (source.edge edge)

theorem FlowPath.concat {g : Graph I} {direction : Direction} {n m : NodeId} {edges : List Edge}
    (path : g.FlowPath direction n edges m) {e : Edge} (edge : e ∈ g.flowSuccessors direction m) :
    g.FlowPath direction n (edges ++ [e]) e.node := by
  induction path with
  | here => exact .step edge (.here _)
  | step first _ ih => exact .step first (ih edge)

theorem Reachable.exists_path {g : Graph I} {direction : Direction} {n : NodeId}
    (reachable : g.Reachable direction n) : ∃ edges, g.FlowPath direction direction.root edges n := by
  induction reachable with
  | root => exact ⟨[], .here _⟩
  | edge _ edge ih =>
    obtain ⟨edges, path⟩ := ih
    exact ⟨_, path.concat edge⟩

/-- A path that goes anywhere has a last edge. -/
theorem FlowPath.eq_or_concat {g : Graph I} {direction : Direction} {n m : NodeId} {edges : List Edge}
    (path : g.FlowPath direction n edges m) : edges = [] ∧ n = m ∨
      ∃ before k e, edges = before ++ [e] ∧ g.FlowPath direction n before k ∧
        e ∈ g.flowSuccessors direction k ∧ e.node = m := by
  induction path with
  | here => exact .inl ⟨rfl, rfl⟩
  | @step n m e edges edge _ ih =>
    rcases ih with ⟨rfl, rfl⟩ | ⟨before, k, last, rfl, path, leads, rfl⟩
    · exact .inr ⟨[], n, e, rfl, .here n, edge, rfl⟩
    · exact .inr ⟨e :: before, k, last, rfl, .step edge path, leads, rfl⟩

end Graph

namespace Analysis

/-- What a node sends along an edge with the given label when `x` is what arrives at it. -/
def emitted (a : Analysis I α ε) (g : Graph I) (n : NodeId) (label : Label) (x : α) :
    Except ε α :=
  match g.instruction? n with
  | none => .ok x
  | some i => (a.transfer i (g.labels a.direction n) x).map fun result => result.get label

/-- What comes of `x` on a path from `n`: the transfer of each node on the way, and of its result what
the edge taken carries. -/
def along (a : Analysis I α ε) (g : Graph I) : NodeId → List Edge → α → Except ε α
  | _, [], x => .ok x
  | n, e :: edges, x =>
    match a.emitted g n e.label x with
    | .ok y => a.along g e.node edges y
    | .error fault => .error fault

variable {a : Analysis I α ε} {g : Graph I}

theorem yielded_of_emitted {n : NodeId} {label : Label} {x y : α} (sends : a.emitted g n label x = .ok y) :
    ∃ result, a.yielded g n x = .ok result ∧ result.get label = y := by
  unfold emitted at sends
  cases present : g.instruction? n with
  | none =>
    rw [present] at sends
    exact ⟨_, a.yielded_of_none present x, Except.ok.inj sends⟩
  | some i =>
    rw [a.yielded_of_instruction present]
    rw [present] at sends
    cases made : a.transfer i (g.labels a.direction n) x with
    | error fault => simp [made, Except.map] at sends
    | ok result =>
      simp only [made, Except.map, Except.ok.injEq] at sends
      exact ⟨result, rfl, sends⟩

/-- A value below a solution stays below it when it is sent along one edge. -/
theorem Solves.covers_edge {v : Assignment α} (wellFormed : g.WellFormed)
    (lawful : a.ops.LawfulOn carrier) (closed : a.Closed g carrier) (monotone : a.MonotoneOn g carrier)
    (inside : v.Within carrier) (solves : a.Solves g v) {n : NodeId}
    (reachable : g.Reachable a.direction n) {e : Edge} (edge : e ∈ g.flowSuccessors a.direction n)
    {x y : α} (inX : carrier x) (below : a.ops.precise x (v.incoming n) = true)
    (sends : a.emitted g n e.label x = .ok y) :
    carrier y ∧ a.ops.precise y (v.incoming e.node) = true := by
  have listed : e.label ∈ g.labels a.direction n := Graph.mem_labels edge
  have arrives := (Graph.flow_mirrored wellFormed a.direction n e.node e.label).mp edge
  obtain ⟨sent, made, rfl⟩ := yielded_of_emitted sends
  obtain ⟨result, bound, above⟩ := solves.yields wellFormed reachable
  have inSent := (yielded_carrier closed inX made).2 e.label
  have inResult := (yielded_carrier closed (inside n).1 bound).2 e.label
  have inLeaving := (inside n).2 e.label
  refine ⟨inSent, ?_⟩
  have first := yielded_mono monotone inX (inside n).1 below made bound listed
  have second := lawful.trans _ _ _ inSent inResult inLeaving first (above e.label listed)
  exact lawful.trans _ _ _ inSent inLeaving (inside e.node).1 second
    (solves.arrives e.node (reachable.edge edge) _ arrives reachable)

/-- By induction on the path, whose every prefix ends at a reachable node. -/
theorem Solves.covers_path {v : Assignment α} (wellFormed : g.WellFormed)
    (lawful : a.ops.LawfulOn carrier) (closed : a.Closed g carrier) (monotone : a.MonotoneOn g carrier)
    (inside : v.Within carrier) (solves : a.Solves g v) {n m : NodeId} {edges : List Edge}
    (path : g.FlowPath a.direction n edges m) (reachable : g.Reachable a.direction n) {x y : α}
    (inX : carrier x) (below : a.ops.precise x (v.incoming n) = true)
    (travels : a.along g n edges x = .ok y) : a.ops.precise y (v.incoming m) = true := by
  induction path generalizing x with
  | here =>
    cases travels
    exact below
  | @step n m e edges edge _ ih =>
    rw [along] at travels
    cases sends : a.emitted g n e.label x with
    | error fault => simp [sends] at travels
    | ok sent =>
      rw [sends] at travels
      obtain ⟨inSent, belowNext⟩ :=
        solves.covers_edge wellFormed lawful closed monotone inside reachable edge inX below sends
      exact ih (reachable.edge edge) inSent belowNext travels

/-- Over a join-semilattice, what a monotone client makes of the entry value on any path from the root is
at least as precise as the stored value of the node where the path ends. -/
theorem solve_covers_paths (lawful : a.ops.Lawful) (built : g.Built)
    (monotone : a.MonotoneOn g fun _ => True) {config : SolverConfig} {signal : Signal} {r : Solution α}
    (solved : a.solve g config signal = .ok r) {n : NodeId} {edges : List Edge}
    (path : g.FlowPath a.direction a.direction.root edges n) {x : α}
    (travels : a.along g a.direction.root edges (a.entry g) = .ok x) :
    ∃ f, r.facts.get n = some f ∧ a.ops.precise x f.incoming = true := by
  have wellFormed := built.wellFormed
  have closed := a.closed_true g
  have solves := solve_solves wellFormed lawful.on closed solved
  obtain ⟨f, stored⟩ := (solve_facts wellFormed solved n).mpr (path.reachable .root)
  have below := solves.covers_path wellFormed lawful.on closed monotone
    (fun _ => ⟨trivial, fun _ => trivial⟩) path .root trivial solves.entry travels
  rw [Assignment.incoming_ofFacts stored] at below
  exact ⟨f, stored, below⟩

/-- Backward from the end, once round the loop: the addition and the comparison both read the variable. -/
theorem solve_covers_paths_round : ∃ r f,
    Liveness.analysis.solve .countingLoop ⟨5, .fifo⟩ .never = .ok r ∧ r.facts.get ⟨3⟩ = some f ∧
      (LiveSet.ofList ["x"]).subset f.incoming = true := by
  have succeeds : (Liveness.analysis.solve .countingLoop ⟨5, .fifo⟩ .never).isOk = true := by
    decide +kernel
  obtain ⟨r, solved⟩ := exists_of_isOk succeeds
  have exits : ⟨⟨3⟩, .whenFalse⟩ ∈ Graph.countingLoop.flowSuccessors .backward .finish := by decide
  have returns : ⟨⟨4⟩, .normal⟩ ∈ Graph.countingLoop.flowSuccessors .backward ⟨3⟩ := by decide
  have enters : ⟨⟨3⟩, .whenTrue⟩ ∈ Graph.countingLoop.flowSuccessors .backward ⟨4⟩ := by decide
  have round : Graph.countingLoop.FlowPath .backward .finish
      [⟨⟨3⟩, .whenFalse⟩, ⟨⟨4⟩, .normal⟩, ⟨⟨3⟩, .whenTrue⟩] ⟨3⟩ :=
    .step exits (.step returns (.step enters (.here _)))
  have travels : Liveness.analysis.along .countingLoop .finish
      [⟨⟨3⟩, .whenFalse⟩, ⟨⟨4⟩, .normal⟩, ⟨⟨3⟩, .whenTrue⟩] .empty = .ok (.ofList ["x"]) := by
    rfl
  obtain ⟨f, stored, below⟩ := Analysis.solve_covers_paths LiveSet.lawful Graph.countingLoop_built
    (Liveness.monotone _) solved round travels
  exact ⟨r, f, solved, stored, below⟩

end Analysis

end Dataflow
