import Dataflow.Proofs.Stability

/-! Monotone clients over a join-semilattice. What a run holds stays below every assignment that satisfies
the dataflow inequalities, and what a solution stores satisfies them, so neither the order of the visits
nor their bound shows in a solution. That a run ends with a solution is not claimed here. -/

namespace Dataflow

variable {I α ε : Type} {carrier : α → Prop}

/-- A value for every node and one for every label that leaves it. -/
structure Assignment (α : Type) where
  incoming : NodeId → α
  outgoing : NodeId → Label → α

namespace Assignment

def Within (carrier : α → Prop) (v : Assignment α) : Prop :=
  ∀ n, carrier (v.incoming n) ∧ ∀ label, carrier (v.outgoing n label)

/-- What a store assigns, with bottom where it holds nothing. -/
def ofFacts (ops : LatticeOps α) (facts : NodeMap (Option (Facts α))) : Assignment α where
  incoming n := (facts.get n).elim ops.bottom Facts.incoming
  outgoing n label := (facts.get n).elim ops.bottom fun f => f.outgoing.get label

variable {ops : LatticeOps α} {facts : NodeMap (Option (Facts α))}

theorem incoming_ofFacts {n : NodeId} {f : Facts α} (stored : facts.get n = some f) :
    (ofFacts ops facts).incoming n = f.incoming := by
  simp [ofFacts, stored]

theorem outgoing_ofFacts {n : NodeId} {f : Facts α} (stored : facts.get n = some f) (label : Label) :
    (ofFacts ops facts).outgoing n label = f.outgoing.get label := by
  simp [ofFacts, stored]

theorem ofFacts_within (bottom : carrier ops.bottom) (within : Analysis.Within carrier facts) :
    (ofFacts ops facts).Within carrier := by
  intro n
  cases stored : facts.get n with
  | none => simp [ofFacts, stored, bottom]
  | some f =>
    rw [incoming_ofFacts stored]
    refine ⟨(within n f stored).1, fun label => ?_⟩
    rw [outgoing_ofFacts stored]
    exact (within n f stored).2.2 label

end Assignment

namespace Analysis

/-- The dataflow inequalities on the reachable nodes: the entry value lies below the value at the root, what
leaves a node along an edge lies below the value at the end of the edge, and what leaves a node lies above the
transfer of its value, label by label, or above the value itself at the start and the end. -/
structure Solves (a : Analysis I α ε) (g : Graph I) (v : Assignment α) : Prop where
  entry : a.ops.precise (a.entry g) (v.incoming a.direction.root) = true
  arrives : ∀ n, g.Reachable a.direction n → ∀ e ∈ g.flowPredecessors a.direction n,
    g.Reachable a.direction e.node → a.ops.precise (v.outgoing e.node e.label) (v.incoming n) = true
  transferred : ∀ n, g.Reachable a.direction n → ∀ i, g.instruction? n = some i →
    ∃ result, a.transfer i (g.labels a.direction n) (v.incoming n) = .ok result ∧
      ∀ label ∈ g.labels a.direction n, a.ops.precise (result.get label) (v.outgoing n label) = true
  passed : ∀ n, g.Reachable a.direction n → n = .start ∨ n = .finish →
    ∀ label ∈ g.labels a.direction n, a.ops.precise (v.incoming n) (v.outgoing n label) = true

/-- What a node makes of its value lies below what leaves it. -/
def Yields (a : Analysis I α ε) (g : Graph I) (v : Assignment α) (n : NodeId) : Prop :=
  ∃ result, a.yielded g n (v.incoming n) = .ok result ∧
    ∀ label ∈ g.labels a.direction n, a.ops.precise (result.get label) (v.outgoing n label) = true

theorem Solves.yields {a : Analysis I α ε} {g : Graph I} (wellFormed : g.WellFormed) {v : Assignment α}
    (solves : a.Solves g v) {n : NodeId} (reachable : g.Reachable a.direction n) : a.Yields g v n := by
  cases present : g.instruction? n with
  | none =>
    have ends := (Graph.instruction?_eq_none wellFormed (reachable.inside wellFormed)).mp present
    exact ⟨_, a.yielded_of_none present _, solves.passed n reachable ends⟩
  | some i =>
    rw [Yields, a.yielded_of_instruction present]
    exact solves.transferred n reachable i present

theorem solves_of_yields {a : Analysis I α ε} {g : Graph I} (wellFormed : g.WellFormed) {v : Assignment α}
    (entry : a.ops.precise (a.entry g) (v.incoming a.direction.root) = true)
    (arrives : ∀ n, g.Reachable a.direction n → ∀ e ∈ g.flowPredecessors a.direction n,
      g.Reachable a.direction e.node → a.ops.precise (v.outgoing e.node e.label) (v.incoming n) = true)
    (yields : ∀ n, g.Reachable a.direction n → a.Yields g v n) : a.Solves g v where
  entry := entry
  arrives := arrives
  transferred n reachable i present := by
    have here := yields n reachable
    rwa [Yields, a.yielded_of_instruction present] at here
  passed n reachable ends := by
    have absent := (Graph.instruction?_eq_none wellFormed (reachable.inside wellFormed)).mpr ends
    obtain ⟨result, made, below⟩ := yields n reachable
    rw [a.yielded_of_none absent] at made
    cases made
    exact below

/-- A more precise value does not give a less precise result on any label of its node. -/
def MonotoneOn (a : Analysis I α ε) (g : Graph I) (carrier : α → Prop) : Prop :=
  ∀ n i x y before after, g.instruction? n = some i → carrier x → carrier y →
    a.ops.precise x y = true → a.transfer i (g.labels a.direction n) x = .ok before →
    a.transfer i (g.labels a.direction n) y = .ok after →
    ∀ label ∈ g.labels a.direction n, a.ops.precise (before.get label) (after.get label) = true

theorem yielded_mono {a : Analysis I α ε} {g : Graph I} (monotone : a.MonotoneOn g carrier) {n : NodeId}
    {x y : α} (inX : carrier x) (inY : carrier y) (precise : a.ops.precise x y = true)
    {before after : Labeled α} (first : a.yielded g n x = .ok before) (second : a.yielded g n y = .ok after)
    {label : Label} (listed : label ∈ g.labels a.direction n) :
    a.ops.precise (before.get label) (after.get label) = true := by
  cases present : g.instruction? n with
  | none =>
    rw [a.yielded_of_none present] at first second
    cases first
    cases second
    exact precise
  | some i =>
    rw [a.yielded_of_instruction present] at first second
    exact monotone n i x y before after present inX inY precise first second label listed

/-- A store that lies below an assignment wherever it holds something. -/
def Below (a : Analysis I α ε) (g : Graph I) (facts : NodeMap (Option (Facts α))) (v : Assignment α) :
    Prop :=
  ∀ n f, facts.get n = some f → a.ops.precise f.incoming (v.incoming n) = true ∧
    ∀ label ∈ g.labels a.direction n, a.ops.precise (f.outgoing.get label) (v.outgoing n label) = true

theorem arriving_below {a : Analysis I α ε} {g : Graph I} (wellFormed : g.WellFormed)
    (lawful : a.ops.LawfulOn carrier) (closed : a.Closed g carrier) {v : Assignment α}
    (inside : v.Within carrier) (solves : a.Solves g v) {s : Run α} (tracks : a.Tracks g s)
    (within : Within carrier s.facts) (below : a.Below g s.facts v) {n : NodeId}
    (reachable : g.Reachable a.direction n) :
    a.ops.precise (a.arriving g s.facts n) (v.incoming n) = true := by
  rw [arriving_eq_foldl]
  apply lawful.foldl_least (origin_carrier closed n) (contributions_carrier within n) (inside n).1
  · unfold origin
    split
    · rename_i root
      rw [lawful.copy _ closed.entry]
      exact root ▸ solves.entry
    · exact lawful.bottom_least _ (inside n).1
  · intro x member
    obtain ⟨e, edge, f, stored, rfl⟩ := mem_contributions.mp member
    have source : g.Reachable a.direction e.node := (tracks.facts e.node).mp ⟨f, stored⟩
    have listed := Graph.mem_labels ((Graph.flow_mirrored wellFormed a.direction e.node n e.label).mpr edge)
    exact lawful.trans _ _ _ ((within _ f stored).2.2 _) ((inside _).2 _) (inside n).1
      ((below _ f stored).2 _ listed) (solves.arrives n reachable e edge source)

/-- At no moment does a run rise above an assignment that satisfies the inequalities. -/
theorem Moment.staysBelow {a : Analysis I α ε} {g : Graph I} {config : SolverConfig} {signal : Signal}
    {s : Run α} (wellFormed : g.WellFormed) (lawful : a.ops.LawfulOn carrier)
    (closed : a.Closed g carrier) (monotone : a.MonotoneOn g carrier) {v : Assignment α}
    (inside : v.Within carrier) (solves : a.Solves g v) (moment : a.Moment g config signal s) :
    a.Below g s.facts v := by
  induction moment with
  | begin =>
    intro n f stored
    rw [Analysis.begin, get_seed] at stored
    split at stored
    · cases stored
      exact ⟨lawful.bottom_least _ (inside n).1, fun label _ => lawful.bottom_least _ ((inside n).2 label)⟩
    · contradiction
  | @visited s next n moment visited ih =>
    have tracks := moment.tracks wellFormed
    have within := moment.within closed
    obtain ⟨rest, outgoing, popped, _, left, rfl⟩ := turn_visited visited
    have here : g.Reachable a.direction n :=
      tracks.pending n (by simp [Worklist.pending_of_pop popped])
    have arrived := arriving_below wellFormed lawful closed inside solves tracks within ih here
    have inArrived := arriving_carrier closed within n
    obtain ⟨made, yields, _, agree⟩ := leaving_faithful lawful.copy closed inArrived left
    obtain ⟨result, bound, above⟩ := solves.yields wellFormed here
    intro m f stored
    rw [NodeMap.get_set] at stored
    split at stored
    · rename_i same
      subst same
      cases stored
      refine ⟨arrived, fun label listed => ?_⟩
      have step := yielded_mono monotone inArrived (inside m).1 arrived yields bound listed
      dsimp only
      rw [agree label listed]
      exact lawful.trans _ _ _ ((yielded_carrier closed inArrived yields).2 label)
        ((yielded_carrier closed (inside m).1 bound).2 label) ((inside m).2 label) step (above label listed)
    · exact ih m f stored

/-- Whatever a settled node starts from or is sent lies below its incoming value. -/
theorem Settled.covers {a : Analysis I α ε} {g : Graph I} (lawful : a.ops.LawfulOn carrier)
    (closed : a.Closed g carrier) {facts : NodeMap (Option (Facts α))} (within : Within carrier facts)
    {n : NodeId} {f : Facts α} (stored : facts.get n = some f) (settled : a.Settled g facts n f) :
    a.ops.precise (a.origin g n) f.incoming = true ∧
      ∀ x ∈ a.contributions g facts n, a.ops.precise x f.incoming = true := by
  have inFacts := (within n f stored).1
  have inArrived := arriving_carrier closed within n
  have inOrigin := origin_carrier closed n
  have inSent : ∀ x ∈ a.contributions g facts n, carrier x := contributions_carrier within n
  have above := ((lawful.equivalent_iff _ _ inFacts inArrived).mp settled.arrives).2
  rw [arriving_eq_foldl] at above inArrived
  constructor
  · exact lawful.trans _ _ _ inOrigin inArrived inFacts (lawful.foldl_start inOrigin inSent) above
  · intro x member
    exact lawful.trans _ _ _ (inSent x member) inArrived inFacts
      (lawful.foldl_upper inOrigin inSent member) above

theorem solve_within {a : Analysis I α ε} {g : Graph I} {config : SolverConfig} {signal : Signal}
    {r : Solution α} (closed : a.Closed g carrier) (solved : a.solve g config signal = .ok r) :
    Within carrier r.facts := by
  obtain ⟨final, moment, _, rfl⟩ := solve_ok solved
  exact moment.within closed

/-- What a solution stores is its own copy. -/
theorem solve_faithful {a : Analysis I α ε} {g : Graph I} {config : SolverConfig} {signal : Signal}
    {r : Solution α} (lawful : a.ops.LawfulOn carrier) (closed : a.Closed g carrier)
    (solved : a.solve g config signal = .ok r) {n : NodeId} {f : Facts α} (stored : r.facts.get n = some f) :
    a.ops.copy f.incoming = f.incoming ∧ f.outgoing.All fun x => a.ops.copy x = x := by
  obtain ⟨incoming, outgoing⟩ := solve_within closed solved n f stored
  exact ⟨lawful.copy _ incoming, outgoing.imp lawful.copy⟩

/-- What a solution stores satisfies the inequalities, whether or not the client is monotone. -/
theorem solve_solves {a : Analysis I α ε} {g : Graph I} {config : SolverConfig} {signal : Signal}
    {r : Solution α} (wellFormed : g.WellFormed) (lawful : a.ops.LawfulOn carrier)
    (closed : a.Closed g carrier) (solved : a.solve g config signal = .ok r) :
    a.Solves g (.ofFacts a.ops r.facts) := by
  have within := solve_within closed solved
  have settled {n : NodeId} (reachable : g.Reachable a.direction n) :=
    solve_settled wellFormed lawful.congruentOn closed solved reachable
  refine solves_of_yields wellFormed ?_ ?_ ?_
  · obtain ⟨f, stored, here⟩ := settled .root
    have origin := (here.covers lawful closed within stored).1
    rw [Assignment.incoming_ofFacts stored]
    simpa [Analysis.origin, lawful.copy _ closed.entry] using origin
  · intro n reachable e edge source
    obtain ⟨f, stored, here⟩ := settled reachable
    obtain ⟨p, sourceStored, _⟩ := settled source
    rw [Assignment.incoming_ofFacts stored, Assignment.outgoing_ofFacts sourceStored]
    exact (here.covers lawful closed within stored).2 _
      (mem_contributions.mpr ⟨e, edge, p, sourceStored, rfl⟩)
  · intro n reachable
    obtain ⟨f, stored, here⟩ := settled reachable
    obtain ⟨result, made, _, agree⟩ :=
      leaving_faithful lawful.copy closed (within n f stored).1 here.leaves
    rw [Yields, Assignment.incoming_ofFacts stored]
    refine ⟨result, made, fun label listed => ?_⟩
    rw [Assignment.outgoing_ofFacts stored, ← agree label listed]
    exact lawful.refl _ ((within n f stored).2.2 label)

/-- A solution lies below every assignment that satisfies the inequalities. -/
theorem solve_below {a : Analysis I α ε} {g : Graph I} {config : SolverConfig} {signal : Signal}
    {r : Solution α} (wellFormed : g.WellFormed) (lawful : a.ops.LawfulOn carrier)
    (closed : a.Closed g carrier) (monotone : a.MonotoneOn g carrier)
    (solved : a.solve g config signal = .ok r) {v : Assignment α} (inside : v.Within carrier)
    (solves : a.Solves g v) : a.Below g r.facts v := by
  obtain ⟨final, moment, _, rfl⟩ := solve_ok solved
  exact moment.staysBelow wellFormed lawful closed monotone inside solves

/-- The facts of a solution are those of the reachable nodes. -/
theorem solve_facts {a : Analysis I α ε} {g : Graph I} {config : SolverConfig} {signal : Signal}
    {r : Solution α} (wellFormed : g.WellFormed) (solved : a.solve g config signal = .ok r) (n : NodeId) :
    (∃ f, r.facts.get n = some f) ↔ g.Reachable a.direction n := by
  obtain ⟨final, moment, _, rfl⟩ := solve_ok solved
  exact (moment.tracks wellFormed).facts n

/-- Two stores hold nothing at a node, or equivalent values on the way in and on every label out. -/
def AgreeAt (a : Analysis I α ε) (g : Graph I) (facts facts' : NodeMap (Option (Facts α))) (n : NodeId) :
    Prop :=
  facts.get n = none ∧ facts'.get n = none ∨
  ∃ f f', facts.get n = some f ∧ facts'.get n = some f' ∧
    a.ops.equivalent f.incoming f'.incoming = true ∧
    ∀ label ∈ g.labels a.direction n,
      a.ops.equivalent (f.outgoing.get label) (f'.outgoing.get label) = true

/-- Two stores that lie below each other agree. -/
theorem agreeAt_of_below {a : Analysis I α ε} {g : Graph I} (lawful : a.ops.LawfulOn carrier)
    {facts facts' : NodeMap (Option (Facts α))} (within : Within carrier facts)
    (within' : Within carrier facts') (below : a.Below g facts (.ofFacts a.ops facts'))
    (below' : a.Below g facts' (.ofFacts a.ops facts)) {n : NodeId}
    (present : (∃ f, facts.get n = some f) ↔ ∃ f, facts'.get n = some f) :
    a.AgreeAt g facts facts' n := by
  cases stored : facts.get n with
  | none =>
    refine Or.inl ⟨stored, ?_⟩
    cases stored' : facts'.get n with
    | none => rfl
    | some f' =>
      obtain ⟨f, there⟩ := present.mpr ⟨f', stored'⟩
      cases stored.symm.trans there
  | some f =>
    obtain ⟨f', stored'⟩ := present.mp ⟨f, stored⟩
    have left := below n f stored
    have right := below' n f' stored'
    simp only [Assignment.incoming_ofFacts stored', Assignment.outgoing_ofFacts stored'] at left
    simp only [Assignment.incoming_ofFacts stored, Assignment.outgoing_ofFacts stored] at right
    refine Or.inr ⟨f, f', stored, stored', ?_, fun label listed => ?_⟩
    · exact (lawful.equivalent_iff _ _ (within n f stored).1 (within' n f' stored').1).mpr
        ⟨left.1, right.1⟩
    · exact (lawful.equivalent_iff _ _ ((within n f stored).2.2 label)
        ((within' n f' stored').2.2 label)).mpr ⟨left.2 label listed, right.2 label listed⟩

/-- Two solutions agree, whatever orders, bounds and signals they were found with. -/
theorem solve_agree {a : Analysis I α ε} {g : Graph I} {config config' : SolverConfig}
    {signal signal' : Signal} {r r' : Solution α} (wellFormed : g.WellFormed)
    (lawful : a.ops.LawfulOn carrier) (closed : a.Closed g carrier) (monotone : a.MonotoneOn g carrier)
    (solved : a.solve g config signal = .ok r) (solved' : a.solve g config' signal' = .ok r')
    (n : NodeId) : a.AgreeAt g r.facts r'.facts n := by
  have within := solve_within closed solved
  have within' := solve_within closed solved'
  -- Each solution satisfies the inequalities, so each lies below the other.
  have below := solve_below wellFormed lawful closed monotone solved
    (Assignment.ofFacts_within closed.bottom within') (solve_solves wellFormed lawful closed solved')
  have below' := solve_below wellFormed lawful closed monotone solved'
    (Assignment.ofFacts_within closed.bottom within) (solve_solves wellFormed lawful closed solved)
  exact agreeAt_of_below lawful within within' below below'
    ((solve_facts wellFormed solved n).trans (solve_facts wellFormed solved' n).symm)

/-- Over a join-semilattice a solution of a monotone client is the least solution of the dataflow
inequalities, so every other run that succeeds finds an equivalent one. -/
theorem solve_least {a : Analysis I α ε} (lawful : a.ops.Lawful) {g : Graph I} (built : g.Built)
    (monotone : a.MonotoneOn g fun _ => True) {config : SolverConfig} {signal : Signal} {r : Solution α}
    (solved : a.solve g config signal = .ok r) :
    a.Solves g (.ofFacts a.ops r.facts) ∧
    (∀ v, a.Solves g v → ∀ n, g.Reachable a.direction n → ∃ f, r.facts.get n = some f ∧
      a.ops.precise f.incoming (v.incoming n) = true ∧ ∀ label ∈ g.labels a.direction n,
        a.ops.precise (f.outgoing.get label) (v.outgoing n label) = true) ∧
    ∀ config' signal' r', a.solve g config' signal' = .ok r' → ∀ n, a.AgreeAt g r.facts r'.facts n := by
  have wellFormed := built.wellFormed
  have closed := a.closed_true g
  refine ⟨solve_solves wellFormed lawful.on closed solved, ?_, ?_⟩
  · intro v solves n reachable
    obtain ⟨f, stored⟩ := (solve_facts wellFormed solved n).mpr reachable
    have below := solve_below wellFormed lawful.on closed monotone solved
      (fun _ => ⟨trivial, fun _ => trivial⟩) solves
    exact ⟨f, stored, below n f stored⟩
  · intro config' signal' r' solved'
    exact solve_agree wellFormed lawful.on closed monotone solved solved'

end Analysis

theorem Liveness.through_mono {x y : LiveSet} (i : Instruction) (subset : x.subset y = true) :
    (through i x).subset (through i y) = true := by
  refine LiveSet.subset_iff.mpr fun name live => mem_through.mpr ?_
  rcases mem_through.mp live with used | ⟨member, kept⟩
  · exact Or.inl used
  · exact Or.inr ⟨LiveSet.subset_iff.mp subset name member, kept⟩

theorem Liveness.monotone (g : Graph Instruction) : analysis.MonotoneOn g fun _ => True := by
  intro n i x y before after _ _ _ subset transferred transferred' label _
  cases transferred
  cases transferred'
  exact through_mono i subset

/-- Two runs over the loop with different orders and bounds. -/
theorem Analysis.solve_least_loop : ∃ r r',
    Liveness.analysis.solve .countingLoop ⟨5, .fifo⟩ .never = .ok r ∧
    Liveness.analysis.solve .countingLoop ⟨9, .lifo⟩ .never = .ok r' ∧
    Liveness.analysis.Solves .countingLoop (.ofFacts Liveness.analysis.ops r.facts) ∧
    (∃ f, r.facts.get ⟨3⟩ = some f ∧ f.incoming.subset
      ((Assignment.ofFacts Liveness.analysis.ops r'.facts).incoming ⟨3⟩) = true) ∧
    ∀ n, Liveness.analysis.AgreeAt .countingLoop r.facts r'.facts n := by
  have succeeds : (Liveness.analysis.solve .countingLoop ⟨5, .fifo⟩ .never).isOk = true := by
    decide +kernel
  have succeeds' : (Liveness.analysis.solve .countingLoop ⟨9, .lifo⟩ .never).isOk = true := by
    decide +kernel
  obtain ⟨r, solved⟩ := exists_of_isOk succeeds
  obtain ⟨r', solved'⟩ := exists_of_isOk succeeds'
  obtain ⟨solves, least, agree⟩ := Analysis.solve_least LiveSet.lawful Graph.countingLoop_built
    (Liveness.monotone _) solved
  obtain ⟨solves', _, _⟩ := Analysis.solve_least LiveSet.lawful Graph.countingLoop_built
    (Liveness.monotone _) solved'
  obtain ⟨f, stored, below, _⟩ := least _ solves' ⟨3⟩ Graph.countingLoop_reachable
  exact ⟨r, r', solved, solved', solves, ⟨f, stored, below⟩, agree _ _ r' solved'⟩

end Dataflow
