import Dataflow.Proofs.Paths

/-! Live variables are those that some path reads before it writes them. Every solution of the dataflow
inequalities has them all, and a solution cut down to them still satisfies the inequalities, so the least
one has no others. Only uses from which the end can be reached count. -/

namespace Dataflow

namespace Graph

variable {I : Type}

/-- Some path leads from one node to the other, in program order. -/
def Leads (g : Graph I) (n m : NodeId) : Prop := ∃ edges, g.FlowPath .forward n edges m

/-- The nodes that a path from `n` leaves: all its nodes but the last. -/
def departures (n : NodeId) : List Edge → List NodeId
  | [] => []
  | e :: edges => n :: departures e.node edges

/-- A path walked back from its end. -/
theorem FlowPath.reachable_backward {g : Graph I} (wellFormed : g.WellFormed) {n m : NodeId}
    {edges : List Edge} (path : g.FlowPath .forward n edges m) (reachable : g.Reachable .backward m) :
    g.Reachable .backward n := by
  induction path with
  | here => exact reachable
  | @step n m e edges edge _ ih =>
    have back : ⟨n, e.label⟩ ∈ g.predecessors e.node := (wellFormed.mirrored n e.node e.label).mp edge
    exact (ih reachable).edge back

/-- What can be reached backward from the end is what leads to it. -/
theorem reachable_backward_iff {g : Graph I} (wellFormed : g.WellFormed) (n : NodeId) :
    g.Reachable .backward n ↔ g.Leads n .finish := by
  constructor
  · intro reachable
    induction reachable with
    | root => exact ⟨[], .here _⟩
    | @edge n e _ edge ih =>
      obtain ⟨edges, path⟩ := ih
      have leads : ⟨n, e.label⟩ ∈ g.successors e.node := (wellFormed.mirrored e.node n e.label).mpr edge
      exact ⟨_, .step leads path⟩
  · rintro ⟨edges, path⟩
    exact path.reachable_backward wellFormed .root

def Uses (g : Graph Instruction) (n : NodeId) (x : String) : Prop :=
  ∃ i, g.instruction? n = some i ∧ x ∈ i.used

def Defines (g : Graph Instruction) (n : NodeId) (x : String) : Prop :=
  ∃ i, g.instruction? n = some i ∧ i.defined = some x

/-- Some path from the node comes to a use of the variable, none of the nodes before it defines the
variable, and from the use the end can be reached. -/
def LiveAt (g : Graph Instruction) (n : NodeId) (x : String) : Prop :=
  ∃ edges m, g.FlowPath .forward n edges m ∧ g.Uses m x ∧ (∀ p ∈ departures n edges, ¬g.Defines p x) ∧
    g.Leads m .finish

variable {g : Graph Instruction} {n : NodeId} {x : String}

theorem LiveAt.here (uses : g.Uses n x) (ends : g.Leads n .finish) : g.LiveAt n x :=
  ⟨[], n, .here n, uses, by simp [departures], ends⟩

theorem LiveAt.step {e : Edge} (kept : ¬g.Defines n x) (edge : e ∈ g.successors n)
    (live : g.LiveAt e.node x) : g.LiveAt n x := by
  obtain ⟨edges, m, path, uses, clear, ends⟩ := live
  refine ⟨e :: edges, m, .step edge path, uses, ?_, ends⟩
  intro p member
  rcases List.mem_cons.mp member with rfl | later
  · exact kept
  · exact clear p later

end Graph

/-- The members of a set that satisfy a predicate, decidable or not. -/
noncomputable def LiveSet.keep (s : LiveSet) (wanted : String → Prop) : LiveSet where
  names := s.names.filter fun x => @decide (wanted x) (Classical.propDecidable _)
  sorted := s.sorted.sublist List.filter_sublist

theorem LiveSet.mem_keep {s : LiveSet} {wanted : String → Prop} {x : String} :
    x ∈ s.keep wanted ↔ x ∈ s ∧ wanted x := by
  simp [mem_def, keep]

namespace Liveness

variable {g : Graph Instruction} {v : Assignment LiveSet}

/-- What is live before a node, given what is live after it. -/
def carried (g : Graph Instruction) (n : NodeId) (after : LiveSet) : LiveSet :=
  match g.instruction? n with
  | none => after
  | some i => through i after

theorem mem_carried {n : NodeId} {after : LiveSet} {x : String} :
    x ∈ carried g n after ↔ g.Uses n x ∨ x ∈ after ∧ ¬g.Defines n x := by
  unfold carried Graph.Uses Graph.Defines
  cases g.instruction? n with
  | none => simp
  | some i => simp [mem_through]

theorem yielded_eq (g : Graph Instruction) (n : NodeId) (after : LiveSet) :
    analysis.yielded g n after = .ok (.single (carried g n after)) := by
  unfold Analysis.yielded carried
  cases g.instruction? n <;> rfl

/-- What a solution has live before a node it has on every edge into the node. -/
theorem carried_outgoing (wellFormed : g.WellFormed) (solves : analysis.Solves g v) {n : NodeId}
    (reachable : g.Reachable .backward n) {label : Label} (listed : label ∈ g.labels .backward n) {x : String}
    (live : x ∈ carried g n (v.incoming n)) : x ∈ v.outgoing n label := by
  obtain ⟨result, made, below⟩ := solves.yields wellFormed reachable
  rw [yielded_eq] at made
  cases made
  exact LiveSet.subset_iff.mp (below label listed) x live

/-- No solution of the inequalities misses a use, by induction on the path to it. -/
theorem carried_of_liveAt (wellFormed : g.WellFormed) (solves : analysis.Solves g v) {n : NodeId}
    {x : String} (live : g.LiveAt n x) : x ∈ carried g n (v.incoming n) := by
  obtain ⟨edges, m, path, uses, clear, ends⟩ := live
  induction path with
  | here => exact mem_carried.mpr (.inl uses)
  | @step n m e edges edge path ih =>
    have later := ih uses (fun p member => clear p (List.mem_cons_of_mem _ member)) ends
    have target : g.Reachable .backward e.node :=
      path.reachable_backward wellFormed ((Graph.reachable_backward_iff wellFormed _).mpr ends)
    have back : ⟨n, e.label⟩ ∈ g.flowSuccessors .backward e.node :=
      (wellFormed.mirrored n e.node e.label).mp edge
    have crosses := carried_outgoing wellFormed solves target (Graph.mem_labels back) later
    have arrives := solves.arrives n (target.edge back) e edge target
    exact mem_carried.mpr
      (.inr ⟨LiveSet.subset_iff.mp arrives x crosses, clear n List.mem_cons_self⟩)

/-- A solution without the variables that no path reads. -/
noncomputable def pathwise (g : Graph Instruction) (v : Assignment LiveSet) : Assignment LiveSet where
  incoming n := (v.incoming n).keep fun x => ∃ e ∈ g.successors n, g.LiveAt e.node x
  outgoing n label := (v.outgoing n label).keep (g.LiveAt n)

theorem pathwise_solves (wellFormed : g.WellFormed) (solves : analysis.Solves g v) :
    analysis.Solves g (pathwise g v) := by
  refine Analysis.solves_of_yields wellFormed ?_ ?_ ?_
  · exact LiveSet.subset_iff.mpr fun x member => absurd member (LiveSet.not_mem_empty x)
  · intro n reachable e edge source
    refine LiveSet.subset_iff.mpr fun x member => LiveSet.mem_keep.mpr ?_
    obtain ⟨sent, live⟩ := LiveSet.mem_keep.mp member
    exact ⟨LiveSet.subset_iff.mp (solves.arrives n reachable e edge source) x sent, e, edge, live⟩
  · intro n reachable
    have ends := (Graph.reachable_backward_iff wellFormed n).mp reachable
    refine ⟨_, yielded_eq g n _, fun label (listed : label ∈ g.labels .backward n) => ?_⟩
    refine LiveSet.subset_iff.mpr fun x member => LiveSet.mem_keep.mpr ?_
    rcases mem_carried.mp member with uses | ⟨after, kept⟩
    · exact ⟨carried_outgoing wellFormed solves reachable listed (mem_carried.mpr (.inl uses)), .here uses ends⟩
    · obtain ⟨stored, e, edge, live⟩ := LiveSet.mem_keep.mp after
      exact ⟨carried_outgoing wellFormed solves reachable listed (mem_carried.mpr (.inr ⟨stored, kept⟩)),
        .step kept edge live⟩

/-- The least solution has live only what some path reads. -/
theorem liveAt_of_carried {config : SolverConfig} {signal : Signal} {r : Solution LiveSet}
    (wellFormed : g.WellFormed) (solved : analysis.solve g config signal = .ok r) {n : NodeId}
    {f : Facts LiveSet} (stored : r.facts.get n = some f) {x : String}
    (live : x ∈ carried g n f.incoming) : g.LiveAt n x := by
  have lawful := LiveSet.lawful.on
  have closed := analysis.closed_true g
  have solves := Analysis.solve_solves wellFormed lawful closed solved
  have below := Analysis.solve_below wellFormed lawful closed (monotone g) solved
    (fun _ => ⟨trivial, fun _ => trivial⟩) (pathwise_solves wellFormed solves)
  have reachable := (Analysis.solve_facts wellFormed solved n).mp ⟨f, stored⟩
  rcases mem_carried.mp live with uses | ⟨after, kept⟩
  · exact .here uses ((Graph.reachable_backward_iff wellFormed n).mp reachable)
  · obtain ⟨_, e, edge, later⟩ :=
      LiveSet.mem_keep.mp (LiveSet.subset_iff.mp (below n f stored).1 x after)
    exact .step kept edge later

/-- What a settled node reports before itself is what it carries, whichever labels lead into it. -/
theorem mem_before {r : Solution LiveSet} (backward : r.direction = .backward) {n : NodeId}
    {f : Facts LiveSet} (stored : r.facts.get n = some f) (settled : analysis.Settled g r.facts n f) :
    ∃ live, r.before analysis.ops n = some live ∧ ∀ x, x ∈ live ↔ x ∈ carried g n f.incoming := by
  have faithful : f.outgoing.All fun live => analysis.ops.copy live = live := ⟨rfl, fun _ => rfl⟩
  refine ⟨_, Solution.before_backward stored faithful backward, fun x => ?_⟩
  have every : f.outgoing.All fun live => x ∈ live ↔ x ∈ carried g n f.incoming := by
    obtain ⟨result, made, restricted⟩ := Analysis.leaving_eq_ok settled.leaves
    rw [yielded_eq] at made
    cases made
    rw [restricted]
    apply Labeled.all_restrict fun _ member => member
    exact Labeled.all_single Iff.rfl
  refine Labeled.collapse_holds (fun _ => id) ?_ every
  intro first second inFirst inSecond
  exact LiveSet.mem_union.trans (by rw [inFirst, inSecond, or_self])

/-- Liveness is exact. Where the end can be reached, the variables live before a node are those that some
path from it reads before writing them; elsewhere there are no facts. -/
theorem live_iff_path (built : g.Built) {config : SolverConfig} {signal : Signal} {r : Solution LiveSet}
    (solved : analysis.solve g config signal = .ok r) (n : NodeId) :
    (g.Leads n .finish →
      ∃ live, r.before analysis.ops n = some live ∧ ∀ x, x ∈ live ↔ g.LiveAt n x) ∧
    (¬g.Leads n .finish → r.facts.get n = none ∧ r.before analysis.ops n = none) := by
  have wellFormed := built.wellFormed
  have lawful := LiveSet.lawful.on
  have closed := analysis.closed_true g
  rw [← Graph.reachable_backward_iff wellFormed]
  constructor
  · intro reachable
    obtain ⟨f, stored, settled⟩ :=
      Analysis.solve_settled wellFormed lawful.congruentOn closed solved reachable
    obtain ⟨live, before, members⟩ := mem_before (Analysis.solve_direction solved) stored settled
    refine ⟨live, before, fun x => (members x).trans ?_⟩
    refine ⟨liveAt_of_carried wellFormed solved stored, fun path => ?_⟩
    have solves := Analysis.solve_solves wellFormed lawful closed solved
    have member := carried_of_liveAt wellFormed solves path
    rwa [Assignment.incoming_ofFacts stored] at member
  · intro stuck
    have absent : r.facts.get n = none := by
      cases stored : r.facts.get n with
      | none => rfl
      | some f => exact absurd ((Analysis.solve_facts wellFormed solved n).mp ⟨f, stored⟩) stuck
    exact ⟨absent, by simp [Solution.before, Solution.labeledBefore, absent]⟩

/-- Node 3 reads `q` and goes round for ever; node 4 returns `z`. -/
def spinning : Graph Instruction :=
  .build [.instruction (.compare .eq (.var "p") .null), .instruction (.copy "z" "q"),
    .instruction (.ret (some (.var "z"))), .edge .start ⟨2⟩ .normal, .edge ⟨2⟩ ⟨3⟩ .whenTrue,
    .edge ⟨3⟩ ⟨3⟩ .normal, .edge ⟨2⟩ ⟨4⟩ .whenFalse, .edge ⟨4⟩ .finish .normal]

/-- The variable that node 4 returns is live at the comparison, and node 3 has no facts. -/
theorem live_iff_path_spinning : ∃ r live,
    analysis.solve spinning ⟨5, .lifo⟩ .never = .ok r ∧ r.before analysis.ops ⟨2⟩ = some live ∧
      "z" ∈ live ∧ r.before analysis.ops ⟨3⟩ = none := by
  have succeeds : (analysis.solve spinning ⟨5, .lifo⟩ .never).isOk = true := by
    decide +kernel
  obtain ⟨r, solved⟩ := exists_of_isOk succeeds
  have built : spinning.Built := ⟨_, rfl⟩
  have skips : ⟨⟨4⟩, .whenFalse⟩ ∈ spinning.successors ⟨2⟩ := by decide
  have ends : ⟨.finish, .normal⟩ ∈ spinning.successors ⟨4⟩ := by decide
  have returns : spinning.Leads ⟨4⟩ .finish := ⟨_, .step ends (.here _)⟩
  have leads : spinning.Leads ⟨2⟩ .finish := ⟨_, .step skips (.step ends (.here _))⟩
  have stuck : ¬spinning.Leads ⟨3⟩ .finish := by
    rw [← Graph.reachable_backward_iff built.wellFormed, ← Graph.mem_reversePostorder built.wellFormed]
    decide +kernel
  have keeps : ¬spinning.Defines ⟨2⟩ "z" := by
    rintro ⟨i, present, defined⟩
    cases present
    cases defined
  obtain ⟨live, before, exact⟩ := (live_iff_path built solved ⟨2⟩).1 leads
  have used : spinning.LiveAt ⟨4⟩ "z" := .here ⟨_, rfl, by decide⟩ returns
  refine ⟨r, live, solved, before, (exact "z").mpr (.step keeps skips used), ?_⟩
  exact ((live_iff_path built solved ⟨3⟩).2 stuck).2

end Liveness

end Dataflow
