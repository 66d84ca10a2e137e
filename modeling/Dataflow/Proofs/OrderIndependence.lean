import Dataflow.Proofs.Monotone
import Dataflow.Proofs.OnePass
import Dataflow.Proofs.Questions
import Mathlib.Data.List.Forall2

/-! Reports under two worklist orders. A report prints the entries that a state stores, and a run sends a
state on only if it is not equivalent to the last one, so an entry that equals the fallback may or may not
have travelled. The states behind two reports hold the same, node by node; the texts need not be equal. -/

namespace Dataflow

variable {I α ε : Type} {carrier : α → Prop}

namespace LatticeOps

/-- Equivalence between values of the carrier. -/
structure EquivalentOn (ops : LatticeOps α) (carrier : α → Prop) (x y : α) : Prop where
  left : carrier x
  right : carrier y
  equivalent : ops.equivalent x y = true

theorem LawfulOn.join_equivalentOn {ops : LatticeOps α} (lawful : ops.LawfulOn carrier) {x x' y y' : α}
    (first : ops.EquivalentOn carrier x x') (second : ops.EquivalentOn carrier y y') :
    ops.EquivalentOn carrier (ops.join x y) (ops.join x' y') where
  left := lawful.closed _ _ first.left second.left
  right := lawful.closed _ _ first.right second.right
  equivalent := lawful.congruentOn.join _ _ _ _ first.left first.right second.left second.right
    first.equivalent second.equivalent

theorem LawfulOn.copy_equivalentOn {ops : LatticeOps α} (lawful : ops.LawfulOn carrier) (x y : α)
    (same : ops.EquivalentOn carrier x y) : ops.EquivalentOn carrier (ops.copy x) (ops.copy y) := by
  rwa [lawful.copy x same.left, lawful.copy y same.right]

end LatticeOps

namespace Analysis

/-- A client to which equivalent states are the same: it stores the same labels for both, and equivalent
values on every label. -/
def Respects (a : Analysis I α ε) (carrier : α → Prop) : Prop :=
  ∀ i labels x y before after, carrier x → carrier y → a.ops.equivalent x y = true →
    a.transfer i labels x = .ok before → a.transfer i labels y = .ok after →
    before.overrides.keys = after.overrides.keys ∧
      ∀ label, a.ops.equivalent (before.get label) (after.get label) = true

section

variable {a : Analysis I α ε} {g : Graph I} (lawful : a.ops.LawfulOn carrier) (closed : a.Closed g carrier)
  (respects : a.Respects carrier)

include lawful closed respects

theorem leaving_alike {n : NodeId} {x y : α} (same : a.ops.EquivalentOn carrier x y)
    {before after : Labeled α} (left : a.leaving g n x = .ok before) (right : a.leaving g n y = .ok after) :
    before.Alike (a.ops.EquivalentOn carrier) after := by
  obtain ⟨result, made, rfl, _⟩ := leaving_faithful lawful.copy closed same.left left
  obtain ⟨result', made', rfl, _⟩ := leaving_faithful lawful.copy closed same.right right
  have inside := yielded_carrier closed same.left made
  have inside' := yielded_carrier closed same.right made'
  cases present : g.instruction? n with
  | none =>
    rw [a.yielded_of_none present] at made made'
    cases made
    cases made'
    apply Labeled.alike_restrict lawful.copy_equivalentOn
    · rfl
    · exact fun _ => same
  | some i =>
    rw [a.yielded_of_instruction present] at made made'
    obtain ⟨keys, values⟩ := respects i _ x y _ _ same.left same.right same.equivalent made made'
    exact Labeled.alike_restrict lawful.copy_equivalentOn keys
      (fun label => ⟨inside.2 label, inside'.2 label, values label⟩) _

/-- What two solutions show before and after a node is equivalent, or neither shows anything. -/
theorem solve_shows (wellFormed : g.WellFormed) (monotone : a.MonotoneOn g carrier)
    {config config' : SolverConfig} {signal signal' : Signal} {r r' : Solution α}
    (solved : a.solve g config signal = .ok r) (solved' : a.solve g config' signal' = .ok r') (n : NodeId) :
    Option.Rel (a.ops.EquivalentOn carrier) (r.before a.ops n) (r'.before a.ops n) ∧
      Option.Rel (a.ops.EquivalentOn carrier) (r.after a.ops n) (r'.after a.ops n) := by
  have direction := solve_direction solved
  have direction' := solve_direction solved'
  rcases solve_agree wellFormed lawful closed monotone solved solved' n with
    ⟨absent, absent'⟩ | ⟨f, f', stored, stored', same, _⟩
  · rw [Solution.before_unreached absent, Solution.before_unreached absent', Solution.after_unreached absent,
      Solution.after_unreached absent']
    exact ⟨.none, .none⟩
  · have reachable := (solve_facts wellFormed solved n).mp ⟨f, stored⟩
    obtain ⟨_, found, settled⟩ := solve_settled wellFormed lawful.congruentOn closed solved reachable
    obtain ⟨_, found', settled'⟩ := solve_settled wellFormed lawful.congruentOn closed solved' reachable
    cases stored.symm.trans found
    cases stored'.symm.trans found'
    -- The labels out of a node may be none, and then agreement says nothing of what leaves it; but both
    -- solutions are settled there, so what leaves is computed from equivalent values.
    have incoming : a.ops.EquivalentOn carrier f.incoming f'.incoming :=
      ⟨(solve_within closed solved n f stored).1, (solve_within closed solved' n f' stored').1, same⟩
    have outgoing := leaving_alike lawful closed respects incoming settled.leaves settled'.leaves
    have leaves := outgoing.collapse lawful.copy_equivalentOn fun _ _ _ _ => lawful.join_equivalentOn
    obtain ⟨copies, fixed⟩ := solve_faithful lawful closed solved stored
    obtain ⟨copies', fixed'⟩ := solve_faithful lawful closed solved' stored'
    cases towards : a.direction with
    | forward =>
      rw [towards] at direction direction'
      rw [Solution.before_forward stored copies direction, Solution.before_forward stored' copies' direction',
        Solution.after_forward stored fixed direction, Solution.after_forward stored' fixed' direction']
      exact ⟨.some incoming, .some leaves⟩
    | backward =>
      rw [towards] at direction direction'
      rw [Solution.before_backward stored fixed direction, Solution.before_backward stored' fixed' direction',
        Solution.after_backward stored copies direction, Solution.after_backward stored' copies' direction']
      exact ⟨.some leaves, .some incoming⟩

end

end Analysis

section

variable {κ β : Type} {s t : Tuple κ β} {outcome outcome' : Except TupleFault (Labeled (Tuple κ β))}
  {before after : Labeled (Tuple κ β)}

/-- A transfer function that leaves the bottom tuple alone stores the same labels for two tuples if it does
so where both are reached. -/
theorem guarded_keys (bottoms : s.isBottom = t.isBottom)
    (first : (if s.isBottom then .ok (.single s) else outcome) = .ok before)
    (second : (if t.isBottom then .ok (.single t) else outcome') = .ok after)
    (live : s.isBottom = false → t.isBottom = false → outcome = .ok before → outcome' = .ok after →
      before.overrides.keys = after.overrides.keys) :
    before.overrides.keys = after.overrides.keys := by
  rcases guarded_ok first with ⟨deadS, rfl⟩ | ⟨liveS, stepS⟩
  · rcases guarded_ok second with ⟨_, rfl⟩ | ⟨liveT, _⟩
    · rfl
    · simp [deadS, liveT] at bottoms
  · rcases guarded_ok second with ⟨deadT, _⟩ | ⟨liveT, stepT⟩
    · simp [liveS, deadT] at bottoms
    · exact live liveS liveT stepS stepT

end

namespace Nullness

/-- Which labels an instruction stores does not depend on the state. -/
theorem stepped_keys (s t : State) (labels : List Label) (i : Instruction) :
    (stepped s labels i).overrides.keys = (stepped t labels i).overrides.keys := by
  unfold stepped
  cases i.dereferenced with
  | some x =>
    dsimp only
    by_cases exceptional : labels.contains .exceptional = true
    · rw [if_pos exceptional, if_pos exceptional]
      rfl
    · rw [if_neg exceptional, if_neg exceptional]
      rfl
  | none =>
    cases i with
    | compare cmp lhs rhs =>
      dsimp only
      cases tested lhs rhs <;> rfl
    | new | copy | const | arith | load | store | call | ret | nop => rfl

theorem respects : analysis.Respects Proper := by
  intro i labels s t before after properS properT equivalent first second
  obtain ⟨below, above⟩ := Bool.and_eq_true_iff.mp equivalent
  have same := flat.same lawful properS properT equivalent
  constructor
  · refine guarded_keys same.1 first second fun liveS liveT stepS stepT => ?_
    cases (step_eq liveS labels i).symm.trans stepS
    cases (step_eq liveT labels i).symm.trans stepT
    exact stepped_keys s t labels i
  · intro label
    exact Bool.and_eq_true_iff.mpr ⟨transfer_mono (properS.shares properT) below first second label,
      transfer_mono (properT.shares properS) above second first label⟩

end Nullness

namespace Constant

theorem pin_keys {s : State} {cmp : Comparison} {x : String} {c : Constant} {result : Labeled State}
    (live : s.isBottom = false) (pinned : pin s cmp x c = .ok result) :
    result.overrides.keys = [.whenTrue, .whenFalse] := by
  rw [pin_live live] at pinned
  cases cmp <;> cases pinned <;> rfl

/-- The labels that a comparison stores: both branches, unless neither operand is known or the unknown one
is not a variable. -/
def storedLabels (lhs rhs : Operand) : Constant → Constant → List Label
  | .top, .top => []
  | .top, .known _ => if lhs.var?.isSome then [.whenTrue, .whenFalse] else []
  | .known _, .top => if rhs.var?.isSome then [.whenTrue, .whenFalse] else []
  | _, _ => [.whenTrue, .whenFalse]

theorem compare_keys {s : State} (live : s.isBottom = false) {cmp : Comparison} {lhs rhs : Operand}
    {result : Labeled State} (compared : compare s cmp lhs rhs = .ok result) :
    result.overrides.keys = storedLabels lhs rhs (ofOperand s lhs) (ofOperand s rhs) := by
  unfold compare at compared
  cases left : ofOperand s lhs with
  | bottom =>
    rw [left] at compared
    cases compared
    rfl
  | known l =>
    cases right : ofOperand s rhs with
    | bottom =>
      rw [left, right] at compared
      cases compared
      rfl
    | known r =>
      rw [left, right] at compared
      dsimp only at compared
      split at compared <;> cases compared <;> rfl
    | top =>
      rw [left, right] at compared
      cases rhs with
      | var x => exact pin_keys live compared
      | null | int =>
        cases compared
        rfl
  | top =>
    cases right : ofOperand s rhs with
    | known r =>
      rw [left, right] at compared
      cases lhs with
      | var x => exact pin_keys live compared
      | null | int =>
        cases compared
        rfl
    | bottom | top =>
      rw [left, right] at compared
      cases compared
      rfl

theorem ofOperand_same {s t : State} (same : s.Same t) (operand : Operand) :
    ofOperand s operand = ofOperand t operand := by
  cases operand with
  | var x => exact same.2 x
  | null | int => rfl

theorem respects : analysis.Respects Proper := by
  intro i labels s t before after properS properT equivalent first second
  obtain ⟨below, above⟩ := Bool.and_eq_true_iff.mp equivalent
  have same := flat.same lawful properS properT equivalent
  constructor
  · refine guarded_keys same.1 first second fun liveS liveT stepS stepT => ?_
    by_cases comparison : ∃ cmp lhs rhs, i = .compare cmp lhs rhs
    · obtain ⟨cmp, lhs, rhs, rfl⟩ := comparison
      rw [compare_keys liveS stepS, compare_keys liveT stepT, ofOperand_same same, ofOperand_same same]
    · have other (cmp lhs rhs) (here : i = .compare cmp lhs rhs) : False :=
        comparison ⟨cmp, lhs, rhs, here⟩
      cases (step_write liveS other).symm.trans stepS
      cases (step_write liveT other).symm.trans stepT
      rfl
  · intro label
    exact Bool.and_eq_true_iff.mpr ⟨transfer_mono (properS.shares properT) below first second label,
      transfer_mono (properT.shares properS) above second first label⟩

end Constant

theorem Liveness.respects : analysis.Respects fun _ => True := by
  intro i labels s t before after _ _ equivalent first second
  cases LiveSet.eq_of_equivalent equivalent
  cases first.symm.trans second
  exact ⟨rfl, fun label => LiveSet.lawful.congruent.equivalence.refl _⟩

/-- Neither text is there, or both show states of which the relation holds. -/
def ShownAlike [Display α] (same : α → α → Prop) (text text' : Option String) : Prop :=
  Option.Rel (fun shown shown' => ∃ s t, same s t ∧ shown = Display.text s ∧ shown' = Display.text t)
    text text'

theorem shownAlike_map [Display α] {rel same : α → α → Prop} (implies : ∀ s t, rel s t → same s t)
    {shown shown' : Option α} (related : Option.Rel rel shown shown') :
    ShownAlike same (shown.map Display.text) (shown'.map Display.text) := by
  cases related with
  | none => exact .none
  | some related => exact .some ⟨_, _, implies _ _ related, rfl, rfl⟩

theorem ShownAlike.eq [Display α] {text text' : Option String}
    (alike : ShownAlike (fun s t : α => s = t) text text') : text = text' := by
  cases alike with
  | none => rfl
  | some shown =>
    obtain ⟨s, _, rfl, rfl, rfl⟩ := shown
    rfl

structure NodeReport.Agree [Display α] (same : α → α → Prop) (x y : NodeReport) : Prop where
  node : x.node = y.node
  instruction : x.instruction = y.instruction
  before : ShownAlike same x.before y.before
  after : ShownAlike same x.after y.after

theorem NodeReport.Agree.eq [Display α] {x y : NodeReport} (agree : x.Agree (fun s t : α => s = t) y) :
    x = y := by
  have before := agree.before.eq
  have after := agree.after.eq
  obtain ⟨node, instruction, _, _⟩ := agree
  cases x
  cases y
  simp_all

namespace UnitReport

variable [Display α] {rel same : α → α → Prop}

/-- Two reports on the same nodes of the same unit, which show related states before and after each. The
iterations may differ. -/
structure Agree (same : α → α → Prop) (x y : UnitReport) : Prop where
  unit : x.unit = y.unit
  analysis : x.analysis = y.analysis
  direction : x.direction = y.direction
  nodes : List.Forall₂ (NodeReport.Agree same) x.nodes y.nodes

theorem ofSolution_agree {a : Analysis Instruction α ε} {r r' : Solution α}
    (implies : ∀ s t, rel s t → same s t)
    (related : ∀ n, Option.Rel rel (r.before a.ops n) (r'.before a.ops n) ∧
      Option.Rel rel (r.after a.ops n) (r'.after a.ops n)) (name : String) (g : Graph Instruction) :
    (ofSolution name a g r).Agree same (ofSolution name a g r') where
  unit := rfl
  analysis := rfl
  direction := rfl
  nodes := by
    rw [ofSolution, ofSolution, List.forall₂_map_left_iff, List.forall₂_map_right_iff, List.forall₂_same]
    intro n _
    obtain ⟨before, after⟩ := related n
    exact ⟨rfl, rfl, shownAlike_map implies before, shownAlike_map implies after⟩

/-- Reports that show equal states are equal but for the iterations. -/
theorem Agree.eq {x y : UnitReport} (agree : x.Agree (fun s t : α => s = t) y) :
    x = { y with iterations := x.iterations } := by
  have nodes : x.nodes = y.nodes := by
    rw [← List.forall₂_eq_eq_eq]
    exact agree.nodes.imp fun _ _ alike => alike.eq
  obtain ⟨unit, analysis, direction, _⟩ := agree
  cases x
  cases y
  simp_all

section

variable {name : String} {a : Analysis Instruction α ε} {g : Graph Instruction} {events events' : List Event}
  {meanwhile meanwhile' : List (Nat × Token)} {x y : UnitReport} (wellFormed : g.WellFormed)
  (first : (a.reportAfter name g events meanwhile).2 = .ok x)
  (second : (a.reportAfter name g events' meanwhile').2 = .ok y)

include first

/-- A report has a row for every node, in their order. -/
theorem nodes_of_reported : x.nodes.map NodeReport.node = g.ids.map NodeId.text := by
  obtain ⟨r, _, rfl⟩ := Analysis.reportAfter_ok first
  rw [ofSolution, List.map_map]
  rfl

include wellFormed second

theorem agree_of_reported (lawful : a.ops.LawfulOn carrier) (closed : a.Closed g carrier)
    (monotone : a.MonotoneOn g carrier) (respects : a.Respects carrier)
    (implies : ∀ s t, a.ops.EquivalentOn carrier s t → same s t) : x.Agree same y := by
  obtain ⟨r, solved, rfl⟩ := Analysis.reportAfter_ok first
  obtain ⟨r', solved', rfl⟩ := Analysis.reportAfter_ok second
  exact ofSolution_agree implies
    (Analysis.solve_shows lawful closed respects wellFormed monotone solved solved') name g

/-- Without a cycle the configuration does not show at all. -/
theorem eq_of_acyclic (acyclic : g.Acyclic x.direction) : x = y := by
  obtain ⟨r, solved, rfl⟩ := Analysis.reportAfter_ok first
  obtain ⟨r', solved', rfl⟩ := Analysis.reportAfter_ok second
  have swept := (Analysis.solve_eq_sweep wellFormed acyclic (Analysis.valid_of_solve solved)).1
  have swept' := (Analysis.solve_eq_sweep wellFormed acyclic (Analysis.valid_of_solve solved')).1
  cases solved.symm.trans (swept.trans (swept'.symm.trans solved'))
  rfl

end

end UnitReport

/-- Two states of a client, over its own bottom and fallback, that hold the same. -/
structure Tuple.SameOn {κ β : Type} [DecidableEq κ] (proper : Tuple κ β → Prop) (s t : Tuple κ β) : Prop where
  left : proper s
  right : proper t
  same : s.Same t

namespace AnalysisKind

/-- The report on a graph by one of the analyses, in a session with the given history. -/
def reportAfter (kind : AnalysisKind) (g : Graph Instruction) (events : List Event)
    (meanwhile : List (Nat × Token)) : Except (Failure TupleFault) UnitReport :=
  match kind with
  | .nullness => (Nullness.analysis.reportAfter kind.name g events meanwhile).2
  | .constants => (Constant.analysis.reportAfter kind.name g events meanwhile).2
  | .liveness => (Liveness.analysis.reportAfter kind.name g events meanwhile).2

/-- What two reports of one analysis have in common: of live variables all but the iterations, and of the
two forward analyses what the states hold, whatever they store. -/
def Agree : AnalysisKind → UnitReport → UnitReport → Prop
  | .nullness, x, y => x.Agree (Tuple.SameOn Nullness.Proper) y
  | .constants, x, y => x.Agree (Tuple.SameOn Constant.Proper) y
  | .liveness, x, y => x = { y with iterations := x.iterations }

/-- Two configurations under which a unit is solved give reports on all of its nodes whose states hold the same
at every node. The live sets have the same texts, and so has every state of a unit without a cycle. -/
theorem reports_agree {g : Graph Instruction} (built : g.Built) (kind : AnalysisKind)
    {events events' : List Event} {meanwhile meanwhile' : List (Nat × Token)} {x y : UnitReport}
    (first : kind.reportAfter g events meanwhile = .ok x)
    (second : kind.reportAfter g events' meanwhile' = .ok y) :
    kind.Agree x y ∧ x.nodes.map NodeReport.node = g.ids.map NodeId.text ∧
      (g.Acyclic x.direction → x = y) := by
  have wellFormed := built.wellFormed
  cases kind with
  | nullness =>
    refine ⟨?_, UnitReport.nodes_of_reported first, UnitReport.eq_of_acyclic wellFormed first second⟩
    exact UnitReport.agree_of_reported wellFormed first second Nullness.lawfulOn (Nullness.closed g)
      (Nullness.monotone g) Nullness.respects fun s t both =>
        ⟨both.left, both.right, Nullness.flat.same Nullness.lawful both.left both.right both.equivalent⟩
  | constants =>
    refine ⟨?_, UnitReport.nodes_of_reported first, UnitReport.eq_of_acyclic wellFormed first second⟩
    exact UnitReport.agree_of_reported wellFormed first second Constant.lawfulOn (Constant.closed g)
      (Constant.monotone g) Constant.respects fun s t both =>
        ⟨both.left, both.right, Constant.flat.same Constant.lawful both.left both.right both.equivalent⟩
  | liveness =>
    refine ⟨?_, UnitReport.nodes_of_reported first, UnitReport.eq_of_acyclic wellFormed first second⟩
    have agree := UnitReport.agree_of_reported wellFormed first second LiveSet.lawful.on
      (Liveness.analysis.closed_true g) (Liveness.monotone g) Liveness.respects
      fun s t both => LiveSet.eq_of_equivalent both.equivalent
    exact agree.eq

/-- The report behind what is shown of one node. -/
theorem exists_report {outcome : Except (Failure TupleFault) UnitReport} {n : NodeId} {shown : NodeReport}
    (computed : outcome.toOption.bind (fun report => report.nodes[n.index]?) = some shown) :
    ∃ report, outcome = .ok report ∧ report.nodes[n.index]? = some shown := by
  cases outcome with
  | error failure => cases computed
  | ok report => exact ⟨report, rfl, computed⟩

/-- A loop that makes a new object in `x` on every round and may end before the first. -/
def renewing : Graph Instruction :=
  .build [.instruction .nop, .instruction (.new "x"), .edge .start ⟨2⟩ .normal, .edge ⟨2⟩ .finish .normal,
    .edge ⟨2⟩ ⟨3⟩ .normal, .edge ⟨3⟩ ⟨2⟩ .normal]

theorem renewing_built : renewing.Built := ⟨_, rfl⟩

theorem reports_agree_renewing : ∃ x y,
    reportAfter .constants renewing [.configure ⟨1000, .fifo⟩] [] = .ok x ∧
    reportAfter .constants renewing [.configure ⟨3, .lifo⟩] [] = .ok y ∧ Agree .constants x y := by
  obtain ⟨x, first⟩ : ∃ x, reportAfter .constants renewing [.configure ⟨1000, .fifo⟩] [] = .ok x :=
    exists_of_isOk (by decide +kernel)
  obtain ⟨y, second⟩ : ∃ y, reportAfter .constants renewing [.configure ⟨3, .lifo⟩] [] = .ok y :=
    exists_of_isOk (by decide +kernel)
  exact ⟨x, y, first, second, (reports_agree renewing_built .constants first second).1⟩

/-- With a queue the end is visited before an entry for `x` has come round the loop, and that entry, which
equals the fallback, is not sent on. In reverse postorder the loop goes first. -/
theorem report_depends_on_order : ∃ x y,
    reportAfter .nullness renewing [.configure ⟨1000, .fifo⟩] [] = .ok x ∧
    reportAfter .nullness renewing [.configure ⟨1000, .reversePostorder⟩] [] = .ok y ∧
    x.nodes[NodeId.finish.index]? = some ⟨"end", "<end>", some "\x7b\x7d", some "\x7b\x7d"⟩ ∧
    y.nodes[NodeId.finish.index]? =
      some ⟨"end", "<end>", some "\x7bx: maybe-null\x7d", some "\x7bx: maybe-null\x7d"⟩ := by
  obtain ⟨x, first, shown⟩ : ∃ x,
      reportAfter .nullness renewing [.configure ⟨1000, .fifo⟩] [] = .ok x ∧
      x.nodes[NodeId.finish.index]? = some ⟨"end", "<end>", some "\x7b\x7d", some "\x7b\x7d"⟩ :=
    exists_report (by decide +kernel)
  obtain ⟨y, second, shown'⟩ : ∃ y,
      reportAfter .nullness renewing [.configure ⟨1000, .reversePostorder⟩] [] = .ok y ∧
      y.nodes[NodeId.finish.index]? =
        some ⟨"end", "<end>", some "\x7bx: maybe-null\x7d", some "\x7bx: maybe-null\x7d"⟩ :=
    exists_report (by decide +kernel)
  exact ⟨x, y, first, second, shown, shown'⟩

end AnalysisKind

end Dataflow
