import Dataflow.Proofs.Monotone
import Dataflow.Proofs.NullnessSoundness
import Dataflow.Proofs.Paths

/-! Guards on paths. An edge may establish that a variable is not null, and a write may lose that again.
Where every path from the start has an edge that establishes it and loses it nowhere after, the null check
reports nothing: the states that know no more than the guards tell solve the dataflow inequalities, and
the solution of a run lies below them. That a run stops at some solution of its equations would not do. -/

namespace Dataflow

namespace Instruction

/-- Leaving the instruction on the label shows that `p` is not null: `p` has been given a reference or an
integer, has been dereferenced and not written, or has been compared with null. -/
inductive Establishes (p : String) : Instruction → Label → Prop where
  | new {label : Label} : Establishes p (.new p) label
  | arith {kind : ArithOp} {lhs rhs : Operand} {label : Label} :
      Establishes p (.arith p kind lhs rhs) label
  | integer {n : Int64} {label : Label} : Establishes p (.const p (.int n)) label
  | dereference {i : Instruction} {label : Label} : i.dereferenced = some p → i.defined ≠ some p →
      label ≠ .exceptional → Establishes p i label
  | equal {lhs rhs : Operand} : lhs = .var p ∧ rhs = .null ∨ lhs = .null ∧ rhs = .var p →
      Establishes p (.compare .eq lhs rhs) .whenFalse
  | different {lhs rhs : Operand} : lhs = .var p ∧ rhs = .null ∨ lhs = .null ∧ rhs = .var p →
      Establishes p (.compare .ne lhs rhs) .whenTrue

/-- The instruction writes `p`, and leaving it on the label shows nothing of what it has written. -/
def Kills (p : String) (i : Instruction) (label : Label) : Prop :=
  i.defined = some p ∧ ¬i.Establishes p label

end Instruction

namespace Graph

/-- The edges of a path from `n`, each by the node that it leaves and its label. -/
def crossed (n : NodeId) : List Edge → List Edge
  | [] => []
  | e :: edges => ⟨n, e.label⟩ :: crossed e.node edges

theorem FlowPath.crossed_concat {I : Type} {g : Graph I} {direction : Direction} {n m : NodeId}
    {edges : List Edge} (path : g.FlowPath direction n edges m) (e : Edge) :
    crossed n (edges ++ [e]) = crossed n edges ++ [⟨m, e.label⟩] := by
  induction path with
  | here => rfl
  | step _ _ ih => simp [crossed, ih]

def Establishes (g : Graph Instruction) (p : String) (e : Edge) : Prop :=
  ∃ i, g.instruction? e.node = some i ∧ i.Establishes p e.label

def Kills (g : Graph Instruction) (p : String) (e : Edge) : Prop :=
  ∃ i, g.instruction? e.node = some i ∧ i.Kills p e.label

/-- Some edge establishes the variable, and none after it kills it. -/
def Shows (g : Graph Instruction) (p : String) (edges : List Edge) : Prop :=
  ∃ before e after, edges = before ++ e :: after ∧ g.Establishes p e ∧ ∀ later ∈ after, ¬g.Kills p later

/-- Every path from the start to the node shows that the variable is not null there. -/
def Guarded (g : Graph Instruction) (p : String) (m : NodeId) : Prop :=
  ∀ edges, g.FlowPath .forward .start edges m → g.Shows p (crossed .start edges)

/-- Whatever path has led to its source, the variable is shown not to be null once the edge is taken. -/
def GuardedOn (g : Graph Instruction) (p : String) (e : Edge) : Prop :=
  g.Establishes p e ∨ g.Guarded p e.node ∧ ¬g.Kills p e

variable {g : Graph Instruction} {p : String} {m : NodeId} {e : Edge} {edges : List Edge}

theorem not_shows_nil : ¬g.Shows p [] := by
  rintro ⟨before, e, after, split, _⟩
  simp at split

/-- Only the last edge decides what it does to what was shown before it. -/
theorem shows_concat : g.Shows p (edges ++ [e]) ↔ g.Establishes p e ∨ g.Shows p edges ∧ ¬g.Kills p e := by
  constructor
  · rintro ⟨before, e', after, split, establishes, clear⟩
    rcases List.eq_nil_or_concat after with rfl | ⟨rest, last, rfl⟩
    · obtain ⟨-, same⟩ := List.append_inj' split rfl
      cases same
      exact .inl establishes
    · rw [List.concat_eq_append, ← List.cons_append, ← List.append_assoc] at split
      obtain ⟨rfl, same⟩ := List.append_inj' split rfl
      cases same
      simp only [List.concat_eq_append, List.forall_mem_append, List.forall_mem_singleton] at clear
      exact .inr ⟨⟨before, e', rest, rfl, establishes, clear.1⟩, clear.2⟩
  · rintro (establishes | ⟨⟨before, e', after, rfl, establishes, clear⟩, kept⟩)
    · exact ⟨edges, e, [], rfl, establishes, by simp⟩
    · refine ⟨before, e', after ++ [e], by simp, establishes, ?_⟩
      simp only [List.forall_mem_append, List.forall_mem_singleton]
      exact ⟨clear, kept⟩

/-- A node is guarded if it is not the start and every edge into it, from where a path leads, is. -/
theorem guarded_iff (wellFormed : g.WellFormed) : g.Guarded p m ↔
    m ≠ .start ∧ ∀ e ∈ g.predecessors m, g.Reachable .forward e.node → g.GuardedOn p e := by
  constructor
  · intro guarded
    constructor
    · rintro rfl
      exact not_shows_nil (guarded [] (.here _))
    · intro e arrives reachable
      have leads : ⟨m, e.label⟩ ∈ g.successors e.node := (wellFormed.mirrored e.node m e.label).mpr arrives
      have shown {edges : List Edge} (path : g.FlowPath .forward .start edges e.node) :
          g.Establishes p e ∨ g.Shows p (crossed .start edges) ∧ ¬g.Kills p e := by
        have whole := guarded _ (path.concat leads)
        rwa [path.crossed_concat, shows_concat] at whole
      by_cases establishes : g.Establishes p e
      · exact .inl establishes
      · obtain ⟨_, reaching⟩ := reachable.exists_path
        refine .inr ⟨fun edges path => ?_, ?_⟩
        · exact ((shown path).resolve_left establishes).1
        · exact ((shown reaching).resolve_left establishes).2
  · rintro ⟨away, arrives⟩ edges path
    rcases path.eq_or_concat with ⟨rfl, start⟩ | ⟨before, k, last, rfl, first, leads, rfl⟩
    · exact absurd start.symm away
    · have arrived := (wellFormed.mirrored k last.node last.label).mp leads
      rw [first.crossed_concat, shows_concat]
      rcases arrives _ arrived (first.reachable .root) with establishes | ⟨guarded, kept⟩
      · exact .inl establishes
      · exact .inr ⟨guarded before first, kept⟩

end Graph

namespace Nullness

section

variable {s : State} {i : Instruction} {labels : List Label} {result : Labeled State} {p : String}
  {label : Label}

/-- On a variable that an instruction does not define, no state that leaves it is less precise. -/
theorem transfer_keeps (proper : Proper s) (transferred : analysis.transfer i labels s = .ok result)
    (kept : i.defined ≠ some p) : precise ((result.get label).get p) (s.get p) = true := by
  have self := lawful.refl (s.get p)
  rcases transfer_ok transferred with ⟨_, rfl⟩ | ⟨live, steps⟩
  · exact self
  · cases (step_eq live labels i).symm.trans steps
    unfold stepped
    split
    · rename_i x dereferences
      have completes : precise ((completed s i x).get p) (s.get p) = true := by
        rw [get_completed live dereferences, proper.1, if_neg (Ne.symm kept)]
        split
        · exact lawful.bottom_least (s.get p)
        · split
          · rename_i same
            exact same ▸ (meet_precise _ _).1
          · exact self
      split
      · rw [Labeled.get_put]
        split
        · exact self
        · exact completes
      · exact completes
    · split
      · rename_i cmp lhs rhs _
        have assumes (x : String) (value : Nullness) :
            precise ((assumed s x value).get p) (s.get p) = true :=
          Tuple.get_precise lawful (assumed_over proper x value) proper (assumed_precise live x value) p
        cases tested lhs rhs with
        | none => exact self
        | some x =>
          simp only [Option.elim_some, compared, Labeled.get_put]
          split
          · exact assumes x _
          · split
            · exact assumes x _
            · exact self
      · rw [Labeled.get_single, Tuple.get_assign live, if_neg (Ne.symm kept)]
        exact self

/-- Whatever is known before it, an instruction that establishes a variable leaves it not null. -/
theorem transfer_establishes (proper : Proper s) (transferred : analysis.transfer i labels s = .ok result)
    (establishes : i.Establishes p label) : precise ((result.get label).get p) .notNull = true := by
  rcases transfer_ok transferred with ⟨dead, rfl⟩ | ⟨live, steps⟩
  · rw [Labeled.get_single, Tuple.get_of_isBottom dead, proper.1]
    rfl
  · have assumed_notNull : precise ((assumed s p .notNull).get p) .notNull = true := by
      rw [get_assumed_self proper.1 live]
      exact (meet_precise _ _).2
    have compares {cmp : Comparison} {lhs rhs : Operand}
        (operands : lhs = .var p ∧ rhs = .null ∨ lhs = .null ∧ rhs = .var p) :
        stepped s labels (.compare cmp lhs rhs) = compared s cmp p := by
      rcases operands with ⟨rfl, rfl⟩ | ⟨rfl, rfl⟩ <;> rfl
    have writes : precise ((s.assign (some p) .notNull).get p) .notNull = true := by
      rw [Tuple.get_assign live, if_pos rfl]
      rfl
    cases (step_eq live labels i).symm.trans steps
    cases establishes with
    | new | arith | integer => exact writes
    | equal operands =>
      rw [compares operands, compared, Labeled.get_put, if_pos rfl]
      exact assumed_notNull
    | different operands =>
      rw [compares operands, compared, Labeled.get_put, if_neg (by decide), Labeled.get_put, if_pos rfl]
      exact assumed_notNull
    | dereference dereferences kept normal =>
      have completes : precise ((completed s i p).get p) .notNull = true := by
        rw [get_completed live dereferences, proper.1, if_neg (Ne.symm kept), if_pos rfl]
        split
        · rfl
        · exact (meet_precise _ _).2
      simp only [stepped, dereferences]
      split
      · rw [Labeled.get_put, if_neg normal]
        exact completes
      · exact completes

end

/-- The state that knows of one variable that it is not null, if the condition holds, and nothing else. -/
noncomputable def known (p : String) (condition : Prop) : State :=
  @ite State condition (Classical.propDecidable _) ((Tuple.new .bottom .maybeNull).set p .notNull)
    (.new .bottom .maybeNull)

theorem known_proper (p : String) (condition : Prop) : Proper (known p condition) := by
  unfold known
  split <;> exact ⟨rfl, rfl⟩

theorem precise_known {s : State} (proper : Proper s) {p : String} {condition : Prop} :
    s.precise (known p condition) = true ↔ (condition → precise (s.get p) .notNull = true) := by
  rw [Tuple.precise_iff lawful proper (known_proper p condition)]
  have anything (k : String) : precise (s.get k) .maybeNull = true := precise_iff.mpr (.inr (.inl rfl))
  have live : (Tuple.new (κ := String) Nullness.bottom .maybeNull).isBottom = false := rfl
  constructor
  · rintro (dead | ⟨_, below⟩) holds
    · rw [Tuple.get_of_isBottom dead, proper.1]
      rfl
    · have here := below p
      rw [known, if_pos holds, Tuple.get_set live, if_pos rfl] at here
      exact here
  · intro above
    refine .inr ?_
    unfold known
    split
    · rename_i holds
      refine ⟨rfl, fun k => ?_⟩
      rw [Tuple.get_set live]
      split
      · rename_i same
        exact same ▸ above holds
      · exact anything k
    · exact ⟨rfl, anything⟩

/-- What the guards alone tell: at a guarded node, and on a guarded edge, the variable is not null. -/
noncomputable def guards (g : Graph Instruction) (p : String) : Assignment State where
  incoming n := known p (g.Guarded p n)
  outgoing n label := known p (g.GuardedOn p ⟨n, label⟩)

theorem guards_proper (g : Graph Instruction) (p : String) : (guards g p).Within Proper :=
  fun _ => ⟨known_proper _ _, fun _ => known_proper _ _⟩

variable {g : Graph Instruction}

/-- A guarded edge carries no null, if what comes to its source is what the guards tell. -/
theorem yielded_guarded {p : String} {n : NodeId} {label : Label} (guarded : g.GuardedOn p ⟨n, label⟩)
    {s : State} (proper : Proper s) (below : s.precise (known p (g.Guarded p n)) = true)
    {result : Labeled State} (made : analysis.yielded g n s = .ok result) :
    precise ((result.get label).get p) .notNull = true := by
  rw [precise_known proper] at below
  cases present : g.instruction? n with
  | none =>
    rw [analysis.yielded_of_none present] at made
    cases made
    rcases guarded with ⟨i, found, _⟩ | ⟨guarded, _⟩
    · cases present.symm.trans found
    · exact below guarded
  | some i =>
    rw [analysis.yielded_of_instruction present] at made
    rcases guarded with ⟨i', found, establishes⟩ | ⟨guarded, kept⟩
    · cases present.symm.trans found
      exact transfer_establishes proper made establishes
    · by_cases defines : i.defined = some p
      · have establishes : i.Establishes p label :=
          Classical.not_not.mp fun fails => kept ⟨i, present, defines, fails⟩
        exact transfer_establishes proper made establishes
      · exact lawful.trans _ _ _ (transfer_keeps proper made defines) (below guarded)

theorem guards_solves (wellFormed : g.WellFormed) (p : String) : analysis.Solves g (guards g p) := by
  refine Analysis.solves_of_yields wellFormed ?_ ?_ ?_
  · refine (precise_known (Tuple.over_new _ _)).mpr fun guarded => ?_
    exact absurd rfl ((Graph.guarded_iff wellFormed).mp guarded).1
  · intro n _ e edge source
    refine (precise_known (known_proper _ _)).mpr fun guarded => ?_
    have crossed := ((Graph.guarded_iff wellFormed).mp guarded).2 e edge source
    exact (precise_known (known_proper _ _)).mp (lawfulOn.refl _ (known_proper _ _)) crossed
  · intro n _
    have proper := known_proper p (g.Guarded p n)
    obtain ⟨result, made⟩ := Analysis.yielded_total transfer_total g n (known p (g.Guarded p n))
    refine ⟨result, made, fun label _ => ?_⟩
    refine (precise_known ((Analysis.yielded_carrier (closed g) proper made).2 label)).mpr fun guarded => ?_
    exact yielded_guarded guarded proper (lawfulOn.refl _ proper) made

end Nullness

namespace NullCheck

variable {g : Graph Instruction} {r : Solution Nullness.State}

theorem severity_of_notNull {value : Nullness} (below : Nullness.precise value .notNull = true) :
    Severity.ofNullness? value = none := by
  rcases Nullness.precise_iff.mp below with rfl | top | rfl
  · rfl
  · cases top
  · rfl

/-- A guarded dereference is never reported, whatever the order of the run. -/
theorem guarded_unreported (built : g.Built) (events : List Event) (meanwhile : List (Nat × Token))
    {found : List Finding} (checked : (checkAfter g events meanwhile).2 = .ok found) {p : String} {m : NodeId}
    (guarded : g.Guarded p m) : ∀ finding ∈ found, ¬(finding.node = m ∧ finding.receiver = p) := by
  have wellFormed := built.wellFormed
  rcases checkAfter_ok wellFormed checked with ⟨_, rfl⟩ | ⟨r, solved, rfl⟩
  · exact List.forall_mem_nil _
  rintro finding member ⟨rfl, rfl⟩
  obtain ⟨n, _, found⟩ := List.mem_filterMap.mp member
  obtain ⟨i, _, x, _, before, known, severity, grave, rfl⟩ := findingAt?_iff.mp found
  cases stored : r.facts.get n with
  | none => simp [Solution.before, Solution.labeledBefore, stored] at known
  | some f =>
    cases (before_eq (Analysis.solve_direction solved) stored).symm.trans known
    have proper := (Analysis.solve_within (Nullness.closed g) solved n f stored).1
    have below := Analysis.solve_below wellFormed Nullness.lawfulOn (Nullness.closed g)
      (Nullness.monotone g) solved (Nullness.guards_proper g x) (Nullness.guards_solves wellFormed x)
    have notNull := (Nullness.precise_known proper).mp (below n f stored).1 guarded
    rw [severity_of_notNull notNull] at grave
    cases grave

/-- Walks along the field `next`, from a new object where `p` is null. Node 3 reads a field of null. -/
def restarting : Graph Instruction :=
  .build [.instruction (.compare .ne .null (.var "p")), .instruction (.load "v" "p" "f"),
    .instruction (.new "p"), .instruction .nop, .instruction (.load "p" "p" "next"),
    .edge .start ⟨2⟩ .normal, .edge ⟨2⟩ ⟨5⟩ .whenTrue, .edge ⟨2⟩ ⟨3⟩ .whenFalse,
    .edge ⟨3⟩ ⟨4⟩ .exceptional, .edge ⟨4⟩ ⟨5⟩ .normal, .edge ⟨5⟩ ⟨6⟩ .normal, .edge ⟨6⟩ ⟨2⟩ .normal,
    .edge ⟨6⟩ .finish .exceptional]

/-- Paths of any length lead to node 6, and the last comparison or the last new object guards each. -/
theorem guarded_unreported_restarting : ∃ found,
    (checkAfter restarting [.configure ⟨9, .lifo⟩] []).2 = .ok found ∧
    restarting.Guarded "p" ⟨6⟩ ∧
    (∃ finding ∈ found, finding.node = ⟨3⟩ ∧ finding.receiver = "p") ∧
    ∀ finding ∈ found, ¬(finding.node = ⟨6⟩ ∧ finding.receiver = "p") := by
  have checked : (checkAfter restarting [.configure ⟨9, .lifo⟩] []).2 =
      .ok [⟨⟨3⟩, "p", .definite, "v = p.f"⟩] := by
    decide +kernel
  have built : restarting.Built := ⟨_, rfl⟩
  have arrivals : restarting.predecessors ⟨5⟩ = [⟨⟨2⟩, .whenTrue⟩, ⟨⟨4⟩, .normal⟩] := by decide
  have arrival : restarting.predecessors ⟨6⟩ = [⟨⟨5⟩, .normal⟩] := by decide
  have meets : restarting.Guarded "p" ⟨5⟩ := by
    rw [Graph.guarded_iff built.wellFormed, arrivals]
    refine ⟨by decide, List.forall_mem_cons.mpr ⟨fun _ => ?_, List.forall_mem_singleton.mpr fun _ => ?_⟩⟩
    · exact .inl ⟨_, rfl, .different (.inr ⟨rfl, rfl⟩)⟩
    · exact .inl ⟨_, rfl, .new⟩
  have guarded : restarting.Guarded "p" ⟨6⟩ := by
    rw [Graph.guarded_iff built.wellFormed, arrival]
    refine ⟨by decide, List.forall_mem_singleton.mpr fun _ => .inr ⟨meets, ?_⟩⟩
    rintro ⟨i, present, defines, _⟩
    cases present
    cases defines
  refine ⟨_, checked, guarded, ?_, guarded_unreported built _ [] checked guarded⟩
  exact ⟨_, List.mem_singleton.mpr rfl, rfl, rfl⟩

end NullCheck

end Dataflow
