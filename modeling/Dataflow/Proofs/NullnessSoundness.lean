import Dataflow.Proofs.Execution
import Dataflow.Proofs.Questions

/-! The nullness analysis describes all executions, so the null check misses no dereference of null, and
where it is definite the receiver is null. Arithmetic is taken to write some integer. -/

namespace Dataflow

namespace Nullness

/-- The values that an element stands for. -/
def Admits : Nullness → Value → Prop
  | .bottom, _ => False
  | .null, v => v = .null
  | .notNull, v => v ≠ .null
  | .maybeNull, _ => True

theorem admits_weaken {a b : Nullness} {v : Value} (precise : Nullness.precise a b = true)
    (admitted : Admits a v) : Admits b v := by
  rcases precise_iff.mp precise with rfl | rfl | rfl
  · exact admitted.elim
  · trivial
  · exact admitted

theorem admits_meet {a b : Nullness} {v : Value} (first : Admits a v) (second : Admits b v) :
    Admits (meet a b) v := by
  cases a with
  | bottom => exact first.elim
  | maybeNull => cases b <;> exact second
  | null =>
    cases b with
    | bottom => exact second.elim
    | notNull => exact absurd first second
    | null | maybeNull => exact first
  | notNull =>
    cases b with
    | bottom => exact second.elim
    | null => exact absurd second first
    | notNull | maybeNull => exact first

abbrev Describes (s : State) (env : Env) : Prop := Tuple.Describes Admits s env

theorem admits_operand {s : State} {env : Env} (described : Describes s env) (operand : Operand) :
    Admits (ofOperand s operand) (operand.eval env) := by
  cases operand with
  | null => rfl
  | int value => exact Value.noConfusion
  | var name => exact described.2 name

theorem assumed_describes {s : State} {env : Env} (described : Describes s env) {x : String}
    {value : Nullness} (assumption : Admits value (env x)) : Describes (assumed s x value) env := by
  have admitted := admits_meet (described.2 x) assumption
  unfold assumed
  split
  · rename_i empty
    rw [empty] at admitted
    exact admitted.elim
  · exact described.set admitted

theorem completed_describes {s : State} {env : Env} (described : Describes s env) {i : Instruction}
    {x : String} (dereferences : i.dereferenced = some x) (present : env x ≠ .null) (result : Value) :
    Describes (completed s i x) (env.assign i.defined result) := by
  have admitted : Admits ((s.get x).meet .notNull) (env x) := admits_meet (described.2 x) present
  have anything (refined : State) : Admits (produced refined i) result := by
    rw [produced_of_dereferenced dereferences]
    trivial
  simp only [completed]
  split
  · rename_i empty
    rw [empty] at admitted
    exact admitted.elim
  · exact (described.set admitted).assign i.defined (anything _)

theorem admits_ifHolds {cmp : Comparison} {v : Value} (holds : cmp.Holds v .null) :
    Admits (ifHolds cmp) v := by
  cases cmp <;> exact holds

theorem admits_ifFails {cmp : Comparison} {v : Value} (fails : ¬cmp.Holds v .null) :
    Admits (ifFails cmp) v := by
  cases cmp with
  | eq => exact fails
  | ne => exact Classical.not_not.mp fails

/-- On each branch of a comparison the state still describes the environments that take it. -/
theorem compare_describes {s : State} {env : Env} (described : Describes s env) {cmp : Comparison}
    {lhs rhs : Operand} {label : Label}
    (onTrue : label = .whenTrue → cmp.Holds (lhs.eval env) (rhs.eval env))
    (onFalse : label = .whenFalse → ¬cmp.Holds (lhs.eval env) (rhs.eval env)) {result : Labeled State}
    (outcome : compare s cmp lhs rhs = .ok result) : Describes (result.get label) env := by
  rcases compare_cases described.1 cmp lhs rhs with ⟨x, operands, known⟩ | known
  · cases known.symm.trans outcome
    have equal : cmp.Holds (lhs.eval env) (rhs.eval env) ↔ cmp.Holds (env x) .null := by
      rcases operands with ⟨rfl, rfl⟩ | ⟨rfl, rfl⟩
      · rfl
      · exact Comparison.holds_comm
    rw [equal] at onTrue onFalse
    unfold compared
    rw [Labeled.get_put, Labeled.get_put]
    split
    · rename_i isFalse
      exact assumed_describes described (admits_ifFails (onFalse isFalse))
    · split
      · rename_i isTrue
        exact assumed_describes described (admits_ifHolds (onTrue isTrue))
      · exact described
  · cases known.symm.trans outcome
    exact described

theorem step_describes {s : State} {env next : Env} (described : Describes s env) {labels : List Label}
    {label : Label} (listed : label ∈ labels) {i : Instruction}
    (executed : i.Executes .integral label env next) {result : Labeled State}
    (stepped : step s labels i = .ok result) : Describes (result.get label) next := by
  have live := described.1
  have wrote {j : Instruction} {v : Value} (plain : j.dereferenced = none)
      (other : ∀ cmp lhs rhs, j ≠ .compare cmp lhs rhs) (stepped : step s labels j = .ok result)
      (admitted : Admits (produced s j) v) : Describes (result.get label) (env.assign j.defined v) := by
    cases (step_write live labels plain other).symm.trans stepped
    exact described.assign j.defined admitted
  cases executed with
  | new address => exact wrote rfl (by simp) stepped Value.noConfusion
  | @copy dst src => exact wrote rfl (by simp) stepped (described.2 src)
  | @const dst value => exact wrote rfl (by simp) stepped (admits_operand described value)
  | arith written =>
    obtain ⟨n, rfl⟩ := written
    exact wrote rfl (by simp) stepped Value.noConfusion
  | compare onTrue onFalse => exact compare_describes described onTrue onFalse stepped
  | completes value dereferences normal present =>
    cases (step_dereference live labels dereferences).symm.trans stepped
    have completes := completed_describes described dereferences present value
    split
    · rw [Labeled.get_put, if_neg normal]
      exact completes
    · exact completes
  | raises dereferences =>
    cases (step_dereference live labels dereferences).symm.trans stepped
    rw [if_pos (List.contains_iff_mem.mpr listed), Labeled.get_put, if_pos rfl]
    exact described
  | callStatic value => exact wrote rfl (by simp) stepped trivial
  | ret | nop =>
    have unchanged := wrote (v := .null) rfl (by simp) stepped trivial
    simpa [Instruction.defined] using unchanged

theorem approximates :
    analysis.Approximates Proper (Instruction.Executes .integral) Describes where
  forward := rfl
  entry _ env := Tuple.describes_new (fun _ => trivial) env
  weaken _ _ _ properV properW precise described :=
    described.weaken lawful properV properW precise fun _ _ _ => admits_weaken
  transfer i labels s result label env next _ transferred listed executed described := by
    rcases transfer_ok transferred with ⟨dead, _⟩ | ⟨_, stepped⟩
    · simp [described.1] at dead
    · exact step_describes described listed executed stepped

end Nullness

namespace NullCheck

variable {g : Graph Instruction} {r : Solution Nullness.State}

theorem before_eq {n : NodeId} {f : Facts Nullness.State} (forward : r.direction = .forward)
    (stored : r.facts.get n = some f) : r.before Nullness.analysis.ops n = some f.incoming :=
  Solution.before_forward stored (Tuple.copy_eq Nullness.lawful f.incoming) forward

theorem severity_of_null {value : Nullness} (admitted : value.Admits .null) :
    ∃ severity, Severity.ofNullness? value = some severity := by
  cases value with
  | bottom => exact admitted.elim
  | notNull => exact absurd rfl admitted
  | null => exact ⟨.definite, rfl⟩
  | maybeNull => exact ⟨.possible, rfl⟩

theorem null_of_definite {value : Nullness} (definite : Severity.ofNullness? value = some .definite) :
    value = .null := by
  cases value with
  | null => rfl
  | bottom | notNull | maybeNull => simp [Severity.ofNullness?] at definite

/-- What a list of findings has to say about the executions. Every execution that is about to dereference null
stands at a finding for that variable; at a definite finding the variable is null in every execution; and a finding
names the variable that its node dereferences. -/
structure Sound (g : Graph Instruction) (found : List Finding) : Prop where
  complete : ∀ n env i x, g.Reaches (Instruction.Executes .integral) n env → g.instruction? n = some i →
    i.dereferenced = some x → env x = .null → ∃ finding ∈ found, finding.node = n ∧ finding.receiver = x
  definite : ∀ finding ∈ found, finding.severity = .definite → ∀ env,
    g.Reaches (Instruction.Executes .integral) finding.node env → env finding.receiver = .null
  named : ∀ finding ∈ found, ∃ i, g.instruction? finding.node = some i ∧ i.dereferenced = some finding.receiver

theorem findings_sound (wellFormed : g.WellFormed) {config : SolverConfig} {signal : Signal}
    (solved : Nullness.analysis.solve g config signal = .ok r) : Sound g (findings g r) := by
  have forward : r.direction = .forward := Analysis.solve_direction solved
  have described {n : NodeId} {env : Env}
      (reached : g.Reaches (Instruction.Executes .integral) n env) :=
    Analysis.solve_describes wellFormed Nullness.lawfulOn (Nullness.closed g) Nullness.approximates
      solved reached
  constructor
  · intro n env i x reached present dereferences isNull
    obtain ⟨f, stored, describes⟩ := described reached
    have admitted := describes.2 x
    rw [isNull] at admitted
    obtain ⟨severity, grave⟩ := severity_of_null admitted
    refine ⟨⟨n, x, severity, i.text⟩, List.mem_filterMap.mpr ⟨n, ?_, ?_⟩, rfl, rfl⟩
    · exact (Graph.mem_ids wellFormed n).mpr (reached.reachable.inside wellFormed)
    · exact findingAt?_iff.mpr ⟨i, present, x, dereferences, f.incoming, before_eq forward stored, severity,
        grave, rfl⟩
  · intro finding member
    obtain ⟨n, _, found⟩ := List.mem_filterMap.mp member
    obtain ⟨i, _, x, _, before, known, severity, grave, rfl⟩ := findingAt?_iff.mp found
    rintro rfl env reached
    obtain ⟨f, stored, describes⟩ := described reached
    cases (before_eq forward stored).symm.trans known
    have admitted := describes.2 x
    rw [null_of_definite grave] at admitted
    exact admitted
  · intro finding member
    obtain ⟨n, _, found⟩ := List.mem_filterMap.mp member
    obtain ⟨i, present, x, dereferences, _, _, _, _, rfl⟩ := findingAt?_iff.mp found
    exact ⟨i, present, dereferences⟩

/-- The null check is sound: whatever a session has been through, what a check of it returns is. -/
theorem check_sound (built : g.Built) (events : List Event) (meanwhile : List (Nat × Token)) {found : List Finding}
    (checked : (checkAfter g events meanwhile).2 = .ok found) : Sound g found := by
  have wellFormed := built.wellFormed
  rcases checkAfter_ok wellFormed checked with ⟨idle, rfl⟩ | ⟨r, solved, rfl⟩
  · refine ⟨fun n env i x reached present dereferenced _ => ?_, by simp, by simp⟩
    have listed := (Graph.mem_ids wellFormed n).mpr (reached.reachable.inside wellFormed)
    have untouched := idle n listed
    simp [dereferences, present, dereferenced] at untouched
  · exact findings_sound wellFormed solved

/-- Reads a field at node 3 where the variable has been found null, and at node 4 where it has not. -/
def testedTwice : Graph Instruction :=
  .build [.instruction (.compare .eq .null (.var "p")), .instruction (.load "v" "p" "f"),
    .instruction (.load "p" "p" "f"), .edge .start ⟨2⟩ .normal, .edge ⟨2⟩ ⟨3⟩ .whenTrue,
    .edge ⟨2⟩ ⟨4⟩ .whenFalse, .edge ⟨3⟩ .finish .exceptional, .edge ⟨4⟩ .finish .normal]

/-- A session that is configured, asked in vain under a tripped token and then given another. -/
def distracted : List Event :=
  [.configure ⟨5, .lifo⟩, .attach ⟨0⟩, .trip ⟨0⟩, .ask .atEnd [], .attach ⟨1⟩]

theorem check_sound_tested : ∃ found, (checkAfter testedTwice distracted []).2 = .ok found ∧
    (∃ finding ∈ found, finding.node = ⟨3⟩ ∧ finding.receiver = "p") ∧
    ∀ env, testedTwice.Reaches (Instruction.Executes .integral) ⟨3⟩ env → env "p" = .null := by
  have checked : (checkAfter testedTwice distracted []).2 = .ok [⟨⟨3⟩, "p", .definite, "v = p.f"⟩] := by
    decide +kernel
  have sound := check_sound ⟨_, rfl⟩ distracted [] checked
  have begins : ⟨⟨2⟩, .normal⟩ ∈ testedTwice.successors .start := by decide
  have branches : ⟨⟨3⟩, .whenTrue⟩ ∈ testedTwice.successors ⟨2⟩ := by decide
  have reached : testedTwice.Reaches (Instruction.Executes .integral) ⟨3⟩ fun _ => .null :=
    .move (.pass (.start _) rfl begins) rfl branches (.compare (fun _ => rfl) (by rintro ⟨⟩))
  refine ⟨_, checked, sound.complete ⟨3⟩ _ _ "p" reached rfl rfl rfl, ?_⟩
  exact sound.definite ⟨⟨3⟩, "p", .definite, "v = p.f"⟩ (List.mem_singleton.mpr rfl) rfl

end NullCheck

end Dataflow
