import Dataflow.Proofs.Execution

/-! Constant propagation describes all executions with exact arithmetic: where a variable is known it holds
that integer, and no node that an execution reaches is taken for dead. -/

namespace Dataflow

namespace Constant

/-- The values that an element stands for. -/
def Admits : Constant → Value → Prop
  | .bottom, _ => False
  | .known n, v => v = .int n
  | .top, _ => True

theorem admits_weaken {a b : Constant} {v : Value} (precise : Constant.precise a b = true)
    (admitted : Admits a v) : Admits b v := by
  rcases precise_iff.mp precise with rfl | rfl | rfl
  · exact admitted.elim
  · trivial
  · exact admitted

abbrev Describes (s : State) (env : Env) : Prop := Tuple.Describes Admits s env

theorem admits_operand {s : State} {env : Env} (described : Describes s env) (operand : Operand) :
    Admits (ofOperand s operand) (operand.eval env) := by
  cases operand with
  | null => trivial
  | int value => rfl
  | var name => exact described.2 name

/-- Folding is exact: what an operation writes is what it folds to, if that is known. -/
theorem admits_fold {op : ArithOp} {a b : Constant} {lhs rhs result : Value} (left : Admits a lhs)
    (right : Admits b rhs) (written : Arithmetic.exact op lhs rhs result) :
    Admits (fold op a b) result := by
  cases a with
  | bottom => exact left.elim
  | top =>
    cases b with
    | bottom => exact right.elim
    | known | top => trivial
  | known l =>
    cases b with
    | bottom => exact right.elim
    | top => trivial
    | known r =>
      cases left
      cases right
      obtain ⟨n, evaluated, rfl⟩ := written
      simp only [fold, evaluated]
      rfl

theorem branches_describe {s onTrue onFalse : State} {env : Env} {label : Label}
    (otherwise : Describes s env) (whenTrue : label = .whenTrue → Describes onTrue env)
    (whenFalse : label = .whenFalse → Describes onFalse env) :
    Describes ((branches s onTrue onFalse).get label) env := by
  unfold branches
  rw [Labeled.get_put, Labeled.get_put]
  split
  · exact whenFalse ‹_›
  · split
    · exact whenTrue ‹_›
    · exact otherwise

section Compare

variable {s : State} {env : Env} {cmp : Comparison} {label : Label} {result : Labeled State}

/-- Pinning is right on the branch where the variable equals the constant. -/
theorem pin_describes (described : Describes s env) {x : String} {n : Int64} (unknown : s.get x = .top)
    (onTrue : label = .whenTrue → cmp.Holds (env x) (.int n))
    (onFalse : label = .whenFalse → ¬cmp.Holds (env x) (.int n))
    (pinned : pin s cmp x (.known n) = .ok result) : Describes (result.get label) env := by
  have equal (same : env x = .int n) : Describes (s.set x ((s.get x).meet (.known n))) env := by
    rw [unknown]
    exact described.set same
  cases (pin_live described.1 cmp x (.known n)).symm.trans pinned
  cases cmp with
  | eq => exact branches_describe described (fun isTrue => equal (onTrue isTrue)) fun _ => described
  | ne =>
    exact branches_describe described (fun _ => described)
      fun isFalse => equal (Classical.not_not.mp (onFalse isFalse))

/-- A comparison of known integers leaves the branch that it takes alive. -/
theorem decided_describes (described : Describes s env) {l r : Int64}
    (onTrue : label = .whenTrue → cmp.Holds (.int l) (.int r))
    (onFalse : label = .whenFalse → ¬cmp.Holds (.int l) (.int r))
    (compared : (if decide (l = r) = decide (cmp = .eq) then .ok (branches s s s.bottomLike)
      else .ok (branches s s.bottomLike s)) = (.ok result : Except TupleFault (Labeled State))) :
    Describes (result.get label) env := by
  have decides : cmp.Holds (.int l) (.int r) ↔ decide (l = r) = decide (cmp = .eq) := by
    cases cmp <;> simp [Comparison.Holds]
  rw [decides] at onTrue onFalse
  split at compared
  · rename_i holds
    cases compared
    exact branches_describe described (fun _ => described) fun isFalse => absurd holds (onFalse isFalse)
  · rename_i fails
    cases compared
    exact branches_describe described (fun isTrue => absurd (onTrue isTrue) fails) fun _ => described

theorem compare_describes (described : Describes s env) {lhs rhs : Operand}
    (onTrue : label = .whenTrue → cmp.Holds (lhs.eval env) (rhs.eval env))
    (onFalse : label = .whenFalse → ¬cmp.Holds (lhs.eval env) (rhs.eval env))
    (compared : compare s cmp lhs rhs = .ok result) : Describes (result.get label) env := by
  have left := admits_operand described lhs
  have right := admits_operand described rhs
  unfold compare at compared
  cases knownLeft : ofOperand s lhs with
  | bottom =>
    rw [knownLeft] at left
    exact left.elim
  | known l =>
    rw [knownLeft] at left compared
    have isLeft : lhs.eval env = .int l := left
    cases knownRight : ofOperand s rhs with
    | bottom =>
      rw [knownRight] at right
      exact right.elim
    | known r =>
      rw [knownRight] at right compared
      have isRight : rhs.eval env = .int r := right
      rw [isLeft, isRight] at onTrue onFalse
      exact decided_describes described onTrue onFalse compared
    | top =>
      rw [knownRight] at compared
      rw [isLeft, Comparison.holds_comm] at onTrue onFalse
      cases rhs with
      | var x => exact pin_describes described knownRight onTrue onFalse compared
      | null | int => cases compared; exact described
  | top =>
    rw [knownLeft] at compared
    cases knownRight : ofOperand s rhs with
    | bottom =>
      rw [knownRight] at right
      exact right.elim
    | known r =>
      rw [knownRight] at right compared
      have isRight : rhs.eval env = .int r := right
      rw [isRight] at onTrue onFalse
      cases lhs with
      | var x => exact pin_describes described knownLeft onTrue onFalse compared
      | null | int => cases compared; exact described
    | top =>
      rw [knownRight] at compared
      cases compared
      exact described

end Compare

theorem step_describes {s : State} {env next : Env} (described : Describes s env) {label : Label}
    {i : Instruction} (executed : i.Executes .exact label env next) {result : Labeled State}
    (stepped : step s i = .ok result) : Describes (result.get label) next := by
  have wrote {j : Instruction} {v : Value} (other : ∀ cmp lhs rhs, j ≠ .compare cmp lhs rhs)
      (stepped : step s j = .ok result) (admitted : Admits (produced s j) v) :
      Describes (result.get label) (env.assign j.defined v) := by
    cases (step_write described.1 other).symm.trans stepped
    exact described.assign j.defined admitted
  have notComparing {j : Instruction} {x : String} (dereferences : j.dereferenced = some x) :
      ∀ cmp lhs rhs, j ≠ .compare cmp lhs rhs := by
    rintro cmp lhs rhs rfl
    contradiction
  cases executed with
  | new address => exact wrote (by simp) stepped trivial
  | @copy dst src => exact wrote (by simp) stepped (described.2 src)
  | @const dst value => exact wrote (by simp) stepped (admits_operand described value)
  | @arith dst kind lhs rhs _ _ _ written =>
    exact wrote (by simp) stepped
      (admits_fold (admits_operand described lhs) (admits_operand described rhs) written)
  | compare onTrue onFalse => exact compare_describes described onTrue onFalse stepped
  | completes value dereferences =>
    refine wrote (notComparing dereferences) stepped ?_
    rw [produced_of_dereferenced dereferences]
    trivial
  | raises dereferences =>
    -- Nothing has been written here, and the state of the completed write still covers that.
    cases (step_write described.1 (notComparing dereferences)).symm.trans stepped
    rw [produced_of_dereferenced dereferences]
    exact described.forget i.defined fun _ => trivial
  | callStatic value => exact wrote (by simp) stepped trivial
  | ret | nop =>
    have unchanged := wrote (v := .null) (by simp) stepped trivial
    simpa [Instruction.defined] using unchanged

theorem approximates : analysis.Approximates Proper (Instruction.Executes .exact) Describes where
  forward := rfl
  entry _ env := Tuple.describes_new (fun _ => trivial) env
  weaken _ _ _ properV properW precise described :=
    described.weaken lawful properV properW precise fun _ _ _ => admits_weaken
  transfer i labels s result label env next _ transferred _ executed described := by
    rcases transfer_ok transferred with ⟨dead, _⟩ | ⟨_, stepped⟩
    · simp [described.1] at dead
    · exact step_describes described executed stepped

/-- Constant propagation is sound: at a node that an execution reaches the stored state is not bottom,
and a variable that it takes for a known integer holds that integer. -/
theorem solve_constants_sound {g : Graph Instruction} (built : g.Built) {config : SolverConfig}
    {signal : Signal} {r : Solution State} (solved : analysis.solve g config signal = .ok r) {n : NodeId}
    {env : Env} (reached : g.Reaches (Instruction.Executes .exact) n env) :
    ∃ f, r.facts.get n = some f ∧ f.incoming.isBottom = false ∧
      ∀ x value, f.incoming.get x = .known value → env x = .int value := by
  obtain ⟨f, stored, live, admitted⟩ := Analysis.solve_describes built.wellFormed lawfulOn (closed g)
    approximates solved reached
  refine ⟨f, stored, live, ?_⟩
  intro x value known
  have holds := admitted x
  rw [known] at holds
  exact holds

/-- One round of the loop, from comparison to comparison. -/
theorem countingLoop_round {env : Env} {k : Int64} (next : Int64)
    (reached : Graph.countingLoop.Reaches (Instruction.Executes .exact) ⟨3⟩ env)
    (value : env "x" = .int k) (more : k ≠ 3) (added : ArithOp.add.eval k 1 = some next) :
    Graph.countingLoop.Reaches (Instruction.Executes .exact) ⟨3⟩ (env.assign (some "x") (.int next)) := by
  have enters : ⟨⟨4⟩, .whenTrue⟩ ∈ Graph.countingLoop.successors ⟨3⟩ := by decide
  have returns : ⟨⟨3⟩, .normal⟩ ∈ Graph.countingLoop.successors ⟨4⟩ := by decide
  have body : Graph.countingLoop.Reaches (Instruction.Executes .exact) ⟨4⟩ env := by
    refine .move reached rfl enters (.compare (fun _ => ?_) (by rintro ⟨⟩))
    simpa [Comparison.Holds, Operand.eval, value] using more
  refine .move body rfl returns (.arith ?_)
  simpa [Arithmetic.exact, Operand.eval, value] using added

/-- Whatever the loop starts from, it ends, and then with 3. -/
theorem solve_constants_sound_loop : ∃ r,
    analysis.solve .countingLoop ⟨5, .reversePostorder⟩ .never = .ok r ∧
    (∃ env, Graph.countingLoop.Reaches (Instruction.Executes .exact) .finish env) ∧
    ∀ env, Graph.countingLoop.Reaches (Instruction.Executes .exact) .finish env → env "x" = .int 3 := by
  have computed : (analysis.solve .countingLoop ⟨5, .reversePostorder⟩ .never).toOption.bind
      (fun r => (r.facts.get .finish).map fun f => f.incoming.get "x") = some (.known 3) := by
    decide +kernel
  have begins : ⟨⟨2⟩, .normal⟩ ∈ Graph.countingLoop.successors .start := by decide
  have tests : ⟨⟨3⟩, .normal⟩ ∈ Graph.countingLoop.successors ⟨2⟩ := by decide
  have leaves : ⟨.finish, .whenFalse⟩ ∈ Graph.countingLoop.successors ⟨3⟩ := by decide
  have zero : Graph.countingLoop.Reaches (Instruction.Executes .exact) ⟨3⟩ _ :=
    .move (.pass (.start fun _ => .null) rfl begins) rfl tests .const
  have one := countingLoop_round 1 zero rfl (by decide) rfl
  have two := countingLoop_round 2 one rfl (by decide) rfl
  have three := countingLoop_round 3 two rfl (by decide) rfl
  cases solved : analysis.solve .countingLoop ⟨5, .reversePostorder⟩ .never with
  | error failure => simp [solved, Except.toOption] at computed
  | ok r =>
    refine ⟨r, rfl, ⟨_, .move three rfl leaves (.compare (by rintro ⟨⟩) fun _ => ?_)⟩, ?_⟩
    · simp [Comparison.Holds, Operand.eval, Env.assign]
    · intro env reached
      obtain ⟨f, stored, _, known⟩ := solve_constants_sound Graph.countingLoop_built solved reached
      simp only [solved, Except.toOption, Option.bind_some, stored, Option.map_some,
        Option.some.injEq] at computed
      exact known "x" 3 computed

end Constant

end Dataflow
