import Dataflow.Proofs.LeastSolution

/-! Executions of three-address code, and what makes an assignment describe them. A step is a relation, so
it may have several outcomes or none; what arithmetic may write is a parameter. Every solution of the
dataflow inequalities describes every execution, not only the one that the solver finds. -/

namespace Dataflow

inductive Value where
  | null
  | int (value : Int64)
  | ref (address : Nat)
  deriving DecidableEq, Repr

abbrev Env := String → Value

/-- Writes a variable, if there is one to write. -/
def Env.assign (env : Env) (dst : Option String) (v : Value) : Env :=
  fun x => if some x = dst then v else env x

@[simp] theorem Env.assign_none (env : Env) (v : Value) : env.assign none v = env := by
  funext x
  simp [assign]

def Operand.eval (env : Env) : Operand → Value
  | .null => .null
  | .int value => .int value
  | .var name => env name

def Comparison.Holds (cmp : Comparison) (lhs rhs : Value) : Prop :=
  match cmp with
  | .eq => lhs = rhs
  | .ne => lhs ≠ rhs

theorem Comparison.holds_comm {cmp : Comparison} {lhs rhs : Value} :
    cmp.Holds lhs rhs ↔ cmp.Holds rhs lhs := by
  cases cmp <;> simp [Holds, eq_comm]

/-- The values that an operation may write, given those of its operands. -/
abbrev Arithmetic := ArithOp → Value → Value → Value → Prop

/-- Some integer, whatever the operands. -/
def Arithmetic.integral : Arithmetic := fun _ _ _ result => ∃ n, result = .int n

/-- The exact result on two integers, if it has one; anything on other operands. -/
def Arithmetic.exact : Arithmetic := fun op lhs rhs result =>
  match lhs, rhs with
  | .int l, .int r => ∃ n, op.eval l r = some n ∧ result = .int n
  | _, _ => True

/-- One step of an instruction that leaves along an edge with the given label. -/
inductive Instruction.Executes (arithmetic : Arithmetic) : Instruction → Label → Env → Env → Prop where
  | new {dst : String} {label : Label} {env : Env} (address : Nat) :
      Executes arithmetic (.new dst) label env (env.assign (some dst) (.ref address))
  | copy {dst src : String} {label : Label} {env : Env} :
      Executes arithmetic (.copy dst src) label env (env.assign (some dst) (env src))
  | const {dst : String} {value : Operand} {label : Label} {env : Env} :
      Executes arithmetic (.const dst value) label env (env.assign (some dst) (value.eval env))
  | arith {dst : String} {kind : ArithOp} {lhs rhs : Operand} {label : Label} {env : Env} {result : Value} :
      arithmetic kind (lhs.eval env) (rhs.eval env) result →
      Executes arithmetic (.arith dst kind lhs rhs) label env (env.assign (some dst) result)
  | compare {cmp : Comparison} {lhs rhs : Operand} {label : Label} {env : Env} :
      (label = .whenTrue → cmp.Holds (lhs.eval env) (rhs.eval env)) →
      (label = .whenFalse → ¬cmp.Holds (lhs.eval env) (rhs.eval env)) →
      Executes arithmetic (.compare cmp lhs rhs) label env env
  /-- A dereference that completes; what it reads, if anything, may be any value. -/
  | completes {i : Instruction} {x : String} {label : Label} {env : Env} (result : Value) :
      i.dereferenced = some x → label ≠ .exceptional → env x ≠ .null →
      Executes arithmetic i label env (env.assign i.defined result)
  | raises {i : Instruction} {x : String} {env : Env} :
      i.dereferenced = some x → Executes arithmetic i .exceptional env env
  | callStatic {dst : Option String} {method : String} {args : List Operand} {label : Label} {env : Env}
      (result : Value) : Executes arithmetic (.call dst none method args) label env (env.assign dst result)
  | ret {value : Option Operand} {label : Label} {env : Env} :
      Executes arithmetic (.ret value) label env env
  | nop {label : Label} {env : Env} : Executes arithmetic .nop label env env

variable {I α σ ε : Type} {carrier : α → Prop}

/-- An execution from the start, in any state, along the edges of a graph comes to a node in a state. The
start and the end themselves change nothing. -/
inductive Graph.Reaches (g : Graph I) (moves : I → Label → σ → σ → Prop) : NodeId → σ → Prop where
  | start (x : σ) : Reaches g moves .start x
  | pass {n : NodeId} {e : Edge} {x : σ} : Reaches g moves n x → g.instruction? n = none →
      e ∈ g.successors n → Reaches g moves e.node x
  | move {n : NodeId} {e : Edge} {i : I} {x y : σ} : Reaches g moves n x → g.instruction? n = some i →
      e ∈ g.successors n → moves i e.label x y → Reaches g moves e.node y

theorem Graph.Reaches.reachable {g : Graph I} {moves : I → Label → σ → σ → Prop} {n : NodeId} {x : σ}
    (reached : g.Reaches moves n x) : g.Reachable .forward n := by
  induction reached with
  | start => exact .root
  | pass _ _ edge ih => exact ih.edge edge
  | move _ _ edge _ ih => exact ih.edge edge

namespace Analysis

/-- A client whose values describe states: at the entry all states, at every step what comes of the
states described before it, and in the order of the lattice more states. -/
structure Approximates (a : Analysis I α ε) (carrier : α → Prop) (moves : I → Label → σ → σ → Prop)
    (describes : α → σ → Prop) : Prop where
  forward : a.direction = .forward
  entry : ∀ g x, describes (a.entry g) x
  weaken : ∀ v w x, carrier v → carrier w → a.ops.precise v w = true → describes v x → describes w x
  transfer : ∀ i labels v result label x y, carrier v → a.transfer i labels v = .ok result →
    label ∈ labels → moves i label x y → describes v x → describes (result.get label) y

variable {a : Analysis I α ε} {g : Graph I} {moves : I → Label → σ → σ → Prop} {describes : α → σ → Prop}

/-- What a node makes of its value comes to the end of every edge. -/
theorem Solves.step {v : Assignment α} (wellFormed : g.WellFormed) (closed : a.Closed g carrier)
    (approximates : a.Approximates carrier moves describes) (inside : v.Within carrier)
    (solves : a.Solves g v) {n : NodeId} (reachable : g.Reachable .forward n) {e : Edge}
    (edge : e ∈ g.successors n) {y : σ}
    (made : ∀ result, a.yielded g n (v.incoming n) = .ok result → describes (result.get e.label) y) :
    describes (v.incoming e.node) y := by
  have forward := approximates.forward
  rw [← forward] at reachable
  have leads : e ∈ g.flowSuccessors a.direction n := by rw [forward]; exact edge
  have arrives : ⟨n, e.label⟩ ∈ g.flowPredecessors a.direction e.node :=
    (Graph.flow_mirrored wellFormed a.direction n e.node e.label).mp leads
  obtain ⟨result, yields, below⟩ := solves.yields wellFormed reachable
  have onEdge : describes (v.outgoing n e.label) y :=
    approximates.weaken _ _ y ((yielded_carrier closed (inside n).1 yields).2 e.label)
      ((inside n).2 e.label) (below e.label (Graph.mem_labels leads)) (made result yields)
  exact approximates.weaken _ _ y ((inside n).2 e.label) (inside e.node).1
    (solves.arrives e.node (reachable.edge leads) _ arrives reachable) onEdge

/-- A solution of the inequalities describes all executions. -/
theorem Solves.sound {v : Assignment α} (wellFormed : g.WellFormed) (closed : a.Closed g carrier)
    (approximates : a.Approximates carrier moves describes) (inside : v.Within carrier)
    (solves : a.Solves g v) {n : NodeId} {x : σ} (reached : g.Reaches moves n x) :
    describes (v.incoming n) x := by
  have forward := approximates.forward
  induction reached with
  | start x =>
    have entry := solves.entry
    rw [forward] at entry
    exact approximates.weaken _ _ x closed.entry (inside _).1 entry (approximates.entry g x)
  | @pass n e x reached absent edge ih =>
    refine solves.step wellFormed closed approximates inside reached.reachable edge ?_
    intro result made
    rw [a.yielded_of_none absent] at made
    cases made
    exact ih
  | @move n e i x y reached present edge moved ih =>
    refine solves.step wellFormed closed approximates inside reached.reachable edge ?_
    intro result made
    have listed : e.label ∈ g.labels a.direction n := Graph.mem_labels (by rw [forward]; exact edge)
    rw [a.yielded_of_instruction present] at made
    exact approximates.transfer i _ _ result e.label x y (inside n).1 made listed moved ih

theorem solve_describes (wellFormed : g.WellFormed) (lawful : a.ops.LawfulOn carrier)
    (closed : a.Closed g carrier) (approximates : a.Approximates carrier moves describes)
    {config : SolverConfig} {signal : Signal} {r : Solution α} (solved : a.solve g config signal = .ok r)
    {n : NodeId} {x : σ} (reached : g.Reaches moves n x) :
    ∃ f, r.facts.get n = some f ∧ describes f.incoming x := by
  have reachable : g.Reachable a.direction n := approximates.forward ▸ reached.reachable
  obtain ⟨f, stored⟩ := (solve_facts wellFormed solved n).mpr reachable
  have described := (solve_solves wellFormed lawful closed solved).sound wellFormed closed approximates
    (Assignment.ofFacts_within closed.bottom (solve_within closed solved)) reached
  rw [Assignment.incoming_ofFacts stored] at described
  exact ⟨f, stored, described⟩

end Analysis

namespace Tuple

/-- A state that is reached and admits the value of every variable. -/
def Describes (admits : α → Value → Prop) (s : Tuple String α) (env : Env) : Prop :=
  s.isBottom = false ∧ ∀ x, admits (s.get x) (env x)

variable {admits : α → Value → Prop}

theorem describes_new {bottom fallback : α} (all : ∀ v, admits fallback v) (env : Env) :
    (new bottom fallback).Describes admits env := by
  refine ⟨rfl, fun x => ?_⟩
  simpa [get, new] using all (env x)

theorem Describes.assign {s : Tuple String α} {env : Env} (described : s.Describes admits env)
    (dst : Option String) {a : α} {v : Value} (admitted : admits a v) :
    (s.assign dst a).Describes admits (env.assign dst v) := by
  refine ⟨(isBottom_assign s dst a).trans described.1, fun x => ?_⟩
  rw [get_assign described.1]
  unfold Env.assign
  split
  · exact admitted
  · exact described.2 x

theorem Describes.forget {s : Tuple String α} {env : Env} (described : s.Describes admits env)
    (dst : Option String) {a : α} (all : ∀ v, admits a v) : (s.assign dst a).Describes admits env := by
  refine ⟨(isBottom_assign s dst a).trans described.1, fun x => ?_⟩
  rw [get_assign described.1]
  split
  · exact all (env x)
  · exact described.2 x

/-- Storing what the variable is known to satisfy changes nothing for the environment. -/
theorem Describes.set {s : Tuple String α} {env : Env} (described : s.Describes admits env) {x : String}
    {a : α} (admitted : admits a (env x)) : (s.set x a).Describes admits env := by
  refine ⟨(isBottom_set s x a).trans described.1, fun y => ?_⟩
  rw [get_set described.1]
  split
  · rename_i same
    exact same ▸ admitted
  · exact described.2 y

theorem Describes.weaken [LatticeElement α] {bottom fallback : α} {s t : Tuple String α} {env : Env}
    (described : s.Describes admits env) (lawful : (LatticeOps.ofElement bottom).Lawful)
    (overS : Over bottom fallback s) (overT : Over bottom fallback t) (precise : s.precise t = true)
    (upward : ∀ a b v, LatticeElement.precise a b = true → admits a v → admits b v) :
    t.Describes admits env := by
  rcases (precise_iff lawful overS overT).mp precise with dead | ⟨live, below⟩
  · simp [described.1] at dead
  · exact ⟨live, fun x => upward _ _ _ (below x) (described.2 x)⟩

end Tuple

end Dataflow
