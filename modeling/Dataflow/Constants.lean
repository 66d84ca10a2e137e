import Dataflow.Analysis
import Dataflow.Instruction
import Dataflow.Tuple

/-!
Constant propagation, forward, with branch refinement. A variable holds one known integer or anything;
a comparison of known integers kills one branch, and an equality with a known integer pins the variable
on the branch where it holds.
-/

namespace Dataflow

inductive Constant where
  | bottom
  | known (value : Int64)
  | top
  deriving DecidableEq, Repr

namespace Constant

def value? : Constant → Option Int64
  | .known value => some value
  | .bottom | .top => none

def join : Constant → Constant → Constant
  | .bottom, c | c, .bottom => c
  | a, b => if a = b then a else .top

def meet : Constant → Constant → Constant
  | .top, c | c, .top => c
  | a, b => if a = b then a else .bottom

def precise : Constant → Constant → Bool
  | .bottom, _ | _, .top => true
  | a, b => decide (a = b)

instance : LatticeElement Constant where
  join := join
  precise := precise

instance : Display Constant where
  text
    | .bottom => "⊥"
    | .known value => toString value.toInt
    | .top => "⊤"

/-- Variables without an entry may hold anything. -/
abbrev State := Tuple String Constant

def ofOperand (s : State) : Operand → Constant
  | .int value => .known value
  | .null => .top
  | .var name => s.get name

/-- The result of an operation on two abstract integers; one that fails may leave anything. -/
def fold (op : ArithOp) : Constant → Constant → Constant
  | .bottom, _ | _, .bottom => .bottom
  | .known l, .known r => ((op.eval l r).map Constant.known).getD .top
  | _, _ => .top

def branches (s onTrue onFalse : State) : Labeled State :=
  ((Labeled.single s).put .whenTrue onTrue).put .whenFalse onFalse

/-- The branches of a comparison that pins `x` to `c` where it finds equality. -/
def pin (s : State) (cmp : Comparison) (x : String) (c : Constant) :
    Except TupleFault (Labeled State) := do
  let equal ← s.put x ((s.get x).meet c)
  match cmp with
  | .eq => return branches s equal s
  | .ne => return branches s s equal

def compare (s : State) (cmp : Comparison) (lhs rhs : Operand) : Except TupleFault (Labeled State) :=
  match ofOperand s lhs, ofOperand s rhs with
  | .bottom, _ | _, .bottom => .ok (branches s.bottomLike s.bottomLike s.bottomLike)
  | .known l, .known r =>
    if decide (l = r) = decide (cmp = .eq) then .ok (branches s s s.bottomLike)
    else .ok (branches s s.bottomLike s)
  | .top, .known r =>
    match lhs with
    | .var x => pin s cmp x (.known r)
    | .null | .int _ => .ok (.single s)
  | .known l, .top =>
    match rhs with
    | .var x => pin s cmp x (.known l)
    | .null | .int _ => .ok (.single s)
  | .top, .top => .ok (.single s)

def write (s : State) : Instruction → Except TupleFault State
  | .const dst value => s.put dst (ofOperand s value)
  | .copy dst src => s.put dst (s.get src)
  | .arith dst kind lhs rhs => s.put dst (fold kind (ofOperand s lhs) (ofOperand s rhs))
  | .new dst | .load dst _ _ | .call (some dst) _ _ _ => s.put dst .top
  | .call none _ _ _ | .compare _ _ _ | .store _ _ _ | .ret _ | .nop => .ok s

def step (s : State) : Instruction → Except TupleFault (Labeled State)
  | .compare cmp lhs rhs => compare s cmp lhs rhs
  | i => do
    let written ← write s i
    return .single written

/-- Nothing comes of a state that is not reached. -/
def transfer (i : Instruction) (_labels : List Label) (s : State) :
    Except TupleFault (Labeled State) :=
  if s.isBottom then .ok (.single s) else step s i

def analysis : Analysis Instruction State TupleFault where
  direction := .forward
  ops := .ofElement (.dead .bottom .top)
  entry := fun _ => .new .bottom .top
  transfer := transfer

end Constant

end Dataflow
