import Dataflow.Analysis
import Dataflow.Instruction
import Dataflow.Tuple

/-!
Nullness, forward and branch-sensitive. A variable is null, not null, or may be either; a comparison
with null refines the compared variable on both branches, and a dereference that completes shows that
its receiver is not null. A dereference that is left exceptionally has written nothing; every other
instruction leaves exceptionally with what it has written.
-/

namespace Dataflow

inductive Nullness where
  | bottom
  | null
  | notNull
  | maybeNull
  deriving DecidableEq, Repr

namespace Nullness

def join : Nullness → Nullness → Nullness
  | .bottom, n | n, .bottom => n
  | a, b => if a = b then a else .maybeNull

/-- The greatest lower bound, which refines a value under a condition. -/
def meet : Nullness → Nullness → Nullness
  | .maybeNull, n | n, .maybeNull => n
  | a, b => if a = b then a else .bottom

def precise : Nullness → Nullness → Bool
  | .bottom, _ | _, .maybeNull => true
  | a, b => decide (a = b)

def mayBeNull : Nullness → Bool
  | .null | .maybeNull => true
  | .bottom | .notNull => false

instance : LatticeElement Nullness where
  join := join
  precise := precise

instance : Display Nullness where
  text
    | .bottom => "⊥"
    | .null => "null"
    | .notNull => "not-null"
    | .maybeNull => "maybe-null"

/-- Variables without an entry may be null. -/
abbrev State := Tuple String Nullness

def ofOperand (s : State) : Operand → Nullness
  | .null => .null
  | .int _ => .notNull
  | .var name => s.get name

def refine (s : State) (x : String) (assumed : Nullness) : Except TupleFault State :=
  s.put x ((s.get x).meet assumed)

/-- The state on a branch that assumes something about `x`; bottom if that contradicts the state. -/
def assume (s : State) (x : String) (assumed : Nullness) : Except TupleFault State := do
  let branch ← refine s x assumed
  return if branch.get x = .bottom then branch.bottomLike else branch

def split (s : State) (cmp : Comparison) (x : String) : Except TupleFault (Labeled State) := do
  let equal ← assume s x .null
  let different ← assume s x .notNull
  match cmp with
  | .eq => return ((Labeled.single s).put .whenTrue equal).put .whenFalse different
  | .ne => return ((Labeled.single s).put .whenTrue different).put .whenFalse equal

/-- Only a comparison of a variable with null tells the branches apart. -/
def compare (s : State) (cmp : Comparison) : Operand → Operand → Except TupleFault (Labeled State)
  | .var x, .null | .null, .var x => split s cmp x
  | _, _ => .ok (.single s)

/-- What the instruction writes, in the state that its dereference has refined. -/
def write (s : State) : Instruction → Except TupleFault State
  | .new dst | .arith dst _ _ _ => s.put dst .notNull
  | .copy dst src => s.put dst (s.get src)
  | .const dst value => s.put dst (ofOperand s value)
  | .load dst _ _ | .call (some dst) _ _ _ => s.put dst .maybeNull
  | .call none _ _ _ | .compare _ _ _ | .store _ _ _ | .ret _ | .nop => .ok s

/-- An instruction that dereferences `x`: the normal path assumes that `x` is not null, the exceptional
one keeps the state from before. -/
def dereference (s : State) (labels : List Label) (i : Instruction) (x : String) :
    Except TupleFault (Labeled State) := do
  let refined ← refine s x .notNull
  let written ← write refined i
  let normal := if refined.get x = .bottom then written.bottomLike else written
  return if labels.contains .exceptional then (Labeled.single normal).put .exceptional s
    else .single normal

def step (s : State) (labels : List Label) (i : Instruction) : Except TupleFault (Labeled State) :=
  match i.dereferenced, i with
  | some x, _ => dereference s labels i x
  | none, .compare cmp lhs rhs => compare s cmp lhs rhs
  | none, _ => do
    let written ← write s i
    return .single written

/-- Nothing comes of a state that is not reached. -/
def transfer (i : Instruction) (labels : List Label) (s : State) :
    Except TupleFault (Labeled State) :=
  if s.isBottom then .ok (.single s) else step s labels i

def analysis : Analysis Instruction State TupleFault where
  direction := .forward
  ops := .ofElement (.dead .bottom .maybeNull)
  entry := fun _ => .new .bottom .maybeNull
  transfer := transfer

end Nullness

end Dataflow
