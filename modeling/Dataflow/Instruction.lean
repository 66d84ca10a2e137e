import Dataflow.Lattice

/-!
The instruction set: three-address code over variables that hold null, a 64-bit integer or a reference.
-/

namespace Dataflow

inductive Operand where
  | null
  | int (value : Int64)
  | var (name : String)
  deriving DecidableEq, Repr

inductive ArithOp where
  | add
  | sub
  | mul
  | div
  | rem
  deriving DecidableEq, Repr

inductive Comparison where
  | eq
  | ne
  deriving DecidableEq, Repr

inductive Instruction where
  | new (dst : String)
  | copy (dst src : String)
  | const (dst : String) (value : Operand)
  | arith (dst : String) (kind : ArithOp) (lhs rhs : Operand)
  | compare (cmp : Comparison) (lhs rhs : Operand)
  | load (dst object field : String)
  | store (object field : String) (value : Operand)
  | call (dst receiver : Option String) (method : String) (args : List Operand)
  | ret (value : Option Operand)
  | nop
  deriving DecidableEq, Repr

namespace Operand

def var? : Operand → Option String
  | .var name => some name
  | .null | .int _ => none

def text : Operand → String
  | .null => "null"
  | .int value => toString value.toInt
  | .var name => name

end Operand

namespace ArithOp

/-- An integer as a 64-bit value, if it is in range. -/
def fit? (n : Int) : Option Int64 :=
  if Int64.minValue.toInt ≤ n ∧ n ≤ Int64.maxValue.toInt then some (.ofInt n) else none

/-- Exact arithmetic, refused when the result is out of range or the divisor is zero. Division goes
toward zero, and there is a remainder exactly when there is a quotient. -/
def eval (op : ArithOp) (l r : Int64) : Option Int64 :=
  match op with
  | .add => fit? (l.toInt + r.toInt)
  | .sub => fit? (l.toInt - r.toInt)
  | .mul => fit? (l.toInt * r.toInt)
  | .div => if r = 0 then none else fit? (l.toInt.tdiv r.toInt)
  | .rem =>
    if r = 0 then none
    else (fit? (l.toInt.tdiv r.toInt)).bind fun _ => fit? (l.toInt.tmod r.toInt)

def symbol : ArithOp → String
  | .add => "+"
  | .sub => "-"
  | .mul => "*"
  | .div => "/"
  | .rem => "%"

def name : ArithOp → String
  | .add => "add"
  | .sub => "sub"
  | .mul => "mul"
  | .div => "div"
  | .rem => "rem"

def ofName? : String → Option ArithOp
  | "add" => some .add
  | "sub" => some .sub
  | "mul" => some .mul
  | "div" => some .div
  | "rem" => some .rem
  | _ => none

theorem ofName?_name (op : ArithOp) : ofName? op.name = some op := by
  cases op <;> rfl

end ArithOp

namespace Comparison

def symbol : Comparison → String
  | .eq => "=="
  | .ne => "!="

def name : Comparison → String
  | .eq => "eq"
  | .ne => "ne"

def ofName? : String → Option Comparison
  | "eq" => some .eq
  | "ne" => some .ne
  | _ => none

theorem ofName?_name (cmp : Comparison) : ofName? cmp.name = some cmp := by
  cases cmp <;> rfl

end Comparison

namespace Instruction

/-- The variable that the instruction writes. -/
def defined : Instruction → Option String
  | .new dst | .copy dst _ | .const dst _ | .arith dst _ _ _ | .load dst _ _ => some dst
  | .call dst _ _ _ => dst
  | .compare _ _ _ | .store _ _ _ | .ret _ | .nop => none

/-- The variables that the instruction reads, in the order of its operands. -/
def used : Instruction → List String
  | .new _ | .nop => []
  | .copy _ src => [src]
  | .const _ value => value.var?.toList
  | .arith _ _ lhs rhs | .compare _ lhs rhs => lhs.var?.toList ++ rhs.var?.toList
  | .load _ object _ => [object]
  | .store object _ value => object :: value.var?.toList
  | .call _ receiver _ args => receiver.toList ++ args.filterMap Operand.var?
  | .ret value => (value.bind Operand.var?).toList

/-- The variable that must not be null for the instruction to complete. -/
def dereferenced : Instruction → Option String
  | .load _ object _ | .store object _ _ => some object
  | .call _ receiver _ _ => receiver
  | _ => none

def text : Instruction → String
  | .new dst => dst ++ " = new"
  | .copy dst src => dst ++ " = " ++ src
  | .const dst value => dst ++ " = " ++ value.text
  | .arith dst kind lhs rhs => dst ++ " = " ++ lhs.text ++ " " ++ kind.symbol ++ " " ++ rhs.text
  | .compare cmp lhs rhs => "if " ++ lhs.text ++ " " ++ cmp.symbol ++ " " ++ rhs.text
  | .load dst object field => dst ++ " = " ++ object ++ "." ++ field
  | .store object field value => object ++ "." ++ field ++ " = " ++ value.text
  | .call dst receiver method args =>
    (dst.map (· ++ " = ")).getD "" ++ (receiver.map (· ++ ".")).getD "" ++ method ++ "(" ++
      ", ".intercalate (args.map Operand.text) ++ ")"
  | .ret (some value) => "return " ++ value.text
  | .ret none => "return"
  | .nop => "nop"

instance : Display Instruction := ⟨text⟩

end Instruction

end Dataflow
