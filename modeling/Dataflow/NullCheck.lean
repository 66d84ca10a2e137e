import Dataflow.Nullness
import Dataflow.Session

/-!
Findings: dereferences whose receiver may be null, as a session of the nullness analysis tells.
-/

namespace Dataflow

inductive Severity where
  | possible
  | definite
  deriving DecidableEq, Repr

namespace Severity

def name : Severity → String
  | .possible => "possible"
  | .definite => "definite"

def text : Severity → String
  | .possible => "possible null dereference"
  | .definite => "null dereference"

/-- How grave it is that a receiver has the given nullness; none if it cannot be null. -/
def ofNullness? : Nullness → Option Severity
  | .null => some .definite
  | .maybeNull => some .possible
  | .notNull | .bottom => none

/-- The gravest of several severities. -/
def worst? (severities : List Severity) : Option Severity :=
  if severities.contains .definite then some .definite
  else if severities.contains .possible then some .possible
  else none

end Severity

structure Finding where
  node : NodeId
  receiver : String
  severity : Severity
  instruction : String
  deriving DecidableEq, Repr

def Finding.text (f : Finding) : String :=
  f.node.text ++ ": " ++ f.severity.text ++ " of '" ++ f.receiver ++ "' in `" ++ f.instruction ++ "`"

namespace NullCheck

/-- The finding at a node that dereferences `x`, if the node is reachable and `x` may be null there. -/
def finding? (n : NodeId) (i : Instruction) (x : String) (before : Option Nullness.State) : Option Finding := do
  let severity ← Severity.ofNullness? ((← before).get x)
  return ⟨n, x, severity, i.text⟩

/-- Looks at one node. The session is asked for the state before a dereference only. -/
def inspect (signals : Token → Signal) (d : Node Instruction)
    (s : Session Instruction Nullness.State TupleFault) :
    Reply Instruction Nullness.State TupleFault (Option Finding) :=
  match d.kind.instruction? with
  | none => (s, .ok none)
  | some i =>
    match i.dereferenced with
    | none => (s, .ok none)
    | some x => (s.before signals d.id).map (finding? d.id i x)

/-- The findings in the graph of a session, in the order of the nodes. -/
def check (s : Session Instruction Nullness.State TupleFault) (signals : Token → Signal) :
    Reply Instruction Nullness.State TupleFault (List Finding) :=
  (s.collect (inspect signals) s.graph.nodes.toList).map (·.filterMap id)

end NullCheck

end Dataflow
