import Dataflow.Analysis
import Dataflow.Graph.Traversal
import Dataflow.Worklist

/-!
The worklist solver. Every reachable node starts at bottom and is pending. A turn asks the cancellation
signal, takes a pending node, joins what its flow predecessors send along the labels of their edges,
applies the transfer function and makes those flow successors pending whose label has changed. A node
that is taken more often than the configuration allows ends the run, so a run has at most one turn more
than reachable nodes times allowed visits; no law of the lattice is needed for that.
-/

namespace Dataflow

/-- The facts of a reachable node, in flow direction. -/
structure Facts (α : Type) where
  incoming : α
  outgoing : Labeled α

/-- The answers of a cancellation token: whether it is cancelled when asked for the `i`-th time. -/
abbrev Signal := Nat → Bool

def Signal.never : Signal := fun _ => false

def Signal.always : Signal := fun _ => true

structure Run (α : Type) where
  facts : NodeMap (Option (Facts α))
  visits : NodeMap Nat
  worklist : Worklist
  iterations : Nat

/-- The outcome of a run that came to rest. -/
structure Solution (α : Type) where
  direction : Direction
  facts : NodeMap (Option (Facts α))
  visits : NodeMap Nat
  /-- How many nodes were taken off the worklist. -/
  iterations : Nat

namespace Analysis

variable {I α ε : Type}

/-- The join of the entry value at the root, and of bottom elsewhere, with what each flow predecessor
holds on the label of its edge. -/
def arriving (a : Analysis I α ε) (g : Graph I) (facts : NodeMap (Option (Facts α))) (n : NodeId) : α :=
  (g.flowPredecessors a.direction n).foldl
    (fun value e =>
      match facts.get e.node with
      | none => value
      | some f => a.ops.join value (f.outgoing.get e.label))
    (if n = a.direction.root then a.ops.copy (a.entry g) else a.ops.bottom)

/-- The result of a node on exactly the labels that leave it; start and end hand their value on. -/
def leaving (a : Analysis I α ε) (g : Graph I) (n : NodeId) (value : α) :
    Except ε (Labeled α) :=
  match g.instruction? n with
  | none => .ok ((Labeled.single (a.ops.copy value)).restrict a.ops (g.labels a.direction n))
  | some i =>
    match a.transfer i (g.labels a.direction n) (a.ops.copy value) with
    | .ok result => .ok (result.restrict a.ops (g.labels a.direction n))
    | .error fault => .error fault

/-- The labels on which a new result differs from the stored one. -/
def changed (a : Analysis I α ε) (g : Graph I) (facts : NodeMap (Option (Facts α))) (n : NodeId)
    (outgoing : Labeled α) : List Label :=
  match facts.get n with
  | none => g.labels a.direction n
  | some old => outgoing.changedLabels a.ops old.outgoing (g.labels a.direction n)

/-- The flow successors that have to be looked at again after a change on the given labels. -/
def affected (a : Analysis I α ε) (g : Graph I) (n : NodeId) (labels : List Label) : List NodeId :=
  ((g.flowSuccessors a.direction n).filter fun e => labels.contains e.label).map Edge.node

/-- The facts before the first turn: bottom at every reachable node, nothing elsewhere. -/
def seed (a : Analysis I α ε) (g : Graph I) : NodeMap (Option (Facts α)) :=
  (g.reversePostorder a.direction).foldl
    (fun facts n => facts.set n (some ⟨a.ops.bottom, .single a.ops.bottom⟩)) (.const none)

def begin (a : Analysis I α ε) (g : Graph I) (order : Discipline) : Run α where
  facts := a.seed g
  visits := .const 0
  worklist := .seeded order (g.reversePostorder a.direction)
  iterations := 0

end Analysis

/-- What one turn of the loop comes to. -/
inductive Turn (α ε : Type) where
  | cancelled
  | finished
  | failed (node : NodeId) (failure : Failure ε)
  | visited (node : NodeId) (next : Run α)

namespace Analysis

variable {I α ε : Type}

/-- Visits the node `n`, which has just been taken off the worklist. -/
def visit (a : Analysis I α ε) (g : Graph I) (limit : Nat) (s : Run α) (n : NodeId) (rest : Worklist) :
    Turn α ε :=
  if limit < s.visits.get n + 1 then .failed n (.nonConvergent n limit)
  else
    match a.leaving g n (a.arriving g s.facts n) with
    | .error fault => .failed n (.transfer n fault)
    | .ok outgoing =>
      .visited n
        { facts := s.facts.set n (some ⟨a.arriving g s.facts n, outgoing⟩)
          visits := s.visits.set n (s.visits.get n + 1)
          worklist := rest.pushAll (a.affected g n (a.changed g s.facts n outgoing))
          iterations := s.iterations + 1 }

def turn (a : Analysis I α ε) (g : Graph I) (limit : Nat) (signal : Signal) (s : Run α) : Turn α ε :=
  if signal s.iterations then .cancelled
  else
    match s.worklist.pop? with
    | none => .finished
    | some (n, rest) => a.visit g limit s n rest

/-- The outcome, if the run ends within the given number of turns. -/
def runWithin (a : Analysis I α ε) (g : Graph I) (limit : Nat) (signal : Signal) :
    Nat → Run α → Option (Except (Failure ε) (Solution α))
  | 0, _ => none
  | turns + 1, s =>
    match a.turn g limit signal s with
    | .cancelled => some (.error (.cancelled s.iterations))
    | .finished => some (.ok ⟨a.direction, s.facts, s.visits, s.iterations⟩)
    | .failed _ failure => some (.error failure)
    | .visited _ next => a.runWithin g limit signal turns next

/-- The nodes taken off the worklist within the given number of turns, in order. -/
def takenWithin (a : Analysis I α ε) (g : Graph I) (limit : Nat) (signal : Signal) :
    Nat → Run α → List NodeId
  | 0, _ => []
  | turns + 1, s =>
    match a.turn g limit signal s with
    | .cancelled | .finished => []
    | .failed n _ => [n]
    | .visited n next => n :: a.takenWithin g limit signal turns next

/-- No run has more turns than this. -/
def turnBound (a : Analysis I α ε) (g : Graph I) (limit : Nat) : Nat :=
  (g.reversePostorder a.direction).length * limit + 1

/-- The fixpoint, or why there is none. A run that has used up `turnBound` has not converged. -/
def solve (a : Analysis I α ε) (g : Graph I) (config : SolverConfig) (signal : Signal) :
    Except (Failure ε) (Solution α) :=
  match config.validate with
  | .error fault => .error (.configuration fault)
  | .ok () =>
    (a.runWithin g config.maxVisits signal (a.turnBound g config.maxVisits)
      (a.begin g config.order)).getD (.error (.nonConvergent a.direction.root config.maxVisits))

/-- The nodes that `solve` takes off the worklist, in order, whatever its outcome. -/
def taken (a : Analysis I α ε) (g : Graph I) (config : SolverConfig) (signal : Signal) : List NodeId :=
  match config.validate with
  | .error _ => []
  | .ok () =>
    a.takenWithin g config.maxVisits signal (a.turnBound g config.maxVisits) (a.begin g config.order)

theorem iterations_of_turn {a : Analysis I α ε} {g : Graph I} {limit : Nat} {signal : Signal}
    {s next : Run α} {n : NodeId} (h : a.turn g limit signal s = .visited n next) :
    next.iterations = s.iterations + 1 := by
  unfold turn at h
  split at h
  · cases h
  · split at h
    · cases h
    · unfold visit at h
      split at h
      · cases h
      · split at h
        · cases h
        · cases h; rfl

end Analysis

namespace Solution

variable {α : Type}

def incoming? (r : Solution α) (n : NodeId) : Option α := (r.facts.get n).map Facts.incoming

def outgoing? (r : Solution α) (n : NodeId) : Option (Labeled α) := (r.facts.get n).map Facts.outgoing

/-- How many of the given nodes have facts. -/
def reachableCount (r : Solution α) (nodes : List NodeId) : Nat :=
  nodes.countP fun n => (r.facts.get n).isSome

/-- The state before a node in program order, label by label; none at an unreachable node. -/
def labeledBefore (r : Solution α) (ops : LatticeOps α) (n : NodeId) : Option (Labeled α) :=
  (r.facts.get n).map fun f =>
    match r.direction with
    | .forward => .single (ops.copy f.incoming)
    | .backward => f.outgoing.map ops.copy

/-- The state after a node in program order, label by label; none at an unreachable node. -/
def labeledAfter (r : Solution α) (ops : LatticeOps α) (n : NodeId) : Option (Labeled α) :=
  (r.facts.get n).map fun f =>
    match r.direction with
    | .forward => f.outgoing.map ops.copy
    | .backward => .single (ops.copy f.incoming)

def before (r : Solution α) (ops : LatticeOps α) (n : NodeId) : Option α :=
  (r.labeledBefore ops n).map (Labeled.collapse ops)

def after (r : Solution α) (ops : LatticeOps α) (n : NodeId) : Option α :=
  (r.labeledAfter ops n).map (Labeled.collapse ops)

def atStart (r : Solution α) (ops : LatticeOps α) : Option α := r.after ops .start

def atEnd (r : Solution α) (ops : LatticeOps α) : Option α := r.before ops .finish

end Solution

end Dataflow
