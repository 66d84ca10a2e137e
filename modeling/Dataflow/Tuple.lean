import Dataflow.Lattice
import Dataflow.OrderedMap

/-!
Tuples: abstract maps from keys to elements of a lattice. A tuple is either the bottom tuple, which
stands for "nothing reaches here", or holds finitely many entries; every other key has the fallback
element. Storing into the bottom tuple is refused, so no caller can turn it into a reachable one.
-/

namespace Dataflow

structure Tuple (κ α : Type) where
  /-- What every key of the bottom tuple holds. -/
  bottom : α
  /-- What a key without an entry holds. -/
  fallback : α
  /-- `none` for the bottom tuple. -/
  entries : Option (OrderedMap κ α)

/-- Why an operation on a tuple is refused. -/
inductive TupleFault where
  | putOnBottom
  | removeOnBottom
  deriving DecidableEq, Repr

def TupleFault.message : TupleFault → String
  | .putOnBottom => "precondition violated: put on a bottom tuple"
  | .removeOnBottom => "precondition violated: remove on a bottom tuple"

instance : Display TupleFault := ⟨TupleFault.message⟩

namespace Tuple

variable {κ α : Type}

def new (bottom fallback : α) : Tuple κ α := ⟨bottom, fallback, some .empty⟩

def dead (bottom fallback : α) : Tuple κ α := ⟨bottom, fallback, none⟩

/-- The bottom tuple over the elements of `t`. -/
def bottomLike (t : Tuple κ α) : Tuple κ α := { t with entries := none }

/-- The tuple without entries over the elements of `t`. -/
def emptyLike (t : Tuple κ α) : Tuple κ α := { t with entries := some .empty }

def isBottom (t : Tuple κ α) : Bool := t.entries.isNone

def keys (t : Tuple κ α) : List κ := (t.entries.map OrderedMap.keys).getD []

def size (t : Tuple κ α) : Nat := t.keys.length

variable [DecidableEq κ]

def get (t : Tuple κ α) (k : κ) : α :=
  match t.entries with
  | none => t.bottom
  | some m => (m.get? k).getD t.fallback

def put (t : Tuple κ α) (k : κ) (v : α) : Except TupleFault (Tuple κ α) :=
  match t.entries with
  | none => .error .putOnBottom
  | some m => .ok { t with entries := some (m.insert k v) }

/-- The element that was stored under the key, if any, and the tuple without it. -/
def remove (t : Tuple κ α) (k : κ) : Except TupleFault (Option α × Tuple κ α) :=
  match t.entries with
  | none => .error .removeOnBottom
  | some m => .ok (m.get? k, { t with entries := some (m.erase k) })

variable [LatticeElement α]

/-- Pointwise join on all keys: entries of `a` first, then those that only `b` has. -/
def join (a b : Tuple κ α) : Tuple κ α :=
  if a.isBottom && b.isBottom then a
  else
    { a with
      entries := some (.ofKeys (a.keys ++ b.keys) fun k => LatticeElement.join (a.get k) (b.get k)) }

/-- Pointwise precision; the bottom tuple lies below every tuple and above itself only. -/
def precise (a b : Tuple κ α) : Bool :=
  if a.isBottom then true
  else if b.isBottom then false
  else (a.keys ++ b.keys).all fun k => LatticeElement.precise (a.get k) (b.get k)

/-- A copy of every entry. -/
def copy (t : Tuple κ α) : Tuple κ α := { t with entries := t.entries.map (·.map LatticeElement.copy) }

instance : LatticeElement (Tuple κ α) := ⟨join, precise, copy⟩

end Tuple

/-- The stored entries in order, or the sign for bottom. -/
instance {κ α : Type} [Display κ] [Display α] : Display (Tuple κ α) where
  text t :=
    match t.entries with
    | none => "⊥"
    | some m =>
      let entry (e : κ × α) := Display.text e.1 ++ ": " ++ Display.text e.2
      "\x7b" ++ ", ".intercalate (m.entries.map entry) ++ "\x7d"

instance : Display String := ⟨id⟩

end Dataflow
