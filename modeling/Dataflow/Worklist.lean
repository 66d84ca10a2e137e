import Dataflow.Config
import Dataflow.NodeMap

/-!
Pending nodes without repetition. A flag for each node says whether it is pending. A queue by rank keeps
the pending nodes in a set that is sorted by rank and takes the first; the other disciplines keep them in
the order in which they were pushed and take them from the front or from the back.
-/

namespace Dataflow

/-- A node with its position in reverse postorder, if it has one. -/
structure Ranked where
  rank : Option Nat
  node : NodeId
  deriving DecidableEq, Repr

namespace Ranked

/-- Nodes without a rank come after all others; equal ranks are told apart by the identifier. -/
def before (a b : Ranked) : Bool :=
  match a.rank, b.rank with
  | some i, some j => decide (i < j) || (decide (i = j) && decide (a.node.index < b.node.index))
  | some _, none => true
  | none, some _ => false
  | none, none => decide (a.node.index < b.node.index)

theorem before_trans {a b c : Ranked} (first : a.before b = true) (second : b.before c = true) :
    a.before c = true := by
  obtain ⟨i, _⟩ := a
  obtain ⟨j, _⟩ := b
  obtain ⟨k, _⟩ := c
  cases i <;> cases j <;> cases k <;> simp [before] at first second ⊢ <;> omega

/-- Of two different nodes one comes first. -/
theorem before_of_not {a b : Ranked} (differ : a ≠ b) (behind : a.before b = false) : b.before a = true := by
  obtain ⟨i, ⟨m⟩⟩ := a
  obtain ⟨j, ⟨n⟩⟩ := b
  cases i <;> cases j <;> simp [before] at differ behind ⊢ <;> omega

/-- Insertion into an ascending list; what is there already is not inserted again. -/
def insert (e : Ranked) : List Ranked → List Ranked
  | [] => [e]
  | x :: rest =>
    if x.before e then x :: insert e rest
    else if x = e then x :: rest
    else e :: x :: rest

theorem mem_insert {e x : Ranked} {entries : List Ranked} : x ∈ insert e entries ↔ x = e ∨ x ∈ entries := by
  induction entries with
  | nil => simp [insert]
  | cons first rest ih =>
    unfold insert
    split
    · simp only [List.mem_cons, ih]
      exact or_left_comm
    · split
      · rename_i same
        simp [same]
      · simp

theorem insert_ascending {e : Ranked} {entries : List Ranked}
    (ascending : entries.Pairwise fun a b => a.before b = true) :
    (insert e entries).Pairwise fun a b => a.before b = true := by
  induction entries with
  | nil => simp [insert]
  | cons first rest ih =>
    obtain ⟨least, later⟩ := List.pairwise_cons.mp ascending
    unfold insert
    split
    · rename_i ahead
      refine List.pairwise_cons.mpr ⟨fun x member => ?_, ih later⟩
      rcases mem_insert.mp member with rfl | old
      · exact ahead
      · exact least x old
    · split
      · exact ascending
      · rename_i behind differ
        have ahead := before_of_not differ (Bool.eq_false_iff.mpr behind)
        refine List.pairwise_cons.mpr ⟨fun x member => ?_, ascending⟩
        rcases List.mem_cons.mp member with rfl | old
        · exact ahead
        · exact before_trans ahead (least x old)

end Ranked

/-- A set of ranked nodes, listed from the first to the last. -/
structure RankedSet where
  entries : List Ranked
  ascending : entries.Pairwise fun a b => a.before b = true

namespace RankedSet

def empty : RankedSet := ⟨[], List.Pairwise.nil⟩

def insert (s : RankedSet) (e : Ranked) : RankedSet := ⟨e.insert s.entries, Ranked.insert_ascending s.ascending⟩

def popFirst? : RankedSet → Option (Ranked × RankedSet)
  | ⟨[], _⟩ => none
  | ⟨e :: rest, ascending⟩ => some (e, ⟨rest, (List.pairwise_cons.mp ascending).2⟩)

end RankedSet

structure Worklist where
  discipline : Discipline
  queued : NodeMap Bool
  /-- The pending nodes in the order in which they were pushed, unless they are queued by rank. -/
  queue : List NodeId
  rank : NodeMap (Option Nat)
  /-- The pending nodes, if they are queued by rank. -/
  ranked : RankedSet

namespace Worklist

def ranks (order : List NodeId) : NodeMap (Option Nat) :=
  order.zipIdx.foldl (fun m e => m.set e.1 (some e.2)) (.const none)

def new (discipline : Discipline) (order : List NodeId) : Worklist :=
  ⟨discipline, .const false, [], ranks order, .empty⟩

def push (w : Worklist) (n : NodeId) : Worklist :=
  if w.queued.get n then w
  else
    let queued := w.queued.set n true
    match w.discipline with
    | .reversePostorder => { w with queued, ranked := w.ranked.insert ⟨w.rank.get n, n⟩ }
    | .fifo | .lifo => { w with queued, queue := w.queue ++ [n] }

def pushAll (w : Worklist) (nodes : List NodeId) : Worklist := nodes.foldl push w

def pop? (w : Worklist) : Option (NodeId × Worklist) := do
  let (n, rest) ←
    match w.discipline with
    | .reversePostorder => w.ranked.popFirst?.map fun (e, rest) => (e.node, { w with ranked := rest })
    | .fifo => w.queue.head?.map fun n => (n, { w with queue := w.queue.tail })
    | .lifo => w.queue.getLast?.map fun n => (n, { w with queue := w.queue.dropLast })
  return (n, { rest with queued := rest.queued.set n false })

/-- All nodes of `order` pending, the first of them to be taken first. -/
def seeded (discipline : Discipline) (order : List NodeId) : Worklist :=
  (new discipline order).pushAll
    (match discipline with
    | .lifo => order.reverse
    | .reversePostorder | .fifo => order)

end Worklist

end Dataflow
