import Dataflow.Proofs.Run

/-! The solver on cells that exist. A node map can be read and written anywhere; here everything that is kept for
the nodes of a graph has one cell per node, and an access to any other cell is a fault that ends the computation.
Traversal, worklist and turns are stated once more on such cells. On a well-formed graph none of their accesses
is at fault, and they compute what the solver computes on maps: step by step the cells are the maps, cut to the
size of the graph. -/

namespace Dataflow

variable {I α ε : Type}

/-- An access to a cell that does not exist. -/
structure OutOfRange where
  node : NodeId
  size : Nat
  deriving DecidableEq, Repr

namespace Cells

def read (cells : Array α) (n : NodeId) : Except OutOfRange α :=
  match cells[n.index]? with
  | some value => .ok value
  | none => .error ⟨n, cells.size⟩

def write (cells : Array α) (n : NodeId) (value : α) : Except OutOfRange (Array α) :=
  if n.index < cells.size then .ok (cells.setIfInBounds n.index value) else .error ⟨n, cells.size⟩

end Cells

namespace NodeMap

/-- The cells of the nodes of a graph of the given size. -/
def cut (m : NodeMap α) (size : Nat) : Array α := Array.ofFn fun i : Fin size => m.get ⟨i⟩

variable {size : Nat} {n : NodeId}

@[simp] theorem cut_const (value : α) (size : Nat) : (const value).cut size = Array.replicate size value := by
  apply Array.ext <;> simp [cut]

theorem read_cut (m : NodeMap α) (inside : n.index < size) : Cells.read (m.cut size) n = .ok (m.get n) := by
  simp [Cells.read, cut, inside]

theorem write_cut (m : NodeMap α) (inside : n.index < size) (value : α) :
    Cells.write (m.cut size) n value = .ok ((m.set n value).cut size) := by
  have same : (m.cut size).setIfInBounds n.index value = (m.set n value).cut size := by
    apply Array.ext
    · simp [cut]
    · intro i first second
      have index : (⟨i⟩ : NodeId) = n ↔ n.index = i := by
        cases n
        simp [eq_comm]
      rw [Array.getElem_setIfInBounds (by simpa using first)]
      simp [cut, get_set, index]
  rw [Cells.write, if_pos (by simpa [cut] using inside), same]

end NodeMap

namespace Checked

/-! Traversal. -/

structure Traversal where
  stack : List (NodeId × List NodeId)
  seen : Array Bool
  finished : List NodeId

def Traversal.step (next : NodeId → List NodeId) (t : Traversal) : Except OutOfRange Traversal :=
  match t.stack with
  | [] => .ok t
  | (n, []) :: below => .ok ⟨below, t.seen, n :: t.finished⟩
  | (n, target :: targets) :: below => do
    if ← Cells.read t.seen target then return ⟨(n, targets) :: below, t.seen, t.finished⟩
    else
      let seen ← Cells.write t.seen target true
      return ⟨(target, next target) :: (n, targets) :: below, seen, t.finished⟩

def Traversal.run (next : NodeId → List NodeId) : Nat → Traversal → Except OutOfRange Traversal
  | 0, t => .ok t
  | fuel + 1, t => do
    let stepped ← t.step next
    Traversal.run next fuel stepped

def reversePostorder (g : Graph I) (direction : Direction) : Except OutOfRange (List NodeId) :=
  if g.contains direction.root then do
    let seen ← Cells.write (Array.replicate g.size false) direction.root true
    let next := g.flowTargets direction
    let t ← Traversal.run next (g.traversalSteps direction) ⟨[(direction.root, next direction.root)], seen, []⟩
    return t.finished
  else .ok []

/-! Pending nodes. -/

structure Worklist where
  discipline : Discipline
  queued : Array Bool
  queue : List NodeId
  rank : Array (Option Nat)
  ranked : RankedSet

namespace Worklist

def push (w : Worklist) (n : NodeId) : Except OutOfRange Worklist := do
  if ← Cells.read w.queued n then return w
  else
    let queued ← Cells.write w.queued n true
    match w.discipline with
    | .reversePostorder =>
      let rank ← Cells.read w.rank n
      return { w with queued, ranked := w.ranked.insert ⟨rank, n⟩ }
    | .fifo | .lifo => return { w with queued, queue := w.queue ++ [n] }

def pushAll (w : Worklist) : List NodeId → Except OutOfRange Worklist
  | [] => .ok w
  | n :: rest => do
    let next ← w.push n
    next.pushAll rest

def pop? (w : Worklist) : Except OutOfRange (Option (NodeId × Worklist)) :=
  let next? : Option (NodeId × Worklist) :=
    match w.discipline with
    | .reversePostorder => w.ranked.popFirst?.map fun (e, rest) => (e.node, { w with ranked := rest })
    | .fifo => w.queue.head?.map fun n => (n, { w with queue := w.queue.tail })
    | .lifo => w.queue.getLast?.map fun n => (n, { w with queue := w.queue.dropLast })
  match next? with
  | none => .ok none
  | some (n, rest) => do
    let queued ← Cells.write rest.queued n false
    return some (n, { rest with queued })

def ranks (cells : Array (Option Nat)) : List (NodeId × Nat) → Except OutOfRange (Array (Option Nat))
  | [] => .ok cells
  | (n, position) :: rest => do
    let next ← Cells.write cells n (some position)
    ranks next rest

def seeded (size : Nat) (discipline : Discipline) (order : List NodeId) : Except OutOfRange Worklist := do
  let rank ← ranks (Array.replicate size none) order.zipIdx
  let w : Worklist := ⟨discipline, Array.replicate size false, [], rank, .empty⟩
  w.pushAll (match discipline with
    | .lifo => order.reverse
    | .reversePostorder | .fifo => order)

end Worklist

/-! Turns. -/

structure Run (α : Type) where
  facts : Array (Option (Facts α))
  visits : Array Nat
  worklist : Worklist
  iterations : Nat

structure Solution (α : Type) where
  direction : Direction
  facts : Array (Option (Facts α))
  visits : Array Nat
  iterations : Nat

/-- What a solution has for a node, if it has a cell for it at all. -/
def Solution.facts? (r : Solution α) (n : NodeId) : Option (Facts α) := r.facts[n.index]?.join

inductive Turn (α ε : Type) where
  | cancelled
  | finished
  | failed (node : NodeId) (failure : Failure ε)
  | visited (node : NodeId) (next : Run α)

def seed (cells : Array (Option (Facts α))) (bottom : α) :
    List NodeId → Except OutOfRange (Array (Option (Facts α)))
  | [] => .ok cells
  | n :: rest => do
    let next ← Cells.write cells n (some ⟨bottom, .single bottom⟩)
    seed next bottom rest

/-- Joins what arrives along the edges to a value. -/
def joined (ops : LatticeOps α) (facts : Array (Option (Facts α))) (value : α) :
    List Edge → Except OutOfRange α
  | [] => .ok value
  | e :: rest => do
    match ← Cells.read facts e.node with
    | none => joined ops facts value rest
    | some f => joined ops facts (ops.join value (f.outgoing.get e.label)) rest

def changed (a : Analysis I α ε) (g : Graph I) (facts : Array (Option (Facts α))) (n : NodeId)
    (outgoing : Labeled α) : Except OutOfRange (List Label) := do
  match ← Cells.read facts n with
  | none => return g.labels a.direction n
  | some old => return outgoing.changedLabels a.ops old.outgoing (g.labels a.direction n)

def visit (a : Analysis I α ε) (g : Graph I) (limit : Nat) (s : Run α) (n : NodeId) (rest : Worklist) :
    Except OutOfRange (Turn α ε) := do
  let count ← Cells.read s.visits n
  let visits ← Cells.write s.visits n (count + 1)
  if limit < count + 1 then return .failed n (.nonConvergent n limit)
  else
    let incoming ← joined a.ops s.facts (a.origin g n) (g.flowPredecessors a.direction n)
    match a.leaving g n incoming with
    | .error fault => return .failed n (.transfer n fault)
    | .ok outgoing =>
      let labels ← changed a g s.facts n outgoing
      let facts ← Cells.write s.facts n (some ⟨incoming, outgoing⟩)
      let worklist ← rest.pushAll (a.affected g n labels)
      return .visited n ⟨facts, visits, worklist, s.iterations + 1⟩

def turn (a : Analysis I α ε) (g : Graph I) (limit : Nat) (signal : Signal) (s : Run α) :
    Except OutOfRange (Turn α ε) :=
  if signal s.iterations then .ok .cancelled
  else do
    match ← s.worklist.pop? with
    | none => return .finished
    | some (n, rest) => visit a g limit s n rest

def runWithin (a : Analysis I α ε) (g : Graph I) (limit : Nat) (signal : Signal) :
    Nat → Run α → Except OutOfRange (Option (Except (Failure ε) (Solution α)))
  | 0, _ => .ok none
  | turns + 1, s => do
    match ← turn a g limit signal s with
    | .cancelled => return some (.error (.cancelled s.iterations))
    | .finished => return some (.ok ⟨a.direction, s.facts, s.visits, s.iterations⟩)
    | .failed _ failure => return some (.error failure)
    | .visited _ next => runWithin a g limit signal turns next

/-- The solver with every access checked: a fault of an access stands apart from the failures of a run. -/
def solve (a : Analysis I α ε) (g : Graph I) (config : SolverConfig) (signal : Signal) :
    Except OutOfRange (Except (Failure ε) (Solution α)) :=
  match config.validate with
  | .error fault => .ok (.error (.configuration fault))
  | .ok () => do
    let order ← reversePostorder g a.direction
    let facts ← seed (Array.replicate g.size none) a.ops.bottom order
    let worklist ← Worklist.seeded g.size config.order order
    let outcome ← runWithin a g config.maxVisits signal (order.length * config.maxVisits + 1)
      ⟨facts, Array.replicate g.size 0, worklist, 0⟩
    return outcome.getD (.error (.nonConvergent a.direction.root config.maxVisits))

end Checked

def Traversal.cut (t : Traversal) (size : Nat) : Checked.Traversal := ⟨t.stack, t.seen.cut size, t.finished⟩

def Worklist.cut (w : Worklist) (size : Nat) : Checked.Worklist :=
  ⟨w.discipline, w.queued.cut size, w.queue, w.rank.cut size, w.ranked⟩

def Run.cut (s : Run α) (size : Nat) : Checked.Run α :=
  ⟨s.facts.cut size, s.visits.cut size, s.worklist.cut size, s.iterations⟩

def Solution.cut (r : Solution α) (size : Nat) : Checked.Solution α :=
  ⟨r.direction, r.facts.cut size, r.visits.cut size, r.iterations⟩

def Turn.cut (size : Nat) : Turn α ε → Checked.Turn α ε
  | .cancelled => .cancelled
  | .finished => .finished
  | .failed n failure => .failed n failure
  | .visited n next => .visited n (next.cut size)

section

variable {next : NodeId → List NodeId} {size : Nat} (bounded : ∀ n, ∀ m ∈ next n, m.index < size)

include bounded

namespace Traversal

/-- A step looks up and marks a target of the top node, and targets are in range. -/
theorem step_cut {t : Traversal} (valid : Invariant next t) :
    (t.cut size).step next = .ok ((t.step next).cut size) := by
  have ahead {n target : NodeId} {targets : List NodeId} {below : List (NodeId × List NodeId)}
      (top : t.stack = (n, target :: targets) :: below) : target.index < size := by
    have listed := valid.suffixes (n, target :: targets) (by simp [top])
    exact bounded n target (listed.subset List.mem_cons_self)
  rcases step_cases next t with ⟨top, stepped⟩ | ⟨n, below, top, stepped⟩ |
    ⟨n, target, targets, below, top, marked, stepped⟩ | ⟨n, target, targets, below, top, fresh, stepped⟩
  · simp [Checked.Traversal.step, cut, top, stepped]
  · simp [Checked.Traversal.step, cut, top, stepped]
  · have inside := ahead top
    simp [Checked.Traversal.step, cut, top, stepped, NodeMap.read_cut _ inside, marked, bind, Except.bind, pure,
      Except.pure]
  · have inside := ahead top
    simp [Checked.Traversal.step, cut, top, stepped, NodeMap.read_cut _ inside, NodeMap.write_cut _ inside, fresh,
      bind, Except.bind, pure, Except.pure]

theorem run_cut (fuel : Nat) {t : Traversal} (valid : Invariant next t) :
    Checked.Traversal.run next fuel (t.cut size) = .ok ((run next fuel t).cut size) := by
  induction fuel generalizing t with
  | zero => rfl
  | succ fuel ih =>
    simp only [Checked.Traversal.run, step_cut bounded valid, bind, Except.bind]
    exact ih (step_invariant valid)

end Traversal

end

namespace Graph

theorem flow_source_bounded {g : Graph I} (wellFormed : g.WellFormed) {direction : Direction} {n : NodeId}
    {e : Edge} (member : e ∈ g.flowPredecessors direction n) : g.contains e.node = true := by
  cases direction with
  | forward => exact contains_of_mem_successors ((wellFormed.mirrored e.node n e.label).mpr member)
  | backward => exact wellFormed.bounded n e member

theorem reversePostorder_checked {g : Graph I} (wellFormed : g.WellFormed) (direction : Direction) :
    Checked.reversePostorder g direction = .ok (g.reversePostorder direction) := by
  have rooted := contains_root wellFormed direction
  have bounded (n m : NodeId) (target : m ∈ g.flowTargets direction n) : m.index < g.size := by
    obtain ⟨e, member, rfl⟩ := List.mem_map.mp target
    exact (contains_iff _ _).mp (flow_bounded wellFormed member)
  have entered : Cells.write (Array.replicate g.size false) direction.root true =
      .ok (((NodeMap.const false).set direction.root true).cut g.size) := by
    rw [← NodeMap.cut_const, NodeMap.write_cut _ ((contains_iff _ _).mp rooted)]
  have ran := Traversal.run_cut bounded (g.traversalSteps direction)
    (Traversal.enter_invariant (g.flowTargets direction) direction.root)
  rw [Traversal.enter, Traversal.cut] at ran
  simp only [Checked.reversePostorder, rooted, if_true, entered, ran, bind, Except.bind]
  rw [reversePostorder_eq wellFormed]
  rfl

end Graph

namespace Worklist

variable {size : Nat} {w : Worklist} {n : NodeId}

/-- All pending nodes are in range. -/
def Inside (size : Nat) (w : Worklist) : Prop := ∀ m ∈ w.pending, m.index < size

theorem push_cut (here : n.index < size) : (w.cut size).push n = .ok ((w.push n).cut size) := by
  have read : Cells.read (w.cut size).queued n = .ok (w.queued.get n) := NodeMap.read_cut _ here
  have written : Cells.write (w.cut size).queued n true = .ok ((w.queued.set n true).cut size) :=
    NodeMap.write_cut _ here true
  have ranked : Cells.read (w.cut size).rank n = .ok (w.rank.get n) := NodeMap.read_cut _ here
  unfold Checked.Worklist.push
  cases queued : w.queued.get n with
  | true => simp [read, queued, push_of_queued queued, bind, Except.bind, pure, Except.pure]
  | false =>
    have same : (w.cut size).discipline = w.discipline := rfl
    simp only [read, queued, written, ranked, same, push, bind, Except.bind, pure, Except.pure]
    cases w.discipline <;> rfl

theorem pushAll_cut {nodes : List NodeId} (here : ∀ n ∈ nodes, n.index < size) :
    (w.cut size).pushAll nodes = .ok ((w.pushAll nodes).cut size) := by
  induction nodes generalizing w with
  | nil => rfl
  | cons n rest ih =>
    obtain ⟨first, later⟩ := List.forall_mem_cons.mp here
    simp only [Checked.Worklist.pushAll, push_cut first, bind, Except.bind]
    exact ih later

theorem pop_cut (inside : w.Inside size) :
    (w.cut size).pop? = .ok (w.pop?.map fun taken => (taken.1, taken.2.cut size)) := by
  obtain ⟨discipline, queued, queue, rank, ⟨entries, ascending⟩⟩ := w
  have written {n : NodeId} (here : n.index < size) :
      Cells.write (queued.cut size) n false = .ok ((queued.set n false).cut size) :=
    NodeMap.write_cut _ here false
  cases discipline with
  | reversePostorder =>
    cases entries with
    | nil => rfl
    | cons e rest =>
      have here : e.node.index < size := inside e.node (by simp [pending, stored])
      simp [Checked.Worklist.pop?, pop?, cut, RankedSet.popFirst?, written here, bind, Except.bind, pure,
        Except.pure]
  | fifo =>
    cases queue with
    | nil => rfl
    | cons n rest =>
      have here : n.index < size := inside n (by simp [pending, stored])
      simp [Checked.Worklist.pop?, pop?, cut, written here, bind, Except.bind, pure, Except.pure]
  | lifo =>
    rcases List.eq_nil_or_concat queue with rfl | ⟨rest, n, rfl⟩
    · rfl
    · have here : n.index < size := inside n (by simp [pending, stored])
      simp [Checked.Worklist.pop?, pop?, cut, written here, bind, Except.bind, pure, Except.pure]

theorem ranks_cut (m : NodeMap (Option Nat)) {places : List (NodeId × Nat)}
    (here : ∀ e ∈ places, e.1.index < size) :
    Checked.Worklist.ranks (m.cut size) places =
      .ok ((places.foldl (fun m e => m.set e.1 (some e.2)) m).cut size) := by
  induction places generalizing m with
  | nil => rfl
  | cons e rest ih =>
    obtain ⟨n, position⟩ := e
    obtain ⟨first, later⟩ := List.forall_mem_cons.mp here
    simp only [Checked.Worklist.ranks, NodeMap.write_cut _ first, bind, Except.bind]
    exact ih _ later

theorem seeded_cut (discipline : Discipline) {order : List NodeId} (here : ∀ n ∈ order, n.index < size) :
    Checked.Worklist.seeded size discipline order = .ok ((seeded discipline order).cut size) := by
  have ranked : Checked.Worklist.ranks (Array.replicate size none) order.zipIdx =
      .ok ((ranks order).cut size) := by
    rw [← NodeMap.cut_const]
    apply ranks_cut
    rintro ⟨n, position⟩ member
    exact here n (List.fst_mem_of_mem_zipIdx member)
  have fresh : (new discipline order).cut size =
      ⟨discipline, Array.replicate size false, [], (ranks order).cut size, .empty⟩ := by simp [cut, new]
  simp only [Checked.Worklist.seeded, ranked, bind, Except.bind]
  rw [← fresh]
  apply pushAll_cut
  cases discipline <;> simpa using here

end Worklist

namespace Analysis

variable {a : Analysis I α ε} {g : Graph I} {limit : Nat} {signal : Signal} {s : Run α}

theorem seed_cut {size : Nat} (bottom : α) (m : NodeMap (Option (Facts α))) {order : List NodeId}
    (here : ∀ n ∈ order, n.index < size) :
    Checked.seed (m.cut size) bottom order =
      .ok ((order.foldl (fun facts n => facts.set n (some ⟨bottom, .single bottom⟩)) m).cut size) := by
  induction order generalizing m with
  | nil => rfl
  | cons n rest ih =>
    obtain ⟨first, later⟩ := List.forall_mem_cons.mp here
    simp only [Checked.seed, NodeMap.write_cut _ first, bind, Except.bind]
    exact ih _ later

theorem joined_cut {size : Nat} (ops : LatticeOps α) (facts : NodeMap (Option (Facts α))) (value : α)
    {edges : List Edge} (here : ∀ e ∈ edges, e.node.index < size) :
    Checked.joined ops (facts.cut size) value edges =
      .ok (edges.foldl
        (fun value e =>
          match facts.get e.node with
          | none => value
          | some f => ops.join value (f.outgoing.get e.label))
        value) := by
  induction edges generalizing value with
  | nil => rfl
  | cons e rest ih =>
    obtain ⟨first, later⟩ := List.forall_mem_cons.mp here
    simp only [Checked.joined, NodeMap.read_cut _ first, bind, Except.bind, List.foldl_cons]
    cases facts.get e.node with
    | none => exact ih _ later
    | some f => exact ih _ later

theorem changed_cut (facts : NodeMap (Option (Facts α))) {n : NodeId} (here : n.index < g.size)
    (outgoing : Labeled α) :
    Checked.changed a g (facts.cut g.size) n outgoing = .ok (a.changed g facts n outgoing) := by
  simp only [Checked.changed, changed, NodeMap.read_cut _ here, bind, Except.bind]
  cases facts.get n <;> rfl

/-- A visit looks at the node itself, at its flow predecessors and at its flow successors. -/
theorem visit_cut (wellFormed : g.WellFormed) {n : NodeId} (here : n.index < g.size) {rest : Worklist} :
    Checked.visit a g limit (s.cut g.size) n (rest.cut g.size) = .ok ((a.visit g limit s n rest).cut g.size) := by
  have counted : Cells.read (s.cut g.size).visits n = .ok (s.visits.get n) := NodeMap.read_cut _ here
  have noted : Cells.write (s.cut g.size).visits n (s.visits.get n + 1) =
      .ok ((s.visits.set n (s.visits.get n + 1)).cut g.size) := NodeMap.write_cut _ here _
  have arrived : Checked.joined a.ops (s.cut g.size).facts (a.origin g n) (g.flowPredecessors a.direction n) =
      .ok (a.arriving g s.facts n) := by
    apply joined_cut
    intro e member
    exact (Graph.contains_iff _ _).mp (Graph.flow_source_bounded wellFormed member)
  unfold Checked.visit visit
  simp only [counted, noted, arrived, bind, Except.bind, pure, Except.pure]
  split
  · rfl
  · cases a.leaving g n (a.arriving g s.facts n) with
    | error fault => rfl
    | ok outgoing =>
      have compared : Checked.changed a g (s.cut g.size).facts n outgoing =
          .ok (a.changed g s.facts n outgoing) := changed_cut _ here _
      have stored : Cells.write (s.cut g.size).facts n (some ⟨a.arriving g s.facts n, outgoing⟩) =
          .ok ((s.facts.set n (some ⟨a.arriving g s.facts n, outgoing⟩)).cut g.size) := NodeMap.write_cut _ here _
      have pushed : (rest.cut g.size).pushAll (a.affected g n (a.changed g s.facts n outgoing)) =
          .ok ((rest.pushAll (a.affected g n (a.changed g s.facts n outgoing))).cut g.size) := by
        apply Worklist.pushAll_cut
        intro m member
        obtain ⟨label, _, edge⟩ := mem_affected.mp member
        exact (Graph.contains_iff _ _).mp (Graph.flow_bounded wellFormed edge)
      simp only [compared, stored, pushed]
      rfl

theorem Tracks.inside (wellFormed : g.WellFormed) (tracks : a.Tracks g s) : s.worklist.Inside g.size := by
  intro n member
  exact (Graph.contains_iff _ _).mp ((tracks.pending n member).inside wellFormed)

theorem turn_cut (wellFormed : g.WellFormed) (tracks : a.Tracks g s) :
    Checked.turn a g limit signal (s.cut g.size) = .ok ((a.turn g limit signal s).cut g.size) := by
  have inside := tracks.inside wellFormed
  have popped : (s.cut g.size).worklist.pop? = _ := Worklist.pop_cut inside
  unfold Checked.turn turn
  rw [popped]
  by_cases heard : signal s.iterations = true
  · simp [Run.cut, heard, Turn.cut]
  · cases taken : s.worklist.pop? with
    | none => simp [Run.cut, heard, Turn.cut, bind, Except.bind, pure, Except.pure]
    | some next =>
      obtain ⟨n, rest⟩ := next
      -- Only reachable nodes are pending, and those are nodes of the graph.
      have here : n.index < g.size := inside n (by simp [Worklist.pending_of_pop taken])
      have visited : Checked.visit a g limit (s.cut g.size) n (rest.cut g.size) =
          .ok ((a.visit g limit s n rest).cut g.size) := visit_cut wellFormed here
      simpa [Run.cut, heard, bind, Except.bind] using visited

theorem runWithin_cut (wellFormed : g.WellFormed) (turns : Nat) (tracks : a.Tracks g s) :
    Checked.runWithin a g limit signal turns (s.cut g.size) =
      .ok ((a.runWithin g limit signal turns s).map (·.map (·.cut g.size))) := by
  induction turns generalizing s with
  | zero => rfl
  | succ turns ih =>
    simp only [Checked.runWithin, runWithin, turn_cut wellFormed tracks, bind, Except.bind]
    cases taken : a.turn g limit signal s with
    | cancelled => rfl
    | finished => rfl
    | failed n failure => rfl
    | visited n next => exact ih (visited_tracks tracks taken)

/-- No access of the solver is at fault: with every access checked it has the same outcome, the cells of its
solution those of the solution on maps. -/
theorem solve_cut (a : Analysis I α ε) (wellFormed : g.WellFormed) (config : SolverConfig) (signal : Signal) :
    Checked.solve a g config signal = .ok ((a.solve g config signal).map (·.cut g.size)) := by
  have listed (n : NodeId) (member : n ∈ g.reversePostorder a.direction) : n.index < g.size := by
    have reachable := (Graph.mem_reversePostorder wellFormed _ _).mp member
    exact (Graph.contains_iff _ _).mp (reachable.inside wellFormed)
  have seeded : Checked.seed (Array.replicate g.size none) a.ops.bottom (g.reversePostorder a.direction) =
      .ok ((a.seed g).cut g.size) := by
    rw [← NodeMap.cut_const]
    exact seed_cut _ _ listed
  have begun : (⟨(a.seed g).cut g.size, Array.replicate g.size 0,
      (Worklist.seeded config.order (g.reversePostorder a.direction)).cut g.size, 0⟩ : Checked.Run α) =
      (a.begin g config.order).cut g.size := by
    rw [Run.cut, begin, NodeMap.cut_const]
  have ran : Checked.runWithin a g config.maxVisits signal (a.turnBound g config.maxVisits)
      ((a.begin g config.order).cut g.size) = _ :=
    runWithin_cut wellFormed _ (begin_tracks a wellFormed config.order)
  rw [turnBound] at ran
  unfold Checked.solve solve turnBound
  cases config.validate with
  | error fault => rfl
  | ok =>
    simp only [Graph.reversePostorder_checked wellFormed, seeded, Worklist.seeded_cut _ listed, begun, ran, bind,
      Except.bind, pure, Except.pure]
    cases a.runWithin g config.maxVisits signal _ _ <;> rfl

/-- What a solution has for a node is in its cell, and for a node without one it has nothing. -/
theorem facts?_cut (wellFormed : g.WellFormed) {config : SolverConfig} {r : Solution α}
    (solved : a.solve g config signal = .ok r) (n : NodeId) : (r.cut g.size).facts? n = r.facts.get n := by
  by_cases inside : n.index < g.size
  · simp [Checked.Solution.facts?, Solution.cut, NodeMap.cut, inside]
  · obtain ⟨final, moment, _, rfl⟩ := solve_ok solved
    cases stored : final.facts.get n with
    | none => simp [Checked.Solution.facts?, Solution.cut, NodeMap.cut, inside]
    | some f =>
      have reachable := ((moment.tracks wellFormed).facts n).mp ⟨f, stored⟩
      exact absurd ((Graph.contains_iff _ _).mp (reachable.inside wellFormed)) inside

end Analysis

end Dataflow
