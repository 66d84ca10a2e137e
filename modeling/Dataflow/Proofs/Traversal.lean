import Dataflow.Graph.Traversal
import Dataflow.Proofs.Arena

/-! Depth-first traversal finds exactly the reachable nodes. The invariant holds of every state of the
machine, and the work still to be done falls by one with every step, so the steps that `traverse` allows
empty the stack. The order among the finished nodes is not described here. -/

namespace Dataflow

namespace Traversal

variable {next : NodeId → List NodeId}

/-- A node is marked once it has been entered. The targets of a frame that are no longer to be looked at
are marked, and so are all targets of a finished node. -/
structure Invariant (next : NodeId → List NodeId) (t : Traversal) : Prop where
  distinct : (t.stack.map Prod.fst ++ t.finished).Nodup
  entered : ∀ n, t.seen.get n = true ↔ n ∈ t.stack.map Prod.fst ++ t.finished
  suffixes : ∀ frame ∈ t.stack, frame.2 <:+ next frame.1
  looked : ∀ frame ∈ t.stack, ∀ m ∈ next frame.1, m ∈ frame.2 ∨ t.seen.get m = true
  closed : ∀ n ∈ t.finished, ∀ m ∈ next n, t.seen.get m = true

theorem enter_invariant (next : NodeId → List NodeId) (root : NodeId) : Invariant next (enter next root) := by
  constructor
  · simp [enter]
  · intro n
    by_cases same : n = root
    · simp [enter, same]
    · simp [enter, same, NodeMap.get_set_of_ne]
  · intro frame member
    simp only [enter, List.mem_singleton] at member
    subst member
    exact List.suffix_refl _
  · intro frame member m target
    simp only [enter, List.mem_singleton] at member
    subst member
    exact Or.inl target
  · simp [enter]

/-- Everything a step can do: nothing on an empty stack, finish the top node, pass over a marked target,
or enter an unmarked one. -/
theorem step_cases (next : NodeId → List NodeId) (t : Traversal) :
    (t.stack = [] ∧ t.step next = t) ∨
    (∃ n below, t.stack = (n, []) :: below ∧
      t.step next = ⟨below, t.seen, n :: t.finished⟩) ∨
    (∃ n target targets below, t.stack = (n, target :: targets) :: below ∧ t.seen.get target = true ∧
      t.step next = ⟨(n, targets) :: below, t.seen, t.finished⟩) ∨
    (∃ n target targets below, t.stack = (n, target :: targets) :: below ∧ t.seen.get target = false ∧
      t.step next =
        ⟨(target, next target) :: (n, targets) :: below, t.seen.set target true, t.finished⟩) := by
  obtain ⟨stack, seen, finished⟩ := t
  match stack with
  | [] => exact Or.inl ⟨rfl, rfl⟩
  | (n, []) :: below => exact Or.inr (Or.inl ⟨n, below, rfl, rfl⟩)
  | (n, target :: targets) :: below =>
    cases marked : seen.get target with
    | true => exact Or.inr (Or.inr (Or.inl ⟨n, target, targets, below, rfl, marked, by simp [step, marked]⟩))
    | false => exact Or.inr (Or.inr (Or.inr ⟨n, target, targets, below, rfl, marked, by simp [step, marked]⟩))

theorem step_invariant {t : Traversal} (valid : Invariant next t) : Invariant next (t.step next) := by
  obtain ⟨distinct, entered, suffixes, looked, closed⟩ := valid
  rcases step_cases next t with ⟨_, same⟩ | ⟨n, below, top, stepped⟩ |
    ⟨n, target, targets, below, top, marked, stepped⟩ | ⟨n, target, targets, below, top, fresh, stepped⟩
  · rw [same]
    exact ⟨distinct, entered, suffixes, looked, closed⟩
  · rw [stepped]
    rw [top] at distinct entered suffixes looked
    have moved : (below.map Prod.fst ++ n :: t.finished).Perm
        (((n, ([] : List NodeId)) :: below).map Prod.fst ++ t.finished) := List.perm_middle
    refine ⟨moved.nodup_iff.mpr distinct, ?_, ?_, ?_, ?_⟩
    · intro m
      rw [entered, moved.mem_iff]
    · exact fun frame member => suffixes frame (List.mem_cons_of_mem _ member)
    · exact fun frame member => looked frame (List.mem_cons_of_mem _ member)
    · intro m member target here
      rcases List.mem_cons.mp member with rfl | old
      · simpa using looked _ List.mem_cons_self target here
      · exact closed m old target here
  · rw [stepped]
    rw [top] at distinct entered suffixes looked
    refine ⟨distinct, entered, ?_, ?_, closed⟩
    · intro frame member
      rcases List.mem_cons.mp member with rfl | below
      · exact (List.suffix_cons target targets).trans (suffixes _ List.mem_cons_self)
      · exact suffixes frame (List.mem_cons_of_mem _ below)
    · intro frame member m here
      rcases List.mem_cons.mp member with rfl | below
      · rcases looked _ List.mem_cons_self m here with ahead | behind
        · rcases List.mem_cons.mp ahead with rfl | later
          · exact Or.inr marked
          · exact Or.inl later
        · exact Or.inr behind
      · exact looked frame (List.mem_cons_of_mem _ below) m here
  · rw [stepped]
    rw [top] at distinct entered suffixes looked
    have unlisted : target ∉ ((n, target :: targets) :: below).map Prod.fst ++ t.finished := by
      rw [← entered, fresh]; simp
    have kept (m : NodeId) (marked : t.seen.get m = true) : (t.seen.set target true).get m = true := by
      rw [NodeMap.get_set]; split <;> trivial
    refine ⟨?_, ?_, ?_, ?_, ?_⟩
    · exact List.nodup_cons.mpr ⟨unlisted, distinct⟩
    · intro m
      by_cases same : m = target
      · simp [same]
      · rw [NodeMap.get_set_of_ne _ _ same, entered]
        simp [same]
    · intro frame member
      rcases List.mem_cons.mp member with rfl | old
      · exact List.suffix_refl _
      · rcases List.mem_cons.mp old with rfl | below
        · exact (List.suffix_cons target targets).trans (suffixes _ List.mem_cons_self)
        · exact suffixes frame (List.mem_cons_of_mem _ below)
    · intro frame member m here
      rcases List.mem_cons.mp member with rfl | old
      · exact Or.inl here
      · rcases List.mem_cons.mp old with rfl | below
        · rcases looked _ List.mem_cons_self m here with ahead | behind
          · rcases List.mem_cons.mp ahead with rfl | later
            · exact Or.inr (NodeMap.get_set_self _ _ _)
            · exact Or.inl later
          · exact Or.inr (kept m behind)
        · exact (looked frame (List.mem_cons_of_mem _ below) m here).imp_right (kept m)
    · exact fun m member target' here => kept target' (closed m member target' here)

theorem run_invariant (fuel : Nat) {t : Traversal} (valid : Invariant next t) :
    Invariant next (run next fuel t) := by
  induction fuel generalizing t with
  | zero => exact valid
  | succ fuel ih => exact ih (step_invariant valid)

theorem step_seen {t : Traversal} {n : NodeId} (seen : t.seen.get n = true) :
    (t.step next).seen.get n = true := by
  rcases step_cases next t with ⟨_, same⟩ | ⟨m, below, top, stepped⟩ |
    ⟨m, target, targets, below, top, marked, stepped⟩ | ⟨m, target, targets, below, top, fresh, stepped⟩
  · rwa [same]
  · rwa [stepped]
  · rwa [stepped]
  · rw [stepped, NodeMap.get_set]
    split <;> trivial

/-- Marks are never taken back. -/
theorem run_seen (fuel : Nat) {t : Traversal} {n : NodeId} (seen : t.seen.get n = true) :
    (run next fuel t).seen.get n = true := by
  induction fuel generalizing t with
  | zero => exact seen
  | succ fuel ih => exact ih (step_seen seen)

/-- A set of nodes that holds the root and is closed under targets holds every marked node. -/
def Confined (inside : NodeId → Prop) (t : Traversal) : Prop :=
  ∀ n, t.seen.get n = true → inside n

theorem step_confined {inside : NodeId → Prop} (closed : ∀ n, inside n → ∀ m ∈ next n, inside m)
    {t : Traversal} (valid : Invariant next t) (confined : Confined inside t) :
    Confined inside (t.step next) := by
  rcases step_cases next t with ⟨_, same⟩ | ⟨n, below, top, stepped⟩ |
    ⟨n, target, targets, below, top, marked, stepped⟩ | ⟨n, target, targets, below, top, fresh, stepped⟩
  · rwa [same]
  · rwa [stepped]
  · rwa [stepped]
  · rw [stepped]
    intro m marked
    rw [NodeMap.get_set] at marked
    split at marked
    · rename_i same
      have current : inside n := confined n ((valid.entered n).mpr (by simp [top]))
      have ahead : target ∈ next n :=
        (valid.suffixes (n, target :: targets) (by simp [top])).subset List.mem_cons_self
      exact same ▸ closed n current target ahead
    · exact confined m marked

theorem run_confined {inside : NodeId → Prop} (closed : ∀ n, inside n → ∀ m ∈ next n, inside m)
    (fuel : Nat) {t : Traversal} (valid : Invariant next t) (confined : Confined inside t) :
    Confined inside (run next fuel t) := by
  induction fuel generalizing t with
  | zero => exact confined
  | succ fuel ih => exact ih (step_invariant valid) (step_confined closed valid confined)

theorem enter_confined {inside : NodeId → Prop} {root : NodeId} (holds : inside root) :
    Confined inside (enter next root) := by
  intro n marked
  have here := ((enter_invariant next root).entered n).mp marked
  simp only [enter, List.map_cons, List.map_nil, List.append_nil, List.mem_singleton] at here
  exact here ▸ holds

/-- One step for each open frame and each target still to be looked at, and the same for every node not
entered yet. -/
def work (next : NodeId → List NodeId) (nodes : List NodeId) (t : Traversal) : Nat :=
  (t.stack.flatMap fun frame => frame.1 :: frame.2).length +
    ((nodes.filter fun n => !t.seen.get n).flatMap fun n => n :: next n).length

/-- Marking a node takes exactly its own share out of what is not entered yet. -/
theorem length_mark {nodes : List NodeId} (distinct : nodes.Nodup) {target : NodeId}
    (listed : target ∈ nodes) (seen : NodeMap Bool) (fresh : seen.get target = false)
    (share : NodeId → List NodeId) :
    ((nodes.filter fun n => !(seen.set target true).get n).flatMap share).length + (share target).length =
      ((nodes.filter fun n => !seen.get n).flatMap share).length := by
  have unseen : target ∈ nodes.filter fun n => !seen.get n := by simp [listed, fresh]
  have others : (nodes.filter fun n => !(seen.set target true).get n) =
      (nodes.filter fun n => !seen.get n).erase target := by
    rw [List.Nodup.erase_eq_filter (List.Pairwise.filter _ distinct), List.filter_filter]
    apply List.filter_congr
    intro n _
    by_cases same : n = target
    · simp [same]
    · simp [same, NodeMap.get_set_of_ne]
  have parted := (List.perm_cons_erase unseen).flatMap_right share
  rw [others, parted.length_eq, List.flatMap_cons, List.length_append, Nat.add_comm]

theorem step_work {nodes : List NodeId} (distinct : nodes.Nodup)
    (closed : ∀ n ∈ nodes, ∀ m ∈ next n, m ∈ nodes) {t : Traversal} (valid : Invariant next t)
    (confined : Confined (· ∈ nodes) t) (active : t.stack ≠ []) :
    work next nodes (t.step next) + 1 = work next nodes t := by
  rcases step_cases next t with ⟨idle, _⟩ | ⟨n, below, top, stepped⟩ |
    ⟨n, target, targets, below, top, marked, stepped⟩ | ⟨n, target, targets, below, top, fresh, stepped⟩
  · contradiction
  · simp [work, stepped, top]
    omega
  · simp [work, stepped, top]
    omega
  · have current : n ∈ nodes := confined n ((valid.entered n).mpr (by simp [top]))
    have ahead : target ∈ next n :=
      (valid.suffixes (n, target :: targets) (by simp [top])).subset List.mem_cons_self
    have paid := length_mark distinct (closed n current target ahead) t.seen fresh
      (fun n => n :: next n)
    simp only [work, stepped, top, List.flatMap_cons, List.length_append, List.length_cons] at paid ⊢
    omega

theorem enter_work {nodes : List NodeId} (distinct : nodes.Nodup) {root : NodeId} (listed : root ∈ nodes) :
    work next nodes (enter next root) = (nodes.flatMap fun n => n :: next n).length := by
  have blank : (nodes.filter fun n => !(NodeMap.const false).get n) = nodes := by simp
  have paid := length_mark distinct listed (NodeMap.const false) (NodeMap.get_const _ _)
    (fun n => n :: next n)
  rw [blank] at paid
  rw [← paid, Nat.add_comm]
  simp [work, enter]

theorem run_idle (next : NodeId → List NodeId) (fuel : Nat) {t : Traversal} (idle : t.stack = []) :
    run next fuel t = t := by
  have still : t.step next = t := by
    unfold step
    rw [idle]
  induction fuel with
  | zero => rfl
  | succ fuel ih => rw [run, still, ih]

theorem run_add (next : NodeId → List NodeId) (first second : Nat) (t : Traversal) :
    run next (first + second) t = run next second (run next first t) := by
  induction first generalizing t with
  | zero => rw [Nat.zero_add, run]
  | succ first ih => rw [Nat.succ_add, run, run, ih]

/-- Enough steps empty the stack. -/
theorem run_finishes {nodes : List NodeId} (distinct : nodes.Nodup)
    (closed : ∀ n ∈ nodes, ∀ m ∈ next n, m ∈ nodes) (fuel : Nat) {t : Traversal}
    (valid : Invariant next t) (confined : Confined (· ∈ nodes) t) (enough : work next nodes t ≤ fuel) :
    (run next fuel t).stack = [] := by
  induction fuel generalizing t with
  | zero =>
    cases top : t.stack with
    | nil => exact top
    | cons frame below => simp [work, top] at enough
  | succ fuel ih =>
    by_cases idle : t.stack = []
    · rwa [run_idle next _ idle]
    · have fallen := step_work distinct closed valid confined idle
      exact ih (step_invariant valid) (step_confined closed valid confined) (by omega)

end Traversal

namespace Graph

variable {I : Type}

theorem mem_ids {g : Graph I} (wellFormed : g.WellFormed) (n : NodeId) :
    n ∈ g.ids ↔ g.contains n = true := by
  obtain ⟨i⟩ := n
  simp [ids_eq wellFormed, contains_iff]

theorem ids_nodup {g : Graph I} (wellFormed : g.WellFormed) : g.ids.Nodup := by
  rw [ids_eq wellFormed]
  apply List.pairwise_map.mpr
  apply List.nodup_range.imp
  intro i j different same
  exact different (by simpa using same)

/-- Reachability from the root of a direction, along the edges on which results travel. -/
inductive Reachable (g : Graph I) (direction : Direction) : NodeId → Prop where
  | root : Reachable g direction direction.root
  | edge {n : NodeId} {e : Edge} : Reachable g direction n → e ∈ g.flowSuccessors direction n →
      Reachable g direction e.node

theorem Reachable.inside {g : Graph I} {direction : Direction} {n : NodeId} (wellFormed : g.WellFormed)
    (reachable : g.Reachable direction n) : g.contains n = true := by
  cases reachable with
  | root => exact contains_root wellFormed direction
  | edge _ member => exact flow_bounded wellFormed member

theorem Reachable.target {g : Graph I} {direction : Direction} {n m : NodeId}
    (reachable : g.Reachable direction n) (target : m ∈ g.flowTargets direction n) :
    g.Reachable direction m := by
  obtain ⟨e, member, rfl⟩ := List.mem_map.mp target
  exact reachable.edge member

theorem traverse_invariant (g : Graph I) (direction : Direction) :
    Traversal.Invariant (g.flowTargets direction) (g.traverse direction) :=
  Traversal.run_invariant _ (Traversal.enter_invariant _ _)

theorem traverse_finishes {g : Graph I} (wellFormed : g.WellFormed) (direction : Direction) :
    (g.traverse direction).stack = [] := by
  have closed : ∀ n ∈ g.ids, ∀ m ∈ g.flowTargets direction n, m ∈ g.ids := by
    intro n _ m target
    obtain ⟨e, member, rfl⟩ := List.mem_map.mp target
    exact (mem_ids wellFormed e.node).mpr (flow_bounded wellFormed member)
  have rooted : direction.root ∈ g.ids := (mem_ids wellFormed _).mpr (contains_root wellFormed direction)
  apply Traversal.run_finishes (ids_nodup wellFormed) closed _ (Traversal.enter_invariant _ _)
    (Traversal.enter_confined rooted)
  rw [Traversal.enter_work (ids_nodup wellFormed) rooted]
  exact Nat.le_refl _

theorem reversePostorder_eq {g : Graph I} (wellFormed : g.WellFormed) (direction : Direction) :
    g.reversePostorder direction = (g.traverse direction).finished := by
  rw [reversePostorder, if_pos (contains_root wellFormed direction)]

theorem reversePostorder_nodup {g : Graph I} (wellFormed : g.WellFormed) (direction : Direction) :
    (g.reversePostorder direction).Nodup := by
  have distinct := (g.traverse_invariant direction).distinct
  rw [traverse_finishes wellFormed direction] at distinct
  rwa [reversePostorder_eq wellFormed]

theorem seen_iff {g : Graph I} (wellFormed : g.WellFormed) (direction : Direction) (n : NodeId) :
    (g.traverse direction).seen.get n = true ↔ n ∈ g.reversePostorder direction := by
  rw [(g.traverse_invariant direction).entered, traverse_finishes wellFormed direction,
    reversePostorder_eq wellFormed]
  simp

/-- The reverse postorder lists the reachable nodes and no others. -/
theorem mem_reversePostorder {g : Graph I} (wellFormed : g.WellFormed) (direction : Direction)
    (n : NodeId) : n ∈ g.reversePostorder direction ↔ g.Reachable direction n := by
  rw [← seen_iff wellFormed]
  constructor
  · intro seen
    exact Traversal.run_confined (fun n reachable m target => reachable.target target) _
      (Traversal.enter_invariant _ _) (Traversal.enter_confined .root) n seen
  · intro reachable
    induction reachable with
    | root => exact Traversal.run_seen _ (NodeMap.get_set_self _ _ _)
    | edge reachable member ih =>
      have listed := (seen_iff wellFormed direction _).mp ih
      rw [reversePostorder_eq wellFormed] at listed
      exact (g.traverse_invariant direction).closed _ listed _ (List.mem_map_of_mem member)

end Graph

end Dataflow
