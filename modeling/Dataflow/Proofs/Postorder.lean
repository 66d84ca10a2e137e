import Dataflow.Proofs.Traversal
import Mathlib.Logic.Relation

/-! The order in which a depth-first traversal finishes nodes. A target that is not finished when its node
is finished stands on the stack, and every node on the stack leads to the top. So in reverse postorder an
edge goes forward unless its end leads back to its source, and on an acyclic graph it always goes forward. -/

namespace Dataflow

namespace Traversal

variable {next : NodeId → List NodeId}

/-- From one node to another along targets, in any number of steps. -/
abbrev Leads (next : NodeId → List NodeId) : NodeId → NodeId → Prop :=
  Relation.ReflTransGen fun n m => m ∈ next n

/-- Each node on the stack leads to those above it, and each target of a finished node was finished before
the node or leads back to it. -/
structure Ordered (next : NodeId → List NodeId) (t : Traversal) : Prop where
  climbs : (t.stack.map Prod.fst).Pairwise fun upper lower => Leads next lower upper
  descends : ∀ n rest, n :: rest <:+ t.finished → ∀ m ∈ next n, m ∈ rest ∨ Leads next m n

theorem enter_ordered (next : NodeId → List NodeId) (root : NodeId) : Ordered next (enter next root) where
  climbs := by simp [enter]
  descends n rest suffix := by simp [enter] at suffix

theorem step_ordered {t : Traversal} (valid : Invariant next t) (ordered : Ordered next t) :
    Ordered next (t.step next) := by
  obtain ⟨climbs, descends⟩ := ordered
  rcases step_cases next t with ⟨_, same⟩ | ⟨n, below, top, stepped⟩ |
    ⟨n, target, targets, below, top, marked, stepped⟩ | ⟨n, target, targets, below, top, fresh, stepped⟩
  · rw [same]
    exact ⟨climbs, descends⟩
  · rw [stepped]
    rw [top, List.map_cons, List.pairwise_cons] at climbs
    refine ⟨climbs.2, ?_⟩
    intro m rest suffix target here
    rcases List.suffix_cons_iff.mp suffix with finishing | earlier
    · obtain ⟨rfl, rfl⟩ := List.cons.inj finishing
      -- All targets of the top node have been entered, so each is finished or still on the stack.
      have looked := valid.looked (m, []) (by simp [top]) target here
      have entered := (valid.entered target).mp (by simpa using looked)
      rw [top, List.map_cons, List.mem_append, List.mem_cons] at entered
      rcases entered with (rfl | waiting) | done
      · exact Or.inr .refl
      · exact Or.inr (climbs.1 target waiting)
      · exact Or.inl done
    · exact descends m rest earlier target here
  · rw [stepped]
    rw [top] at climbs
    exact ⟨climbs, descends⟩
  · rw [stepped]
    have ahead : target ∈ next n :=
      (valid.suffixes (n, target :: targets) (by simp [top])).subset List.mem_cons_self
    rw [top] at climbs
    refine ⟨List.pairwise_cons.mpr ⟨?_, climbs⟩, descends⟩
    intro m waiting
    rcases List.mem_cons.mp waiting with rfl | lower
    · exact Relation.ReflTransGen.single ahead
    · exact Relation.ReflTransGen.tail ((List.pairwise_cons.mp climbs).1 m lower) ahead

theorem run_ordered (fuel : Nat) {t : Traversal} (valid : Invariant next t) (ordered : Ordered next t) :
    Ordered next (run next fuel t) := by
  induction fuel generalizing t with
  | zero => exact ordered
  | succ fuel ih => exact ih (step_invariant valid) (step_ordered valid ordered)

/-- What is finished, in order, and then the stack from its top, ends with the root: finishing a node moves
the border between the two, and the bottom of the stack is never replaced. -/
def Rooted (root : NodeId) (t : Traversal) : Prop :=
  (t.finished.reverse ++ t.stack.map Prod.fst).getLast? = some root

theorem enter_rooted (next : NodeId → List NodeId) (root : NodeId) : Rooted root (enter next root) := by
  simp [Rooted, enter]

theorem step_rooted {root : NodeId} {t : Traversal} (rooted : Rooted root t) :
    Rooted root (t.step next) := by
  unfold Rooted at rooted ⊢
  rcases step_cases next t with ⟨_, same⟩ | ⟨n, below, top, stepped⟩ |
    ⟨n, target, targets, below, top, marked, stepped⟩ | ⟨n, target, targets, below, top, fresh, stepped⟩
  · rwa [same]
  · rw [stepped]
    simpa [top] using rooted
  · rw [stepped]
    simpa [top] using rooted
  · rw [stepped]
    simpa [top] using rooted

theorem run_rooted (fuel : Nat) {root : NodeId} {t : Traversal} (rooted : Rooted root t) :
    Rooted root (run next fuel t) := by
  induction fuel generalizing t with
  | zero => exact rooted
  | succ fuel ih => exact ih (step_rooted rooted)

end Traversal

namespace Graph

variable {I : Type} {g : Graph I} {direction : Direction}

/-- In reverse postorder the end of an edge stands after its source, or leads back to it. -/
theorem reversePostorder_descends (wellFormed : g.WellFormed) {n : NodeId} {rest : List NodeId}
    (suffix : n :: rest <:+ g.reversePostorder direction) {m : NodeId}
    (target : m ∈ g.flowTargets direction n) :
    m ∈ rest ∨ Traversal.Leads (g.flowTargets direction) m n := by
  have ordered : Traversal.Ordered (g.flowTargets direction) (g.traverse direction) :=
    Traversal.run_ordered _ (Traversal.enter_invariant _ _) (Traversal.enter_ordered _ _)
  rw [reversePostorder_eq wellFormed] at suffix
  exact ordered.descends n rest suffix m target

/-- No reachable node lies on a cycle of edges along which results travel. -/
def Acyclic (g : Graph I) (direction : Direction) : Prop :=
  ∀ n, g.Reachable direction n → ¬Relation.TransGen (fun u v => v ∈ g.flowTargets direction u) n n

/-- A graph is acyclic if some number rises along every edge between reachable nodes. -/
theorem acyclic_of_rank (wellFormed : g.WellFormed) (rank : NodeId → Nat)
    (rises : ∀ n ∈ g.reversePostorder direction, ∀ m ∈ g.flowTargets direction n, rank n < rank m) :
    g.Acyclic direction := by
  have edge {u v : NodeId} (reachable : g.Reachable direction u) (target : v ∈ g.flowTargets direction u) :
      rank u < rank v :=
    rises u ((mem_reversePostorder wellFormed direction u).mpr reachable) v target
  have path {u v : NodeId} (reachable : g.Reachable direction u)
      (along : Relation.TransGen (fun u v => v ∈ g.flowTargets direction u) u v) :
      g.Reachable direction v ∧ rank u < rank v := by
    induction along with
    | single target => exact ⟨reachable.target target, edge reachable target⟩
    | tail _ target ih => exact ⟨ih.1.target target, Nat.lt_trans ih.2 (edge ih.1 target)⟩
  intro n reachable cycle
  exact Nat.lt_irrefl _ (path reachable cycle).2

theorem Acyclic.descends (acyclic : g.Acyclic direction) (wellFormed : g.WellFormed) {n : NodeId}
    {rest : List NodeId} (suffix : n :: rest <:+ g.reversePostorder direction) {m : NodeId}
    (target : m ∈ g.flowTargets direction n) : m ∈ rest := by
  have reachable : g.Reachable direction n :=
    (mem_reversePostorder wellFormed direction n).mp (suffix.subset List.mem_cons_self)
  rcases reversePostorder_descends wellFormed suffix target with later | back
  · exact later
  · exact absurd (Relation.TransGen.head' target back) (acyclic n reachable)

/-- The traversal has come to rest after `traversalSteps`, and further steps change nothing. -/
theorem run_eq_traverse (wellFormed : g.WellFormed) {steps : Nat}
    (enough : g.traversalSteps direction ≤ steps) :
    Traversal.run (g.flowTargets direction) steps (.enter (g.flowTargets direction) direction.root) =
      g.traverse direction := by
  obtain ⟨more, rfl⟩ := Nat.exists_eq_add_of_le enough
  rw [Traversal.run_add]
  exact Traversal.run_idle _ _ (traverse_finishes wellFormed direction)

theorem getLast?_postorder (wellFormed : g.WellFormed) (direction : Direction) :
    (g.postorder direction).getLast? = some direction.root := by
  have rooted : Traversal.Rooted direction.root (g.traverse direction) :=
    Traversal.run_rooted _ (Traversal.enter_rooted _ _)
  rw [Traversal.Rooted, traverse_finishes wellFormed] at rooted
  rw [postorder, reversePostorder_eq wellFormed]
  simpa using rooted

/-- The source of an edge comes before its end, or the end leads back to it. -/
theorem before_or_back (wellFormed : g.WellFormed) {u : NodeId} (reachable : g.Reachable direction u)
    {e : Edge} (edge : e ∈ g.flowSuccessors direction u) :
    [u, e.node].Sublist (g.reversePostorder direction) ∨
      Relation.TransGen (fun n m => m ∈ g.flowTargets direction n) e.node u := by
  have target : e.node ∈ g.flowTargets direction u := List.mem_map_of_mem edge
  have listed := (mem_reversePostorder wellFormed direction u).mpr reachable
  obtain ⟨before, rest, split⟩ := List.append_of_mem listed
  have suffix : u :: rest <:+ g.reversePostorder direction := ⟨before, split.symm⟩
  rcases reversePostorder_descends wellFormed suffix target with later | back
  · exact .inl (((List.singleton_sublist.mpr later).cons_cons u).trans suffix.sublist)
  · rcases Relation.reflTransGen_iff_eq_or_transGen.mp back with same | path
    · -- A node with an edge to itself leads back to itself along that edge.
      exact .inr (same ▸ .single (same ▸ target))
    · exact .inr path

/-- What a depth-first order owes its graph: the traversal stops, and it lists each reachable node once and
the root last. In reverse, the source of an edge comes before its end unless the end leads back to it, so an
acyclic graph is sorted topologically. -/
structure DepthFirst (g : Graph I) (direction : Direction) : Prop where
  stops : ∀ steps, g.traversalSteps direction ≤ steps →
    let final := Traversal.run (g.flowTargets direction) steps
      (.enter (g.flowTargets direction) direction.root)
    final.stack = [] ∧ final.finished.reverse = g.postorder direction
  once : (g.postorder direction).Nodup
  listed : ∀ n, n ∈ g.postorder direction ↔ g.Reachable direction n
  rootLast : (g.postorder direction).getLast? = some direction.root
  reversed : g.reversePostorder direction = (g.postorder direction).reverse
  edges : ∀ u e, g.Reachable direction u → e ∈ g.flowSuccessors direction u →
    [u, e.node].Sublist (g.reversePostorder direction) ∨
      Relation.TransGen (fun n m => m ∈ g.flowTargets direction n) e.node u
  sorted : g.Acyclic direction → ∀ u e, g.Reachable direction u → e ∈ g.flowSuccessors direction u →
    [u, e.node].Sublist (g.reversePostorder direction)

theorem postorder_depthFirst (built : g.Built) (direction : Direction) : g.DepthFirst direction := by
  have wellFormed := built.wellFormed
  refine ⟨?_, ?_, ?_, getLast?_postorder wellFormed direction, ?_, ?_, ?_⟩
  · intro steps enough
    rw [run_eq_traverse wellFormed enough, postorder, reversePostorder_eq wellFormed]
    exact ⟨traverse_finishes wellFormed direction, rfl⟩
  · exact (List.reverse_perm _).nodup_iff.mpr (reversePostorder_nodup wellFormed direction)
  · intro n
    rw [postorder, List.mem_reverse]
    exact mem_reversePostorder wellFormed direction n
  · rw [postorder, List.reverse_reverse]
  · exact fun u e reachable edge => before_or_back wellFormed reachable edge
  · intro acyclic u e reachable edge
    rcases before_or_back wellFormed reachable edge with before | back
    · exact before
    · exact absurd (.head (List.mem_map_of_mem edge) back) (acyclic u reachable)

/-- Two edges lead from 2 to 3, one way round leads over 4, and nothing leads to 5. -/
def braided (more : List (BuildStep Unit)) : Graph Unit :=
  .build ([.instruction (), .instruction (), .instruction (), .instruction (), .edge .start ⟨2⟩ .normal,
    .edge ⟨2⟩ ⟨3⟩ .whenTrue, .edge ⟨2⟩ ⟨4⟩ .whenFalse, .edge ⟨2⟩ ⟨3⟩ .exceptional, .edge ⟨4⟩ ⟨3⟩ .normal,
    .edge ⟨3⟩ .finish .normal, .edge ⟨5⟩ ⟨3⟩ .normal] ++ more)

theorem braided_acyclic : (braided []).Acyclic .forward := by
  have rises : ∀ n ∈ (braided []).reversePostorder .forward, ∀ m ∈ (braided []).flowTargets .forward n,
      [NodeId.start, ⟨2⟩, ⟨4⟩, ⟨3⟩, .finish].idxOf n < [NodeId.start, ⟨2⟩, ⟨4⟩, ⟨3⟩, .finish].idxOf m := by
    decide +kernel
  have built : (braided []).Built := ⟨_, rfl⟩
  exact acyclic_of_rank built.wellFormed _ rises

/-- Sorted as it is; with an edge from 3 back to 2 and one to itself, 2 leads to 3 and 3 to itself. -/
theorem postorder_depthFirst_braided :
    [⟨4⟩, ⟨3⟩].Sublist ((braided []).reversePostorder .forward) ∧
      let g := braided [.edge ⟨3⟩ ⟨2⟩ .normal, .edge ⟨3⟩ ⟨3⟩ .exceptional]
      g.postorder .forward = [.finish, ⟨3⟩, ⟨4⟩, ⟨2⟩, .start] ∧
        Relation.TransGen (fun n m => m ∈ g.flowTargets .forward n) ⟨2⟩ ⟨3⟩ ∧
        Relation.TransGen (fun n m => m ∈ g.flowTargets .forward n) ⟨3⟩ ⟨3⟩ := by
  constructor
  · have order := postorder_depthFirst (g := braided []) ⟨_, rfl⟩ .forward
    have reachable := (order.listed ⟨4⟩).mp (by decide +kernel)
    exact order.sorted braided_acyclic ⟨4⟩ ⟨⟨3⟩, .normal⟩ reachable (by decide)
  · intro g
    have order := postorder_depthFirst (g := g) ⟨_, rfl⟩ .forward
    have reachable := (order.listed ⟨3⟩).mp (by decide +kernel)
    have notBefore : ∀ m ∈ [NodeId.mk 2, NodeId.mk 3], ¬[⟨3⟩, m].Sublist (g.reversePostorder .forward) := by
      decide +kernel
    refine ⟨by decide +kernel, ?_, ?_⟩
    · exact (order.edges ⟨3⟩ ⟨⟨2⟩, .normal⟩ reachable (by decide)).resolve_left (notBefore _ (by simp))
    · exact (order.edges ⟨3⟩ ⟨⟨3⟩, .exceptional⟩ reachable (by decide)).resolve_left (notBefore _ (by simp))

end Graph

end Dataflow
