import Dataflow.Proofs.Accounting
import Dataflow.Proofs.LeastSolution

/-! Monotone clients over a lattice of finite height converge. What arrives at a node never falls along a
run, and a node is made pending again only by a change on an edge into it, which raises the rank of what the
edge carries. So the visits of a node are paid for by the ranks of what its flow predecessors send, whatever
the order of the visits. The bounds are not claimed to be attained. -/

namespace Dataflow

variable {I α ε : Type} {carrier : α → Prop}

/-- A rank that no value of the carrier has above `height` and that rises with every strict step of the
order. -/
structure LatticeOps.FiniteHeight (ops : LatticeOps α) (carrier : α → Prop) (rank : α → Nat)
    (height : Nat) : Prop where
  bounded : ∀ x, carrier x → rank x ≤ height
  mono : ∀ x y, carrier x → carrier y → ops.precise x y = true → rank x ≤ rank y
  strict : ∀ x y, carrier x → carrier y → ops.precise x y = true → ops.precise y x = false →
    rank x < rank y

theorem LatticeOps.LawfulOn.restrict {ops : LatticeOps α} {smaller : α → Prop}
    (lawful : ops.LawfulOn carrier) (part : ∀ x, smaller x → carrier x)
    (closed : ∀ x y, smaller x → smaller y → smaller (ops.join x y)) : ops.LawfulOn smaller where
  copy x inX := lawful.copy x (part x inX)
  closed := closed
  refl x inX := lawful.refl x (part x inX)
  trans x y z inX inY inZ := lawful.trans x y z (part x inX) (part y inY) (part z inZ)
  equivalent_iff x y inX inY := lawful.equivalent_iff x y (part x inX) (part y inY)
  left x y inX inY := lawful.left x y (part x inX) (part y inY)
  right x y inX inY := lawful.right x y (part x inX) (part y inY)
  least x y z inX inY inZ := lawful.least x y z (part x inX) (part y inY) (part z inZ)
  bottom_least x inX := lawful.bottom_least x (part x inX)

namespace Analysis

/-- A monotone client over a join-semilattice, on the values that it meets on one graph. -/
structure Ascending (a : Analysis I α ε) (g : Graph I) (carrier : α → Prop) : Prop where
  lawful : a.ops.LawfulOn carrier
  closed : a.Closed g carrier
  monotone : a.MonotoneOn g carrier

theorem Ascending.restrict {a : Analysis I α ε} {g : Graph I} {smaller : α → Prop}
    (lawful : a.ops.LawfulOn carrier) (monotone : a.MonotoneOn g carrier)
    (part : ∀ x, smaller x → carrier x) (closed : a.Closed g smaller) : a.Ascending g smaller where
  lawful := lawful.restrict part closed.join
  closed := closed
  monotone n i x y before after present inX inY :=
    monotone n i x y before after present (part x inX) (part y inY)

variable {a : Analysis I α ε} {g : Graph I} {config : SolverConfig} {signal : Signal} {s next : Run α}
  {rank : α → Nat} {height : Nat}

/-- What arrives at a node is never below what the node was last visited with. -/
def Risen (a : Analysis I α ε) (g : Graph I) (facts : NodeMap (Option (Facts α))) : Prop :=
  ∀ n f, facts.get n = some f → a.ops.precise f.incoming (a.arriving g facts n) = true

/-- Two stores where nothing that is sent along an edge into a node of the graph falls. -/
def Rises (a : Analysis I α ε) (g : Graph I) (old new : NodeMap (Option (Facts α))) : Prop :=
  ∀ n, ∀ e ∈ g.flowPredecessors a.direction n, Along (fun x y => a.ops.precise x y = true) old new e

theorem Ascending.leaving_rises (ascending : a.Ascending g carrier)
    (moment : a.Moment g config signal s) (risen : a.Risen g s.facts) {n : NodeId} {f : Facts α}
    (stored : s.facts.get n = some f) {outgoing : Labeled α}
    (left : a.leaving g n (a.arriving g s.facts n) = .ok outgoing) {label : Label}
    (listed : label ∈ g.labels a.direction n) :
    a.ops.precise (f.outgoing.get label) (outgoing.get label) = true := by
  have within := moment.within ascending.closed
  have arrived := arriving_carrier ascending.closed within n
  rcases moment.fresh_or_left stored with ⟨_, rfl⟩ | before
  · exact ascending.lawful.bottom_least _ ((leaving_carrier ascending.closed arrived left).2 label)
  · have inside := (within n f stored).1
    obtain ⟨result, made, _, agree⟩ := leaving_faithful ascending.lawful.copy ascending.closed inside before
    obtain ⟨result', made', _, agree'⟩ := leaving_faithful ascending.lawful.copy ascending.closed arrived left
    rw [agree label listed, agree' label listed]
    exact yielded_mono ascending.monotone inside arrived (risen n f stored) made made' listed

theorem Ascending.visited_rises (ascending : a.Ascending g carrier) (wellFormed : g.WellFormed)
    (moment : a.Moment g config signal s) (risen : a.Risen g s.facts) {n : NodeId}
    (visited : a.turn g config.maxVisits signal s = .visited n next) :
    a.Rises g s.facts next.facts := by
  have within := moment.within ascending.closed
  have tracks := moment.tracks wellFormed
  obtain ⟨rest, outgoing, popped, _, left, rfl⟩ := turn_visited visited
  have here : g.Reachable a.direction n :=
    tracks.pending n (by simp [Worklist.pending_of_pop popped])
  obtain ⟨old, stored⟩ := (tracks.facts n).mpr here
  exact fun m => along_set wellFormed ascending.lawful.refl within stored fun label leads =>
    ascending.leaving_rises moment risen stored left (Graph.mem_labels leads)

/-- The ascent of a run, turn by turn. -/
theorem Ascending.risen (ascending : a.Ascending g carrier) (wellFormed : g.WellFormed)
    (moment : a.Moment g config signal s) : a.Risen g s.facts := by
  have lawful := ascending.lawful
  have closed := ascending.closed
  induction moment with
  | begin =>
    have start : a.Moment g config signal (a.begin g config.order) := .begin
    have within := start.within closed
    intro n f stored
    have arrived := arriving_carrier closed within n
    rw [Analysis.begin, get_seed] at stored
    split at stored
    · cases stored
      exact lawful.bottom_least _ arrived
    · contradiction
  | @visited s next v moment visited ih =>
    have within := moment.within closed
    have nextWithin := (moment.visited visited).within closed
    have rises := ascending.visited_rises wellFormed moment ih visited
    intro n f stored
    have grows : a.ops.precise (a.arriving g s.facts n) (a.arriving g next.facts n) = true :=
      arriving_related closed lawful.refl
        (fun x x' y y' inX inX' inY inY' => lawful.join_mono inX inX' inY inY') within nextWithin (rises n)
    obtain ⟨rest, outgoing, _, _, _, rfl⟩ := turn_visited visited
    rw [NodeMap.get_set] at stored
    split at stored
    · rename_i same
      cases stored
      exact same ▸ grows
    · exact lawful.trans _ _ _ (within n f stored).1 (arriving_carrier closed within n)
        (arriving_carrier closed nextWithin n) (ih n f stored) grows

/-- The rank of what is sent along an edge, if anything is. -/
def carriedRank (rank : α → Nat) (facts : NodeMap (Option (Facts α))) (e : Edge) : Nat :=
  (sent facts e).elim 0 rank

/-- The ranks of what the flow predecessors of a node send to it, together. -/
def supply (a : Analysis I α ε) (g : Graph I) (rank : α → Nat) (facts : NodeMap (Option (Facts α)))
    (n : NodeId) : Nat :=
  ((g.flowPredecessors a.direction n).map (carriedRank rank facts)).sum

section Payment

variable (finite : a.ops.FiniteHeight carrier rank height)

include finite

theorem carriedRank_le {facts : NodeMap (Option (Facts α))} (within : Within carrier facts) (e : Edge) :
    carriedRank rank facts e ≤ height := by
  cases present : facts.get e.node with
  | none => simp [carriedRank, sent, present]
  | some f =>
    have bound := finite.bounded _ ((within _ f present).2.2 e.label)
    simpa [carriedRank, sent, present] using bound

theorem supply_le {facts : NodeMap (Option (Facts α))} (within : Within carrier facts) (n : NodeId) :
    a.supply g rank facts n ≤ (g.flowPredecessors a.direction n).length * height := by
  simpa [supply] using
    List.sum_le_card_nsmul ((g.flowPredecessors a.direction n).map (carriedRank rank facts)) height
      (List.forall_mem_map.mpr fun e _ => carriedRank_le finite within e)

theorem carriedRank_mono {old new : NodeMap (Option (Facts α))} (within : Within carrier old)
    (within' : Within carrier new) {e : Edge}
    (along : Along (fun x y => a.ops.precise x y = true) old new e) :
    carriedRank rank old e ≤ carriedRank rank new e := by
  rcases along with ⟨absent, absent'⟩ | ⟨f, f', present, present', below⟩
  · simp [carriedRank, sent, absent, absent']
  · have rise := finite.mono _ _ ((within _ f present).2.2 e.label) ((within' _ f' present').2.2 e.label)
      below
    simpa [carriedRank, sent, present, present'] using rise

/-- New facts at one node make another one pending only where they raise the supply of that node. -/
theorem supply_lt_of_affected (lawful : a.ops.LawfulOn carrier) (wellFormed : g.WellFormed)
    {facts : NodeMap (Option (Facts α))} (within : Within carrier facts) {n : NodeId} {old new : Facts α}
    (stored : facts.get n = some old) (within' : Within carrier (facts.set n (some new)))
    (rises : a.Rises g facts (facts.set n (some new))) {m : NodeId}
    (hit : m ∈ a.affected g n (a.changed g facts n new.outgoing)) :
    a.supply g rank facts m < a.supply g rank (facts.set n (some new)) m := by
  obtain ⟨label, differs, leads⟩ := mem_affected.mp hit
  have edge := (Graph.flow_mirrored wellFormed a.direction n m label).mp leads
  have present : (facts.set n (some new)).get n = some new := NodeMap.get_set_self _ _ _
  have inOld := (within n old stored).2.2 label
  have inNew := (within' n new present).2.2 label
  have below : a.ops.precise (old.outgoing.get label) (new.outgoing.get label) = true := by
    simpa [Along, stored] using rises m _ edge
  have notAbove : a.ops.precise (new.outgoing.get label) (old.outgoing.get label) = false := by
    simp only [changed, stored, Labeled.changedLabels, List.mem_filter, Bool.not_eq_true'] at differs
    refine Bool.eq_false_iff.mpr fun above => ?_
    have same := (lawful.equivalent_iff _ _ inNew inOld).mpr ⟨above, below⟩
    simp [same] at differs
  refine List.sum_lt_sum _ _ (fun e member => carriedRank_mono finite within within' (rises m e member))
    ⟨_, edge, ?_⟩
  simpa [carriedRank, sent, stored] using finite.strict _ _ inOld inNew below notAbove

/-- The payment for the visits of a node: beyond the first, each visit, and the next one if the node is
pending, is covered by the supply of the node. -/
theorem Ascending.paid (ascending : a.Ascending g carrier) (wellFormed : g.WellFormed)
    (moment : a.Moment g config signal s) (m : NodeId) :
    s.visits.get m + (if m ∈ s.worklist.pending then 1 else 0) ≤ 1 + a.supply g rank s.facts m := by
  have closed := ascending.closed
  induction moment with
  | begin =>
    have unvisited : (a.begin g config.order).visits.get m = 0 := NodeMap.get_const 0 m
    rw [unvisited]
    split <;> omega
  | @visited s next n moment visited ih =>
    have tracks := moment.tracks wellFormed
    have within := moment.within closed
    have nextWithin := (moment.visited visited).within closed
    have rises := ascending.visited_rises wellFormed moment (ascending.risen wellFormed moment) visited
    have grows : a.supply g rank s.facts m ≤ a.supply g rank next.facts m :=
      List.sum_le_sum fun e edge => carriedRank_mono finite within nextWithin (rises m e edge)
    obtain ⟨rest, outgoing, popped, _, _, rfl⟩ := turn_visited visited
    have list := Worklist.pending_of_pop popped
    obtain ⟨old, stored⟩ := (tracks.facts n).mpr (tracks.pending n (by simp [list]))
    have distinct := tracks.coherent.distinct
    rw [list, List.nodup_cons] at distinct
    rw [list] at ih
    -- The visit itself was paid for while the node was pending.
    have spent : (s.visits.set n (s.visits.get n + 1)).get m +
        (if m ∈ rest.pending then 1 else 0) ≤ 1 + a.supply g rank s.facts m := by
      rw [NodeMap.get_set]
      by_cases here : m = n
      · subst here
        simpa [distinct.1] using ih
      · simpa [here] using ih
    simp only [Worklist.mem_pushAll (Worklist.pop_coherent tracks.coherent popped)]
    by_cases hit : m ∈ a.affected g n (a.changed g s.facts n outgoing)
    · have more := supply_lt_of_affected finite ascending.lawful wellFormed within stored nextWithin rises hit
      rw [if_pos (.inl hit)]
      omega
    · simp only [hit, false_or]
      exact Nat.le_trans spent (Nat.add_le_add_left grows 1)

end Payment

theorem Stops.count_le {limit : Nat} {last : List NodeId} {outcome : Except (Failure ε) (Solution α)}
    (stops : a.Stops g limit signal s last outcome) (m : NodeId) :
    last.count m ≤ if m ∈ s.worklist.pending then 1 else 0 := by
  cases stops with
  | cancelled | finished => simp
  | @failed n _ failed =>
    obtain ⟨rest, popped, _⟩ := turn_failed failed
    by_cases same : n = m
    · subst same
      simp [Worklist.pending_of_pop popped]
    · simp [same]

/-- No node with at most `degree` edges into it is taken more than `1 + degree * changes` times, whatever the
configuration and the signal, and a run that allows that many visits and is not cancelled ends with a
solution. -/
def ConvergesWithin (a : Analysis I α ε) (g : Graph I) (changes : Nat) : Prop :=
  ∀ degree, (∀ n ∈ g.ids, (g.flowPredecessors a.direction n).length ≤ degree) →
    (∀ config signal n, (a.taken g config signal).count n ≤ 1 + degree * changes) ∧
    ∀ config, 1 + degree * changes ≤ config.maxVisits → ∃ r, a.solve g config .never = .ok r

section Convergence

variable (finite : a.ops.FiniteHeight carrier rank height) (ascending : a.Ascending g carrier)
  (wellFormed : g.WellFormed) {degree : Nat}
  (narrow : ∀ n ∈ g.ids, (g.flowPredecessors a.direction n).length ≤ degree)

include finite ascending wellFormed narrow

theorem visits_le (moment : a.Moment g config signal s) (n : NodeId) :
    s.visits.get n + (if n ∈ s.worklist.pending then 1 else 0) ≤ 1 + degree * height := by
  by_cases inside : n ∈ g.ids
  · have paid := ascending.paid finite wellFormed moment n
    have supplied := supply_le (a := a) (g := g) finite (moment.within ascending.closed) n
    have few := Nat.mul_le_mul_right height (narrow n inside)
    omega
  · have unreachable : ¬g.Reachable a.direction n := fun reachable =>
      inside ((Graph.mem_ids wellFormed n).mpr (reachable.inside wellFormed))
    have idle : n ∉ s.worklist.pending := fun waiting =>
      unreachable ((moment.tracks wellFormed).pending n waiting)
    simp [(moment.counted wellFormed).unreached n unreachable, idle]

theorem count_taken_le (config : SolverConfig) (signal : Signal) (n : NodeId) :
    (a.taken g config signal).count n ≤ 1 + degree * height := by
  rcases Nat.eq_zero_or_pos config.maxVisits with refused | valid
  · simp [taken, SolverConfig.validate, refused]
  · obtain ⟨taken, final, last, steps, stops, took⟩ := a.solve_run wellFormed valid signal
    have bound := visits_le finite ascending wellFormed narrow (steps.moment .begin) n
    have balance := steps.visits n
    have ending := stops.count_le n
    rw [begin, NodeMap.get_const] at balance
    rw [took, List.count_append]
    omega

theorem solve_converges (total : ∀ i labels x, ∃ result, a.transfer i labels x = .ok result)
    (enough : 1 + degree * height ≤ config.maxVisits) : ∃ r, a.solve g config .never = .ok r := by
  have valid : 1 ≤ config.maxVisits := by omega
  obtain ⟨taken, final, last, steps, stops, _⟩ := a.solve_run wellFormed valid .never
  have moment := steps.moment .begin
  generalize a.solve g config .never = outcome at stops ⊢
  cases stops with
  | cancelled cancelled =>
    have asked := turn_cancelled cancelled
    contradiction
  | finished => exact ⟨_, rfl⟩
  | @failed n failure failed =>
    obtain ⟨rest, popped, ⟨exceeded, _⟩ | ⟨_, fault, refused, _⟩⟩ := turn_failed failed
    · have bound := visits_le finite ascending wellFormed narrow moment n
      rw [Worklist.pending_of_pop popped, if_pos List.mem_cons_self] at bound
      omega
    · obtain ⟨outgoing, left⟩ := leaving_total total g n (a.arriving g final.facts n)
      cases left.symm.trans refused

end Convergence

theorem convergesWithin (finite : a.ops.FiniteHeight carrier rank height)
    (ascending : a.Ascending g carrier) (wellFormed : g.WellFormed)
    (total : ∀ i labels x, ∃ result, a.transfer i labels x = .ok result) :
    a.ConvergesWithin g height := by
  intro degree narrow
  constructor
  · exact count_taken_le finite ascending wellFormed narrow
  · intro config enough
    exact solve_converges finite ascending wellFormed narrow total enough

end Analysis

end Dataflow
