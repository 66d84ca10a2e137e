import Dataflow.Proofs.Monotone
import Dataflow.Proofs.PointwiseOrder

/-! Both branches of a comparison together hold what was held before it. A comparison with null splits the
values of the tested variable between its branches; one of integers leaves the whole state on one branch at
least. So nothing is lost where the branches meet again, and no branch holds less than the state. The state
may be over any fallback but bottom; were bottom stored in it, both branches could be dead. -/

namespace Dataflow

/-- The outcomes of an instruction on its two branches make up the state before it: each is at least as
precise, and their join is equivalent to it. -/
def Analysis.Rejoins {I α ε : Type} (a : Analysis I α ε) (i : I) (labels : List Label) (s : α) : Prop :=
  ∃ result, a.transfer i labels s = .ok result ∧
    a.ops.equivalent (a.ops.join (result.get .whenTrue) (result.get .whenFalse)) s = true ∧
    a.ops.precise (result.get .whenTrue) s = true ∧ a.ops.precise (result.get .whenFalse) s = true

namespace Tuple

variable {κ α : Type} [DecidableEq κ] {bottom fallback : α}

theorem get_ne_bottom (proper : fallback ≠ bottom) {m : OrderedMap κ α}
    (stored : ∀ e ∈ m.entries, e.2 ≠ bottom) (k : κ) :
    (⟨bottom, fallback, some m⟩ : Tuple κ α).get k ≠ bottom := by
  change (m.get? k).getD fallback ≠ bottom
  cases found : m.get? k with
  | none => exact proper
  | some v =>
    obtain ⟨e, member, rfl⟩ := Option.map_eq_some_iff.mp found
    exact stored e (List.mem_of_find?_eq_some member)

end Tuple

namespace Nullness

/-- A value other than bottom is split between null and not null, and none of it is lost. -/
theorem join_meet {a : Nullness} (alive : a ≠ .bottom) (cmp : Comparison) :
    join (a.meet (ifHolds cmp)) (a.meet (ifFails cmp)) = a := by
  cases a with
  | bottom => contradiction
  | null | notNull | maybeNull => cases cmp <;> rfl

section

variable {fallback : Nullness} {s : State} (shared : Tuple.Over .bottom fallback s)
  (live : s.isBottom = false)

include shared live

/-- Where one assumption contradicts the state, the other holds all of it. -/
theorem assumed_covers {x : String} (alive : s.get x ≠ .bottom) (cmp : Comparison) :
    s.precise ((assumed s x (ifHolds cmp)).join (assumed s x (ifFails cmp))) = true := by
  have overHolds := assumed_over shared x (ifHolds cmp)
  have overFails := assumed_over shared x (ifFails cmp)
  have parts := join_meet alive cmp
  have possible : (s.get x).meet (ifHolds cmp) ≠ .bottom ∨ (s.get x).meet (ifFails cmp) ≠ .bottom := by
    refine Classical.not_and_iff_not_or_not.mp fun dies => ?_
    rw [dies.1, dies.2] at parts
    exact alive parts.symm
  have survives {v : Nullness} (possible : (s.get x).meet v ≠ .bottom) :
      (assumed s x v).isBottom = false := by
    simpa [assumed, possible] using live
  have elsewhere {v : Nullness} {k : String} (other : k ≠ x) (possible : (s.get x).meet v ≠ .bottom) :
      (assumed s x v).get k = s.get k := by
    rw [get_assumed live, if_neg possible, if_neg other]
  refine (Tuple.precise_iff lawful shared (Tuple.join_over overHolds)).mpr (.inr ⟨?_, fun k => ?_⟩)
  · rw [Tuple.isBottom_join]
    rcases possible with holds | fails
    · simp [survives holds]
    · simp [survives fails]
  · rw [Tuple.get_join lawful flat.antisymm overHolds overFails]
    by_cases here : k = x
    · rw [here, get_assumed_self shared.1 live, get_assumed_self shared.1 live]
      change precise (s.get x) (join ((s.get x).meet (ifHolds cmp)) ((s.get x).meet (ifFails cmp))) = true
      rw [parts]
      exact lawful.refl _
    · rcases possible with holds | fails
      · rw [elsewhere here holds]
        exact lawful.left _ _
      · rw [elsewhere here fails]
        exact lawful.right _ _

theorem compare_rejoins (alive : ∀ k, s.get k ≠ .bottom) (cmp : Comparison) (lhs rhs : Operand)
    (labels : List Label) : analysis.Rejoins (.compare cmp lhs rhs) labels s := by
  have laws : (LatticeOps.ofElement (Tuple.dead .bottom fallback : State)).LawfulOn _ :=
    Tuple.lawfulOn lawful
  refine ⟨_, guarded_live live (compare_live live cmp lhs rhs), ?_⟩
  cases tested lhs rhs with
  | none =>
    have self := laws.refl s shared
    exact ⟨(laws.join_of_precise shared shared self).1, self, self⟩
  | some x =>
    have below := assumed_precise live x
    have shares := assumed_over shared x
    simp only [Option.elim_some, compared, Labeled.get_put]
    refine ⟨Bool.and_eq_true_iff.mpr ⟨?_, assumed_covers shared live (alive x) cmp⟩, below _, below _⟩
    exact laws.least _ _ s (shares _) (shares _) shared (below _) (below _)

end

end Nullness

namespace Constant

section

variable {fallback : Constant} {s : State} (shared : Tuple.Over .bottom fallback s)
  (live : s.isBottom = false)

include shared in
theorem ifEqual_over (lhs rhs : Operand) : Tuple.Over .bottom fallback (ifEqual s lhs rhs) := by
  unfold ifEqual
  split
  · exact shared
  · exact shared
  · split <;> exact shared
  · exact Tuple.assign_over shared _ _
  · exact Tuple.assign_over shared _ _
  · exact shared

include shared in
theorem ifDifferent_over (lhs rhs : Operand) : Tuple.Over .bottom fallback (ifDifferent s lhs rhs) := by
  unfold ifDifferent
  split <;> exact shared

include live

theorem ifEqual_precise (lhs rhs : Operand) : (ifEqual s lhs rhs).precise s = true := by
  by_cases impossible : (ofOperand s lhs).meet (ofOperand s rhs) = .bottom
  · rw [ifEqual_impossible impossible]
    exact Tuple.bottomLike_precise _ _
  · obtain ⟨alive, holds⟩ := ifEqual_possible live impossible
    obtain ⟨left, right⟩ := meet_precise (ofOperand s lhs) (ofOperand s rhs)
    refine Tuple.Below.precise ⟨alive, live, fun k => ?_⟩
    rw [holds]
    split
    · rename_i named
      rcases named with named | named
      · exact ofOperand_of_var (s := s) named ▸ left
      · exact ofOperand_of_var (s := s) named ▸ right
    · exact lawful.refl _

theorem ifDifferent_precise (lhs rhs : Operand) : (ifDifferent s lhs rhs).precise s = true := by
  unfold ifDifferent
  split
  · exact Tuple.bottomLike_precise _ _
  · exact Tuple.precise_self lawful.refl live

omit live in
/-- Operands that never differ have one known value, and then the branch that finds it is the state. -/
theorem branch_eq_self {lhs rhs : Operand} (left : ofOperand s lhs ≠ .bottom)
    (right : ofOperand s rhs ≠ .bottom) : ifEqual s lhs rhs = s ∨ ifDifferent s lhs rhs = s := by
  by_cases never : NeverDiffer (ofOperand s lhs) (ofOperand s rhs)
  · rcases never with dead | dead | ⟨n, first, second⟩
    · contradiction
    · contradiction
    · exact .inl (by simp [ifEqual, first, second])
  · exact .inr (if_neg never)

include shared

theorem compare_rejoins (alive : ∀ k, s.get k ≠ .bottom) (cmp : Comparison) (lhs rhs : Operand)
    (labels : List Label) : analysis.Rejoins (.compare cmp lhs rhs) labels s := by
  have laws : (LatticeOps.ofElement (Tuple.dead .bottom fallback : State)).LawfulOn _ :=
    Tuple.lawfulOn lawful
  have whole := branch_eq_self (ofOperand_ne_bottom alive lhs) (ofOperand_ne_bottom alive rhs)
  have rejoin {x y : State} (overX : Tuple.Over .bottom fallback x) (overY : Tuple.Over .bottom fallback y)
      (belowX : x.precise s = true) (belowY : y.precise s = true) (one : x = s ∨ y = s) :
      LatticeElement.equivalent (x.join y) s = true := by
    rcases one with rfl | rfl
    · exact (laws.join_of_precise overY shared belowY).2
    · exact (laws.join_of_precise overX shared belowX).1
  have overEqual := ifEqual_over shared lhs rhs
  have overDifferent := ifDifferent_over shared lhs rhs
  have equal := ifEqual_precise live lhs rhs
  have different := ifDifferent_precise live lhs rhs
  obtain ⟨result, compared, _, values⟩ := compare_computes live cmp lhs rhs
  refine ⟨result, guarded_live live compared, ?_⟩
  rw [values, values]
  cases cmp with
  | eq => exact ⟨rejoin overEqual overDifferent equal different whole, equal, different⟩
  | ne => exact ⟨rejoin overDifferent overEqual different equal whole.symm, different, equal⟩

end

end Constant

/-- Splitting a state on any comparison and joining the branches again loses nothing and invents nothing,
for nullness and for constants. -/
theorem comparisons_rejoin (cmp : Comparison) (lhs rhs : Operand) (labels : List Label) :
    (∀ fallback (m : OrderedMap String Nullness), fallback ≠ .bottom → (∀ e ∈ m.entries, e.2 ≠ .bottom) →
      Nullness.analysis.Rejoins (.compare cmp lhs rhs) labels ⟨.bottom, fallback, some m⟩) ∧
    (∀ fallback (m : OrderedMap String Constant), fallback ≠ .bottom → (∀ e ∈ m.entries, e.2 ≠ .bottom) →
      Constant.analysis.Rejoins (.compare cmp lhs rhs) labels ⟨.bottom, fallback, some m⟩) := by
  constructor
  · intro fallback m proper stored
    exact Nullness.compare_rejoins ⟨rfl, rfl⟩ rfl (Tuple.get_ne_bottom proper stored) cmp lhs rhs labels
  · intro fallback m proper stored
    exact Constant.compare_rejoins ⟨rfl, rfl⟩ rfl (Tuple.get_ne_bottom proper stored) cmp lhs rhs labels

/-- Of a variable known to be null one branch is dead; of a known and an unknown number, one branch learns
that they are equal. Both states are made up again. -/
theorem comparisons_rejoin_narrowed :
    (Nullness.analysis.Rejoins (.compare .ne .null (.var "x")) [.normal]
        ⟨.bottom, .maybeNull, some (OrderedMap.empty.insert "x" .null)⟩ ∧
      Constant.analysis.Rejoins (.compare .eq (.var "x") (.var "y")) [.whenTrue, .whenFalse]
        ⟨.bottom, .top, some (OrderedMap.empty.insert "x" (.known 3))⟩) ∧
    (Nullness.analysis.transfer (.compare .ne .null (.var "x")) [.normal]
        ⟨.bottom, .maybeNull, some (OrderedMap.empty.insert "x" .null)⟩).toOption.map
      (fun r => ((r.get .whenTrue).isBottom, (r.get .whenFalse).isBottom)) = some (true, false) ∧
    (Constant.analysis.transfer (.compare .eq (.var "x") (.var "y")) [.whenTrue, .whenFalse]
        ⟨.bottom, .top, some (OrderedMap.empty.insert "x" (.known 3))⟩).toOption.map
      (fun r => ((r.get .whenTrue).get "y", (r.get .whenFalse).get "y")) = some (.known 3, .top) := by
  refine ⟨⟨?_, ?_⟩, by decide +kernel, by decide +kernel⟩
  · exact (comparisons_rejoin _ _ _ _).1 _ _ (by decide) (by decide)
  · exact (comparisons_rejoin _ _ _ _).2 _ _ (by decide) (by decide)

end Dataflow
