import Dataflow.Proofs.Ascent
import Dataflow.Proofs.CleanStates

/-! The heights of the clients' lattices on one graph, and with them how often a node is visited. A clean
tuple is ranked by the keys that it holds at the fallback, a live set by its size within the variables of the
graph; neither rank sees in which form a value is stored. -/

namespace Dataflow

theorem countP_lt {β : Type} {p q : β → Bool} {l : List β} (kept : ∀ x ∈ l, p x = true → q x = true)
    {x : β} (member : x ∈ l) (fails : p x = false) (holds : q x = true) : l.countP p < l.countP q := by
  have both : l.countP p = (l.filter q).countP p := by
    rw [List.countP_filter]
    refine List.countP_congr fun y listed => ?_
    simpa using kept y listed
  rw [both, List.countP_eq_length_filter (p := q), List.countP_eq_length_filter,
    List.length_filter_lt_length_iff_exists]
  exact ⟨x, List.mem_filter.mpr ⟨member, holds⟩, by simp [fails]⟩

namespace Tuple

variable {κ α : Type} [DecidableEq κ] {bottom fallback : α} {names : List κ}

section Flat

variable [LatticeElement α]

theorem Flat.stays_fallback (flat : Flat bottom fallback) {x y : α}
    (below : LatticeElement.precise x y = true) (top : x = fallback) : y = fallback := by
  rcases (flat.precise_iff x y).mp below with dead | top | same
  · exact absurd (top.symm.trans dead) flat.proper
  · exact top
  · exact same ▸ top

/-- Where a clean tuple rises strictly, it does so at one of the keys, and to the fallback. -/
theorem Flat.exists_raised (flat : Flat bottom fallback) {s t : Tuple κ α}
    (cleanS : Clean bottom fallback names s) (liveS : s.isBottom = false)
    (below : ∀ k, LatticeElement.precise (s.get k) (t.get k) = true)
    (raised : ∃ k, LatticeElement.precise (t.get k) (s.get k) = false) :
    ∃ k ∈ names, s.get k ≠ fallback ∧ t.get k = fallback := by
  obtain ⟨k, notAbove⟩ := raised
  have notTop : s.get k ≠ fallback := by
    intro top
    rw [(flat.precise_iff _ _).mpr (.inr (.inl top))] at notAbove
    contradiction
  refine ⟨k, ?_, notTop, ?_⟩
  · apply Classical.byContradiction
    intro unknown
    have absent : k ∉ s.keys := fun stored => unknown (cleanS.named k stored)
    exact notTop ((get_of_not_mem liveS absent).trans cleanS.shared.2)
  · rcases (flat.precise_iff _ _).mp (below k) with dead | top | same
    · exact absurd dead (cleanS.alive liveS k)
    · exact top
    · rw [(flat.precise_iff _ _).mpr (.inr (.inr same.symm))] at notAbove
      contradiction

end Flat

variable [DecidableEq α]

/-- How far a tuple is from the bottom tuple: one step makes it live, and one more takes each of the given
keys to the fallback. -/
def rank (fallback : α) (names : List κ) (t : Tuple κ α) : Nat :=
  if t.isBottom then 0 else 1 + names.countP fun k => t.get k = fallback

theorem rank_of_isBottom {t : Tuple κ α} (dead : t.isBottom = true) : rank fallback names t = 0 := by
  simp [rank, dead]

theorem rank_of_live {t : Tuple κ α} (live : t.isBottom = false) :
    rank fallback names t = 1 + names.countP fun k => t.get k = fallback := by
  simp [rank, live]

variable [LatticeElement α]

/-- Entries that only repeat the fallback do not count, so the height does not depend on what is stored. -/
theorem finiteHeight (lawful : (LatticeOps.ofElement bottom).Lawful) (flat : Flat bottom fallback) :
    (LatticeOps.ofElement (dead bottom fallback : Tuple κ α)).FiniteHeight (Clean bottom fallback names)
      (rank fallback names) (names.length + 1) where
  bounded t _ := by
    have most := names.countP_le_length (p := fun k => decide (t.get k = fallback))
    unfold rank
    split <;> omega
  mono s t cleanS cleanT below := by
    rcases (precise_iff lawful cleanS.shared cleanT.shared).mp below with deadS | ⟨liveT, everywhere⟩
    · simp [rank_of_isBottom deadS]
    · cases aliveS : s.isBottom with
      | true => simp [rank_of_isBottom aliveS]
      | false =>
        rw [rank_of_live aliveS, rank_of_live liveT]
        refine Nat.add_le_add_left (List.countP_mono_left fun k _ top => ?_) 1
        exact decide_eq_true (flat.stays_fallback (everywhere k) (of_decide_eq_true top))
  strict s t cleanS cleanT below notAbove := by
    have above := mt (precise_iff lawful cleanT.shared cleanS.shared).mpr (Bool.eq_false_iff.mp notAbove)
    rw [not_or] at above
    have liveT := Bool.eq_false_iff.mpr above.1
    rw [rank_of_live liveT]
    cases aliveS : s.isBottom with
    | true =>
      rw [rank_of_isBottom aliveS]
      omega
    | false =>
      have everywhere := get_precise lawful cleanS.shared cleanT.shared below
      obtain ⟨k, known, notTop, top⟩ := flat.exists_raised cleanS aliveS everywhere
        (by simpa [aliveS] using above.2)
      rw [rank_of_live aliveS]
      refine Nat.add_lt_add_left (countP_lt (fun j _ stays => ?_) known ?_ ?_) 1
      · exact decide_eq_true (flat.stays_fallback (everywhere j) (of_decide_eq_true stays))
      · exact decide_eq_false notTop
      · exact decide_eq_true top

end Tuple

namespace Nullness

theorem converges {g : Graph Instruction} (wellFormed : g.WellFormed) :
    analysis.ConvergesWithin g (g.variableNames.length + 1) :=
  Analysis.convergesWithin (Tuple.finiteHeight lawful flat)
    (.restrict lawfulOn (monotone g) (fun _ clean => clean.shared) (clean_closed g)) wellFormed
    transfer_total

end Nullness

namespace Constant

theorem converges {g : Graph Instruction} (wellFormed : g.WellFormed) :
    analysis.ConvergesWithin g (g.variableNames.length + 1) :=
  Analysis.convergesWithin (Tuple.finiteHeight lawful flat)
    (.restrict lawfulOn (monotone g) (fun _ clean => clean.shared) (clean_closed g)) wellFormed
    transfer_total

end Constant

namespace Liveness

/-- How many of the given variables are live. -/
def rank (names : List String) (live : LiveSet) : Nat := names.countP live.contains

theorem finiteHeight (names : List String) :
    analysis.ops.FiniteHeight (Named names) (rank names) (names.length + 1) where
  bounded _ _ := Nat.le_succ_of_le List.countP_le_length
  mono before after _ _ below := by
    refine List.countP_mono_left fun x _ member => ?_
    exact LiveSet.contains_iff.mpr (LiveSet.subset_iff.mp below x (LiveSet.contains_iff.mp member))
  strict before after _ named below notAbove := by
    have more := mt LiveSet.subset_iff.mpr (Bool.eq_false_iff.mp notAbove)
    obtain ⟨x, gained⟩ := Classical.not_forall.mp more
    obtain ⟨member, absent⟩ := Classical.not_imp.mp gained
    refine countP_lt (fun y _ stays => ?_) (named x member) ?_ (LiveSet.contains_iff.mpr member)
    · exact LiveSet.contains_iff.mpr (LiveSet.subset_iff.mp below y (LiveSet.contains_iff.mp stays))
    · exact Bool.eq_false_iff.mpr (mt LiveSet.contains_iff.mp absent)

theorem converges {g : Graph Instruction} (wellFormed : g.WellFormed) :
    analysis.ConvergesWithin g (g.variableNames.length + 1) :=
  Analysis.convergesWithin (finiteHeight g.variableNames)
    (.restrict LiveSet.lawful.on (monotone g) (fun _ _ => trivial) (named_closed g)) wellFormed
    fun _ _ _ => ⟨_, rfl⟩

end Liveness

/-- Each of the three clients converges on every graph. With `V` the number of variables that the
instructions mention and at most `d` edges into each node, no node is taken more than `1 + d * (V + 1)`
times, and a run that allows that many visits of a node and is not cancelled has a solution. -/
theorem clients_converge {g : Graph Instruction} (built : g.Built) :
    Nullness.analysis.ConvergesWithin g (g.variableNames.length + 1) ∧
    Constant.analysis.ConvergesWithin g (g.variableNames.length + 1) ∧
    Liveness.analysis.ConvergesWithin g (g.variableNames.length + 1) :=
  ⟨Nullness.converges built.wellFormed, Constant.converges built.wellFormed,
    Liveness.converges built.wellFormed⟩

/-- One variable and at most two edges into a node, in both directions: five visits are enough. -/
theorem clients_converge_loop :
    (∃ r, Nullness.analysis.solve .countingLoop ⟨5, .lifo⟩ .never = .ok r) ∧
    (∃ r, Constant.analysis.solve .countingLoop ⟨5, .reversePostorder⟩ .never = .ok r) ∧
    (∃ r, Liveness.analysis.solve .countingLoop ⟨5, .fifo⟩ .never = .ok r) ∧
    (Constant.analysis.taken .countingLoop ⟨5, .lifo⟩ .never).count ⟨3⟩ ≤ 5 := by
  have forward : ∀ n ∈ Graph.countingLoop.ids,
      (Graph.countingLoop.flowPredecessors .forward n).length ≤ 2 := by decide
  have backward : ∀ n ∈ Graph.countingLoop.ids,
      (Graph.countingLoop.flowPredecessors .backward n).length ≤ 2 := by decide
  have five : 1 + 2 * (Graph.countingLoop.variableNames.length + 1) = 5 := by decide +kernel
  obtain ⟨nullness, constants, liveness⟩ := clients_converge Graph.countingLoop_built
  refine ⟨(nullness 2 forward).2 _ (Nat.le_of_eq five), (constants 2 forward).2 _ (Nat.le_of_eq five),
    (liveness 2 backward).2 _ (Nat.le_of_eq five), ?_⟩
  exact five ▸ (constants 2 forward).1 _ _ _

end Dataflow
