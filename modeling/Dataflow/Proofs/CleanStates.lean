import Dataflow.Proofs.Monotone

/-! The states that the clients meet on one graph. A tuple is dead as a whole or holds bottom under no key,
and nothing is stored for a variable that no instruction of the graph mentions. A refinement, a fold or a
join could break the first, an assignment the second; none does. -/

namespace Dataflow

namespace Instruction

/-- The variables that an instruction mentions. -/
def mentioned (i : Instruction) : List String := i.defined.toList ++ i.used

theorem defined_mentioned {i : Instruction} {x : String} (defines : i.defined = some x) :
    x ∈ i.mentioned := by
  simp [mentioned, defines]

theorem used_mentioned {i : Instruction} {x : String} (uses : x ∈ i.used) : x ∈ i.mentioned :=
  List.mem_append_right _ uses

theorem dereferenced_used {i : Instruction} {x : String} (dereferences : i.dereferenced = some x) :
    x ∈ i.used := by
  cases i with
  | load | store =>
    cases dereferences
    exact List.mem_cons_self
  | call dst receiver method args =>
    have receives : receiver = some x := dereferences
    simp [used, receives]
  | new | copy | const | arith | compare | ret | nop => contradiction

end Instruction

namespace Graph

/-- The variables that the instructions of a graph mention, each once. -/
def variableNames (g : Graph Instruction) : List String :=
  ((g.nodes.toList.filterMap fun d => d.kind.instruction?).flatMap Instruction.mentioned).eraseDups

theorem mem_variableNames {g : Graph Instruction} {x : String} :
    x ∈ g.variableNames ↔ ∃ n i, g.instruction? n = some i ∧ x ∈ i.mentioned := by
  rw [variableNames, List.mem_eraseDups, List.mem_flatMap]
  constructor
  · rintro ⟨i, member, mentioned⟩
    obtain ⟨d, stored, present⟩ := List.mem_filterMap.mp member
    obtain ⟨k, found⟩ := Array.mem_iff_getElem?.mp (Array.mem_toList_iff.mp stored)
    exact ⟨⟨k⟩, i, by rw [instruction?, node?, found]; exact present, mentioned⟩
  · rintro ⟨n, i, present, mentioned⟩
    obtain ⟨d, found, instruction⟩ := Option.bind_eq_some_iff.mp present
    have stored : d ∈ g.nodes.toList := Array.mem_toList_iff.mpr (Array.mem_of_getElem? found)
    exact ⟨i, List.mem_filterMap.mpr ⟨d, stored, instruction⟩, mentioned⟩

end Graph

namespace Tuple

variable {κ α : Type} [DecidableEq κ] {bottom fallback : α} {names : List κ}

/-- A tuple that is dead as a whole or nowhere, and that stores under the given keys only. -/
structure Clean (bottom fallback : α) (names : List κ) (t : Tuple κ α) : Prop where
  shared : Over bottom fallback t
  alive : t.isBottom = false → ∀ k, t.get k ≠ bottom
  named : ∀ k ∈ t.keys, k ∈ names

theorem bottomLike_clean {t : Tuple κ α} (shared : Over bottom fallback t) :
    Clean bottom fallback names t.bottomLike where
  shared := shared
  alive live := by simp [isBottom, bottomLike] at live
  named k member := by simp [keys, bottomLike] at member

theorem new_clean (proper : fallback ≠ bottom) :
    Clean bottom fallback names (new bottom fallback : Tuple κ α) where
  shared := over_new bottom fallback
  alive _ k := by simpa [get, new] using proper
  named k member := by simp [keys, new] at member

theorem mem_keys_set {t : Tuple κ α} {k j : κ} {v : α} (member : j ∈ (t.set k v).keys) :
    j = k ∨ j ∈ t.keys := by
  obtain ⟨_, _, entries⟩ := t
  cases entries with
  | none => simp [set, keys] at member
  | some m =>
    simp only [set, keys, Option.map_some, Option.getD_some, OrderedMap.mem_keys_insert] at member ⊢
    exact member

theorem set_clean {t : Tuple κ α} (clean : Clean bottom fallback names t) {k : κ} (known : k ∈ names)
    {v : α} (proper : v ≠ bottom) : Clean bottom fallback names (t.set k v) where
  shared := set_over clean.shared k v
  alive live j := by
    rw [isBottom_set] at live
    rw [get_set live]
    split
    · exact proper
    · exact clean.alive live j
  named j member := by
    rcases mem_keys_set member with rfl | old
    · exact known
    · exact clean.named j old

theorem assign_clean {t : Tuple κ α} (clean : Clean bottom fallback names t) {k : Option κ}
    (known : ∀ j, k = some j → j ∈ names) {v : α} (proper : v ≠ bottom) :
    Clean bottom fallback names (t.assign k v) := by
  cases k with
  | none => exact clean
  | some k => exact set_clean clean (known k rfl) proper

/-- The bottom tuple, or a live one that stores no bottom and only under the given keys. -/
def Whole (bottom fallback : α) (names : List κ) (t : Tuple κ α) : Prop :=
  t = dead bottom fallback ∨
  ∃ m : OrderedMap κ α, t = ⟨bottom, fallback, some m⟩ ∧ ∀ e ∈ m.entries, e.2 ≠ bottom ∧ e.1 ∈ names

theorem Clean.whole {t : Tuple κ α} (clean : Clean bottom fallback names t) :
    Whole bottom fallback names t := by
  obtain ⟨⟨rfl, rfl⟩, alive, named⟩ := clean
  obtain ⟨bottom, fallback, entries⟩ := t
  cases entries with
  | none => exact .inl rfl
  | some m =>
    refine .inr ⟨m, rfl, ?_⟩
    rintro ⟨k, v⟩ entry
    constructor
    · simpa [get, OrderedMap.get?_of_mem entry] using alive rfl k
    · exact named k (List.mem_map_of_mem entry)

variable [LatticeElement α]

theorem mem_keys_join {a b : Tuple κ α} {k : κ} (member : k ∈ (a.join b).keys) :
    k ∈ a.keys ∨ k ∈ b.keys := by
  unfold join at member
  split at member
  · exact .inl member
  · simpa [keys] using member

theorem join_clean (lawful : (LatticeOps.ofElement bottom).Lawful) (flat : Flat bottom fallback)
    {a b : Tuple κ α} (cleanA : Clean bottom fallback names a) (cleanB : Clean bottom fallback names b) :
    Clean bottom fallback names (a.join b) where
  shared := join_over cleanA.shared
  alive live k := by
    rw [isBottom_join] at live
    by_cases stored : k ∈ a.keys ++ b.keys
    · rw [get_join_of_mem stored]
      intro dead
      rcases Bool.and_eq_false_iff.mp live with liveA | liveB
      · exact cleanA.alive liveA k (flat.eq_bottom (dead ▸ lawful.left (a.get k) (b.get k)))
      · exact cleanB.alive liveB k (flat.eq_bottom (dead ▸ lawful.right (a.get k) (b.get k)))
    · rw [get_join_of_not_mem live stored, cleanA.shared.2]
      exact flat.proper
  named k member := (mem_keys_join member).elim (cleanA.named k) (cleanB.named k)

end Tuple

namespace Nullness

def Clean (names : List String) (s : State) : Prop := Tuple.Clean .bottom .maybeNull names s

theorem tested_used (cmp : Comparison) {lhs rhs : Operand} {x : String} (tests : tested lhs rhs = some x) :
    x ∈ (Instruction.compare cmp lhs rhs).used := by
  unfold tested at tests
  split at tests
  · cases tests
    simp [Instruction.used, Operand.var?]
  · cases tests
    simp [Instruction.used, Operand.var?]
  · contradiction

section

variable {names : List String} {s : State} (clean : Clean names s)

include clean

theorem produced_ne_bottom (live : s.isBottom = false) (i : Instruction) : produced s i ≠ .bottom := by
  cases i with
  | copy dst src => exact clean.alive live src
  | const dst value =>
    cases value with
    | null | int => simp [produced, ofOperand]
    | var name => exact clean.alive live name
  | new | arith | compare | load | store | call | ret | nop => simp [produced]

theorem assumed_clean {x : String} (known : x ∈ names) (value : Nullness) :
    Clean names (assumed s x value) := by
  unfold assumed
  split
  · exact Tuple.bottomLike_clean clean.shared
  · exact Tuple.set_clean clean known ‹_›

theorem completed_clean (live : s.isBottom = false) {i : Instruction} {x : String} (known : x ∈ names)
    (defined : ∀ y, i.defined = some y → y ∈ names) : Clean names (completed s i x) := by
  simp only [completed]
  split
  · exact Tuple.bottomLike_clean clean.shared
  · have refined : Clean names (s.set x ((s.get x).meet .notNull)) := Tuple.set_clean clean known ‹_›
    exact Tuple.assign_clean refined defined (produced_ne_bottom refined (by simpa using live) i)

theorem compared_clean {x : String} (known : x ∈ names) (cmp : Comparison) :
    (compared s cmp x).All (Clean names) :=
  Labeled.all_put (Labeled.all_put (Labeled.all_single clean) (assumed_clean clean known _))
    (assumed_clean clean known _)

theorem stepped_clean (live : s.isBottom = false) (labels : List Label) {i : Instruction}
    (mentioned : ∀ x ∈ i.mentioned, x ∈ names) : (stepped s labels i).All (Clean names) := by
  have defined (y : String) (defines : i.defined = some y) : y ∈ names :=
    mentioned y (Instruction.defined_mentioned defines)
  unfold stepped
  split
  · rename_i x dereferences
    have known := mentioned x (Instruction.used_mentioned (Instruction.dereferenced_used dereferences))
    have completes := Labeled.all_single (completed_clean clean live known defined)
    split
    · exact Labeled.all_put completes clean
    · exact completes
  · split
    · rename_i cmp lhs rhs _
      cases tests : tested lhs rhs with
      | none => exact Labeled.all_single clean
      | some x =>
        refine compared_clean clean (mentioned x (Instruction.used_mentioned ?_)) cmp
        exact tested_used cmp tests
    · exact Labeled.all_single (Tuple.assign_clean clean defined (produced_ne_bottom clean live i))

end

theorem clean_closed (g : Graph Instruction) : analysis.Closed g (Clean g.variableNames) where
  bottom := Tuple.bottomLike_clean (Tuple.over_dead _ _)
  entry := Tuple.new_clean flat.proper
  copy s clean := by
    have same : analysis.ops.copy s = s := Tuple.copy_eq lawful s
    rwa [same]
  join _ _ := Tuple.join_clean lawful flat
  transfer _ i s result present clean transferred := by
    rcases transfer_ok transferred with ⟨_, rfl⟩ | ⟨live, steps⟩
    · exact Labeled.all_single clean
    · cases (step_eq live _ i).symm.trans steps
      exact stepped_clean clean live _ fun _ mentioned =>
        Graph.mem_variableNames.mpr ⟨_, i, present, mentioned⟩

end Nullness

namespace Constant

def Clean (names : List String) (s : State) : Prop := Tuple.Clean .bottom .top names s

theorem fold_ne_bottom {l r : Constant} (op : ArithOp) (left : l ≠ .bottom) (right : r ≠ .bottom) :
    fold op l r ≠ .bottom := by
  cases l with
  | bottom => contradiction
  | top => simp [fold_top op right]
  | known l =>
    cases r with
    | bottom => contradiction
    | top => simp [fold]
    | known r => cases known : op.eval l r <;> simp [fold, known]

section

variable {names : List String} {s : State} (clean : Clean names s)

include clean

theorem produced_ne_bottom (live : s.isBottom = false) (i : Instruction) : produced s i ≠ .bottom := by
  have alive := ofOperand_ne_bottom (clean.alive live)
  cases i with
  | copy dst src => exact alive (.var src)
  | const dst value => exact alive value
  | arith dst kind lhs rhs => exact fold_ne_bottom kind (alive lhs) (alive rhs)
  | new | compare | load | store | call | ret | nop => simp [produced]

theorem ifEqual_clean {lhs rhs : Operand} (left : ∀ x, lhs.var? = some x → x ∈ names)
    (right : ∀ x, rhs.var? = some x → x ∈ names) : Clean names (ifEqual s lhs rhs) := by
  have dead : Clean names s.bottomLike := Tuple.bottomLike_clean clean.shared
  unfold ifEqual
  split
  · exact dead
  · exact dead
  · split
    · exact clean
    · exact dead
  · exact Tuple.assign_clean clean left (by simp)
  · exact Tuple.assign_clean clean right (by simp)
  · exact clean

theorem ifDifferent_clean (lhs rhs : Operand) : Clean names (ifDifferent s lhs rhs) := by
  unfold ifDifferent
  split
  · exact Tuple.bottomLike_clean clean.shared
  · exact clean

theorem ifEither_clean (lhs rhs : Operand) : Clean names (ifEither s lhs rhs) := by
  unfold ifEither
  split
  · exact Tuple.bottomLike_clean clean.shared
  · exact clean

theorem outcome_clean (cmp : Comparison) {lhs rhs : Operand} (left : ∀ x, lhs.var? = some x → x ∈ names)
    (right : ∀ x, rhs.var? = some x → x ∈ names) (label : Label) :
    Clean names (outcome s cmp lhs rhs label) := by
  have equal := ifEqual_clean clean left right
  have different := ifDifferent_clean clean lhs rhs
  cases label with
  | whenTrue => cases cmp <;> assumption
  | whenFalse => cases cmp <;> assumption
  | normal | exceptional => exact ifEither_clean clean lhs rhs

theorem step_clean (live : s.isBottom = false) {i : Instruction}
    (mentioned : ∀ x ∈ i.mentioned, x ∈ names) {result : Labeled State} (steps : step s i = .ok result) :
    result.All (Clean names) := by
  by_cases comparison : ∃ cmp lhs rhs, i = .compare cmp lhs rhs
  · obtain ⟨cmp, lhs, rhs, rfl⟩ := comparison
    obtain ⟨_, compared, base, values⟩ := compare_computes live cmp lhs rhs
    cases compared.symm.trans steps
    have left (x : String) (named : lhs.var? = some x) : x ∈ names :=
      mentioned x (Instruction.used_mentioned (by simp [Instruction.used, named]))
    have right (x : String) (named : rhs.var? = some x) : x ∈ names :=
      mentioned x (Instruction.used_mentioned (by simp [Instruction.used, named]))
    refine ⟨base ▸ ifEither_clean clean lhs rhs, fun label => ?_⟩
    rw [values]
    exact outcome_clean clean cmp left right label
  · cases (step_write live fun cmp lhs rhs same => comparison ⟨cmp, lhs, rhs, same⟩).symm.trans steps
    refine Labeled.all_single (Tuple.assign_clean clean ?_ (produced_ne_bottom clean live i))
    exact fun y defines => mentioned y (Instruction.defined_mentioned defines)

end

theorem clean_closed (g : Graph Instruction) : analysis.Closed g (Clean g.variableNames) where
  bottom := Tuple.bottomLike_clean (Tuple.over_dead _ _)
  entry := Tuple.new_clean flat.proper
  copy s clean := by
    have same : analysis.ops.copy s = s := Tuple.copy_eq lawful s
    rwa [same]
  join _ _ := Tuple.join_clean lawful flat
  transfer _ i s result present clean transferred := by
    rcases transfer_ok transferred with ⟨_, rfl⟩ | ⟨live, steps⟩
    · exact Labeled.all_single clean
    · refine step_clean clean live (fun _ mentioned => ?_) steps
      exact Graph.mem_variableNames.mpr ⟨_, i, present, mentioned⟩

end Constant

namespace Liveness

/-- Only variables of the graph are ever live. -/
def Named (names : List String) (live : LiveSet) : Prop := ∀ x ∈ live, x ∈ names

theorem named_closed (g : Graph Instruction) : analysis.Closed g (Named g.variableNames) where
  bottom x member := absurd member (LiveSet.not_mem_empty x)
  entry x member := absurd member (LiveSet.not_mem_empty x)
  copy _ := id
  join _ _ first second x member := (LiveSet.mem_union.mp member).elim (first x) (second x)
  transfer _ i live result present named transferred := by
    cases transferred
    apply Labeled.all_single
    intro x member
    rcases mem_through.mp member with uses | ⟨kept, _⟩
    · exact Graph.mem_variableNames.mpr ⟨_, i, present, Instruction.used_mentioned uses⟩
    · exact named x kept

end Liveness

/-- Every state of a nullness or constant propagation run is dead as a whole or nowhere: at no moment does
a node hold, on the way in or on any label out, a live tuple with bottom stored in it, or an entry for a
variable that the instructions do not mention. It does not matter how the run ends. -/
theorem runs_keep_whole (g : Graph Instruction) (config : SolverConfig) (signal : Signal) :
    (∀ s, Nullness.analysis.Moment g config signal s →
      Analysis.Within (Tuple.Whole .bottom .maybeNull g.variableNames) s.facts) ∧
    (∀ s, Constant.analysis.Moment g config signal s →
      Analysis.Within (Tuple.Whole .bottom .top g.variableNames) s.facts) := by
  constructor
  · intro s moment
    exact (moment.within (Nullness.clean_closed g)).weaken fun _ clean => clean.whole
  · intro s moment
    exact (moment.within (Constant.clean_closed g)).weaken fun _ clean => clean.whole

/-- The comparison at node 4 is decided, and the dereference at node 5 never completes. -/
def Graph.cornered : Graph Instruction :=
  .build [.instruction (.const "n" .null), .instruction (.const "k" (.int 3)),
    .instruction (.compare .eq (.var "k") (.int 4)), .instruction (.load "n" "n" "f"),
    .edge .start ⟨2⟩ .normal, .edge ⟨2⟩ ⟨3⟩ .normal, .edge ⟨3⟩ ⟨4⟩ .normal, .edge ⟨4⟩ .finish .whenTrue,
    .edge ⟨4⟩ ⟨5⟩ .whenFalse, .edge ⟨5⟩ .finish .normal, .edge ⟨5⟩ ⟨4⟩ .exceptional]

/-- The last moments of two runs: a live state goes into the node, and a dead one leaves it on one label. -/
theorem runs_keep_whole_cornered : ∃ s t,
    Nullness.analysis.Moment .cornered ⟨5, .fifo⟩ .never s ∧
    Constant.analysis.Moment .cornered ⟨5, .lifo⟩ .never t ∧
    (s.facts.get ⟨5⟩).map (fun f => (f.incoming.isBottom, (f.outgoing.get .normal).isBottom)) =
      some (false, true) ∧
    (t.facts.get ⟨4⟩).map (fun f => (f.incoming.isBottom, (f.outgoing.get .whenTrue).isBottom)) =
      some (false, true) ∧
    Analysis.Within (Tuple.Whole .bottom .maybeNull Graph.cornered.variableNames) s.facts ∧
    Analysis.Within (Tuple.Whole .bottom .top Graph.cornered.variableNames) t.facts := by
  have nullness : (Nullness.analysis.solve .cornered ⟨5, .fifo⟩ .never).toOption.map
      (fun r => (r.facts.get ⟨5⟩).map fun f => (f.incoming.isBottom, (f.outgoing.get .normal).isBottom)) =
        some (some (false, true)) := by
    decide +kernel
  have constants : (Constant.analysis.solve .cornered ⟨5, .lifo⟩ .never).toOption.map
      (fun r => (r.facts.get ⟨4⟩).map fun f => (f.incoming.isBottom, (f.outgoing.get .whenTrue).isBottom)) =
        some (some (false, true)) := by
    decide +kernel
  obtain ⟨r, solved, shown⟩ := exists_of_shown nullness
  obtain ⟨r', solved', shown'⟩ := exists_of_shown constants
  obtain ⟨s, moment, _, rfl⟩ := Analysis.solve_ok solved
  obtain ⟨t, moment', _, rfl⟩ := Analysis.solve_ok solved'
  exact ⟨s, t, moment, moment', shown, shown', (runs_keep_whole _ _ _).1 s moment,
    (runs_keep_whole _ _ _).2 t moment'⟩

end Dataflow
