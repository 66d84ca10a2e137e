import Dataflow.Constants
import Dataflow.Liveness
import Dataflow.Nullness
import Dataflow.Proofs.Run
import Dataflow.Proofs.Tuple

/-! The lattices of the three clients. Live sets form a join-semilattice as they are; the states of the
two forward clients do on the tuples that share the bottom and the fallback of the client, which no
transfer leaves. -/

namespace Dataflow

theorem LiveSet.lawful : (LatticeOps.ofElement LiveSet.empty).Lawful where
  copy _ := rfl
  refl _ := subset_iff.mpr fun _ member => member
  trans _ _ _ first second := subset_iff.mpr fun x member =>
    subset_iff.mp second x (subset_iff.mp first x member)
  equivalent_iff _ _ := Bool.and_eq_true_iff
  left _ _ := subset_iff.mpr fun _ member => mem_union.mpr (.inl member)
  right _ _ := subset_iff.mpr fun _ member => mem_union.mpr (.inr member)
  least _ _ _ first second := subset_iff.mpr fun x member =>
    (mem_union.mp member).elim (subset_iff.mp first x) (subset_iff.mp second x)
  bottom_least _ := subset_iff.mpr fun x member => absurd member (not_mem_empty x)

/-- Sets with the same members are equal, for their names are sorted. -/
theorem LiveSet.eq_of_mem_iff {s t : LiveSet} (members : ∀ x, x ∈ s ↔ x ∈ t) : s = t := by
  have distinct (u : LiveSet) : u.names.Nodup := u.sorted.imp String.ne_of_lt
  have permuted : s.names.Perm t.names :=
    (List.perm_ext_iff_of_nodup (distinct s) (distinct t)).mpr members
  have names : s.names = t.names := permuted.eq_of_pairwise
    (fun _ _ _ _ less greater => absurd less (String.lt_asymm greater)) s.sorted t.sorted
  cases s
  cases t
  simpa using names

theorem LiveSet.eq_of_equivalent {s t : LiveSet} (equivalent : LatticeElement.equivalent s t = true) :
    s = t := by
  obtain ⟨below, above⟩ := Bool.and_eq_true_iff.mp equivalent
  exact eq_of_mem_iff fun x => ⟨subset_iff.mp below x, subset_iff.mp above x⟩

theorem Liveness.mem_through {i : Instruction} {after : LiveSet} {x : String} :
    x ∈ through i after ↔ x ∈ i.used ∨ x ∈ after ∧ i.defined ≠ some x := by
  unfold through
  cases i.defined with
  | none => simp
  | some y => simp [eq_comm]

/-- A transfer function that leaves the bottom tuple alone and is refused only what a tuple refuses. -/
theorem guarded_ok {κ α : Type} {s : Tuple κ α} {outcome : Except TupleFault (Labeled (Tuple κ α))}
    {result : Labeled (Tuple κ α)}
    (guarded : (if s.isBottom then .ok (.single s) else outcome) =
      .ok result) :
    s.isBottom = true ∧ result = .single s ∨ s.isBottom = false ∧ outcome = .ok result := by
  split at guarded
  · rename_i dead
    exact Or.inl ⟨dead, (Except.ok.inj guarded).symm⟩
  · rename_i live
    cases outcome with
    | error fault => cases guarded
    | ok value => exact Or.inr ⟨Bool.eq_false_iff.mpr live, congrArg Except.ok (Except.ok.inj guarded)⟩

theorem guarded_live {κ α : Type} {s : Tuple κ α} {outcome : Except TupleFault (Labeled (Tuple κ α))}
    {result : Labeled (Tuple κ α)} (live : s.isBottom = false) (computed : outcome = .ok result) :
    (if s.isBottom then .ok (.single s) else outcome) = .ok result := by
  rw [live, computed]
  rfl

theorem exists_of_isOk {ε α : Type} {outcome : Except ε α} (succeeds : outcome.isOk = true) :
    ∃ result, outcome = .ok result := by
  cases outcome with
  | error fault => cases succeeds
  | ok result => exact ⟨result, rfl⟩

/-- The result behind what is shown of it. -/
theorem exists_of_shown {ε α β : Type} {outcome : Except ε α} {shown : α → β} {value : β}
    (computed : outcome.toOption.map shown = some value) :
    ∃ result, outcome = .ok result ∧ shown result = value := by
  cases outcome with
  | error fault => cases computed
  | ok result => exact ⟨result, rfl, Option.some.inj computed⟩

namespace Nullness

theorem precise_iff {a b : Nullness} : precise a b = true ↔ a = .bottom ∨ b = .maybeNull ∨ a = b := by
  cases a <;> cases b <;> decide

theorem lawful : (LatticeOps.ofElement Nullness.bottom).Lawful where
  copy _ := rfl
  refl a := by cases a <;> rfl
  trans a b c := by cases a <;> cases b <;> cases c <;> decide
  equivalent_iff _ _ := Bool.and_eq_true_iff
  left a b := by cases a <;> cases b <;> rfl
  right a b := by cases a <;> cases b <;> rfl
  least a b c := by cases a <;> cases b <;> cases c <;> decide
  bottom_least a := by cases a <;> rfl

/-- The states that the analysis works with. -/
def Proper (s : State) : Prop := Tuple.Over .bottom .maybeNull s

theorem lawfulOn : analysis.ops.LawfulOn Proper := Tuple.lawfulOn lawful

/-! What the transfer function computes on a reachable state, where no operation is refused. -/

/-- What an instruction writes, if it writes anything. -/
def produced (s : State) : Instruction → Nullness
  | .new _ | .arith _ _ _ _ => .notNull
  | .copy _ src => s.get src
  | .const _ value => ofOperand s value
  | _ => .maybeNull

theorem produced_of_dereferenced {s : State} {i : Instruction} {x : String}
    (dereferences : i.dereferenced = some x) : produced s i = .maybeNull := by
  cases i with
  | load | store | call => rfl
  | new | copy | const | arith | compare | ret | nop => contradiction

theorem write_live {s : State} (live : s.isBottom = false) (i : Instruction) :
    write s i = .ok (s.assign i.defined (produced s i)) := by
  cases i with
  | call dst receiver method args =>
    cases dst with
    | none => rfl
    | some dst => exact Tuple.put_of_live live _ _
  | compare | store | ret | nop => rfl
  | new | copy | const | arith | load => exact Tuple.put_of_live live _ _

/-- The branch that assumes something about a variable. -/
def assumed (s : State) (x : String) (value : Nullness) : State :=
  if (s.get x).meet value = .bottom then s.bottomLike else s.set x ((s.get x).meet value)

theorem assume_live {s : State} (live : s.isBottom = false) (x : String) (value : Nullness) :
    assume s x value = .ok (assumed s x value) := by
  have stored : (s.set x ((s.get x).meet value)).get x = (s.get x).meet value := by
    simp [Tuple.get_set live]
  simp only [assume, refine, Tuple.put_of_live live, bind, Except.bind, pure, Except.pure, stored,
    assumed]
  split <;> rfl

/-- What a variable is where its comparison with null holds. -/
def ifHolds : Comparison → Nullness
  | .eq => .null
  | .ne => .notNull

def ifFails : Comparison → Nullness
  | .eq => .notNull
  | .ne => .null

/-- The outcome of a comparison of a variable with null. -/
def compared (s : State) (cmp : Comparison) (x : String) : Labeled State :=
  ((Labeled.single s).put .whenTrue (assumed s x (ifHolds cmp))).put .whenFalse (assumed s x (ifFails cmp))

theorem split_live {s : State} (live : s.isBottom = false) (cmp : Comparison) (x : String) :
    split s cmp x = .ok (compared s cmp x) := by
  simp only [split, assume_live live, bind, Except.bind]
  cases cmp <;> rfl

/-- The state after an instruction has dereferenced `x` and completed. -/
def completed (s : State) (i : Instruction) (x : String) : State :=
  let refined := s.set x ((s.get x).meet .notNull)
  if (s.get x).meet .notNull = .bottom then s.bottomLike
  else refined.assign i.defined (produced refined i)

theorem dereference_live {s : State} (live : s.isBottom = false) (labels : List Label) (i : Instruction)
    (x : String) :
    dereference s labels i x = .ok (if labels.contains .exceptional
      then (Labeled.single (completed s i x)).put .exceptional s
      else .single (completed s i x)) := by
  have refinedLive : (s.set x ((s.get x).meet .notNull)).isBottom = false := by simpa using live
  have stored : (s.set x ((s.get x).meet .notNull)).get x = (s.get x).meet .notNull := by
    simp [Tuple.get_set live]
  simp only [dereference, refine, Tuple.put_of_live live, write_live refinedLive, bind, Except.bind, pure,
    Except.pure, stored, Tuple.bottomLike_assign]
  rfl

/-- What a branch holds that assumes something about `x`; nothing if it contradicts the state. -/
theorem get_assumed {s : State} (live : s.isBottom = false) (x : String) (value : Nullness) (k : String) :
    (assumed s x value).get k = if (s.get x).meet value = .bottom then s.bottom
      else if k = x then (s.get x).meet value else s.get k := by
  unfold assumed
  split
  · rfl
  · exact Tuple.get_set live x k _

theorem get_assumed_self {s : State} (least : s.bottom = .bottom) (live : s.isBottom = false) (x : String)
    (value : Nullness) : (assumed s x value).get x = (s.get x).meet value := by
  rw [get_assumed live, least, if_pos rfl]
  split
  · rename_i dies
    exact dies.symm
  · rfl

/-- What a dereference of `x` leaves behind when it completes. -/
theorem get_completed {s : State} (live : s.isBottom = false) {i : Instruction} {x : String}
    (dereferences : i.dereferenced = some x) (k : String) :
    (completed s i x).get k = if (s.get x).meet .notNull = .bottom then s.bottom
      else if some k = i.defined then .maybeNull
      else if k = x then (s.get x).meet .notNull else s.get k := by
  have refinedLive : (s.set x ((s.get x).meet .notNull)).isBottom = false := by simpa using live
  simp only [completed, produced_of_dereferenced dereferences]
  split
  · rfl
  · rw [Tuple.get_assign refinedLive, Tuple.get_set live]

theorem assumed_over {fallback : Nullness} {s : State} (shared : Tuple.Over .bottom fallback s) (x : String)
    (value : Nullness) : Tuple.Over .bottom fallback (assumed s x value) := by
  unfold assumed
  split <;> exact shared

theorem completed_proper {s : State} (proper : Proper s) (i : Instruction) (x : String) :
    Proper (completed s i x) := by
  simp only [completed]
  split
  · exact proper
  · exact Tuple.assign_over (Tuple.set_over proper _ _) _ _

theorem step_dereference {s : State} (live : s.isBottom = false) (labels : List Label) {i : Instruction}
    {x : String} (dereferences : i.dereferenced = some x) :
    step s labels i = .ok (if labels.contains .exceptional
      then (Labeled.single (completed s i x)).put .exceptional s
      else .single (completed s i x)) := by
  rw [← dereference_live live]
  simp [step, dereferences]

theorem step_write {s : State} (live : s.isBottom = false) (labels : List Label) {i : Instruction}
    (plain : i.dereferenced = none) (other : ∀ cmp lhs rhs, i ≠ .compare cmp lhs rhs) :
    step s labels i = .ok (.single (s.assign i.defined (produced s i))) := by
  have wrote := write_live live i
  cases i with
  | compare cmp lhs rhs => exact absurd rfl (other cmp lhs rhs)
  | load | store => contradiction
  | call dst receiver method args =>
    cases plain
    simp [step, Instruction.dereferenced, wrote, bind, Except.bind, pure, Except.pure]
  | new | copy | const | arith | ret | nop =>
    simp [step, Instruction.dereferenced, wrote, bind, Except.bind, pure, Except.pure]

theorem compare_cases {s : State} (live : s.isBottom = false) (cmp : Comparison) (lhs rhs : Operand) :
    (∃ x, (lhs = .var x ∧ rhs = .null ∨ lhs = .null ∧ rhs = .var x) ∧
      compare s cmp lhs rhs = .ok (compared s cmp x)) ∨
    compare s cmp lhs rhs = .ok (.single s) := by
  unfold compare
  split
  · exact Or.inl ⟨_, Or.inl ⟨rfl, rfl⟩, split_live live _ _⟩
  · exact Or.inl ⟨_, Or.inr ⟨rfl, rfl⟩, split_live live _ _⟩
  · exact Or.inr rfl

theorem step_proper {s : State} (proper : Proper s) (live : s.isBottom = false) (labels : List Label)
    (i : Instruction) {result : Labeled State} (stepped : step s labels i = .ok result) :
    result.All Proper := by
  have single := Labeled.all_single proper
  cases dereferences : i.dereferenced with
  | some x =>
    cases (step_dereference live labels dereferences).symm.trans stepped
    have normal := Labeled.all_single (completed_proper proper i x)
    split
    · exact Labeled.all_put normal proper
    · exact normal
  | none =>
    by_cases comparison : ∃ cmp lhs rhs, i = .compare cmp lhs rhs
    · obtain ⟨cmp, lhs, rhs, rfl⟩ := comparison
      rcases compare_cases live cmp lhs rhs with ⟨x, _, known⟩ | known
      · cases known.symm.trans stepped
        have branch := assumed_over proper x
        exact Labeled.all_put (Labeled.all_put single (branch _)) (branch _)
      · cases known.symm.trans stepped
        exact single
    · have plain := step_write live labels dereferences fun cmp lhs rhs same =>
        comparison ⟨cmp, lhs, rhs, same⟩
      cases plain.symm.trans stepped
      exact Labeled.all_single (Tuple.assign_over proper _ _)

theorem transfer_ok {i : Instruction} {labels : List Label} {s : State} {result : Labeled State}
    (transferred : analysis.transfer i labels s = .ok result) :
    s.isBottom = true ∧ result = .single s ∨ s.isBottom = false ∧ step s labels i = .ok result :=
  guarded_ok transferred

theorem closed (g : Graph Instruction) : analysis.Closed g Proper where
  bottom := Tuple.over_dead _ _
  entry := Tuple.over_new _ _
  copy _ proper := proper
  join _ _ proper _ := Tuple.join_over proper
  transfer _ i s result _ proper transferred := by
    rcases transfer_ok transferred with ⟨_, rfl⟩ | ⟨live, stepped⟩
    · exact Labeled.all_single proper
    · exact step_proper proper live _ i stepped

end Nullness

namespace Constant

theorem precise_iff {a b : Constant} : precise a b = true ↔ a = .bottom ∨ b = .top ∨ a = b := by
  cases a <;> cases b <;> simp [precise]

/-- The join is a least upper bound. -/
theorem join_precise {a b c : Constant} :
    precise (join a b) c = true ↔ precise a c = true ∧ precise b c = true := by
  cases a with
  | bottom => simp [join, precise]
  | top => cases b <;> cases c <;> simp [join, precise]
  | known a =>
    cases b with
    | bottom => simp [join, precise]
    | top => cases c <;> simp [join, precise]
    | known b =>
      by_cases same : a = b
      · simp [join, same]
      · cases c <;> simp [join, same, precise]
        grind

theorem lawful : (LatticeOps.ofElement Constant.bottom).Lawful where
  copy _ := rfl
  refl _ := precise_iff.mpr (.inr (.inr rfl))
  trans a b c first second := by
    have lower := precise_iff.mp first
    have upper := precise_iff.mp second
    exact precise_iff.mpr (by grind)
  equivalent_iff _ _ := Bool.and_eq_true_iff
  left _ _ := (join_precise.mp (precise_iff.mpr (.inr (.inr rfl)))).1
  right _ _ := (join_precise.mp (precise_iff.mpr (.inr (.inr rfl)))).2
  least _ _ _ first second := join_precise.mpr ⟨first, second⟩
  bottom_least a := by cases a <;> rfl

/-- The states that the analysis works with. -/
def Proper (s : State) : Prop := Tuple.Over .bottom .top s

theorem lawfulOn : analysis.ops.LawfulOn Proper := Tuple.lawfulOn lawful

/-- What an instruction writes, if it writes anything. -/
def produced (s : State) : Instruction → Constant
  | .const _ value => ofOperand s value
  | .copy _ src => s.get src
  | .arith _ kind lhs rhs => fold kind (ofOperand s lhs) (ofOperand s rhs)
  | _ => .top

theorem produced_of_dereferenced {s : State} {i : Instruction} {x : String}
    (dereferences : i.dereferenced = some x) : produced s i = .top := by
  cases i with
  | load | store | call => rfl
  | new | copy | const | arith | compare | ret | nop => contradiction

theorem write_live {s : State} (live : s.isBottom = false) (i : Instruction) :
    write s i = .ok (s.assign i.defined (produced s i)) := by
  cases i with
  | call dst receiver method args =>
    cases dst with
    | none => rfl
    | some dst => exact Tuple.put_of_live live _ _
  | compare | store | ret | nop => rfl
  | new | copy | const | arith | load => exact Tuple.put_of_live live _ _

theorem pin_live {s : State} (live : s.isBottom = false) (cmp : Comparison) (x : String) (c : Constant) :
    pin s cmp x c = .ok (match cmp with
      | .eq => branches s (s.set x ((s.get x).meet c)) s
      | .ne => branches s s (s.set x ((s.get x).meet c))) := by
  simp only [pin, Tuple.put_of_live live, bind, Except.bind]
  cases cmp <;> rfl

theorem step_write {s : State} (live : s.isBottom = false) {i : Instruction}
    (other : ∀ cmp lhs rhs, i ≠ .compare cmp lhs rhs) :
    step s i = .ok (.single (s.assign i.defined (produced s i))) := by
  have wrote := write_live live i
  cases i with
  | compare cmp lhs rhs => exact absurd rfl (other cmp lhs rhs)
  | new | copy | const | arith | load | store | call | ret | nop =>
    simp [step, wrote, bind, Except.bind, pure, Except.pure]

theorem all_branches {holds : State → Prop} {s onTrue onFalse : State} (here : holds s)
    (whenTrue : holds onTrue) (whenFalse : holds onFalse) : (branches s onTrue onFalse).All holds :=
  Labeled.all_put (Labeled.all_put (Labeled.all_single here) whenTrue) whenFalse

theorem compare_proper {s : State} (proper : Proper s) (live : s.isBottom = false) (cmp : Comparison)
    (lhs rhs : Operand) {result : Labeled State} (compared : compare s cmp lhs rhs = .ok result) :
    result.All Proper := by
  have dead : Proper s.bottomLike := proper
  have single := Labeled.all_single proper
  have pinned (x : String) (c : Constant) (pin : Constant.pin s cmp x c = .ok result) :
      result.All Proper := by
    rw [pin_live live] at pin
    cases cmp <;> cases pin
    · exact all_branches proper (Tuple.set_over proper _ _) proper
    · exact all_branches proper proper (Tuple.set_over proper _ _)
  unfold compare at compared
  split at compared
  · cases compared
    exact all_branches dead dead dead
  · cases compared
    exact all_branches dead dead dead
  · split at compared
    · cases compared
      exact all_branches proper proper dead
    · cases compared
      exact all_branches proper dead proper
  · split at compared
    · exact pinned _ _ compared
    · cases compared; exact single
    · cases compared; exact single
  · split at compared
    · exact pinned _ _ compared
    · cases compared; exact single
    · cases compared; exact single
  · cases compared
    exact single

theorem transfer_ok {i : Instruction} {labels : List Label} {s : State} {result : Labeled State}
    (transferred : analysis.transfer i labels s = .ok result) :
    s.isBottom = true ∧ result = .single s ∨ s.isBottom = false ∧ step s i = .ok result :=
  guarded_ok transferred

theorem closed (g : Graph Instruction) : analysis.Closed g Proper where
  bottom := Tuple.over_dead _ _
  entry := Tuple.over_new _ _
  copy _ proper := proper
  join _ _ proper _ := Tuple.join_over proper
  transfer _ i s result _ proper transferred := by
    rcases transfer_ok transferred with ⟨_, rfl⟩ | ⟨live, stepped⟩
    · exact Labeled.all_single proper
    · by_cases comparison : ∃ cmp lhs rhs, i = .compare cmp lhs rhs
      · obtain ⟨cmp, lhs, rhs, rfl⟩ := comparison
        exact compare_proper proper live cmp lhs rhs stepped
      · have plain := step_write live fun cmp lhs rhs same => comparison ⟨cmp, lhs, rhs, same⟩
        cases plain.symm.trans stepped
        exact Labeled.all_single (Tuple.assign_over proper _ _)

end Constant

end Dataflow
