import Dataflow.Proofs.LeastSolution

/-! The transfer functions of the three clients never fail and are monotone on every label, whatever labels
leave the instruction. All that is asked of two tuples is a common fallback; it need not be that of the
client, and bottom may be stored in them. -/

namespace Dataflow

namespace Tuple

variable {κ α : Type} [DecidableEq κ] [LatticeElement α] {bottom fallback : α}

/-- Two elements are comparable only if they are equal or one of them is least or greatest. -/
structure Flat (bottom fallback : α) : Prop where
  proper : fallback ≠ bottom
  precise_iff : ∀ a b : α, LatticeElement.precise a b = true ↔ a = bottom ∨ b = fallback ∨ a = b

theorem Flat.eq_bottom (flat : Flat bottom fallback) {a : α}
    (below : LatticeElement.precise a bottom = true) : a = bottom := by
  rcases (flat.precise_iff a bottom).mp below with dead | top | dead
  · exact dead
  · exact absurd top.symm flat.proper
  · exact dead

theorem Flat.antisymm (flat : Flat bottom fallback) (a b : α)
    (below : LatticeElement.precise a b = true) (above : LatticeElement.precise b a = true) : a = b := by
  rcases (flat.precise_iff a b).mp below with rfl | rfl | same
  · exact (flat.eq_bottom above).symm
  · rcases (flat.precise_iff b a).mp above with dead | top | same
    · exact absurd dead flat.proper
    · exact top
    · exact same.symm
  · exact same

/-- Equivalent tuples hold the same, whatever they store. -/
theorem Flat.same (flat : Flat bottom fallback) (lawful : (LatticeOps.ofElement bottom).Lawful)
    {s t : Tuple κ α} (overS : Over bottom fallback s) (overT : Over bottom fallback t)
    (equivalent : LatticeElement.equivalent s t = true) : s.Same t := by
  obtain ⟨below, above⟩ := Bool.and_eq_true_iff.mp equivalent
  exact same_of_precise lawful overS overT flat.antisymm below above

theorem bottomLike_precise (s t : Tuple κ α) : s.bottomLike.precise t = true := by
  simp [precise, isBottom, bottomLike]

/-- Neither tuple is dead, and the first is at least as precise under every key. -/
structure Below (s t : Tuple κ α) : Prop where
  left : s.isBottom = false
  right : t.isBottom = false
  pointwise : ∀ k, LatticeElement.precise (s.get k) (t.get k) = true

theorem Below.precise {s t : Tuple κ α} (below : s.Below t) : s.precise t = true := by
  simp only [Tuple.precise, below.left, below.right, Bool.false_eq_true, if_false, List.all_eq_true]
  exact fun k _ => below.pointwise k

theorem precise_self (refl : ∀ x : α, LatticeElement.precise x x = true) {s : Tuple κ α}
    (live : s.isBottom = false) : s.precise s = true :=
  Below.precise ⟨live, live, fun k => refl (s.get k)⟩

theorem Below.assign {s t : Tuple κ α} (below : s.Below t) (k : Option κ) {v w : α}
    (values : LatticeElement.precise v w = true) : (s.assign k v).Below (t.assign k w) := by
  refine ⟨(isBottom_assign s k v).trans below.left, (isBottom_assign t k w).trans below.right, ?_⟩
  intro j
  rw [get_assign below.left, get_assign below.right]
  split
  · exact values
  · exact below.pointwise j

end Tuple

section

variable {κ α : Type} {s : Tuple κ α} {outcome : Except TupleFault (Labeled (Tuple κ α))}

/-- A transfer function that leaves the bottom tuple alone fails only where it is refused elsewhere. -/
theorem guarded_total (total : s.isBottom = false → ∃ result, outcome = .ok result) :
    ∃ result, (if s.isBottom then .ok (.single s) else outcome) =
      Except.ok result := by
  cases live : s.isBottom with
  | true => exact ⟨_, rfl⟩
  | false =>
    obtain ⟨result, rfl⟩ := total live
    exact ⟨result, rfl⟩

variable [DecidableEq κ] [LatticeElement α] {t : Tuple κ α}
  {outcome' : Except TupleFault (Labeled (Tuple κ α))} {before after : Labeled (Tuple κ α)}

/-- Such a function is monotone if it is so on the tuples that are reached. -/
theorem guarded_mono (refl : ∀ x : α, LatticeElement.precise x x = true) (shared : s.fallback = t.fallback)
    (precise : s.precise t = true)
    (first : (if s.isBottom then .ok (.single s) else outcome) = .ok before)
    (second : (if t.isBottom then .ok (.single t) else outcome') = .ok after)
    (live : s.Below t → outcome = .ok before → outcome' = .ok after →
      ∀ label, (before.get label).precise (after.get label) = true) (label : Label) :
    (before.get label).precise (after.get label) = true := by
  rcases guarded_ok first with ⟨dead, rfl⟩ | ⟨liveS, stepS⟩
  · simp [Tuple.precise, dead]
  · rcases guarded_ok second with ⟨dead, _⟩ | ⟨liveT, stepT⟩
    · simp [Tuple.precise, liveS, dead] at precise
    · have pointwise := (Tuple.precise_iff_of_live refl liveS liveT shared).mp precise
      exact live ⟨liveS, liveT, pointwise⟩ stepS stepT label

end

namespace Nullness

/-- The meet is a greatest lower bound. -/
theorem precise_meet {a b c : Nullness} :
    precise c (a.meet b) = true ↔ precise c a = true ∧ precise c b = true := by
  cases a <;> cases b <;> cases c <;> decide

theorem meet_precise (a b : Nullness) : precise (a.meet b) a = true ∧ precise (a.meet b) b = true :=
  precise_meet.mp (lawful.refl (a.meet b))

theorem meet_mono {a b : Nullness} (below : precise a b = true) (c : Nullness) :
    precise (a.meet c) (b.meet c) = true := by
  obtain ⟨left, right⟩ := meet_precise a c
  exact precise_meet.mpr ⟨lawful.trans _ _ _ left below, right⟩

theorem flat : Tuple.Flat Nullness.bottom Nullness.maybeNull := ⟨by simp, fun _ _ => precise_iff⟩

section

variable {s t : State} (below : s.Below t)

include below

theorem produced_mono (i : Instruction) : precise (produced s i) (produced t i) = true := by
  cases i with
  | copy dst src => exact below.pointwise src
  | const dst value =>
    cases value with
    | null | int => rfl
    | var name => exact below.pointwise name
  | new | arith | compare | load | store | call | ret | nop => rfl

theorem set_meet_below (x : String) (value : Nullness) :
    (s.set x ((s.get x).meet value)).Below (t.set x ((t.get x).meet value)) :=
  below.assign (some x) (meet_mono (below.pointwise x) value)

/-- A refinement that kills the larger state kills the smaller one. -/
theorem meet_eq_bottom (x : String) {value : Nullness} (dies : (t.get x).meet value = .bottom) :
    (s.get x).meet value = .bottom :=
  flat.eq_bottom (dies ▸ meet_mono (below.pointwise x) value)

theorem assumed_mono (x : String) (value : Nullness) :
    (assumed s x value).precise (assumed t x value) = true := by
  unfold assumed
  by_cases diesS : (s.get x).meet value = .bottom
  · rw [if_pos diesS]
    exact Tuple.bottomLike_precise _ _
  · have survives : (t.get x).meet value ≠ .bottom := fun diesT => diesS (meet_eq_bottom below x diesT)
    rw [if_neg diesS, if_neg survives]
    exact (set_meet_below below x value).precise

theorem completed_mono (i : Instruction) (x : String) :
    (completed s i x).precise (completed t i x) = true := by
  simp only [completed]
  by_cases diesS : (s.get x).meet .notNull = .bottom
  · rw [if_pos diesS]
    exact Tuple.bottomLike_precise _ _
  · have survives : (t.get x).meet .notNull ≠ .bottom := fun diesT => diesS (meet_eq_bottom below x diesT)
    rw [if_neg diesS, if_neg survives]
    have refined := set_meet_below below x .notNull
    exact (refined.assign i.defined (produced_mono refined i)).precise

end

/-- An assumption only adds to what is known. -/
theorem assumed_precise {s : State} (live : s.isBottom = false) (x : String) (value : Nullness) :
    (assumed s x value).precise s = true := by
  unfold assumed
  split
  · exact Tuple.bottomLike_precise _ _
  · refine Tuple.Below.precise ⟨by simpa using live, live, fun k => ?_⟩
    rw [Tuple.get_set live]
    split
    · rename_i same
      exact same ▸ (meet_precise _ _).1
    · exact lawful.refl _

/-- The variable that a comparison tests against null, on either side. -/
def tested : Operand → Operand → Option String
  | .var x, .null | .null, .var x => some x
  | _, _ => none

theorem compare_live {s : State} (live : s.isBottom = false) (cmp : Comparison) (lhs rhs : Operand) :
    compare s cmp lhs rhs = .ok ((tested lhs rhs).elim (.single s) (compared s cmp)) := by
  cases lhs with
  | var x =>
    cases rhs with
    | null => exact split_live live cmp x
    | var | int => rfl
  | null =>
    cases rhs with
    | var x => exact split_live live cmp x
    | null | int => rfl
  | int => rfl

/-- What an instruction makes of a state that is reached. -/
def stepped (s : State) (labels : List Label) (i : Instruction) : Labeled State :=
  match i.dereferenced with
  | some x =>
    if labels.contains .exceptional then (Labeled.single (completed s i x)).put .exceptional s
    else .single (completed s i x)
  | none =>
    match i with
    | .compare cmp lhs rhs => (tested lhs rhs).elim (.single s) (compared s cmp)
    | _ => .single (s.assign i.defined (produced s i))

theorem step_eq {s : State} (live : s.isBottom = false) (labels : List Label) (i : Instruction) :
    step s labels i = .ok (stepped s labels i) := by
  unfold stepped
  split
  · rename_i dereferences
    exact step_dereference live labels dereferences
  · rename_i plain
    split
    · exact compare_live live _ _ _
    · rename_i other
      exact step_write live labels plain other

theorem stepped_mono {s t : State} (below : s.Below t) (labels : List Label) (i : Instruction)
    (label : Label) :
    ((stepped s labels i).get label).precise ((stepped t labels i).get label) = true := by
  unfold stepped
  split
  · rename_i x _
    have completes := completed_mono below i x
    split
    · rw [Labeled.get_put, Labeled.get_put]
      split
      · exact below.precise
      · exact completes
    · exact completes
  · split
    · rename_i cmp lhs rhs _
      cases tested lhs rhs with
      | none => exact below.precise
      | some x =>
        simp only [Option.elim_some, compared, Labeled.get_put]
        split
        · exact assumed_mono below x _
        · split
          · exact assumed_mono below x _
          · exact below.precise
    · exact (below.assign i.defined (produced_mono below i)).precise

theorem transfer_live {s : State} (live : s.isBottom = false) (labels : List Label) (i : Instruction) :
    analysis.transfer i labels s = .ok (stepped s labels i) :=
  guarded_live live (step_eq live labels i)

theorem transfer_total (i : Instruction) (labels : List Label) (s : State) :
    ∃ result, analysis.transfer i labels s = .ok result :=
  guarded_total fun live => ⟨_, step_eq live labels i⟩

theorem transfer_mono {i : Instruction} {labels : List Label} {s t : State}
    (shared : s.fallback = t.fallback) (precise : s.precise t = true) {before after : Labeled State}
    (first : analysis.transfer i labels s = .ok before)
    (second : analysis.transfer i labels t = .ok after) (label : Label) :
    (before.get label).precise (after.get label) = true := by
  refine guarded_mono lawful.refl shared precise first second ?_ label
  intro below stepS stepT
  cases (step_eq below.left labels i).symm.trans stepS
  cases (step_eq below.right labels i).symm.trans stepT
  exact stepped_mono below labels i

theorem monotone (g : Graph Instruction) : analysis.MonotoneOn g Proper :=
  fun _ _ _ _ _ _ _ properS properT precise first second label _ =>
    transfer_mono (properS.shares properT) precise first second label

end Nullness

namespace Constant

/-- The meet is a greatest lower bound. -/
theorem precise_meet {a b c : Constant} :
    precise c (a.meet b) = true ↔ precise c a = true ∧ precise c b = true := by
  cases a with
  | bottom => cases b <;> cases c <;> simp [meet, precise]
  | top => cases c <;> simp [meet, precise]
  | known a =>
    cases b with
    | bottom => cases c <;> simp [meet, precise]
    | top => cases c <;> simp [meet, precise]
    | known b =>
      by_cases same : a = b
      · simp [meet, same]
      · cases c <;> simp [meet, same, precise]
        grind

theorem meet_precise (a b : Constant) : precise (a.meet b) a = true ∧ precise (a.meet b) b = true :=
  precise_meet.mp (lawful.refl (a.meet b))

theorem meet_mono {a a' b b' : Constant} (first : precise a a' = true) (second : precise b b' = true) :
    precise (a.meet b) (a'.meet b') = true := by
  obtain ⟨left, right⟩ := meet_precise a b
  exact precise_meet.mpr ⟨lawful.trans _ _ _ left first, lawful.trans _ _ _ right second⟩

theorem flat : Tuple.Flat Constant.bottom Constant.top := ⟨by simp, fun _ _ => precise_iff⟩

/-! A comparison, read off one branch at a time. -/

/-- The state on the branch that finds its operands equal: an operand that is a variable takes the known
value of the other. -/
def ifEqual (s : State) (lhs rhs : Operand) : State :=
  match ofOperand s lhs, ofOperand s rhs with
  | .bottom, _ | _, .bottom => s.bottomLike
  | .known l, .known r => if l = r then s else s.bottomLike
  | .top, .known r => s.assign lhs.var? (.known r)
  | .known l, .top => s.assign rhs.var? (.known l)
  | .top, .top => s

/-- Whether no values of the operands can differ. -/
def NeverDiffer (l r : Constant) : Prop := l = .bottom ∨ r = .bottom ∨ ∃ n, l = .known n ∧ r = .known n

instance (l r : Constant) : Decidable (NeverDiffer l r) :=
  match l, r with
  | .bottom, _ => isTrue (.inl rfl)
  | _, .bottom => isTrue (.inr (.inl rfl))
  | .known l, .known r => decidable_of_iff (l = r) (by simp [NeverDiffer, eq_comm])
  | .known l, .top => isFalse (by simp [NeverDiffer])
  | .top, .known r => isFalse (by simp [NeverDiffer])
  | .top, .top => isFalse (by simp [NeverDiffer])

def ifDifferent (s : State) (lhs rhs : Operand) : State :=
  if NeverDiffer (ofOperand s lhs) (ofOperand s rhs) then s.bottomLike else s

/-- The state on an edge that is neither branch. -/
def ifEither (s : State) (lhs rhs : Operand) : State :=
  if ofOperand s lhs = .bottom ∨ ofOperand s rhs = .bottom then s.bottomLike else s

def outcome (s : State) (cmp : Comparison) (lhs rhs : Operand) : Label → State
  | .whenTrue => match cmp with
    | .eq => ifEqual s lhs rhs
    | .ne => ifDifferent s lhs rhs
  | .whenFalse => match cmp with
    | .eq => ifDifferent s lhs rhs
    | .ne => ifEqual s lhs rhs
  | .normal | .exceptional => ifEither s lhs rhs

/-- What a comparison computes, whatever is stored of it: its base value and its value on each label. -/
def Computes (result : Labeled State) (s : State) (cmp : Comparison) (lhs rhs : Operand) : Prop :=
  result.base = ifEither s lhs rhs ∧ ∀ label, result.get label = outcome s cmp lhs rhs label

theorem branches_computes {s base onTrue onFalse : State} {cmp : Comparison} {lhs rhs : Operand}
    (either : base = ifEither s lhs rhs) (isTrue : onTrue = outcome s cmp lhs rhs .whenTrue)
    (isFalse : onFalse = outcome s cmp lhs rhs .whenFalse) :
    Computes (branches base onTrue onFalse) s cmp lhs rhs := by
  refine ⟨either, fun label => ?_⟩
  rw [branches, Labeled.get_put, Labeled.get_put]
  cases label with
  | whenTrue => exact isTrue
  | whenFalse => exact isFalse
  | normal | exceptional => exact either

/-- A pinned variable takes the value on the branch that finds equality, and nothing changes elsewhere. -/
theorem pin_computes {s : State} (live : s.isBottom = false) {cmp : Comparison} {lhs rhs : Operand}
    {x : String} {n : Int64} (unknown : s.get x = .top) (either : ifEither s lhs rhs = s)
    (different : ifDifferent s lhs rhs = s) (equal : ifEqual s lhs rhs = s.assign (some x) (.known n)) :
    ∃ result, pin s cmp x (.known n) = .ok result ∧ Computes result s cmp lhs rhs := by
  rw [pin_live live, unknown]
  cases cmp with
  | eq => exact ⟨_, rfl, branches_computes either.symm equal.symm different.symm⟩
  | ne => exact ⟨_, rfl, branches_computes either.symm different.symm equal.symm⟩

theorem single_computes {s : State} {cmp : Comparison} {lhs rhs : Operand} (either : ifEither s lhs rhs = s)
    (different : ifDifferent s lhs rhs = s) (equal : ifEqual s lhs rhs = s) :
    Computes (.single s) s cmp lhs rhs := by
  refine ⟨either.symm, fun label => ?_⟩
  cases label <;> cases cmp <;> simp [outcome, either, different, equal]

/-- An operand without a value leaves nothing of any branch. -/
theorem dead_computes {s : State} {cmp : Comparison} {lhs rhs : Operand}
    (dead : ofOperand s lhs = .bottom ∨ ofOperand s rhs = .bottom) :
    Computes (branches s.bottomLike s.bottomLike s.bottomLike) s cmp lhs rhs := by
  have either : ifEither s lhs rhs = s.bottomLike := if_pos dead
  have different : ifDifferent s lhs rhs = s.bottomLike :=
    if_pos (dead.elim .inl fun right => .inr (.inl right))
  have equal : ifEqual s lhs rhs = s.bottomLike := by
    unfold ifEqual
    rcases dead with left | right
    · simp [left]
    · cases left : ofOperand s lhs <;> simp [right]
  cases cmp with
  | eq => exact branches_computes either.symm equal.symm different.symm
  | ne => exact branches_computes either.symm different.symm equal.symm

/-- Two known integers decide the comparison. -/
theorem decided_computes {s : State} {cmp : Comparison} {lhs rhs : Operand} {l r : Int64}
    (left : ofOperand s lhs = .known l) (right : ofOperand s rhs = .known r) :
    Computes (if decide (l = r) = decide (cmp = .eq) then branches s s s.bottomLike
      else branches s s.bottomLike s) s cmp lhs rhs := by
  have either : ifEither s lhs rhs = s := by simp [ifEither, left, right]
  have equal : ifEqual s lhs rhs = if l = r then s else s.bottomLike := by simp [ifEqual, left, right]
  have different : ifDifferent s lhs rhs = if l = r then s.bottomLike else s := by
    simp [ifDifferent, NeverDiffer, left, right, eq_comm]
  by_cases same : l = r
  · rw [if_pos same] at equal different
    cases cmp with
    | eq => simpa [same] using branches_computes either.symm equal.symm different.symm
    | ne => simpa [same] using branches_computes either.symm different.symm equal.symm
  · rw [if_neg same] at equal different
    cases cmp with
    | eq => simpa [same] using branches_computes either.symm equal.symm different.symm
    | ne => simpa [same] using branches_computes either.symm different.symm equal.symm

theorem compare_computes {s : State} (live : s.isBottom = false) (cmp : Comparison) (lhs rhs : Operand) :
    ∃ result, compare s cmp lhs rhs = .ok result ∧ Computes result s cmp lhs rhs := by
  unfold compare
  cases left : ofOperand s lhs with
  | bottom => exact ⟨_, rfl, dead_computes (.inl left)⟩
  | known l =>
    cases right : ofOperand s rhs with
    | bottom => exact ⟨_, rfl, dead_computes (.inr right)⟩
    | known r => exact ⟨_, (apply_ite Except.ok _ _ _).symm, decided_computes left right⟩
    | top =>
      have either : ifEither s lhs rhs = s := by simp [ifEither, left, right]
      have different : ifDifferent s lhs rhs = s := by simp [ifDifferent, NeverDiffer, left, right]
      have equal : ifEqual s lhs rhs = s.assign rhs.var? (.known l) := by simp [ifEqual, left, right]
      cases rhs with
      | var x => exact pin_computes live right either different equal
      | null => exact ⟨_, rfl, single_computes either different equal⟩
      | int n => cases right
  | top =>
    have different : ofOperand s rhs ≠ .bottom → ifDifferent s lhs rhs = s := by
      intro alive
      simp [ifDifferent, NeverDiffer, left, alive]
    have either : ofOperand s rhs ≠ .bottom → ifEither s lhs rhs = s := by
      intro alive
      simp [ifEither, left, alive]
    cases right : ofOperand s rhs with
    | bottom => exact ⟨_, rfl, dead_computes (.inr right)⟩
    | known r =>
      have equal : ifEqual s lhs rhs = s.assign lhs.var? (.known r) := by simp [ifEqual, left, right]
      cases lhs with
      | var x => exact pin_computes live left (either (by simp [right])) (different (by simp [right])) equal
      | null =>
        exact ⟨_, rfl, single_computes (either (by simp [right])) (different (by simp [right])) equal⟩
      | int n => cases left
    | top =>
      have equal : ifEqual s lhs rhs = s := by simp [ifEqual, left, right]
      exact ⟨_, rfl, single_computes (either (by simp [right])) (different (by simp [right])) equal⟩

theorem ofOperand_of_var {s : State} {operand : Operand} {k : String} (named : some k = operand.var?) :
    ofOperand s operand = s.get k := by
  cases operand with
  | null | int => cases named
  | var x =>
    cases named
    rfl

theorem ofOperand_ne_bottom {s : State} (alive : ∀ k, s.get k ≠ .bottom) (operand : Operand) :
    ofOperand s operand ≠ .bottom := by
  cases operand with
  | null | int => simp [ofOperand]
  | var x => exact alive x

/-- Where the operands can be equal, both have their meet for value. -/
theorem ifEqual_possible {s : State} (live : s.isBottom = false) {lhs rhs : Operand}
    (possible : (ofOperand s lhs).meet (ofOperand s rhs) ≠ .bottom) :
    (ifEqual s lhs rhs).isBottom = false ∧ ∀ k, (ifEqual s lhs rhs).get k =
      if some k = lhs.var? ∨ some k = rhs.var? then (ofOperand s lhs).meet (ofOperand s rhs)
      else s.get k := by
  have ofLeft {k : String} (named : some k = lhs.var?) := ofOperand_of_var (s := s) named
  have ofRight {k : String} (named : some k = rhs.var?) := ofOperand_of_var (s := s) named
  unfold ifEqual
  cases left : ofOperand s lhs with
  | bottom => cases right : ofOperand s rhs <;> simp [left, right, meet] at possible
  | known l =>
    cases right : ofOperand s rhs with
    | bottom => simp [left, right, meet] at possible
    | known r =>
      by_cases same : l = r
      · refine ⟨by simp [same, live], fun k => ?_⟩
        simp only [same, meet, if_true]
        grind
      · simp [left, right, meet, same] at possible
    | top =>
      refine ⟨by simp [live], fun k => ?_⟩
      simp only [Tuple.get_assign live, meet]
      grind
  | top =>
    cases right : ofOperand s rhs with
    | bottom => simp [left, right, meet] at possible
    | known r =>
      refine ⟨by simp [live], fun k => ?_⟩
      simp only [Tuple.get_assign live, meet]
      grind
    | top =>
      refine ⟨live, fun k => ?_⟩
      simp only [meet]
      grind

theorem ifEqual_impossible {s : State} {lhs rhs : Operand}
    (impossible : (ofOperand s lhs).meet (ofOperand s rhs) = .bottom) :
    ifEqual s lhs rhs = s.bottomLike := by
  unfold ifEqual
  cases left : ofOperand s lhs with
  | bottom => rfl
  | known l =>
    cases right : ofOperand s rhs with
    | bottom => rfl
    | known r =>
      have differ : l ≠ r := by
        rintro rfl
        simp [left, right, meet] at impossible
      exact if_neg differ
    | top => simp [left, right, meet] at impossible
  | top =>
    cases right : ofOperand s rhs with
    | bottom => rfl
    | known r => simp [left, right, meet] at impossible
    | top => simp [left, right, meet] at impossible

theorem fold_bottom (op : ArithOp) (l : Constant) : fold op l .bottom = .bottom := by
  cases l <;> rfl

theorem fold_top {r : Constant} (op : ArithOp) (alive : r ≠ .bottom) :
    fold op .top r = .top ∧ fold op r .top = .top := by
  cases r with
  | bottom => contradiction
  | known | top => exact ⟨rfl, rfl⟩

theorem fold_mono {l l' r r' : Constant} (op : ArithOp) (first : precise l l' = true)
    (second : precise r r' = true) : precise (fold op l r) (fold op l' r') = true := by
  by_cases deadL : l = .bottom
  · subst deadL
    exact precise_iff.mpr (.inl rfl)
  by_cases deadR : r = .bottom
  · subst deadR
    exact precise_iff.mpr (.inl (fold_bottom op l))
  have aliveL : l' ≠ .bottom := fun dead => deadL (flat.eq_bottom (dead ▸ first))
  have aliveR : r' ≠ .bottom := fun dead => deadR (flat.eq_bottom (dead ▸ second))
  -- Neither side is dead, so the larger operands are those of the smaller fold or one of them is unknown.
  rcases precise_iff.mp first with dead | rfl | rfl
  · contradiction
  · exact precise_iff.mpr (.inr (.inl (fold_top op aliveR).1))
  · rcases precise_iff.mp second with dead | rfl | rfl
    · contradiction
    · exact precise_iff.mpr (.inr (.inl (fold_top op aliveL).2))
    · exact precise_iff.mpr (.inr (.inr rfl))

section

variable {s t : State} (below : s.Below t)

include below

theorem ofOperand_mono (operand : Operand) :
    precise (ofOperand s operand) (ofOperand t operand) = true := by
  cases operand with
  | null | int => exact precise_iff.mpr (.inr (.inr rfl))
  | var x => exact below.pointwise x

theorem ifEqual_mono (lhs rhs : Operand) : (ifEqual s lhs rhs).precise (ifEqual t lhs rhs) = true := by
  have meets := meet_mono (ofOperand_mono below lhs) (ofOperand_mono below rhs)
  by_cases impossible : (ofOperand s lhs).meet (ofOperand s rhs) = .bottom
  · rw [ifEqual_impossible impossible]
    exact Tuple.bottomLike_precise _ _
  · have possible : (ofOperand t lhs).meet (ofOperand t rhs) ≠ .bottom := fun dies =>
      impossible (flat.eq_bottom (dies ▸ meets))
    obtain ⟨aliveS, getS⟩ := ifEqual_possible below.left impossible
    obtain ⟨aliveT, getT⟩ := ifEqual_possible below.right possible
    refine Tuple.Below.precise ⟨aliveS, aliveT, fun k => ?_⟩
    rw [getS, getT]
    split
    · exact meets
    · exact below.pointwise k

/-- What cannot differ in the larger state cannot in the smaller one. -/
theorem neverDiffer_mono {lhs rhs : Operand} (never : NeverDiffer (ofOperand t lhs) (ofOperand t rhs)) :
    NeverDiffer (ofOperand s lhs) (ofOperand s rhs) := by
  have left := precise_iff.mp (ofOperand_mono below lhs)
  have right := precise_iff.mp (ofOperand_mono below rhs)
  unfold NeverDiffer at *
  grind

theorem ifDifferent_mono (lhs rhs : Operand) :
    (ifDifferent s lhs rhs).precise (ifDifferent t lhs rhs) = true := by
  unfold ifDifferent
  by_cases never : NeverDiffer (ofOperand s lhs) (ofOperand s rhs)
  · rw [if_pos never]
    exact Tuple.bottomLike_precise _ _
  · rw [if_neg never, if_neg fun above => never (neverDiffer_mono below above)]
    exact below.precise

theorem ifEither_mono (lhs rhs : Operand) : (ifEither s lhs rhs).precise (ifEither t lhs rhs) = true := by
  have left := ofOperand_mono below lhs
  have right := ofOperand_mono below rhs
  unfold ifEither
  by_cases dead : ofOperand s lhs = .bottom ∨ ofOperand s rhs = .bottom
  · rw [if_pos dead]
    exact Tuple.bottomLike_precise _ _
  · have alive : ¬(ofOperand t lhs = .bottom ∨ ofOperand t rhs = .bottom) := by
      rintro (above | above)
      · exact dead (.inl (flat.eq_bottom (above ▸ left)))
      · exact dead (.inr (flat.eq_bottom (above ▸ right)))
    rw [if_neg dead, if_neg alive]
    exact below.precise

theorem outcome_mono (cmp : Comparison) (lhs rhs : Operand) (label : Label) :
    (outcome s cmp lhs rhs label).precise (outcome t cmp lhs rhs label) = true := by
  have equal := ifEqual_mono below lhs rhs
  have different := ifDifferent_mono below lhs rhs
  cases label with
  | whenTrue => cases cmp <;> assumption
  | whenFalse => cases cmp <;> assumption
  | normal | exceptional => exact ifEither_mono below lhs rhs

theorem produced_mono (i : Instruction) : precise (produced s i) (produced t i) = true := by
  have operand := ofOperand_mono below
  cases i with
  | copy dst src => exact operand (.var src)
  | const dst value => exact operand value
  | arith dst kind lhs rhs => exact fold_mono kind (operand lhs) (operand rhs)
  | new | compare | load | store | call | ret | nop => rfl

end

theorem step_total {s : State} (live : s.isBottom = false) (i : Instruction) :
    ∃ result, step s i = .ok result := by
  by_cases comparison : ∃ cmp lhs rhs, i = .compare cmp lhs rhs
  · obtain ⟨cmp, lhs, rhs, rfl⟩ := comparison
    obtain ⟨result, compared, _⟩ := compare_computes live cmp lhs rhs
    exact ⟨result, compared⟩
  · exact ⟨_, step_write live fun cmp lhs rhs same => comparison ⟨cmp, lhs, rhs, same⟩⟩

theorem step_mono {s t : State} (below : s.Below t) {i : Instruction} {before after : Labeled State}
    (first : step s i = .ok before) (second : step t i = .ok after) (label : Label) :
    (before.get label).precise (after.get label) = true := by
  by_cases comparison : ∃ cmp lhs rhs, i = .compare cmp lhs rhs
  · obtain ⟨cmp, lhs, rhs, rfl⟩ := comparison
    obtain ⟨result, compared, _, values⟩ := compare_computes below.left cmp lhs rhs
    obtain ⟨result', compared', _, values'⟩ := compare_computes below.right cmp lhs rhs
    cases compared.symm.trans first
    cases compared'.symm.trans second
    rw [values, values']
    exact outcome_mono below cmp lhs rhs label
  · have other : ∀ cmp lhs rhs, i ≠ .compare cmp lhs rhs := fun cmp lhs rhs same =>
      comparison ⟨cmp, lhs, rhs, same⟩
    cases (step_write below.left other).symm.trans first
    cases (step_write below.right other).symm.trans second
    exact (below.assign i.defined (produced_mono below i)).precise

theorem transfer_total (i : Instruction) (labels : List Label) (s : State) :
    ∃ result, analysis.transfer i labels s = .ok result :=
  guarded_total fun live => step_total live i

theorem transfer_mono {i : Instruction} {labels : List Label} {s t : State}
    (shared : s.fallback = t.fallback) (precise : s.precise t = true) {before after : Labeled State}
    (first : analysis.transfer i labels s = .ok before)
    (second : analysis.transfer i labels t = .ok after) (label : Label) :
    (before.get label).precise (after.get label) = true := by
  refine guarded_mono lawful.refl shared precise first second ?_ label
  exact fun below stepS stepT => step_mono below stepS stepT

theorem monotone (g : Graph Instruction) : analysis.MonotoneOn g Proper :=
  fun _ _ _ _ _ _ _ properS properT precise first second label _ =>
    transfer_mono (properS.shares properT) precise first second label

end Constant

/-- Both values are transferred, and the first gives the more precise result on every label, whether or not
an edge carries it. -/
def Analysis.MonotoneAt {I α ε : Type} (a : Analysis I α ε) (i : I) (labels : List Label) (x y : α) : Prop :=
  ∃ before after, a.transfer i labels x = .ok before ∧ a.transfer i labels y = .ok after ∧
    ∀ label, a.ops.precise (before.get label) (after.get label) = true

/-- The transfer functions of the clients are monotone in the state, with the bottom tuple and stored
bottoms allowed. -/
theorem transfers_monotone (i : Instruction) (labels : List Label) :
    (∀ s t : Nullness.State, s.fallback = t.fallback → s.precise t = true →
      Nullness.analysis.MonotoneAt i labels s t) ∧
    (∀ s t : Constant.State, s.fallback = t.fallback → s.precise t = true →
      Constant.analysis.MonotoneAt i labels s t) ∧
    (∀ x y : LiveSet, x.subset y = true → Liveness.analysis.MonotoneAt i labels x y) := by
  refine ⟨?_, ?_, ?_⟩
  · intro s t shared precise
    obtain ⟨before, first⟩ := Nullness.transfer_total i labels s
    obtain ⟨after, second⟩ := Nullness.transfer_total i labels t
    exact ⟨before, after, first, second, Nullness.transfer_mono shared precise first second⟩
  · intro s t shared precise
    obtain ⟨before, first⟩ := Constant.transfer_total i labels s
    obtain ⟨after, second⟩ := Constant.transfer_total i labels t
    exact ⟨before, after, first, second, Constant.transfer_mono shared precise first second⟩
  · intro x y subset
    exact ⟨_, _, rfl, rfl, fun _ => Liveness.through_mono i subset⟩

/-- A state that stores bottom below one whose receiver is null, and a known operand below an unknown one:
on either side of each pair another branch of the transfer function is taken. -/
theorem transfers_monotone_apart :
    Nullness.analysis.MonotoneAt (.load "y" "x" "f") [.normal, .exceptional]
        ((Tuple.new .bottom .maybeNull).set "x" .bottom) ((Tuple.new .bottom .maybeNull).set "x" .null) ∧
      Constant.analysis.MonotoneAt (.compare .ne (.var "x") (.int 4)) [.whenTrue]
        ((Tuple.new .bottom .top).set "x" (.known 3)) (Tuple.new .bottom .top) ∧
      Liveness.analysis.MonotoneAt (.copy "x" "y") [] (.ofList ["x"]) (.ofList ["z", "x"]) :=
  ⟨(transfers_monotone _ _).1 _ _ rfl (by decide), (transfers_monotone _ _).2.1 _ _ rfl (by decide),
    (transfers_monotone _ _).2.2 _ _ (by decide +kernel)⟩

end Dataflow
