import Dataflow.Lattice

/-! Laws of lattice operations. A client may keep to some of the values of its type, so each law is also
stated for the values of a carrier. -/

namespace Dataflow.LatticeOps

variable {α : Type} {ops : LatticeOps α} {carrier : α → Prop}

/-- Change detection that can be relied on: `equivalent` is an equivalence relation, `join` respects it and a
copy is the value itself. -/
structure Congruent (ops : LatticeOps α) : Prop where
  copy : ∀ x, ops.copy x = x
  equivalence : Equivalence fun x y => ops.equivalent x y = true
  join : ∀ x x' y y', ops.equivalent x x' = true → ops.equivalent y y' = true →
    ops.equivalent (ops.join x y) (ops.join x' y') = true

structure CongruentOn (ops : LatticeOps α) (carrier : α → Prop) : Prop where
  copy : ∀ x, carrier x → ops.copy x = x
  refl : ∀ x, carrier x → ops.equivalent x x = true
  symm : ∀ x y, carrier x → carrier y → ops.equivalent x y = true → ops.equivalent y x = true
  trans : ∀ x y z, carrier x → carrier y → carrier z → ops.equivalent x y = true →
    ops.equivalent y z = true → ops.equivalent x z = true
  join : ∀ x x' y y', carrier x → carrier x' → carrier y → carrier y' → ops.equivalent x x' = true →
    ops.equivalent y y' = true → ops.equivalent (ops.join x y) (ops.join x' y') = true

theorem Congruent.on (congruent : ops.Congruent) : ops.CongruentOn fun _ => True where
  copy x _ := congruent.copy x
  refl x _ := congruent.equivalence.refl x
  symm _ _ _ _ same := congruent.equivalence.symm same
  trans _ _ _ _ _ _ first second := congruent.equivalence.trans first second
  join x x' y y' _ _ _ _ := congruent.join x x' y y'

/-- A join-semilattice on the values of a carrier that `join` does not leave. -/
structure LawfulOn (ops : LatticeOps α) (carrier : α → Prop) : Prop where
  copy : ∀ x, carrier x → ops.copy x = x
  closed : ∀ x y, carrier x → carrier y → carrier (ops.join x y)
  refl : ∀ x, carrier x → ops.precise x x = true
  trans : ∀ x y z, carrier x → carrier y → carrier z → ops.precise x y = true →
    ops.precise y z = true → ops.precise x z = true
  equivalent_iff : ∀ x y, carrier x → carrier y →
    (ops.equivalent x y = true ↔ ops.precise x y = true ∧ ops.precise y x = true)
  left : ∀ x y, carrier x → carrier y → ops.precise x (ops.join x y) = true
  right : ∀ x y, carrier x → carrier y → ops.precise y (ops.join x y) = true
  least : ∀ x y z, carrier x → carrier y → carrier z → ops.precise x z = true →
    ops.precise y z = true → ops.precise (ops.join x y) z = true
  bottom_least : ∀ x, carrier x → ops.precise ops.bottom x = true

theorem Lawful.on (lawful : ops.Lawful) : ops.LawfulOn fun _ => True where
  copy x _ := lawful.copy x
  closed _ _ _ _ := trivial
  refl x _ := lawful.refl x
  trans x y z _ _ _ := lawful.trans x y z
  equivalent_iff x y _ _ := lawful.equivalent_iff x y
  left x y _ _ := lawful.left x y
  right x y _ _ := lawful.right x y
  least x y z _ _ _ := lawful.least x y z
  bottom_least x _ := lawful.bottom_least x

theorem LawfulOn.join_mono (lawful : ops.LawfulOn carrier) {x x' y y' : α} (inX : carrier x)
    (inX' : carrier x') (inY : carrier y) (inY' : carrier y') (first : ops.precise x x' = true)
    (second : ops.precise y y' = true) : ops.precise (ops.join x y) (ops.join x' y') = true := by
  have inJoin := lawful.closed x' y' inX' inY'
  apply lawful.least x y _ inX inY inJoin
  · exact lawful.trans x x' _ inX inX' inJoin first (lawful.left x' y' inX' inY')
  · exact lawful.trans y y' _ inY inY' inJoin second (lawful.right x' y' inX' inY')

/-- Joining a value with one above it gives the latter, on either side. -/
theorem LawfulOn.join_of_precise (lawful : ops.LawfulOn carrier) {x y : α} (inX : carrier x)
    (inY : carrier y) (below : ops.precise x y = true) :
    ops.equivalent (ops.join x y) y = true ∧ ops.equivalent (ops.join y x) y = true := by
  have self := lawful.refl y inY
  constructor
  · exact (lawful.equivalent_iff _ _ (lawful.closed x y inX inY) inY).mpr
      ⟨lawful.least x y y inX inY inY below self, lawful.right x y inX inY⟩
  · exact (lawful.equivalent_iff _ _ (lawful.closed y x inY inX) inY).mpr
      ⟨lawful.least y x y inY inX inY self below, lawful.left y x inY inX⟩

theorem LawfulOn.join_comm (lawful : ops.LawfulOn carrier) {x y : α} (inX : carrier x)
    (inY : carrier y) : ops.equivalent (ops.join x y) (ops.join y x) = true := by
  have swap {a b : α} (inA : carrier a) (inB : carrier b) :
      ops.precise (ops.join a b) (ops.join b a) = true :=
    lawful.least a b _ inA inB (lawful.closed b a inB inA) (lawful.right b a inB inA)
      (lawful.left b a inB inA)
  exact (lawful.equivalent_iff _ _ (lawful.closed x y inX inY) (lawful.closed y x inY inX)).mpr
    ⟨swap inX inY, swap inY inX⟩

theorem LawfulOn.join_assoc (lawful : ops.LawfulOn carrier) {x y z : α} (inX : carrier x)
    (inY : carrier y) (inZ : carrier z) :
    ops.equivalent (ops.join (ops.join x y) z) (ops.join x (ops.join y z)) = true := by
  have inXY := lawful.closed x y inX inY
  have inYZ := lawful.closed y z inY inZ
  have inLeft := lawful.closed _ z inXY inZ
  have inRight := lawful.closed x _ inX inYZ
  refine (lawful.equivalent_iff _ _ inLeft inRight).mpr ⟨?_, ?_⟩
  · apply lawful.least _ z _ inXY inZ inRight
    · exact lawful.join_mono inX inX inY inYZ (lawful.refl x inX) (lawful.left y z inY inZ)
    · exact lawful.trans _ _ _ inZ inYZ inRight (lawful.right y z inY inZ) (lawful.right x _ inX inYZ)
  · apply lawful.least x _ _ inX inYZ inLeft
    · exact lawful.trans _ _ _ inX inXY inLeft (lawful.left x y inX inY) (lawful.left _ z inXY inZ)
    · exact lawful.join_mono inY inXY inZ inZ (lawful.right x y inX inY) (lawful.refl z inZ)

theorem LawfulOn.congruentOn (lawful : ops.LawfulOn carrier) : ops.CongruentOn carrier where
  copy := lawful.copy
  refl x inX := (lawful.equivalent_iff x x inX inX).mpr ⟨lawful.refl x inX, lawful.refl x inX⟩
  symm x y inX inY same := (lawful.equivalent_iff y x inY inX).mpr
    ((lawful.equivalent_iff x y inX inY).mp same).symm
  trans x y z inX inY inZ first second := by
    obtain ⟨xy, yx⟩ := (lawful.equivalent_iff x y inX inY).mp first
    obtain ⟨yz, zy⟩ := (lawful.equivalent_iff y z inY inZ).mp second
    exact (lawful.equivalent_iff x z inX inZ).mpr
      ⟨lawful.trans x y z inX inY inZ xy yz, lawful.trans z y x inZ inY inX zy yx⟩
  join x x' y y' inX inX' inY inY' first second := by
    obtain ⟨xx', x'x⟩ := (lawful.equivalent_iff x x' inX inX').mp first
    obtain ⟨yy', y'y⟩ := (lawful.equivalent_iff y y' inY inY').mp second
    exact (lawful.equivalent_iff _ _ (lawful.closed x y inX inY) (lawful.closed x' y' inX' inY')).mpr
      ⟨lawful.join_mono inX inX' inY inY' xx' yy', lawful.join_mono inX' inX inY' inY x'x y'y⟩

theorem Lawful.congruent (lawful : ops.Lawful) : ops.Congruent := by
  have on := lawful.on.congruentOn
  refine ⟨lawful.copy, ⟨fun x => on.refl x trivial, fun same => on.symm _ _ trivial trivial same, ?_⟩, ?_⟩
  · exact fun first second => on.trans _ _ _ trivial trivial trivial first second
  · exact fun x x' y y' => on.join x x' y y' trivial trivial trivial trivial

/-- The bottom that an element type is given is the bottom of its operations. -/
theorem Lawful.precise_bottom [LatticeElement α] {bottom : α} (lawful : (ofElement bottom).Lawful) (x : α) :
    LatticeElement.precise bottom x = true := by
  have least := lawful.bottom_least x
  rwa [ofElement, show LatticeElement.copy bottom = bottom from lawful.copy bottom] at least

theorem foldl_join_closed (closed : ∀ x y, carrier x → carrier y → carrier (ops.join x y))
    {values : List α} {start : α} (inStart : carrier start) (inValues : ∀ x ∈ values, carrier x) :
    carrier (values.foldl ops.join start) := by
  induction values generalizing start with
  | nil => exact inStart
  | cons x rest ih =>
    exact ih (closed start x inStart (inValues x List.mem_cons_self))
      fun y member => inValues y (List.mem_cons_of_mem _ member)

theorem LawfulOn.foldl_least (lawful : ops.LawfulOn carrier) {values : List α} {start bound : α}
    (inStart : carrier start) (inValues : ∀ x ∈ values, carrier x) (inBound : carrier bound)
    (first : ops.precise start bound = true) (below : ∀ x ∈ values, ops.precise x bound = true) :
    ops.precise (values.foldl ops.join start) bound = true := by
  induction values generalizing start with
  | nil => exact first
  | cons x rest ih =>
    have inX := inValues x List.mem_cons_self
    apply ih (lawful.closed start x inStart inX)
    · exact fun y member => inValues y (List.mem_cons_of_mem _ member)
    · exact lawful.least start x bound inStart inX inBound first (below x List.mem_cons_self)
    · exact fun y member => below y (List.mem_cons_of_mem _ member)

theorem LawfulOn.foldl_start (lawful : ops.LawfulOn carrier) {values : List α} {start : α}
    (inStart : carrier start) (inValues : ∀ x ∈ values, carrier x) :
    ops.precise start (values.foldl ops.join start) = true := by
  induction values generalizing start with
  | nil => exact lawful.refl start inStart
  | cons x rest ih =>
    have inX := inValues x List.mem_cons_self
    have inRest : ∀ y ∈ rest, carrier y := fun y member => inValues y (List.mem_cons_of_mem _ member)
    have inJoin := lawful.closed start x inStart inX
    rw [List.foldl_cons]
    exact lawful.trans _ _ _ inStart inJoin (foldl_join_closed lawful.closed inJoin inRest)
      (lawful.left start x inStart inX) (ih inJoin inRest)

theorem LawfulOn.foldl_upper (lawful : ops.LawfulOn carrier) {values : List α} {start : α}
    (inStart : carrier start) (inValues : ∀ x ∈ values, carrier x) {x : α} (member : x ∈ values) :
    ops.precise x (values.foldl ops.join start) = true := by
  induction values generalizing start with
  | nil => contradiction
  | cons y rest ih =>
    have inY := inValues y List.mem_cons_self
    have inRest : ∀ z ∈ rest, carrier z := fun z member => inValues z (List.mem_cons_of_mem _ member)
    have inJoin := lawful.closed start y inStart inY
    rw [List.foldl_cons]
    rcases List.mem_cons.mp member with rfl | later
    · exact lawful.trans _ _ _ inY inJoin (foldl_join_closed lawful.closed inJoin inRest)
        (lawful.right start x inStart inY) (lawful.foldl_start inJoin inRest)
    · exact ih inJoin inRest later

end Dataflow.LatticeOps
