import Dataflow.Proofs.Clients
import Dataflow.Proofs.Labeled

/-! The algebra of labelled results. A join holds under every label the join of what its sides hold there,
whichever of them stores the label, so over a join-semilattice the results form one, label by label. What is
left when a result is restricted to some labels and collapsed is the least upper bound of the values under
these labels; the base value takes part only through them. -/

namespace Dataflow

/-- A preorder in which `join` is a least upper bound of two. It needs no least element. -/
structure JoinSemilattice {β : Type} (below : β → β → Prop) (join : β → β → β) : Prop where
  refl : ∀ x, below x x
  trans : ∀ x y z, below x y → below y z → below x z
  left : ∀ x y, below x (join x y)
  right : ∀ x y, below y (join x y)
  least : ∀ x y z, below x z → below y z → below (join x y) z

/-- `x` is a least upper bound of the values with the property `among`. -/
structure LeastBound {β : Type} (below : β → β → Prop) (among : β → Prop) (x : β) : Prop where
  upper : ∀ y, among y → below y x
  least : ∀ z, (∀ y, among y → below y z) → below x z

namespace JoinSemilattice

variable {β : Type} {below : β → β → Prop} {join : β → β → β}

theorem join_below (laws : JoinSemilattice below join) {x y z : β} :
    below (join x y) z ↔ below x z ∧ below y z := by
  constructor
  · intro above
    exact ⟨laws.trans _ _ _ (laws.left x y) above, laws.trans _ _ _ (laws.right x y) above⟩
  · rintro ⟨first, second⟩
    exact laws.least x y z first second

theorem foldl_below (laws : JoinSemilattice below join) {values : List β} {start z : β} :
    below (values.foldl join start) z ↔ below start z ∧ ∀ x ∈ values, below x z := by
  induction values generalizing start with
  | nil => simp
  | cons x rest ih => rw [List.foldl_cons, ih, laws.join_below, List.forall_mem_cons, and_assoc]

/-- Values joined one after the other, from the first on, give a least upper bound of all of them. -/
theorem foldl_leastBound (laws : JoinSemilattice below join) (first : β) (rest : List β) :
    LeastBound below (· ∈ first :: rest) (rest.foldl join first) where
  upper y member := by
    have self := laws.foldl_below.mp (laws.refl (rest.foldl join first))
    rcases List.mem_cons.mp member with rfl | later
    · exact self.1
    · exact self.2 y later
  least z bound := by
    obtain ⟨start, others⟩ := List.forall_mem_cons.mp bound
    exact laws.foldl_below.mpr ⟨start, others⟩

end JoinSemilattice

theorem LatticeOps.Lawful.joinSemilattice {α : Type} {ops : LatticeOps α} (lawful : ops.Lawful) :
    JoinSemilattice (fun x y => ops.precise x y = true) ops.join :=
  ⟨lawful.refl, lawful.trans, lawful.left, lawful.right, lawful.least⟩

namespace Labeled

variable {α : Type} {ops : LatticeOps α}

/-- The order that compares the base values and the values under every label. -/
def Below (ops : LatticeOps α) (a b : Labeled α) : Prop :=
  ops.precise a.base b.base = true ∧ ∀ label, ops.precise (a.get label) (b.get label) = true

/-- A label that neither side stores has the joined base value, which is the join of what both hold there. -/
theorem get_join (ops : LatticeOps α) (a b : Labeled α) (label : Label) :
    (a.join ops b).get label = ops.join (a.get label) (b.get label) := by
  rw [get, join, OrderedMap.get?_ofKeys]
  split
  · rfl
  · rename_i unstored
    obtain ⟨notA, notB⟩ := not_or.mp (mt List.mem_append.mpr unstored)
    rw [Option.getD_none, get_of_not_mem_keys notA, get_of_not_mem_keys notB]

theorem join_semilattice (laws : JoinSemilattice (fun x y => ops.precise x y = true) ops.join) :
    JoinSemilattice (Below ops) (join ops) where
  refl _ := ⟨laws.refl _, fun _ => laws.refl _⟩
  trans _ _ _ first second :=
    ⟨laws.trans _ _ _ first.1 second.1, fun label => laws.trans _ _ _ (first.2 label) (second.2 label)⟩
  left a b := ⟨laws.left _ _, fun label => get_join ops a b label ▸ laws.left _ _⟩
  right a b := ⟨laws.right _ _, fun label => get_join ops a b label ▸ laws.right _ _⟩
  least a b _ first second :=
    ⟨laws.least _ _ _ first.1 second.1,
      fun label => get_join ops a b label ▸ laws.least _ _ _ (first.2 label) (second.2 label)⟩

section

variable (faithful : ∀ x, ops.copy x = x)

include faithful

/-- With some label stored, the base value has no part in the collapsed value. -/
theorem collapse_leastBound (laws : JoinSemilattice (fun x y => ops.precise x y = true) ops.join)
    {r : Labeled α} (stored : r.overrides.keys ≠ []) :
    LeastBound (fun x y => ops.precise x y = true) (· ∈ r.overrides.keys.map r.get) (r.collapse ops) := by
  rw [collapse, values_eq]
  cases keys : r.overrides.keys with
  | nil => contradiction
  | cons first rest =>
    rw [List.map_cons]
    dsimp only
    rw [faithful]
    exact laws.foldl_leastBound (r.get first) (rest.map r.get)

omit faithful in
theorem mem_keys_restrict (r : Labeled α) {labels : List Label} (some : labels ≠ []) {label : Label} :
    label ∈ (r.restrict ops labels).overrides.keys ↔ label ∈ labels := by
  rw [keys_restrict r some, List.mem_eraseDups]

theorem collapse_restrict_leastBound
    (laws : JoinSemilattice (fun x y => ops.precise x y = true) ops.join) (r : Labeled α)
    {labels : List Label} (some : labels ≠ []) :
    LeastBound (fun x y => ops.precise x y = true) (fun x => ∃ label ∈ labels, r.get label = x)
      ((r.restrict ops labels).collapse ops) := by
  have stored : (r.restrict ops labels).overrides.keys ≠ [] := by
    obtain ⟨label, listed⟩ := List.exists_mem_of_ne_nil labels some
    exact List.ne_nil_of_mem ((r.mem_keys_restrict some).mpr listed)
  have same (x : α) : x ∈ (r.restrict ops labels).overrides.keys.map (r.restrict ops labels).get ↔
      ∃ label ∈ labels, r.get label = x := by
    simp only [List.mem_map, r.mem_keys_restrict some]
    constructor
    · rintro ⟨label, listed, rfl⟩
      exact ⟨label, listed, ((r.get_restrict listed).trans (faithful _)).symm⟩
    · rintro ⟨label, listed, rfl⟩
      exact ⟨label, listed, (r.get_restrict listed).trans (faithful _)⟩
  simpa only [same] using collapse_leastBound faithful laws stored

end

/-- Labelled results over a join-semilattice: a join is the join of the base values and of the values under every
label, and so a least upper bound where these are compared. If a copy is the same value, restriction keeps the
values of the listed labels, and collapses to a least upper bound of them. -/
theorem labelwise_semilattice (laws : JoinSemilattice (fun x y => ops.precise x y = true) ops.join) :
    (∀ a b : Labeled α, (a.join ops b).base = ops.join a.base b.base ∧
      ∀ label, (a.join ops b).get label = ops.join (a.get label) (b.get label)) ∧
    JoinSemilattice (Below ops) (join ops) ∧
    ((∀ x, ops.copy x = x) →
      (∀ (r : Labeled α) (labels : List Label), ∀ label ∈ labels,
        (r.restrict ops labels).get label = r.get label) ∧
      ∀ (r : Labeled α) (labels : List Label), labels ≠ [] →
        LeastBound (fun x y => ops.precise x y = true) (fun x => ∃ label ∈ labels, r.get label = x)
          ((r.restrict ops labels).collapse ops)) := by
  refine ⟨fun a b => ⟨rfl, get_join ops a b⟩, join_semilattice laws, fun faithful => ⟨?_, ?_⟩⟩
  · exact fun r labels label listed => (r.get_restrict listed).trans (faithful _)
  · exact fun r labels => collapse_restrict_leastBound faithful laws r

/-- Sets of names, with one label stored on each side: what one side stores meets the base value of the other.
A label that is listed twice counts once, and the base value `d` does not show where only `whenTrue` is listed. -/
theorem labelwise_semilattice_sets :
    let ops := LatticeOps.ofElement LiveSet.empty
    let a := (single (LiveSet.ofList ["d"])).put .whenTrue (.ofList ["t"])
    let b := (single (LiveSet.ofList ["e"])).put .exceptional (.ofList ["x"])
    (a.join ops b).get .whenTrue = LiveSet.ofList ["e", "t"] ∧
    (a.join ops b).get .exceptional = LiveSet.ofList ["d", "x"] ∧
    Below ops b (a.join ops b) ∧
    LeastBound (fun x y => ops.precise x y = true)
      (fun x => ∃ label ∈ [Label.whenTrue, .whenTrue], a.get label = x) (LiveSet.ofList ["t"]) := by
  intro ops a b
  obtain ⟨joins, semilattice, restricts⟩ := labelwise_semilattice LiveSet.lawful.joinSemilattice
  obtain ⟨_, collapses⟩ := restricts fun _ => rfl
  refine ⟨?_, ?_, semilattice.right a b, ?_⟩
  · rw [(joins a b).2]
    decide +kernel
  · rw [(joins a b).2]
    decide +kernel
  · have shown : (a.restrict ops [.whenTrue, .whenTrue]).collapse ops = .ofList ["t"] := by decide +kernel
    exact shown ▸ collapses a [.whenTrue, .whenTrue] (List.cons_ne_nil _ _)

end Labeled

end Dataflow
