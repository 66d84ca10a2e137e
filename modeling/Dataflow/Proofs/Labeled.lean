import Dataflow.Labeled
import Dataflow.Proofs.Lattice

/-! Labelled results read label by label. -/

namespace Dataflow.Labeled

variable {α : Type}

variable {ops : LatticeOps α}

/-- Restriction copies what a listed label holds. -/
theorem get_restrict (r : Labeled α) {labels : List Label} {label : Label} (listed : label ∈ labels) :
    (r.restrict ops labels).get label = ops.copy (r.get label) := by
  have some : labels.isEmpty = false := by
    simpa using List.ne_nil_of_mem listed
  simp [restrict, some, get, OrderedMap.get?_ofKeys, listed]

@[simp] theorem base_restrict (r : Labeled α) (labels : List Label) : (r.restrict ops labels).base = r.base := by
  unfold restrict
  split <;> rfl

/-- Restriction to some labels stores these and no others; restriction to none stores what was stored. -/
theorem keys_restrict (r : Labeled α) {labels : List Label} (some : labels ≠ []) :
    (r.restrict ops labels).overrides.keys = labels.eraseDups := by
  simp [restrict, some]

theorem get_of_not_mem_keys {r : Labeled α} {label : Label} (absent : label ∉ r.overrides.keys) :
    r.get label = r.base := by
  rw [get, (OrderedMap.get?_eq_none_iff _ _).mpr absent]
  rfl

theorem isSingle_iff (r : Labeled α) : r.isSingle = true ↔ r.overrides.keys = [] := by
  simp [isSingle, OrderedMap.isEmpty, OrderedMap.keys]

/-- Every value that a result can hand out, the base value included. -/
def All (holds : α → Prop) (r : Labeled α) : Prop := holds r.base ∧ ∀ label, holds (r.get label)

variable {holds : α → Prop}

theorem all_single {value : α} (here : holds value) : (single value).All holds := ⟨here, fun _ => here⟩

theorem all_put {r : Labeled α} {label : Label} {value : α} (all : r.All holds) (here : holds value) :
    (r.put label value).All holds := by
  refine ⟨all.1, ?_⟩
  intro other
  rw [get_put]
  split
  · exact here
  · exact all.2 other

theorem all_restrict {r : Labeled α} (copies : ∀ x, holds x → holds (ops.copy x)) (all : r.All holds)
    (labels : List Label) : (r.restrict ops labels).All holds := by
  refine ⟨by simpa using all.1, fun label => ?_⟩
  by_cases listed : label ∈ labels
  · rw [get_restrict r listed]
    exact copies _ (all.2 label)
  · unfold restrict
    split
    · exact all.2 label
    · simpa [get, OrderedMap.get?_ofKeys, listed] using all.1

theorem All.imp {weaker : α → Prop} {r : Labeled α} (all : r.All holds) (implies : ∀ x, holds x → weaker x) :
    r.All weaker := ⟨implies _ all.1, fun label => implies _ (all.2 label)⟩

theorem get_map (f : α → α) (r : Labeled α) (label : Label) : (r.map f).get label = f (r.get label) := by
  simp only [get, map, OrderedMap.get?_map]
  cases r.overrides.get? label <;> rfl

theorem isSingle_map (f : α → α) (r : Labeled α) : (r.map f).isSingle = r.isSingle := by
  rw [Bool.eq_iff_iff, isSingle_iff, isSingle_iff, map, OrderedMap.keys_map]

theorem map_of_fixed {f : α → α} {r : Labeled α} (fixed : r.All fun x => f x = x) : r.map f = r := by
  have overrides : r.overrides.map f = r.overrides := by
    refine OrderedMap.map_of_fixed fun e member => ?_
    have value := fixed.2 e.1
    rwa [get, OrderedMap.get?_of_mem member, Option.getD_some] at value
  rw [map, fixed.1, overrides]

/-- The stored values, read label by label. -/
theorem values_eq (r : Labeled α) : r.overrides.values = r.overrides.keys.map r.get := by
  rw [OrderedMap.values, OrderedMap.keys, List.map_map]
  apply List.map_congr_left
  rintro ⟨label, value⟩ entry
  simp [get, OrderedMap.get?_of_mem entry]

theorem collapse_of_isSingle {r : Labeled α} (single : r.isSingle = true) :
    r.collapse ops = ops.copy r.base := by
  have empty : r.overrides.values = [] := by rw [values_eq, r.isSingle_iff.mp single, List.map_nil]
  simp [collapse, empty]

@[simp] theorem collapse_single (value : α) : (single value).collapse ops = ops.copy value :=
  collapse_of_isSingle rfl

/-- The collapsed value lies above the value of every stored label. -/
theorem get_precise_collapse {carrier : α → Prop} (lawful : ops.LawfulOn carrier)
    {r : Labeled α} (inside : ∀ label, carrier (r.get label)) {label : Label}
    (stored : label ∈ r.overrides.keys) : ops.precise (r.get label) (r.collapse ops) = true := by
  have all (labels : List Label) : ∀ value ∈ labels.map r.get, carrier value := by
    intro value member
    obtain ⟨other, _, rfl⟩ := List.mem_map.mp member
    exact inside other
  rw [collapse, values_eq]
  cases keys : r.overrides.keys with
  | nil => simp [keys] at stored
  | cons first rest =>
    rw [keys] at stored
    rw [List.map_cons]
    dsimp only
    rw [lawful.copy _ (inside first)]
    rcases List.mem_cons.mp stored with rfl | later
    · exact lawful.foldl_start (inside label) (all rest)
    · exact lawful.foldl_upper (inside first) (all rest) (List.mem_map_of_mem later)

/-- A set of values that `join` does not leave holds the collapsed value too. -/
theorem collapse_holds {r : Labeled α} (copies : ∀ x, holds x → holds (ops.copy x))
    (closed : ∀ x y, holds x → holds y → holds (ops.join x y)) (all : r.All holds) :
    holds (r.collapse ops) := by
  have stored : ∀ value ∈ r.overrides.values, holds value := by
    rw [values_eq]
    intro value member
    obtain ⟨label, _, rfl⟩ := List.mem_map.mp member
    exact all.2 label
  unfold collapse
  split
  · exact copies _ all.1
  · rename_i value rest values
    rw [values] at stored
    exact LatticeOps.foldl_join_closed closed (copies _ (stored value List.mem_cons_self))
      fun x member => stored x (List.mem_cons_of_mem _ member)

/-- Two results that store the same labels, with related values under each of them. -/
structure Alike (rel : α → α → Prop) (r s : Labeled α) : Prop where
  keys : r.overrides.keys = s.overrides.keys
  stored : ∀ label ∈ r.overrides.keys, rel (r.get label) (s.get label)
  single : r.overrides.keys = [] → rel r.base s.base

variable {rel : α → α → Prop} {r s : Labeled α}

/-- Restriction to no label keeps what is stored, so the labels stored before have to be the same. -/
theorem alike_restrict (copies : ∀ x y, rel x y → rel (ops.copy x) (ops.copy y))
    (keys : r.overrides.keys = s.overrides.keys)
    (related : ∀ label, rel (r.get label) (s.get label)) (labels : List Label) :
    (r.restrict ops labels).Alike rel (s.restrict ops labels) := by
  cases labels with
  | nil =>
    refine ⟨keys, fun label _ => related label, fun (empty : r.overrides.keys = []) => ?_⟩
    have here := related .normal
    have unstored {t : Labeled α} (empty : t.overrides.keys = []) : t.get .normal = t.base :=
      get_of_not_mem_keys (empty ▸ List.not_mem_nil)
    rwa [unstored empty, unstored (keys ▸ empty)] at here
  | cons first rest =>
    have stores (t : Labeled α) : (t.restrict ops (first :: rest)).overrides.keys = _ :=
      t.keys_restrict (List.cons_ne_nil first rest)
    refine ⟨(stores r).trans (stores s).symm, fun label member => ?_, fun empty => ?_⟩
    · rw [stores, List.mem_eraseDups] at member
      rw [get_restrict _ member, get_restrict _ member]
      exact copies _ _ (related label)
    · rw [stores, List.eraseDups_cons] at empty
      contradiction

/-- A relation that copies and the join respect carries over to the collapsed values. -/
theorem Alike.collapse (alike : r.Alike rel s) (copies : ∀ x y, rel x y → rel (ops.copy x) (ops.copy y))
    (join : ∀ x x' y y', rel x x' → rel y y' → rel (ops.join x y) (ops.join x' y')) :
    rel (r.collapse ops) (s.collapse ops) := by
  have folds (labels : List Label) (related : ∀ label ∈ labels, rel (r.get label) (s.get label)) (x y : α)
      (start : rel x y) :
      rel ((labels.map r.get).foldl ops.join x) ((labels.map s.get).foldl ops.join y) := by
    induction labels generalizing x y with
    | nil => exact start
    | cons label rest ih =>
      obtain ⟨here, later⟩ := List.forall_mem_cons.mp related
      exact ih later _ _ (join _ _ _ _ start here)
  have stored := alike.stored
  rw [Labeled.collapse, Labeled.collapse, values_eq, values_eq, ← alike.keys]
  cases keys : r.overrides.keys with
  | nil => exact copies _ _ (alike.single keys)
  | cons first rest =>
    rw [keys] at stored
    obtain ⟨here, later⟩ := List.forall_mem_cons.mp stored
    exact folds rest later _ _ (copies _ _ here)

end Dataflow.Labeled
