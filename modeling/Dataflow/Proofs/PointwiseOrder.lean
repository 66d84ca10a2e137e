import Dataflow.Proofs.Clients

/-! The algebra of tuples. Over a lattice whose order is a partial order, a join holds under every key the
join of what its sides hold there, stored or not, and the tuples that share a bottom and a fallback form a
join-semilattice with the bottom tuple for its unit. A live tuple that holds bottom everywhere is not the
bottom tuple: it lies strictly above it. -/

namespace Dataflow.Tuple

variable {κ α : Type} [DecidableEq κ] [LatticeElement α] {bottom fallback : α}

section

variable (lawful : (LatticeOps.ofElement bottom).Lawful)
  (antisymm : ∀ x y : α, LatticeElement.precise x y = true → LatticeElement.precise y x = true → x = y)

include lawful antisymm

/-- Joining an element with one above it gives the latter, on either side. -/
theorem join_element_of_precise {x y : α} (below : LatticeElement.precise x y = true) :
    LatticeElement.join x y = y ∧ LatticeElement.join y x = y := by
  constructor
  · exact antisymm _ _ (lawful.least x y y below (lawful.refl y)) (lawful.right x y)
  · exact antisymm _ _ (lawful.least y x y (lawful.refl y) below) (lawful.left y x)

/-- Under a key that neither side stores each holds bottom or the fallback, and so does the join. -/
theorem get_join {a b : Tuple κ α} (overA : Over bottom fallback a) (overB : Over bottom fallback b)
    (k : κ) : (a.join b).get k = LatticeElement.join (a.get k) (b.get k) := by
  have absorb {x y : α} (below : LatticeElement.precise x y = true) :=
    join_element_of_precise lawful antisymm below
  have least (x : α) : LatticeElement.precise bottom x = true := lawful.precise_bottom x
  by_cases stored : k ∈ a.keys ++ b.keys
  · exact get_join_of_mem stored
  · have absent := stored
    simp only [List.mem_append, not_or] at absent
    cases deadA : a.isBottom with
    | true =>
      rw [get_of_isBottom deadA, overA.1, (absorb (least (b.get k))).1]
      cases deadB : b.isBottom with
      | true =>
        have dead : (a.join b).isBottom = true := by simp [isBottom_join, deadA, deadB]
        rw [get_of_isBottom dead, get_of_isBottom deadB, (join_over overA).1, overB.1]
      | false =>
        rw [get_join_of_not_mem (by simp [deadB]) stored, get_of_not_mem deadB absent.2, overA.2, overB.2]
    | false =>
      rw [get_join_of_not_mem (by simp [deadA]) stored, get_of_not_mem deadA absent.1, overA.2]
      cases deadB : b.isBottom with
      | true =>
        rw [get_of_isBottom deadB, overB.1]
        exact (absorb (least fallback)).2.symm
      | false =>
        rw [get_of_not_mem deadB absent.2, overB.2]
        exact (absorb (lawful.refl fallback)).2.symm

end

/-- The laws of a join-semilattice, for the tuples over one bottom and one fallback and the order that
compares them under all keys. -/
structure Pointwise (κ : Type) {α : Type} [DecidableEq κ] [LatticeElement α] (bottom fallback : α) :
    Prop where
  join : ∀ a b : Tuple κ α, Over bottom fallback a → Over bottom fallback b →
    ∀ k, (a.join b).get k = LatticeElement.join (a.get k) (b.get k)
  order : ∀ a b : Tuple κ α, Over bottom fallback a → Over bottom fallback b → (a.precise b = true ↔
    a.isBottom = true ∨ b.isBottom = false ∧ ∀ k, LatticeElement.precise (a.get k) (b.get k) = true)
  comm : ∀ a b : Tuple κ α, Over bottom fallback a → Over bottom fallback b →
    LatticeElement.equivalent (a.join b) (b.join a) = true
  assoc : ∀ a b c : Tuple κ α, Over bottom fallback a → Over bottom fallback b → Over bottom fallback c →
    LatticeElement.equivalent ((a.join b).join c) (a.join (b.join c)) = true
  idem : ∀ a : Tuple κ α, Over bottom fallback a → LatticeElement.equivalent (a.join a) a = true
  unit : ∀ a : Tuple κ α, Over bottom fallback a →
    LatticeElement.equivalent ((dead bottom fallback).join a) a = true ∧
    LatticeElement.equivalent (a.join (dead bottom fallback)) a = true
  upper : ∀ a b : Tuple κ α, Over bottom fallback a → Over bottom fallback b →
    a.precise (a.join b) = true ∧ b.precise (a.join b) = true
  least : ∀ a b c : Tuple κ α, Over bottom fallback a → Over bottom fallback b → Over bottom fallback c →
    a.precise c = true → b.precise c = true → (a.join b).precise c = true

/-- Tuples over a join-semilattice that is partially ordered form one, key by key. Antisymmetry is needed
only for the value of a join to be equal to the join of the values. -/
theorem pointwise_semilattice (κ : Type) [DecidableEq κ] {bottom : α} (fallback : α)
    (lawful : (LatticeOps.ofElement bottom).Lawful)
    (antisymm : ∀ x y : α, LatticeElement.precise x y = true → LatticeElement.precise y x = true → x = y) :
    Pointwise κ bottom fallback := by
  have laws : (LatticeOps.ofElement (dead bottom fallback : Tuple κ α)).LawfulOn (Over bottom fallback) :=
    lawfulOn lawful
  have absorb {a b : Tuple κ α} (overA : Over bottom fallback a) (overB : Over bottom fallback b)
      (below : a.precise b = true) := laws.join_of_precise overA overB below
  exact
    { join := fun a b overA overB k => get_join lawful antisymm overA overB k
      order := fun a b overA overB => precise_iff lawful overA overB
      comm := fun a b overA overB => laws.join_comm overA overB
      assoc := fun a b c overA overB overC => laws.join_assoc overA overB overC
      idem := fun a overA => (absorb overA overA (laws.refl a overA)).1
      unit := fun a overA => absorb (over_dead bottom fallback) overA (laws.bottom_least a overA)
      upper := fun a b overA overB => ⟨laws.left a b overA overB, laws.right a b overA overB⟩
      least := fun a b c overA overB overC => laws.least a b c overA overB overC }

/-- Sets of names under each key, with a fallback that is neither least nor greatest. A key that one side
stores joins the fallback of the other, a key that no side stores has the fallback, and a join with the
bottom tuple adds nothing to what is stored. -/
theorem pointwise_semilattice_sets :
    Pointwise String LiveSet.empty (.ofList ["d"]) ∧
    (((new .empty (.ofList ["d"])).set "x" (.ofList ["u"])).join
      ((new .empty (.ofList ["d"])).set "y" .empty)).get "x" = LiveSet.ofList ["d", "u"] ∧
    (((new .empty (.ofList ["d"])).set "x" (.ofList ["u"])).join
      ((new .empty (.ofList ["d"])).set "y" .empty)).get "z" = LiveSet.ofList ["d"] ∧
    ((dead .empty (.ofList ["d"])).join
      ((new .empty (.ofList ["d"])).set "y" .empty)).get "y" = LiveSet.empty := by
  have laws : Pointwise String LiveSet.empty (.ofList ["d"]) :=
    pointwise_semilattice String _ LiveSet.lawful fun x y below above =>
      LiveSet.eq_of_equivalent (Bool.and_eq_true_iff.mpr ⟨below, above⟩)
  refine ⟨laws, ?_, ?_, ?_⟩
  · rw [laws.join _ _ ⟨rfl, rfl⟩ ⟨rfl, rfl⟩]
    decide +kernel
  · rw [laws.join _ _ ⟨rfl, rfl⟩ ⟨rfl, rfl⟩]
    decide +kernel
  · rw [laws.join _ _ ⟨rfl, rfl⟩ ⟨rfl, rfl⟩]
    decide +kernel

end Dataflow.Tuple
