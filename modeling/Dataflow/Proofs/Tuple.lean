import Dataflow.Proofs.Lattice
import Dataflow.Tuple

/-! Tuples over a join-semilattice, ordered key by key. Only stored keys are ever looked at; that this
decides the order on all keys needs a common bottom and a common fallback, so the laws are those of the
tuples over one such pair. -/

namespace Dataflow.Tuple

variable {κ α : Type}

/-- The tuples that share a bottom and a fallback. -/
def Over (bottom fallback : α) (t : Tuple κ α) : Prop := t.bottom = bottom ∧ t.fallback = fallback

theorem Over.shares {bottom fallback : α} {s t : Tuple κ α} (overS : Over bottom fallback s)
    (overT : Over bottom fallback t) : s.fallback = t.fallback := overS.2.trans overT.2.symm

theorem over_dead (bottom fallback : α) : Over bottom fallback (dead bottom fallback : Tuple κ α) :=
  ⟨rfl, rfl⟩

theorem over_new (bottom fallback : α) : Over bottom fallback (new bottom fallback : Tuple κ α) :=
  ⟨rfl, rfl⟩

variable [DecidableEq κ]

/-- Two tuples that hold the same under every key, whatever keys they store, and are both dead or both
live. -/
def Same (s t : Tuple κ α) : Prop := s.isBottom = t.isBottom ∧ ∀ k, s.get k = t.get k

theorem get_of_isBottom {t : Tuple κ α} (dead : t.isBottom = true) (k : κ) : t.get k = t.bottom := by
  unfold isBottom at dead
  unfold get
  split
  · rfl
  · simp_all

theorem get_of_not_mem {t : Tuple κ α} (live : t.isBottom = false) {k : κ} (absent : k ∉ t.keys) :
    t.get k = t.fallback := by
  obtain ⟨bottom, fallback, entries⟩ := t
  cases entries with
  | none => simp [isBottom] at live
  | some m =>
    have missing : m.get? k = none := (m.get?_eq_none_iff k).mpr (by simpa [keys] using absent)
    simp [get, missing]

/-- Storing an element, without the refusal: the bottom tuple stays as it is. -/
def set (t : Tuple κ α) (k : κ) (v : α) : Tuple κ α :=
  { t with entries := t.entries.map fun m => m.insert k v }

theorem put_of_live {t : Tuple κ α} (live : t.isBottom = false) (k : κ) (v : α) :
    t.put k v = .ok (t.set k v) := by
  obtain ⟨bottom, fallback, entries⟩ := t
  cases entries with
  | none => simp [isBottom] at live
  | some m => rfl

@[simp] theorem isBottom_set (t : Tuple κ α) (k : κ) (v : α) : (t.set k v).isBottom = t.isBottom := by
  simp [isBottom, set]

theorem get_set {t : Tuple κ α} (live : t.isBottom = false) (k j : κ) (v : α) :
    (t.set k v).get j = if j = k then v else t.get j := by
  obtain ⟨bottom, fallback, entries⟩ := t
  cases entries with
  | none => simp [isBottom] at live
  | some m =>
    simp only [get, set, Option.map_some, OrderedMap.get?_insert]
    split <;> simp

theorem set_over {bottom fallback : α} {t : Tuple κ α} (shared : Over bottom fallback t) (k : κ) (v : α) :
    Over bottom fallback (t.set k v) := shared

/-- Storing an element under a key that there may not be. -/
def assign (t : Tuple κ α) (k : Option κ) (v : α) : Tuple κ α := k.elim t fun k => t.set k v

@[simp] theorem isBottom_assign (t : Tuple κ α) (k : Option κ) (v : α) :
    (t.assign k v).isBottom = t.isBottom := by
  cases k with
  | none => rfl
  | some k => exact isBottom_set t k v

theorem get_assign {t : Tuple κ α} (live : t.isBottom = false) (k : Option κ) (j : κ) (v : α) :
    (t.assign k v).get j = if some j = k then v else t.get j := by
  cases k with
  | none => simp [assign]
  | some k => simp [assign, get_set live]

theorem assign_over {bottom fallback : α} {t : Tuple κ α} (shared : Over bottom fallback t) (k : Option κ)
    (v : α) : Over bottom fallback (t.assign k v) := by
  cases k <;> exact shared

@[simp] theorem bottomLike_assign (t : Tuple κ α) (k : Option κ) (v : α) :
    (t.assign k v).bottomLike = t.bottomLike := by
  cases k <;> rfl

variable [LatticeElement α]

theorem isBottom_join (a b : Tuple κ α) : (a.join b).isBottom = (a.isBottom && b.isBottom) := by
  unfold join
  split
  · simp_all
  · rename_i live
    exact (Bool.eq_false_iff.mpr live).symm

theorem join_over {bottom fallback : α} {a b : Tuple κ α} (shared : Over bottom fallback a) :
    Over bottom fallback (a.join b) := by
  unfold join
  split <;> exact shared

theorem get_join_of_mem {a b : Tuple κ α} {k : κ} (stored : k ∈ a.keys ++ b.keys) :
    (a.join b).get k = LatticeElement.join (a.get k) (b.get k) := by
  have live : ¬(a.isBottom && b.isBottom) = true := by
    intro dead
    simp only [isBottom, Bool.and_eq_true, Option.isNone_iff_eq_none] at dead
    simp [keys, dead.1, dead.2] at stored
  rw [join, if_neg live]
  simp [get, OrderedMap.get?_ofKeys, stored]

theorem get_join_of_not_mem {a b : Tuple κ α} (live : (a.isBottom && b.isBottom) = false) {k : κ}
    (absent : k ∉ a.keys ++ b.keys) : (a.join b).get k = a.fallback := by
  rw [join, live, if_neg (by simp)]
  simp [get, OrderedMap.get?_ofKeys, absent]

/-- Looking at the stored keys of two live tuples decides precision on all keys, if the fallback is the
same for both. -/
theorem precise_iff_of_live (refl : ∀ x : α, LatticeElement.precise x x = true) {a b : Tuple κ α}
    (liveA : a.isBottom = false) (liveB : b.isBottom = false) (shared : a.fallback = b.fallback) :
    a.precise b = true ↔ ∀ k, LatticeElement.precise (a.get k) (b.get k) = true := by
  simp only [precise, liveA, liveB, Bool.false_eq_true, if_false, List.all_eq_true]
  constructor
  · intro stored k
    by_cases member : k ∈ a.keys ++ b.keys
    · exact stored k member
    · simp only [List.mem_append, not_or] at member
      rw [get_of_not_mem liveA member.1, get_of_not_mem liveB member.2, shared]
      exact refl _
  · exact fun everywhere k _ => everywhere k

variable {bottom fallback : α}

section Laws

variable (lawful : (LatticeOps.ofElement bottom).Lawful)

include lawful

theorem precise_iff {a b : Tuple κ α} (overA : Over bottom fallback a) (overB : Over bottom fallback b) :
    a.precise b = true ↔
      a.isBottom = true ∨ b.isBottom = false ∧ ∀ k, LatticeElement.precise (a.get k) (b.get k) = true := by
  cases deadA : a.isBottom with
  | true => simp [precise, deadA]
  | false =>
    cases deadB : b.isBottom with
    | true => simp [precise, deadA, deadB]
    | false => simp [precise_iff_of_live lawful.refl deadA deadB (overA.shares overB)]

theorem get_precise {a b : Tuple κ α} (overA : Over bottom fallback a) (overB : Over bottom fallback b)
    (precise : a.precise b = true) (k : κ) : LatticeElement.precise (a.get k) (b.get k) = true := by
  rcases (precise_iff lawful overA overB).mp precise with dead | ⟨_, everywhere⟩
  · rw [get_of_isBottom dead, overA.1]
    exact lawful.precise_bottom _
  · exact everywhere k

theorem join_left {a b : Tuple κ α} (overA : Over bottom fallback a) :
    a.precise (a.join b) = true := by
  rw [precise_iff lawful overA (join_over overA)]
  cases deadA : a.isBottom with
  | true => exact Or.inl rfl
  | false =>
    refine Or.inr ⟨by simp [isBottom_join, deadA], fun k => ?_⟩
    by_cases stored : k ∈ a.keys ++ b.keys
    · rw [get_join_of_mem stored]
      exact lawful.left _ _
    · rw [get_join_of_not_mem (by simp [deadA]) stored]
      simp only [List.mem_append, not_or] at stored
      rw [get_of_not_mem deadA stored.1]
      exact lawful.refl _

theorem join_right {a b : Tuple κ α} (overA : Over bottom fallback a) (overB : Over bottom fallback b) :
    b.precise (a.join b) = true := by
  rw [precise_iff lawful overB (join_over overA)]
  cases deadB : b.isBottom with
  | true => exact Or.inl rfl
  | false =>
    refine Or.inr ⟨by simp [isBottom_join, deadB], fun k => ?_⟩
    by_cases stored : k ∈ a.keys ++ b.keys
    · rw [get_join_of_mem stored]
      exact lawful.right _ _
    · rw [get_join_of_not_mem (by simp [deadB]) stored]
      simp only [List.mem_append, not_or] at stored
      rw [get_of_not_mem deadB stored.2, overA.2, overB.2]
      exact lawful.refl _

theorem join_least {a b c : Tuple κ α} (overA : Over bottom fallback a) (overB : Over bottom fallback b)
    (overC : Over bottom fallback c) (first : a.precise c = true) (second : b.precise c = true) :
    (a.join b).precise c = true := by
  have pointA := get_precise lawful overA overC first
  have pointB := get_precise lawful overB overC second
  rw [precise_iff lawful (join_over overA) overC, isBottom_join]
  cases dead : (a.isBottom && b.isBottom) with
  | true => exact Or.inl rfl
  | false =>
    refine Or.inr ⟨?_, fun k => ?_⟩
    · rcases (precise_iff lawful overA overC).mp first with deadA | liveC
      · rcases (precise_iff lawful overB overC).mp second with deadB | liveC
        · simp [deadA, deadB] at dead
        · exact liveC.1
      · exact liveC.1
    · by_cases stored : k ∈ a.keys ++ b.keys
      · rw [get_join_of_mem stored]
        exact lawful.least _ _ _ (pointA k) (pointB k)
      · rw [get_join_of_not_mem dead stored]
        simp only [List.mem_append, not_or] at stored
        rcases Bool.and_eq_false_iff.mp dead with liveA | liveB
        · rw [← get_of_not_mem liveA stored.1]
          exact pointA k
        · rw [overA.2, ← overB.2, ← get_of_not_mem liveB stored.2]
          exact pointB k

theorem precise_trans {a b c : Tuple κ α} (overA : Over bottom fallback a) (overB : Over bottom fallback b)
    (overC : Over bottom fallback c) (first : a.precise b = true) (second : b.precise c = true) :
    a.precise c = true := by
  rw [precise_iff lawful overA overC]
  rcases (precise_iff lawful overA overB).mp first with deadA | ⟨liveB, below⟩
  · exact Or.inl deadA
  · rcases (precise_iff lawful overB overC).mp second with deadB | ⟨liveC, above⟩
    · simp [liveB] at deadB
    · exact Or.inr ⟨liveC, fun k => lawful.trans _ _ _ (below k) (above k)⟩

/-- Tuples below each other hold the same, if no two elements are below each other. -/
theorem same_of_precise {a b : Tuple κ α} (overA : Over bottom fallback a) (overB : Over bottom fallback b)
    (antisymm : ∀ x y : α, LatticeElement.precise x y = true → LatticeElement.precise y x = true → x = y)
    (below : a.precise b = true) (above : b.precise a = true) : a.Same b := by
  constructor
  · rcases (precise_iff lawful overA overB).mp below with deadA | ⟨liveB, _⟩
    · rcases (precise_iff lawful overB overA).mp above with deadB | ⟨liveA, _⟩
      · rw [deadA, deadB]
      · simp [deadA] at liveA
    · rcases (precise_iff lawful overB overA).mp above with deadB | ⟨liveA, _⟩
      · simp [liveB] at deadB
      · rw [liveA, liveB]
  · intro k
    exact antisymm _ _ (get_precise lawful overA overB below k) (get_precise lawful overB overA above k)

omit [DecidableEq κ] in
theorem copy_eq (t : Tuple κ α) : t.copy = t := by
  obtain ⟨_, _, _ | m⟩ := t
  · rfl
  · have same : m.map LatticeElement.copy = m := OrderedMap.map_of_fixed fun e _ => lawful.copy e.2
    rw [copy, Option.map_some, same]

/-- Tuples over a join-semilattice are one, with the bottom tuple least. -/
theorem lawfulOn : (LatticeOps.ofElement (dead bottom fallback : Tuple κ α)).LawfulOn (Over bottom fallback) where
  copy t _ := copy_eq lawful t
  closed _ _ overA _ := join_over overA
  refl a overA := by
    refine (precise_iff lawful overA overA).mpr ?_
    cases a.isBottom with
    | true => exact Or.inl rfl
    | false => exact Or.inr ⟨rfl, fun k => lawful.refl _⟩
  trans _ _ _ overA overB overC := precise_trans lawful overA overB overC
  equivalent_iff _ _ _ _ := Bool.and_eq_true_iff
  left _ _ overA _ := join_left lawful overA
  right _ _ overA overB := join_right lawful overA overB
  least _ _ _ overA overB overC := join_least lawful overA overB overC
  bottom_least _ _ := rfl

end Laws

end Dataflow.Tuple
