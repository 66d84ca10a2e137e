import Dataflow.Analysis
import Dataflow.Instruction
import Dataflow.Tuple

/-!
Live variables, backward. A set of variables is a list in the order of code points without repetition,
so sets with the same members are equal and have the same text.
-/

namespace Dataflow

structure LiveSet where
  names : List String
  sorted : names.Pairwise (· < ·)

namespace LiveSet

instance : DecidableEq LiveSet := fun a b =>
  if same : a.names = b.names then
    isTrue (by cases a; cases b; simp_all)
  else
    isFalse (fun h => same (by rw [h]))

def empty : LiveSet := ⟨[], .nil⟩

def contains (s : LiveSet) (x : String) : Bool := s.names.contains x

def size (s : LiveSet) : Nat := s.names.length

def insertName (x : String) : List String → List String
  | [] => [x]
  | y :: ys => if x < y then x :: y :: ys else if x = y then y :: ys else y :: insertName x ys

theorem mem_insertName {x z : String} {names : List String} :
    z ∈ insertName x names ↔ z = x ∨ z ∈ names := by
  induction names with
  | nil => simp [insertName]
  | cons y ys ih =>
    unfold insertName
    split
    · simp
    · split
      · grind
      · simp only [List.mem_cons, ih]
        grind

theorem sorted_insertName (x : String) {names : List String} (sorted : names.Pairwise (· < ·)) :
    (insertName x names).Pairwise (· < ·) := by
  induction names with
  | nil => simp [insertName]
  | cons y ys ih =>
    have above : ∀ z ∈ ys, y < z := (List.pairwise_cons.mp sorted).1
    unfold insertName
    split
    next less =>
      refine List.pairwise_cons.mpr ⟨?_, sorted⟩
      intro z member
      rcases List.mem_cons.mp member with rfl | member
      · exact less
      · exact String.lt_trans less (above z member)
    next notLess =>
      split
      · exact sorted
      next different =>
        refine List.pairwise_cons.mpr ⟨?_, ih (List.Pairwise.of_cons sorted)⟩
        intro z member
        rcases mem_insertName.mp member with rfl | member
        · refine String.not_le.mp fun le => different ?_
          exact String.le_antisymm le (String.not_lt.mp notLess)
        · exact above z member

def insert (s : LiveSet) (x : String) : LiveSet :=
  ⟨insertName x s.names, sorted_insertName x s.sorted⟩

def insertAll (s : LiveSet) (names : List String) : LiveSet := names.foldl insert s

def ofList (names : List String) : LiveSet := empty.insertAll names

def erase (s : LiveSet) (x : String) : LiveSet where
  names := s.names.filter fun y => decide (y ≠ x)
  sorted := s.sorted.sublist List.filter_sublist

def union (a b : LiveSet) : LiveSet := a.insertAll b.names

def subset (a b : LiveSet) : Bool := a.names.all b.contains

instance : LatticeElement LiveSet where
  join := union
  precise := subset

instance : Display LiveSet where
  text s := "\x7b" ++ ", ".intercalate s.names ++ "\x7d"

instance : Membership String LiveSet := ⟨fun s x => x ∈ s.names⟩

theorem mem_def {s : LiveSet} {x : String} : x ∈ s ↔ x ∈ s.names := Iff.rfl

theorem contains_iff {s : LiveSet} {x : String} : s.contains x = true ↔ x ∈ s := by
  simp [contains, mem_def]

@[simp] theorem not_mem_empty (x : String) : ¬ x ∈ empty := by
  simp [mem_def, empty]

@[simp] theorem mem_insert {s : LiveSet} {x y : String} : y ∈ s.insert x ↔ y = x ∨ y ∈ s :=
  mem_insertName

@[simp] theorem mem_insertAll {s : LiveSet} {names : List String} {y : String} :
    y ∈ s.insertAll names ↔ y ∈ names ∨ y ∈ s := by
  unfold insertAll
  induction names generalizing s with
  | nil => simp
  | cons x rest ih =>
    simp only [List.foldl_cons, ih, mem_insert, List.mem_cons]
    grind

@[simp] theorem mem_erase {s : LiveSet} {x y : String} : y ∈ s.erase x ↔ y ∈ s ∧ y ≠ x := by
  simp [mem_def, erase]

@[simp] theorem mem_union {a b : LiveSet} {x : String} : x ∈ a.union b ↔ x ∈ a ∨ x ∈ b := by
  simp only [union, mem_insertAll, ← mem_def]
  exact or_comm

theorem subset_iff {a b : LiveSet} : a.subset b ↔ ∀ x, x ∈ a → x ∈ b := by
  simp [subset, contains, mem_def]

end LiveSet

namespace Liveness

/-- What is live before an instruction: its uses, and what is live after it and not defined by it. -/
def through (i : Instruction) (after : LiveSet) : LiveSet :=
  let kept := match i.defined with
    | none => after
    | some x => after.erase x
  kept.insertAll i.used

/-- Nothing is live after the end. -/
def analysis : Analysis Instruction LiveSet TupleFault where
  direction := .backward
  ops := .ofElement .empty
  entry := fun _ => .empty
  transfer := fun i _ live => .ok (.single (through i live))

end Liveness

end Dataflow
