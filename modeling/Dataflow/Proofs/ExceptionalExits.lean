import Dataflow.Proofs.Monotone

/-! The exceptional exits of instructions that can fail. An instruction that dereferences a variable leaves
with the state from before it. The others leave with the state after their write, whether or not it has taken
place: a call overwrites its destination with an unknown value, which loses nothing, while an allocation and
an operation on numbers claim a value that is not null. -/

namespace Dataflow

namespace Tuple

variable {κ α : Type} [DecidableEq κ] [LatticeElement α]

/-- A tuple lies below its own update if the value that it gives up lies below the new one. -/
theorem precise_assign (refl : ∀ x : α, LatticeElement.precise x x = true) {s : Tuple κ α}
    (live : s.isBottom = false) (k : Option κ) (v : α) :
    s.precise (s.assign k v) = true ↔ ∀ j, k = some j → LatticeElement.precise (s.get j) v = true := by
  have shared : s.fallback = (s.assign k v).fallback := by cases k <;> rfl
  rw [precise_iff_of_live refl live ((isBottom_assign s k v).trans live) shared]
  constructor
  · rintro below j rfl
    have here := below j
    rwa [get_assign live, if_pos rfl] at here
  · intro below j
    rw [get_assign live]
    split
    · rename_i written
      exact below j written.symm
    · exact refl _

end Tuple

namespace Instruction

/-- Whether the instruction can end abruptly. -/
def canFail : Instruction → Bool
  | .new _ | .arith _ _ _ _ | .load _ _ _ | .store _ _ _ | .call _ _ _ _ => true
  | .copy _ _ | .const _ _ | .compare _ _ _ | .ret _ | .nop => false

/-- The variable that the instruction makes not null by itself. -/
def filled : Instruction → Option String
  | .new dst | .arith dst _ _ _ => some dst
  | _ => none

/-- Such an instruction dereferences nothing, and the variable is the one it writes. -/
theorem filled_spec {i : Instruction} {dst : String} (fills : i.filled = some dst) :
    i.dereferenced = none ∧ i.defined = some dst := by
  cases i with
  | new | arith => exact ⟨rfl, fills⟩
  | copy | const | compare | load | store | call | ret | nop => contradiction

end Instruction

namespace Nullness

theorem exceptional_of_dereferenced {s : State} {labels : List Label} (exits : .exceptional ∈ labels)
    {i : Instruction} {x : String} (dereferences : i.dereferenced = some x) :
    (stepped s labels i).get .exceptional = s := by
  simp [stepped, dereferences, exits, Labeled.get_put]

theorem exceptional_of_plain {s : State} {labels : List Label} {i : Instruction} (fails : i.canFail = true)
    (plain : i.dereferenced = none) :
    (stepped s labels i).get .exceptional = s.assign i.defined (produced s i) := by
  cases i with
  | new | arith => rfl
  | call dst receiver method args =>
    cases plain
    rfl
  | load | store | copy | const | compare | ret | nop => contradiction

/-- Of what an instruction writes without a dereference, only the claim that a variable is not null can rule
out the value from before. -/
theorem precise_produced_iff {s : State} {i : Instruction} (fails : i.canFail = true)
    (plain : i.dereferenced = none) :
    (∀ dst, i.defined = some dst → precise (s.get dst) (produced s i) = true) ↔
      ∀ dst, i.filled = some dst → precise (s.get dst) .notNull = true := by
  cases i with
  | new | arith => rfl
  | call dst receiver method args =>
    have unknown (value : Nullness) : precise value .maybeNull = true := precise_iff.mpr (.inr (.inl rfl))
    simp [Instruction.filled, produced, unknown]
  | load | store | copy | const | compare | ret | nop => contradiction

theorem produced_of_filled {s : State} {i : Instruction} {dst : String} (fills : i.filled = some dst) :
    produced s i = .notNull := by
  cases i with
  | new | arith => rfl
  | copy | const | compare | load | store | call | ret | nop => contradiction

/-- The state on the exceptional exit of an instruction, next to the one that the instruction starts from. -/
structure Exits (i : Instruction) (s exit : State) : Prop where
  reached : exit.isBottom = false
  whole : i.dereferenced ≠ none → exit = s
  others : ∀ x, i.defined ≠ some x → exit.get x = s.get x
  filled : ∀ dst, i.filled = some dst → exit.get dst = .notNull
  precise : analysis.ops.precise s exit = true ↔
    ∀ dst, i.filled = some dst → Nullness.precise (s.get dst) .notNull = true

/-- Every instruction that can fail leaves exceptionally with a state that the one before it is at least as
precise as, except that an allocation or an operation on numbers takes its result to be not null. -/
theorem exceptional_exit {i : Instruction} (fails : i.canFail = true) {labels : List Label}
    (exits : .exceptional ∈ labels) {s : State} (live : s.isBottom = false) :
    ∃ result, analysis.transfer i labels s = .ok result ∧ Exits i s (result.get .exceptional) := by
  refine ⟨stepped s labels i, transfer_live live labels i, ?_⟩
  cases dereferences : i.dereferenced with
  | some x =>
    rw [exceptional_of_dereferenced exits dereferences]
    have self : s.precise s = true := Tuple.precise_self lawful.refl live
    have plain (dst : String) (fills : i.filled = some dst) : False := by
      rw [(Instruction.filled_spec fills).1] at dereferences
      contradiction
    exact ⟨live, fun _ => rfl, fun _ _ => rfl, fun dst fills => (plain dst fills).elim,
      fun _ dst fills => (plain dst fills).elim, fun _ => self⟩
  | none =>
    rw [exceptional_of_plain fails dereferences]
    refine ⟨(Tuple.isBottom_assign s _ _).trans live, fun guarded => absurd dereferences guarded, ?_, ?_, ?_⟩
    · intro x apart
      rw [Tuple.get_assign live, if_neg (Ne.symm apart)]
    · intro dst fills
      rw [Tuple.get_assign live, if_pos (Instruction.filled_spec fills).2.symm, produced_of_filled fills]
    · exact (Tuple.precise_assign lawful.refl live _ _).trans (precise_produced_iff fails dereferences)

/-- The state of which only `x` is known. -/
def knowing (value : Nullness) : State := (Tuple.new .bottom .maybeNull).set "x" value

/-- A call through `x` that stores into `x`, and an allocation for a variable that is not null before it. -/
theorem exceptional_exit_knowing :
    (∃ result, analysis.transfer (.call (some "x") (some "x") "next" []) [.exceptional] (knowing .null) =
        .ok result ∧ result.get .exceptional = knowing .null) ∧
    ∃ result, analysis.transfer (.new "x") [.normal, .exceptional] (knowing .notNull) = .ok result ∧
      analysis.ops.precise (knowing .notNull) (result.get .exceptional) = true := by
  have live (value : Nullness) : (knowing value).isBottom = false := rfl
  have calls : (Instruction.call (some "x") (some "x") "next" []).canFail = true := rfl
  have allocates : (Instruction.new "x").canFail = true := rfl
  have onlyExit : Label.exceptional ∈ [Label.exceptional] := by decide
  have bothExits : Label.exceptional ∈ [Label.normal, Label.exceptional] := by decide
  constructor
  · obtain ⟨result, transferred, exit⟩ := exceptional_exit calls onlyExit (live .null)
    exact ⟨result, transferred, exit.whole (by decide)⟩
  · obtain ⟨result, transferred, exit⟩ := exceptional_exit allocates bothExits (live .notNull)
    refine ⟨result, transferred, exit.precise.mpr ?_⟩
    rintro dst ⟨⟩
    rfl

/-- An allocation and a division for a variable that is null leave exceptionally as if it had been written. -/
theorem exceptional_exit_assumes_write :
    (∃ result, analysis.transfer (.new "x") [.normal, .exceptional] (knowing .null) = .ok result ∧
      (result.get .exceptional).get "x" = .notNull ∧
      analysis.ops.precise (knowing .null) (result.get .exceptional) = false) ∧
    ∃ result, analysis.transfer (.arith "x" .div (.int 1) (.int 0)) [.exceptional] (knowing .null) =
        .ok result ∧
      (result.get .exceptional).get "x" = .notNull ∧
      analysis.ops.precise (knowing .null) (result.get .exceptional) = false :=
  ⟨⟨_, rfl, by decide, by decide⟩, _, rfl, by decide, by decide⟩

end Nullness

end Dataflow
