import Dataflow.Instruction

/-! Arithmetic on 64-bit integers is integer arithmetic. A sum, difference or product is there where the
integer one has 64 bits; a quotient and a remainder are there together, unless the divisor is zero or the
quotient is the one that does not fit, and they are the only pair that divides toward zero. -/

namespace Dataflow

namespace ArithOp

/-- From `-2 ^ 63` up to `2 ^ 63 - 1`. -/
def InRange (n : Int) : Prop := -9223372036854775808 ≤ n ∧ n ≤ 9223372036854775807

theorem inRange_toInt (v : Int64) : InRange v.toInt := by
  have low := v.le_toInt
  have high := v.toInt_lt
  unfold InRange
  omega

theorem fit?_eq_some_iff {n : Int} {v : Int64} : fit? n = some v ↔ v.toInt = n := by
  unfold fit?
  constructor
  · intro fits
    split at fits
    next bounds =>
      rw [Int64.toInt_minValue, Int64.toInt_maxValue] at bounds
      cases fits
      exact Int64.toInt_ofInt_of_le bounds.1 (by omega)
    next => cases fits
  · rintro rfl
    rw [if_pos ⟨v.minValue_le_toInt, v.toInt_le⟩, Int64.ofInt_toInt]

theorem exists_toInt_iff {n : Int} : (∃ v : Int64, v.toInt = n) ↔ InRange n := by
  constructor
  · rintro ⟨v, rfl⟩
    exact inRange_toInt v
  · rintro ⟨low, high⟩
    exact ⟨.ofInt n, Int64.toInt_ofInt_of_le low (by omega)⟩

/-- What an operation gives whose result over the integers is `exact`. -/
structure Checked (result : Option Int64) (exact : Int) : Prop where
  present_iff : (∃ v, result = some v) ↔ InRange exact
  value : ∀ v, result = some v → v.toInt = exact

theorem checked_fit? (n : Int) : Checked (fit? n) n where
  present_iff := by simp only [fit?_eq_some_iff, exists_toInt_iff]
  value _ := fit?_eq_some_iff.mp

/-- Division toward zero: the quotient `q` leaves the remainder `m`, which is on the side of the dividend. -/
structure Truncates (l r q m : Int) : Prop where
  recompose : l = q * r + m
  small : m.natAbs < r.natAbs
  side : m = 0 ∨ m.sign = l.sign

namespace Truncates

variable {l r q m q' m' : Int}

theorem divisor_ne_zero (split : Truncates l r q m) : r ≠ 0 := by
  rintro rfl
  exact Nat.not_lt_zero _ split.small

theorem nonneg (split : Truncates l r q m) (dividend : 0 ≤ l) : 0 ≤ m := by
  rcases split.side with zero | same
  · omega
  · rwa [← Int.sign_nonneg_iff, same, Int.sign_nonneg_iff]

theorem nonpos (split : Truncates l r q m) (dividend : l ≤ 0) : m ≤ 0 := by
  rcases split.side with zero | same
  · omega
  · rwa [← Int.sign_nonpos_iff, same, Int.sign_nonpos_iff]

/-- Two remainders are on the same side, so they differ by less than the divisor. -/
theorem remainder_unique (first : Truncates l r q m) (second : Truncates l r q' m') : m = m' := by
  have multiple : r ∣ m - m' := by
    refine ⟨q' - q, ?_⟩
    have equal := first.recompose.symm.trans second.recompose
    rw [Int.mul_comm, Int.sub_mul]
    omega
  have close : (m - m').natAbs < r.natAbs := by
    have small := first.small
    have small' := second.small
    rcases Int.le_total 0 l with dividend | dividend
    · have above := first.nonneg dividend
      have above' := second.nonneg dividend
      omega
    · have below := first.nonpos dividend
      have below' := second.nonpos dividend
      omega
  have vanishes := Int.eq_zero_of_dvd_of_natAbs_lt_natAbs multiple close
  omega

theorem quotient_unique (first : Truncates l r q m) (second : Truncates l r q' m') : q = q' := by
  have equal := first.recompose.symm.trans second.recompose
  rw [remainder_unique first second] at equal
  exact Int.eq_of_mul_eq_mul_right first.divisor_ne_zero (by omega)

end Truncates

theorem truncates_tdiv {l r : Int} (divisor : r ≠ 0) : Truncates l r (l.tdiv r) (l.tmod r) where
  recompose := (Int.tdiv_mul_add_tmod l r).symm
  small := by
    rw [Int.natAbs_tmod]
    exact Nat.mod_lt _ (Int.natAbs_pos.mpr divisor)
  side := by
    by_cases divides : r ∣ l
    · exact .inl (Int.tmod_eq_zero_of_dvd divides)
    · exact .inr (by rw [Int.sign_tmod, if_neg divides])

theorem truncates_iff {l r q m : Int} :
    Truncates l r q m ↔ r ≠ 0 ∧ q = l.tdiv r ∧ m = l.tmod r := by
  constructor
  · intro split
    have divisor := split.divisor_ne_zero
    exact ⟨divisor, split.quotient_unique (truncates_tdiv divisor),
      split.remainder_unique (truncates_tdiv divisor)⟩
  · rintro ⟨divisor, rfl, rfl⟩
    exact truncates_tdiv divisor

/-- The operands with a quotient: only that of the least integer by `-1` does not fit. -/
def Divisible (l r : Int) : Prop := r ≠ 0 ∧ ¬(l = -9223372036854775808 ∧ r = -1)

theorem inRange_tdiv_iff {l r : Int} (dividend : InRange l) (divisor : r ≠ 0) :
    InRange (l.tdiv r) ↔ Divisible l r := by
  unfold InRange Divisible at *
  by_cases one : r = 1
  · subst one
    rw [Int.tdiv_one]
    omega
  by_cases minusOne : r = -1
  · subst minusOne
    rw [Int.tdiv_neg, Int.tdiv_one]
    omega
  -- any other divisor at least halves the dividend
  have halved : (l.tdiv r).natAbs ≤ l.natAbs / 2 := by
    rw [Int.natAbs_tdiv]
    exact Nat.div_le_div_left (by omega) (by decide)
  omega

theorem inRange_tmod (l : Int) {r : Int} (divisor : r ≠ 0) (bounded : InRange r) :
    InRange (l.tmod r) := by
  have small := (truncates_tdiv (l := l) divisor).small
  unfold InRange at *
  omega

section Division

variable {l r q m : Int64}

theorem div_eq_some_iff :
    div.eval l r = some q ↔ r.toInt ≠ 0 ∧ q.toInt = l.toInt.tdiv r.toInt := by
  have zero : r = 0 ↔ r.toInt = 0 := by rw [← Int64.toInt_inj, Int64.toInt_zero]
  by_cases divisor : r = 0
  · simp [eval, divisor]
  · simp [eval, divisor, fit?_eq_some_iff, mt zero.mpr divisor]

/-- A remainder needs the quotient, though it would fit without it. -/
theorem rem_eq_some_iff :
    rem.eval l r = some m ↔ (∃ q, div.eval l r = some q) ∧ m.toInt = l.toInt.tmod r.toInt := by
  by_cases divisor : r = 0
  · simp [eval, divisor]
  · simp [eval, divisor, Option.bind_eq_some_iff, fit?_eq_some_iff]

theorem div_present_iff : (∃ q, div.eval l r = some q) ↔ Divisible l.toInt r.toInt := by
  simp only [div_eq_some_iff, exists_and_left, exists_toInt_iff]
  constructor
  · rintro ⟨divisor, fits⟩
    exact (inRange_tdiv_iff (inRange_toInt l) divisor).mp fits
  · intro divisible
    exact ⟨divisible.1, (inRange_tdiv_iff (inRange_toInt l) divisible.1).mpr divisible⟩

theorem rem_present_iff : (∃ m, rem.eval l r = some m) ↔ Divisible l.toInt r.toInt := by
  simp only [rem_eq_some_iff, exists_and_left, exists_toInt_iff, div_present_iff]
  constructor
  · exact And.left
  · intro divisible
    exact ⟨divisible, inRange_tmod _ divisible.1 (inRange_toInt r)⟩

/-- The laws of division leave one quotient and one remainder, and they are the ones computed. -/
theorem div_rem_eq_some_iff : div.eval l r = some q ∧ rem.eval l r = some m ↔
    Truncates l.toInt r.toInt q.toInt m.toInt := by
  rw [truncates_iff, rem_eq_some_iff, div_eq_some_iff]
  constructor
  · rintro ⟨⟨divisor, quotient⟩, -, remainder⟩
    exact ⟨divisor, quotient, remainder⟩
  · rintro ⟨divisor, quotient, remainder⟩
    exact ⟨⟨divisor, quotient⟩, ⟨q, div_eq_some_iff.mpr ⟨divisor, quotient⟩⟩, remainder⟩

end Division

/-- Every operation on every pair of operands: when it has a result, and which. -/
theorem eval_exact (l r : Int64) :
    Checked (add.eval l r) (l.toInt + r.toInt) ∧
    Checked (sub.eval l r) (l.toInt - r.toInt) ∧
    Checked (mul.eval l r) (l.toInt * r.toInt) ∧
    ((∃ q, div.eval l r = some q) ↔ Divisible l.toInt r.toInt) ∧
    ((∃ m, rem.eval l r = some m) ↔ Divisible l.toInt r.toInt) ∧
    ∀ q m, div.eval l r = some q ∧ rem.eval l r = some m ↔
      Truncates l.toInt r.toInt q.toInt m.toInt :=
  ⟨checked_fit? _, checked_fit? _, checked_fit? _, div_present_iff, rem_present_iff,
    fun _ _ => div_rem_eq_some_iff⟩

example : div.eval (-7) 2 = some (-3) ∧ rem.eval (-7) 2 = some (-1) ∧
    div.eval Int64.minValue (-1) = none ∧ rem.eval Int64.minValue (-1) = none := by
  decide

end ArithOp

end Dataflow
