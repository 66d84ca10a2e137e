/-!
Decimal literals and double precision. A literal can be judged by its exact value, or by the product
that a reader forms who keeps 64 bits of its digits; the two differ for long literals close to the
largest double.
-/

namespace Dataflow

/-- A number as it is written: digits before and after the point, and an exponent. -/
structure Decimal where
  negative : Bool
  whole : List Nat
  fraction : List Nat
  exponent : Option Int
  deriving DecidableEq, Repr, Inhabited

namespace Decimal

def natOfDigits (ds : List Nat) : Nat := ds.foldl (fun n d => 10 * n + d) 0

def digitsOf (n : Nat) : List Nat := (Nat.toDigits 10 n).map fun c => c.toNat - 48

def ofInt (n : Int) : Decimal := ⟨decide (n < 0), digitsOf n.natAbs, [], none⟩

def text (x : Decimal) : String :=
  let plain (ds : List Nat) := String.join (ds.map Nat.repr)
  (if x.negative then "-" else "") ++ plain x.whole ++
    (if x.fraction.isEmpty then "" else "." ++ plain x.fraction) ++
    (match x.exponent with
    | none => ""
    | some e => "e" ++ toString e)

/-- Magnitudes from here on round to infinity in double precision. -/
def doubleLimit : Nat := Nat.pow 2 1024 - Nat.pow 2 970

/-- Whether `n · 10 ^ exponent` reaches the limit. The number of digits decides unless it is close. -/
def reachesLimit (n : Nat) (exponent : Int) : Bool :=
  let size := exponent + (Nat.toDigits 10 n).length
  if n = 0 || decide (size < 300) then false
  else if 400 < size then true
  else if 0 ≤ exponent then decide (doubleLimit ≤ n * Nat.pow 10 exponent.toNat)
  else decide (doubleLimit * Nat.pow 10 (-exponent).toNat ≤ n)

/-- Whether the double nearest to the exact value is infinite. -/
def roundsToInfinity (x : Decimal) : Bool :=
  reachesLimit (natOfDigits (x.whole ++ x.fraction)) (x.exponent.getD 0 - x.fraction.length)

/-- Appends digits to a number as long as it fits 64 bits, and counts the digits left out. -/
def keep (n : Nat) : List Nat → Nat × Nat
  | [] => (n, 0)
  | d :: rest => if 10 * n + d < UInt64.size then keep (10 * n + d) rest else (n, rest.length + 1)

/-- The double nearest to a natural number, the even one of two; below the limit it is finite. -/
def nearestDouble (n : Nat) : Nat :=
  let unit := Nat.pow 2 (n.log2 - 52)
  let below := n / unit
  let rest := n % unit
  if unit < 2 * rest || (2 * rest = unit && below % 2 = 1) then (below + 1) * unit else below * unit

/-- Whether a reader overflows who multiplies the double nearest to the digits it keeps by the double
nearest to the power of ten. Digits left out before the point raise the exponent, and only digits kept
after it lower it. -/
def overflows (x : Decimal) : Bool :=
  let (whole, wholeLeft) := keep 0 x.whole
  let (kept, fractionLeft) := keep whole x.fraction
  let exponent : Int := x.exponent.getD 0 + wholeLeft + fractionLeft - x.fraction.length
  if kept = 0 || decide (exponent < 0) then false
  else if 308 < exponent then true
  else decide (doubleLimit ≤ nearestDouble kept * nearestDouble (Nat.pow 10 exponent.toNat))

end Decimal

end Dataflow
