/-!
# Binary values and the decimals that stand for them

A finite binary64 value is m · 2^q with naturals m; which reals round to it is
then a comparison of naturals, without any floating arithmetic. A decimal
stands for the value exactly when it lies in that interval.
-/

namespace BlockGossip.Decimal

def signWeight : Nat := 9223372036854775808

def isNegative (x : Float) : Bool := signWeight ≤ x.toBits.toNat

/-- The number of fractions of one exponent, two to the 52. -/
def binade : Nat := 4503599627370496

/-- A finite non-negative binary64 value, significand · 2^exponent. -/
structure Binary where
  significand : Nat
  exponent : Int
  /-- The gap to the value below is half the gap to the value above. -/
  narrowBelow : Bool
deriving DecidableEq, Repr

/-- The magnitude that the bits of a finite value stand for; the sign bit is
ignored. NaN and the infinities have none: they are told apart before. -/
def Binary.ofBits (bits : UInt64) : Binary :=
  let field : Nat := (bits.toNat / binade) % 2048
  let fraction : Nat := bits.toNat % binade
  if field = 0 then ⟨fraction, -1074, false⟩
  else ⟨binade + fraction, Int.ofNat field - 1075, fraction == 0 && field > 1⟩

/-- The value digits · 10^exponent. -/
structure Scientific where
  digits : Nat
  exponent : Int
deriving DecidableEq, Repr

/-- Compares a · 10^i with b · 2^j. -/
def compareScaled (a : Nat) (i : Int) (b : Nat) (j : Int) : Ordering :=
  compare (a * Nat.pow 10 i.toNat * Nat.pow 2 (-j).toNat)
    (b * Nat.pow 2 j.toNat * Nat.pow 10 (-i).toNat)

/-- The decimal lies among the reals that round to the value: halfway to both
neighbours, the two ends included exactly when the significand is even. -/
def Binary.readsBack (x : Binary) (d : Scientific) : Bool :=
  let low := if x.narrowBelow then 4 * x.significand - 1 else 4 * x.significand - 2
  let high := 4 * x.significand + 2
  let closed := x.significand % 2 == 0
  let below := compareScaled d.digits d.exponent low (x.exponent - 2)
  let above := compareScaled d.digits d.exponent high (x.exponent - 2)
  (below == .gt || (closed && below == .eq)) && (above == .lt || (closed && above == .eq))

/-- Which of two equally close neighbours is taken. -/
inductive Tie where
  | toEven
  | upward
deriving DecidableEq, Repr

def roundQuotient (numerator denominator : Nat) (tie : Tie) : Nat :=
  let whole := numerator / denominator
  match compare (2 * (numerator % denominator)) denominator, tie with
  | .lt, _ => whole
  | .gt, _ => whole + 1
  | .eq, .upward => whole + 1
  | .eq, .toEven => if whole % 2 = 0 then whole else whole + 1

end BlockGossip.Decimal
