import BlockGossip.Decimal.Binary

/-!
# The fewest digits that read back

Among the decimals that stand for a binary value, the one with the fewest
digits; of two with equally many the nearer; of two equally near the one the
tie rule names. The search goes from the coarsest grid of decimals to finer
ones and tests the value's two neighbours on each, so it never tries a finer
grid while a coarser one holds an answer. What this module does not claim is
that seventeen digits always suffice: where no grid answers, the exact decimal
expansion is returned, which stands for the value as well.
-/

namespace BlockGossip.Decimal

def Binary.floorOn (x : Binary) (e : Int) : Nat :=
  (x.significand * Nat.pow 2 x.exponent.toNat * Nat.pow 10 (-e).toNat) /
    (Nat.pow 2 (-x.exponent).toNat * Nat.pow 10 e.toNat)

/-- The least k with value < 10^k, for a value that is not zero: a start from
the binary logarithm, corrected upwards by comparison. -/
def Binary.scale (x : Binary) : Int :=
  let bits : Int := x.exponent + x.significand.log2
  let start : Int := bits * 30103 / 100000 - 1
  let isBelow (k : Int) : Bool := compareScaled 1 k x.significand x.exponent == .gt
  if isBelow start then start
  else if isBelow (start + 1) then start + 1
  else if isBelow (start + 2) then start + 2
  else start + 3

/-- Of the value's two neighbours on the grid 10^e, the one that stands for it. -/
def Binary.onGrid? (x : Binary) (tie : Tie) (e : Int) : Option Scientific :=
  let low : Scientific := ⟨x.floorOn e, e⟩
  let high : Scientific := ⟨x.floorOn e + 1, e⟩
  match x.readsBack low, x.readsBack high with
  | false, false => none
  | true, false => some low
  | false, true => some high
  | true, true =>
    match compareScaled (2 * low.digits + 1) e (2 * x.significand) x.exponent with
    | .gt => some low
    | .lt => some high
    | .eq =>
      match tie with
      | .upward => some high
      | .toEven => if low.digits % 2 = 0 then some low else some high

def Binary.exact (x : Binary) : Scientific :=
  if 0 ≤ x.exponent then ⟨x.significand * Nat.pow 2 x.exponent.toNat, 0⟩
  else ⟨x.significand * Nat.pow 5 (-x.exponent).toNat, x.exponent⟩

/-- Moves trailing zeros of the digits into the exponent; the fuel is at least
the number of digits. -/
def Scientific.strip : Nat → Scientific → Scientific
  | 0, d => d
  | fuel + 1, d =>
    if d.digits ≠ 0 ∧ d.digits % 10 = 0 then strip fuel ⟨d.digits / 10, d.exponent + 1⟩ else d

/-- The fewest digits that read back, without trailing zeros. -/
def Binary.shortest (x : Binary) (tie : Tie) : Scientific :=
  if x.significand = 0 then ⟨0, 0⟩
  else
    let k := x.scale
    let found := (List.range 17).findSome? fun n => x.onGrid? tie (k - 1 - Int.ofNat n)
    (found.getD x.exact).strip 1100

end BlockGossip.Decimal
