import BlockGossip.Decimal.Shortest
import BlockGossip.Json.Node

/-!
# What numbers mean

An integer is a number without point and exponent that fits 64 bits. As a
floating value every number is taken by one rule, which is quick and not
always correctly rounded: the leading digits that fit 64 bits are taken as a
whole number, and that number is scaled by a power of ten with one
multiplication or division. Writing goes the other way with the fewest digits
that read back, so a written value is read again only where the two rules
agree; this module does not claim that they always do.
-/

namespace BlockGossip.Json

open Numeral (Digit)

-- ---------------------------------------------------------------------------
-- Integers
-- ---------------------------------------------------------------------------

/-- The integer a number stands for: at least -2^63 and below 2^64, and not
the floating minus zero. -/
def Number.int? (n : Number) : Option Int :=
  if n.fraction ≠ [] ∨ n.exponent.isSome then none
  else
    let value := Numeral.value n.whole
    if n.negative then
      if 0 < value ∧ value ≤ 9223372036854775808 then some (-Int.ofNat value) else none
    else if value < UInt64.size then some (Int.ofNat value) else none

def Number.ofInt (i : Int) : Number := ⟨i < 0, Numeral.digits i.natAbs, [], none⟩

/-- Integers of the 64-bit ranges read back. -/
theorem Number.int?_ofInt {i : Int} (low : -9223372036854775808 ≤ i) (high : i < UInt64.size) :
    (Number.ofInt i).int? = some i := by
  simp only [int?, ofInt, Numeral.value_digits, ne_eq, not_true_eq_false, Option.isSome_none,
    Bool.false_eq_true, or_self, if_false, decide_eq_true_eq]
  split
  · rw [if_pos (by omega)]
    exact congrArg some (by rw [Int.ofNat_eq_natCast]; omega)
  · rw [if_pos (by omega)]
    exact congrArg some (by rw [Int.ofNat_eq_natCast]; omega)

-- ---------------------------------------------------------------------------
-- Floating values
-- ---------------------------------------------------------------------------

def powerOfTen (k : Nat) : Float := Float.ofScientific 1 false k

/-- Appends digits to a significand while it fits 64 bits, and counts the
digits left over. -/
def gather (significand : Nat) : List Digit → Nat × Nat
  | [] => (significand, 0)
  | d :: ds =>
    if 10 * significand + d.val < UInt64.size then gather (10 * significand + d.val) ds
    else (significand, ds.length + 1)

/-- Scales by a power of ten; too large a result is none, too small a one zero. -/
def scaled (x : Float) (e : Int) : Option Float :=
  if e.natAbs ≤ 308 then
    if 0 ≤ e then
      let y := x * powerOfTen e.natAbs
      if y.isInf then none else some y
    else some (x / powerOfTen e.natAbs)
  else if x == 0.0 then some x
  else if 0 < e then none
  else scaled (x / powerOfTen 308) (e + 308)
termination_by e.natAbs

/-- The magnitude of significand · 10^e; an exponent numeral of more than 31
bits decides by its sign alone. -/
def magnitude (significand : Nat) (e : Int) : Option (Bool × List Digit) → Option Float
  | none => scaled (Float.ofNat significand) e
  | some (negative, ds) =>
    if 2147483648 ≤ Numeral.value ds then
      if significand ≠ 0 ∧ !negative then none else some 0.0
    else
      let shift := Int.ofNat (Numeral.value ds)
      scaled (Float.ofNat significand) (if negative then e - shift else e + shift)

/-- The floating value a number stands for; none where it is too large. -/
def Number.float? (n : Number) : Option Float :=
  let (whole, dropped) := gather 0 n.whole
  let (significand, left) := gather whole n.fraction
  let e := Int.ofNat dropped - Int.ofNat (n.fraction.length - left)
  (magnitude significand e n.exponent).map fun x => if n.negative then -x else x

/-- How documents lay out digits: the exponent of the leading digit decides,
from `plainFrom` to `plainTo` positionally with at least one digit behind the
point, beyond with a signed exponent and no point behind a single digit. -/
structure Layout where
  plainFrom : Int
  plainTo : Int

def floatLayout : Layout := ⟨-5, 15⟩

def Layout.number (layout : Layout) (negative : Bool) (d : Decimal.Scientific) : Number :=
  let ds := Numeral.digits d.digits
  let leading := Int.ofNat ds.length - 1 + d.exponent
  let places := (-d.exponent).toNat
  if layout.plainFrom ≤ leading ∧ leading ≤ layout.plainTo then
    if 0 ≤ d.exponent then ⟨negative, ds ++ List.replicate d.exponent.toNat 0, [0], none⟩
    else if places < ds.length then
      ⟨negative, ds.take (ds.length - places), ds.drop (ds.length - places), none⟩
    else ⟨negative, [0], List.replicate (places - ds.length) 0 ++ ds, none⟩
  else ⟨negative, ds.take 1, ds.drop 1, some (leading < 0, Numeral.digits leading.natAbs)⟩

/-- The number of a finite floating value: the fewest digits that read back,
ties to even. NaN and the infinities have none. -/
def Number.ofFloat? (x : Float) : Option Number :=
  if x.isNaN || x.isInf then none
  else
    some (floatLayout.number (Decimal.isNegative x)
      ((Decimal.Binary.ofBits x.toBits).shortest .toEven))

end BlockGossip.Json
