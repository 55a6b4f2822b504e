import BlockGossip.Decimal.Shortest
import BlockGossip.Text.Numeral

/-!
# Floating values as plain text

How messages show a floating value: the fewest digits that read back, an
exact tie upwards, written positionally at any size and without a point when
there is no fraction. The other direction reads the texts that settings may
hold and rounds once, correctly.
-/

namespace BlockGossip.Decimal

open Numeral (Digit)

/-- Digits with the point placed so that the exponent is gone. -/
def positional (d : Scientific) : String :=
  let ds := (Numeral.digits d.digits).map Numeral.digitChar
  let places := (-d.exponent).toNat
  if 0 ≤ d.exponent then String.ofList (ds ++ List.replicate d.exponent.toNat '0')
  else if places < ds.length then
    String.ofList (ds.take (ds.length - places) ++ '.' :: ds.drop (ds.length - places))
  else String.ofList ('0' :: '.' :: List.replicate (places - ds.length) '0' ++ ds)

/-- A floating value as a message shows it. -/
def plain (x : Float) : String :=
  if x.isNaN then "NaN"
  else
    let magnitude :=
      if x.isInf then "inf" else positional ((Binary.ofBits x.toBits).shortest .upward)
    if isNegative x then "-" ++ magnitude else magnitude

/-- The nearest floating value to digits · 10^exponent. The two early answers
keep the powers of ten small: beyond them the value is certainly too large, or
rounds to zero. -/
def nearest (digits : List Digit) (exponent : Int) : Float :=
  let significand := Numeral.value digits
  let leading : Int := Int.ofNat (Numeral.digits significand).length + exponent
  if significand = 0 then 0.0
  else if leading > 310 then 1.0 / 0.0
  else if leading < -330 then 0.0
  else Float.ofScientific significand (exponent < 0) exponent.natAbs

/-- Digits before and after an optional point, at least one digit in all. -/
def mantissa? (cs : List Char) : Option (List Digit × List Digit) := do
  let whole := cs.takeWhile (· != '.')
  let fraction := (cs.dropWhile (· != '.')).drop 1
  if whole.isEmpty && fraction.isEmpty then none
  else
    let ws ← whole.mapM Numeral.digit?
    let fs ← fraction.mapM Numeral.digit?
    pure (ws, fs)

def exponent? : List Char → Option Int
  | '-' :: cs => (Numeral.digits? cs).map fun ds => -Int.ofNat (Numeral.value ds)
  | '+' :: cs => (Numeral.digits? cs).map fun ds => Int.ofNat (Numeral.value ds)
  | cs => (Numeral.digits? cs).map fun ds => Int.ofNat (Numeral.value ds)

/-- A value without its sign: a word for infinity or for no number, or digits
with an optional point and an optional exponent. -/
def magnitude? (cs : List Char) : Option Float :=
  let word := String.ofList (cs.map Char.toLower)
  if word = "inf" ∨ word = "infinity" then some (1.0 / 0.0)
  else if word = "nan" then some (0.0 / 0.0)
  else do
    let isMark (c : Char) : Bool := c == 'e' || c == 'E'
    let (whole, fraction) ← mantissa? (cs.takeWhile fun c => !isMark c)
    let e ← match cs.dropWhile fun c => !isMark c with
      | [] => some 0
      | _ :: rest => exponent? rest
    pure (nearest (whole ++ fraction) (e - Int.ofNat fraction.length))

def read? (s : String) : Option Float :=
  match s.toList with
  | '-' :: cs => (magnitude? cs).map (- ·)
  | '+' :: cs => magnitude? cs
  | cs => magnitude? cs

end BlockGossip.Decimal
