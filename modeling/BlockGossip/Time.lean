import BlockGossip.Decimal.Binary

/-!
# Times and durations

A time is a floating count of simulated seconds; a duration is a whole number
of nanoseconds. Times are ordered in two ways: by value, where NaN is neither
before nor after anything, and by rank, a total order in which minus zero
comes before zero and the two kinds of NaN at the two ends.
-/

namespace BlockGossip

/-- Simulated seconds. -/
abbrev Time := Float

namespace Time

/-- The later of two times; a NaN gives way to the other. -/
def later (a b : Time) : Time :=
  if a.isNaN then b else if b.isNaN then a else if a < b then b else a

/-- The smaller of two values; a NaN gives way to the other. -/
def smaller (a b : Float) : Float :=
  if a.isNaN then b else if b.isNaN then a else if b < a then b else a

/-- The place of a time in the total order. -/
def rank (t : Time) : Int :=
  let bits := t.toBits.toNat
  if bits < Decimal.signWeight then Int.ofNat bits
  else Int.ofNat Decimal.signWeight - 1 - Int.ofNat bits

theorem rank_injective {a b : Time} (h : rank a = rank b) : a.toBits = b.toBits := by
  apply UInt64.toNat_inj.mp
  unfold rank Decimal.signWeight at h
  by_cases ha : a.toBits.toNat < 9223372036854775808 <;>
    by_cases hb : b.toBits.toNat < 9223372036854775808 <;>
    simp only [ha, hb, if_true, if_false, Int.ofNat_eq_natCast] at h <;> omega

end Time

structure Duration where
  nanoseconds : Nat
deriving DecidableEq, Repr, Inhabited

namespace Duration

def perSecond : Nat := 1000000000

def ofSeconds (n : Nat) : Duration := ⟨n * perSecond⟩

def ofMilliseconds (n : Nat) : Duration := ⟨n * 1000000⟩

def seconds (d : Duration) : Nat := d.nanoseconds / perSecond

def subseconds (d : Duration) : Nat := d.nanoseconds % perSecond

/-- The duration in seconds: the whole seconds and the rest, each rounded, then
added. -/
def toSeconds (d : Duration) : Time :=
  Float.ofNat d.seconds + Float.ofNat d.subseconds / 1000000000.0

/-- The duration nearest to a finite positive number of seconds, ties to even;
none from 2^64 seconds up. -/
def ofPositiveSeconds? (x : Float) : Option Duration :=
  let b := Decimal.Binary.ofBits x.toBits
  let nanoseconds := Decimal.roundQuotient (b.significand * Nat.pow 2 b.exponent.toNat * perSecond)
    (Nat.pow 2 (-b.exponent).toNat) .toEven
  if nanoseconds < UInt64.size * perSecond then some ⟨nanoseconds⟩ else none

end Duration

end BlockGossip
