import BlockGossip.Proofs.Time.Order

/-!
# Which numbers of seconds are durations

A finite positive number of seconds is a duration exactly when it is below
2^64: from there up the whole seconds do not fit 64 bits, and below it no
rounding reaches the bound, for a number with a fraction is below 2^53.
-/

namespace BlockGossip

-- ---------------------------------------------------------------------------
-- Rounded quotients
-- ---------------------------------------------------------------------------

namespace Decimal

theorem roundQuotient_one (n : Nat) (tie : Tie) : roundQuotient n 1 tie = n := by
  have hrest : compare (2 * (n % 1)) 1 = .lt := Nat.compare_eq_lt.mpr (by omega)
  simp [roundQuotient, hrest]

theorem roundQuotient_le (n d : Nat) (tie : Tie) : roundQuotient n d tie ≤ n + 1 := by
  have hquotient : n / d ≤ n := Nat.div_le_self n d
  simp only [roundQuotient]
  split
  all_goals first | omega | split <;> omega

/-- The value is below 2^64 where the exponent field is below that of 2^64. -/
theorem Binary.ofBits_bounds {bits : UInt64} (h : bits.toNat < 2047 * 2 ^ 52) :
    (ofBits bits).significand < 2 ^ 53 ∧
      (bits.toNat < 1087 * 2 ^ 52 → (ofBits bits).exponent ≤ 11) ∧
      (1087 * 2 ^ 52 ≤ bits.toNat →
        2 ^ 52 ≤ (ofBits bits).significand ∧ 12 ≤ (ofBits bits).exponent) := by
  have hfield : bits.toNat / binade % 2048 = bits.toNat / 2 ^ 52 := by
    unfold binade
    omega
  have hfraction : bits.toNat % binade < 2 ^ 52 := Nat.mod_lt _ (by decide)
  have hbinade : binade = 2 ^ 52 := rfl
  simp only [ofBits, hfield]
  split
  · simp only
    omega
  · simp only [Int.ofNat_eq_natCast]
    omega

end Decimal

-- ---------------------------------------------------------------------------
-- Bits of finite positive numbers
-- ---------------------------------------------------------------------------

namespace Time

open Float.Model

variable {x : Time}

theorem not_isNaN_of_isFinite (h : x.isFinite = true) : x.isNaN = false := by
  have h : x.toModel.unpack.isFinite = true := h
  show x.toModel.unpack.isNaN = false
  cases hx : x.toModel.unpack <;> simp_all [UnpackedFloat.isFinite] <;> rfl

/-- A finite positive number has a clear sign bit and an exponent below the last. -/
theorem toBits_lt_of_isFinite (hfinite : x.isFinite = true) (hpos : 0.0 < x) :
    x.toBits.toNat < 2047 * 2 ^ 52 := by
  have hnan := not_isNaN_of_isFinite hfinite
  have hzero : value (0.0 : Time).toModel.unpack = 0 := by decide +kernel
  have hvalue : 0 < value x.toModel.unpack := by
    rw [← hzero]
    exact (lt_iff_value (by decide +kernel) hnan).mp hpos
  have hbits := value_unpack hnan
  have hcanonical := canonical_unpack x
  have hfinite : x.toModel.unpack.isFinite = true := hfinite
  have hlt : value x.toModel.unpack < 2047 * 2 ^ 52 := by
    revert hcanonical hfinite
    cases x.toModel.unpack with
    | finite s m e hm =>
      rintro ⟨hm, hlow, he, -⟩ -
      cases s <;> simp only [value, signOf, magnitude, UnpackedFloat.Sign.apply] <;> omega
    | zero s =>
      intro _ _
      cases s <;> decide
    | _ =>
      intro _ h
      cases h
  split at hbits <;> omega

theorem lt_iff_toBits {y : Time} (hx : x.isNaN = false) (hy : y.isNaN = false)
    (hxs : x.toBits.toNat < 2 ^ 63) (hys : y.toBits.toNat < 2 ^ 63) :
    x < y ↔ x.toBits.toNat < y.toBits.toNat := by
  rw [lt_iff_value hx hy, value_unpack hx, value_unpack hy, if_pos hxs, if_pos hys]
  exact Int.ofNat_lt

end Time

namespace Duration

/-- Two to the 64 seconds, the least number of seconds that is no duration. -/
def beyond : Time := 18446744073709551616.0

theorem beyond_toBits : beyond.toBits.toNat = 1087 * 2 ^ 52 := by decide +kernel

/-- A number of seconds below the bound, in nanoseconds; what is rounded is small. -/
theorem roundQuotient_lt {m : Nat} {e : Int} (hm : m < 2 ^ 53) (he : e ≤ 11) :
    Decimal.roundQuotient (m * Nat.pow 2 e.toNat * perSecond) (Nat.pow 2 (-e).toNat) .toEven <
      UInt64.size * perSecond := by
  have hsize : UInt64.size = 2 ^ 53 * 2 ^ 11 := by decide
  have hsecond : 0 < perSecond := by decide
  simp only [Nat.pow_eq]
  rcases Int.le_total 0 e with hwhole | hfraction
  · have hpow : 2 ^ e.toNat ≤ 2 ^ 11 := Nat.pow_le_pow_right (by decide) (by omega)
    have hzero : (-e).toNat = 0 := by omega
    rw [hzero, Nat.pow_zero, Decimal.roundQuotient_one, hsize]
    refine Nat.mul_lt_mul_of_pos_right ?_ hsecond
    exact Nat.mul_lt_mul_of_lt_of_le hm hpow (by decide)
  · have hzero : e.toNat = 0 := by omega
    rw [hzero, Nat.pow_zero, Nat.mul_one]
    refine Nat.lt_of_le_of_lt (Decimal.roundQuotient_le ..) ?_
    simp only [perSecond, UInt64.size]
    omega

/-- A number of seconds from the bound up, in nanoseconds; nothing is rounded. -/
theorem le_roundQuotient {m : Nat} {e : Int} (hm : 2 ^ 52 ≤ m) (he : 12 ≤ e) :
    UInt64.size * perSecond ≤
      Decimal.roundQuotient (m * Nat.pow 2 e.toNat * perSecond) (Nat.pow 2 (-e).toNat) .toEven := by
  have hsize : UInt64.size = 2 ^ 52 * 2 ^ 12 := by decide
  have hpow : 2 ^ 12 ≤ 2 ^ e.toNat := Nat.pow_le_pow_right (by decide) (by omega)
  have hzero : (-e).toNat = 0 := by omega
  simp only [Nat.pow_eq]
  rw [hzero, Nat.pow_zero, Decimal.roundQuotient_one, hsize]
  exact Nat.mul_le_mul_right _ (Nat.mul_le_mul hm hpow)

/-- A finite positive number of seconds is a duration unless it is too large. -/
theorem ofPositiveSeconds?_eq_none_iff {x : Float} (hfinite : x.isFinite = true)
    (hpos : 0.0 < x) : ofPositiveSeconds? x = none ↔ ¬x < beyond := by
  have hbits := Time.toBits_lt_of_isFinite hfinite hpos
  have hbeyond := beyond_toBits
  have hlt : x < beyond ↔ x.toBits.toNat < 1087 * 2 ^ 52 := by
    rw [← hbeyond]
    exact Time.lt_iff_toBits (Time.not_isNaN_of_isFinite hfinite) (by decide +kernel)
      (by omega) (by omega)
  obtain ⟨hsignificand, hshort, hlong⟩ := Decimal.Binary.ofBits_bounds hbits
  rw [hlt, ofPositiveSeconds?, ite_eq_right_iff]
  simp only [reduceCtorEq, imp_false, not_lt]
  constructor
  · intro hnone
    by_contra hbelow
    exact Nat.not_lt.mpr hnone (roundQuotient_lt hsignificand (hshort (by omega)))
  · intro habove
    obtain ⟨hm, he⟩ := hlong habove
    exact le_roundQuotient hm he

end Duration

end BlockGossip
